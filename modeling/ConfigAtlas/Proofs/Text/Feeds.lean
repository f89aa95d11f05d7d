import Mathlib.Data.List.Forall2
import ConfigAtlas.Proofs.Text.Positions

/-!
# Texts with the same line feeds

Where other characters are put in the places of old ones and no line feed comes or goes, every
position stays on its line, and positions outside the place keep their columns.
-/

namespace ConfigAtlas

namespace Text

/-- One for one other characters, but line feeds in the same places. -/
def SameFeeds (s t : List Char) : Prop := List.Forall₂ (fun c d => c = '\n' ↔ d = '\n') s t

namespace SameFeeds

theorem refl (s : List Char) : SameFeeds s s := List.forall₂_same.mpr fun _ _ => Iff.rfl

variable {s t : List Char}

theorem append (h : SameFeeds s t) {u v : List Char} (h' : SameFeeds u v) :
    SameFeeds (s ++ u) (t ++ v) := List.rel_append h h'

theorem take (h : SameFeeds s t) (n : Nat) : SameFeeds (s.take n) (t.take n) :=
  List.forall₂_take n h

theorem length_eq (h : SameFeeds s t) : s.length = t.length := List.Forall₂.length_eq h

theorem count_eq (h : SameFeeds s t) : s.count '\n' = t.count '\n' := by
  induction h with
  | nil => rfl
  | cons hcd _ ih => simp only [List.count_cons, ih, beq_iff_eq, hcd]

theorem contains_eq (h : SameFeeds s t) : s.contains '\n' = t.contains '\n' := by
  have hcount := h.count_eq
  rw [Bool.eq_iff_iff, List.contains_iff_mem, List.contains_iff_mem, ← List.count_pos_iff,
    ← List.count_pos_iff, hcount]

theorem length_firstLine_eq (h : SameFeeds s t) : (firstLine s).length = (firstLine t).length := by
  induction h with
  | nil => rfl
  | @cons c d _ _ hcd _ ih =>
    by_cases hc : c = '\n'
    · rw [hc, hcd.mp hc]
      rfl
    · have hd : d ≠ '\n' := mt hcd.mpr hc
      rw [firstLine, firstLine, List.takeWhile_cons_of_pos (by simpa using hc),
        List.takeWhile_cons_of_pos (by simpa using hd), List.length_cons, List.length_cons]
      exact congrArg (· + 1) ih

theorem length_lastLine_eq (h : SameFeeds s t) : (lastLine s).length = (lastLine t).length := by
  have hreverse : SameFeeds s.reverse t.reverse := List.forall₂_reverse_iff.mpr h
  rw [lastLine, lastLine, List.length_reverse, List.length_reverse]
  exact hreverse.length_firstLine_eq

theorem number_lineAt_eq (h : SameFeeds s t) (position : Nat) :
    (lineAt s position).number = (lineAt t position).number := by
  rw [lineAt, lineAt, (h.take position).count_eq]

theorem columnAt_eq (h : SameFeeds s t) (position : Nat) :
    columnAt s position = columnAt t position := (h.take position).length_lastLine_eq

end SameFeeds

theorem dropReturn_append (a : List Char) {b : List Char} (hb : b ≠ []) :
    dropReturn (a ++ b) = a ++ dropReturn b := by
  rw [dropReturn, List.getLast?_append_of_ne_nil a hb, dropReturn]
  split
  · exact List.dropLast_append_of_ne_nil hb
  · rfl

theorem length_dropReturn_lastLine {s t : List Char} (h : SameFeeds s t) {c : Char}
    (hc : c ≠ '\n') (u v : List Char) :
    (dropReturn (lastLine (s ++ c :: u) ++ v)).length =
      (dropReturn (lastLine (t ++ c :: u) ++ v)).length := by
  by_cases hu : '\n' ∈ u
  · obtain ⟨row, rest, rfl, -⟩ := List.eq_append_cons_of_mem hu
    have hlast : ∀ w : List Char, lastLine (w ++ c :: (row ++ '\n' :: rest)) = lastLine rest := by
      intro w
      rw [← List.cons_append, ← List.append_assoc]
      exact lastLine_append_feed _ rest
    rw [hlast, hlast]
  · have hline : '\n' ∉ c :: u := by
      rw [List.mem_cons, not_or]
      exact ⟨hc.symm, hu⟩
    have hne : c :: u ++ v ≠ [] := List.cons_ne_nil _ _
    rw [lastLine_append s hline, lastLine_append t hline, List.append_assoc, List.append_assoc,
      dropReturn_append _ hne, dropReturn_append _ hne, List.length_append, List.length_append,
      h.length_lastLine_eq]

end Text

namespace LineTable

open Text (SameFeeds)

theorem column_in_front {front : List Char} {c : Char} (hc : c ≠ '\n') {position : Nat}
    (h : position ≤ front.length) (x y : List Char) :
    (ofContent (front ++ c :: x)).column position =
      (ofContent (front ++ c :: y)).column position := by
  have hle : ∀ z, position ≤ (front ++ c :: z).length := by
    intro z
    rw [List.length_append]
    omega
  have htake : ∀ z, (front ++ c :: z).take position = front.take position :=
    fun z => List.take_append_of_le_length h
  have hdrop : ∀ z, (front ++ c :: z).drop position = front.drop position ++ c :: z :=
    fun z => List.drop_append_of_le_length h
  have hcolumn : Text.columnAt (front ++ c :: x) position =
      Text.columnAt (front ++ c :: y) position := by
    rw [Text.columnAt, Text.columnAt, htake, htake]
  -- Only at a line feed does the column depend on the line, and that is all in front.
  cases hnext : front.drop position with
  | nil =>
    simp only [hnext, List.nil_append] at hdrop
    rw [column_ofContent_of_ne (hle x) (hdrop x) hc, column_ofContent_of_ne (hle y) (hdrop y) hc,
      hcolumn]
  | cons d rest =>
    simp only [hnext, List.cons_append] at hdrop
    by_cases hd : d = '\n'
    · have htext : (Text.lineAt (front ++ c :: x) position).text =
          (Text.lineAt (front ++ c :: y) position).text := by
        rw [Text.lineAt, Text.lineAt, htake, htake, hdrop, hdrop, hd, Text.firstLine_feed,
          Text.firstLine_feed]
      rw [column_ofContent (hle x), column_ofContent (hle y), hcolumn, htext]
    · rw [column_ofContent_of_ne (hle x) (hdrop x) hd, column_ofContent_of_ne (hle y) (hdrop y) hd,
        hcolumn]

theorem column_behind {s t : List Char} (h : SameFeeds s t) {c : Char} (hc : c ≠ '\n')
    (after : List Char) {position : Nat} (hbehind : s.length < position)
    (hle : position ≤ (s ++ c :: after).length) :
    (ofContent (s ++ c :: after)).column position =
      (ofContent (t ++ c :: after)).column position := by
  obtain ⟨n, rfl⟩ : ∃ n, position = s.length + (n + 1) := ⟨position - s.length - 1, by omega⟩
  have hwhole : SameFeeds (s ++ c :: after) (t ++ c :: after) := h.append (SameFeeds.refl _)
  have htake : ∀ w : List Char,
      (w ++ c :: after).take (w.length + (n + 1)) = w ++ c :: after.take n := by
    intro w
    rw [List.take_length_add_append, List.take_succ_cons]
  have hdrop : ∀ w : List Char, (w ++ c :: after).drop (w.length + (n + 1)) = after.drop n := by
    intro w
    rw [List.drop_length_add_append, List.drop_succ_cons]
  have htext : (Text.lineAt (s ++ c :: after) (s.length + (n + 1))).text.length =
      (Text.lineAt (t ++ c :: after) (s.length + (n + 1))).text.length := by
    have hline := Text.length_dropReturn_lastLine h hc (after.take n)
      (Text.firstLine (after.drop n))
    rw [Text.lineAt, Text.lineAt, htake s, hdrop s, h.length_eq, htake t, hdrop t]
    exact hline
  rw [column_ofContent hle, column_ofContent (hwhole.length_eq ▸ hle), hwhole.columnAt_eq, htext]

end LineTable

end ConfigAtlas
