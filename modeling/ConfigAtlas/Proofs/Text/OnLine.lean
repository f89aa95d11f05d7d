import ConfigAtlas.Proofs.Text.Part
import ConfigAtlas.Proofs.Text.Positions

/-! # Pieces on the line of an earlier position -/

namespace ConfigAtlas

namespace Text

/-- No line ends between two positions. -/
def SameLine (t : List Char) (i j : Nat) : Prop := '\n' ∉ (t.take j).drop i

instance (t : List Char) (i j : Nat) : Decidable (SameLine t i j) :=
  inferInstanceAs (Decidable ('\n' ∉ (t.take j).drop i))

theorem number_lineAt_eq_iff (t : List Char) {i j : Nat} (h : i ≤ j) :
    (lineAt t j).number = (lineAt t i).number ↔ SameLine t i j := by
  rw [SameLine, ← List.count_eq_zero, lineAt, lineAt, Lists.take_append_between t h,
    List.count_append, ← Lists.take_append_between t h]
  simp only
  omega

theorem SameLine.mono {t : List Char} {i j k : Nat} (h : SameLine t i k) (hj : j ≤ k) :
    SameLine t i j := by
  intro hmem
  apply h
  apply List.Sublist.mem hmem
  have htake : t.take j = (t.take k).take j := by rw [List.take_take, Nat.min_eq_left hj]
  rw [htake]
  exact (List.take_sublist j _).drop i

theorem SameLine.later {t : List Char} {i j k : Nat} (h : SameLine t i k) (hj : i ≤ j) :
    SameLine t j k := by
  intro hmem
  apply h
  apply List.Sublist.mem hmem
  have hdrop : (t.take k).drop j = ((t.take k).drop i).drop (j - i) := by
    rw [List.drop_drop, Nat.add_sub_cancel' hj]
  rw [hdrop]
  exact List.drop_sublist _ _

theorem SameLine.behind {t s rest : List Char} {i j : Nat} (h : SameLine t i j)
    (hs : '\n' ∉ s) (hdrop : t.drop j = s ++ rest) : SameLine t i (j + s.length) := by
  rw [SameLine, List.take_add, hdrop, List.take_left, List.drop_append, List.mem_append]
  rintro (hmem | hmem)
  · exact h hmem
  · exact hs (List.mem_of_mem_drop hmem)

theorem lastLine_take_of_sameLine {t : List Char} {i j : Nat} (hij : i ≤ j)
    (h : SameLine t i j) : lastLine (t.take j) = lastLine (t.take i) ++ (t.take j).drop i := by
  rw [Lists.take_append_between t hij, lastLine_append _ h, ← Lists.take_append_between t hij]

theorem columnAt_of_sameLine {t : List Char} {i j : Nat} (hij : i ≤ j) (hj : j ≤ t.length)
    (h : SameLine t i j) : columnAt t j = columnAt t i + (j - i) := by
  rw [columnAt, lastLine_take_of_sameLine hij h, List.length_append, List.length_drop,
    List.length_take, Nat.min_eq_left hj, columnAt]

theorem text_lineAt_of_sameLine {t : List Char} {i j : Nat} (hij : i ≤ j) (h : SameLine t i j) :
    (lineAt t j).text = (lineAt t i).text := by
  have hdrop : t.drop i = (t.take j).drop i ++ t.drop j := by
    apply List.append_cancel_left
    rw [List.take_append_drop i t, ← List.append_assoc, ← Lists.take_append_between t hij,
      List.take_append_drop]
  rw [lineAt, lineAt, lastLine_take_of_sameLine hij h, hdrop, firstLine_append h,
    List.append_assoc]

theorem prefix_dropReturn {u v : List Char} (h : v = [] → u.getLast? ≠ some '\r') :
    u <+: dropReturn (u ++ v) := by
  by_cases hv : v = []
  · have heq : dropReturn (u ++ v) = u := by
      rw [hv, List.append_nil, dropReturn, if_neg (h hv)]
    exact ⟨[], by rw [heq, List.append_nil]⟩
  · rw [dropReturn]
    split
    · rw [List.dropLast_append_of_ne_nil hv]
      exact List.prefix_append u _
    · exact List.prefix_append u v

end Text

theorem LineTable.span_of_sameLine {content : List Char} {start : Nat} {p : Piece} {c : Char}
    {rest : List Char} (hstart : start ≤ p.start) (hline : Text.SameLine content start p.start)
    (hnext : content.drop p.start = c :: rest) (hc : c ≠ '\n') :
    (LineTable.ofContent content).span p =
      Piece.span ⟨Text.columnAt content start + (p.start - start), p.text⟩ := by
  have hle : p.start ≤ content.length := Lists.le_length_of_drop hnext
  rw [LineTable.span, LineTable.column_ofContent_of_ne hle hnext hc,
    Text.columnAt_of_sameLine hstart hle hline, Piece.span]

namespace Piece

/-- The line of a piece does not end in it: it ends in no carriage return, or its line goes on. -/
def Solid (p : Piece) (t : List Char) : Prop :=
  p.text.getLast? ≠ some '\r' ∨ Text.firstLine (t.drop p.stop) ≠ []

theorem drop_start {t : List Char} {p : Piece} (hp : p.Within t) :
    t.drop p.start = p.text ++ t.drop p.stop := by
  obtain ⟨-, after, hafter⟩ := hp
  have hrest : t.drop p.stop = after := by
    rw [stop, ← List.drop_drop, ← hafter, List.drop_left]
  rw [hrest, hafter]

theorem between_start_stop {t : List Char} {p : Piece} (hp : p.Within t) :
    (t.take p.stop).drop p.start = p.text := by
  rw [List.drop_take, drop_start hp, stop, Nat.add_sub_cancel_left, List.take_left]

section

variable {t : List Char} {start : Nat} {p : Piece}
variable (hp : p.Within t) (hstart : start ≤ p.start) (hline : Text.SameLine t start p.stop)
include hp hstart hline

theorem text_lineAt_around :
    (Text.lineAt t start).text = Text.dropReturn
      (Text.lastLine (t.take p.start) ++ p.text ++ Text.firstLine (t.drop p.stop)) := by
  have hbefore : Text.SameLine t start p.start := hline.mono (Nat.le_add_right _ _)
  have hown := hline.later hstart
  rw [Text.SameLine, between_start_stop hp] at hown
  rw [← Text.text_lineAt_of_sameLine hstart hbefore, Text.lineAt, drop_start hp,
    Text.firstLine_append hown, List.append_assoc]

theorem prefix_lineAt (hsolid : p.Solid t) (hne : p.text ≠ []) :
    Text.lastLine (t.take p.start) ++ p.text <+: (Text.lineAt t start).text := by
  rw [text_lineAt_around hp hstart hline]
  apply Text.prefix_dropReturn
  intro hend
  rcases hsolid with hlast | hnext
  · rw [List.getLast?_append, List.getLast?_eq_some_getLast hne, Option.some_or,
      ← List.getLast?_eq_some_getLast hne]
    exact hlast
  · exact absurd hend hnext

theorem column_ofContent_start : (LineTable.ofContent t).column p.start =
    min (Text.columnAt t p.start) (Text.lineAt t start).text.length := by
  have hbefore : Text.SameLine t start p.start := hline.mono (Nat.le_add_right _ _)
  rw [LineTable.column_ofContent hp.start_le, Text.text_lineAt_of_sameLine hstart hbefore]

theorem span_on_lineAt (hsolid : p.Solid t) :
    ((LineTable.ofContent t).span p).On (Text.lineAt t start).text := by
  have hcolumn := column_ofContent_start hp hstart hline
  simp only [Span.On, LineTable.span, Span.width, String.length_ofList, String.toList_ofList,
    hcolumn]
  by_cases hne : p.text = []
  · rw [hne]
    rfl
  · obtain ⟨after, hafter⟩ := prefix_lineAt hp hstart hline hsolid hne
    have hlength : Text.columnAt t p.start ≤ (Text.lineAt t start).text.length := by
      rw [← hafter, Text.columnAt]
      simp only [List.length_append]
      omega
    rw [Nat.min_eq_left hlength, ← hafter, Text.columnAt, List.append_assoc, List.drop_left,
      List.take_left]

theorem stop_span_le_length (hsolid : p.Solid t) :
    ((LineTable.ofContent t).span p).stop ≤ (Text.lineAt t start).text.length := by
  have hcolumn := column_ofContent_start hp hstart hline
  simp only [Span.stop, LineTable.span, Span.width, String.length_ofList, hcolumn]
  by_cases hne : p.text = []
  · rw [hne, List.length_nil]
    omega
  · have hlength := (prefix_lineAt hp hstart hline hsolid hne).length_le
    rw [List.length_append] at hlength
    rw [Text.columnAt]
    omega

end

theorem stop_span_le_column {t : List Char} {start : Nat} {p q : Piece} (hp : p.Within t)
    (hq : q.Within t) (hstart : start ≤ p.start) (hpq : p.stop ≤ q.start)
    (hline : Text.SameLine t start q.stop) (hsolid : p.Solid t) :
    ((LineTable.ofContent t).span p).stop ≤ ((LineTable.ofContent t).span q).column := by
  have hqstart : q.start ≤ q.stop := Nat.le_add_right _ _
  have hpstart : p.start ≤ p.stop := Nat.le_add_right _ _
  have hpline := hline.mono (Nat.le_trans hpq hqstart)
  have hlength := stop_span_le_length hp hstart hpline hsolid
  have hpcolumn := column_ofContent_start hp hstart hpline
  have hqcolumn := column_ofContent_start hq
    (Nat.le_trans hstart (Nat.le_trans hpstart hpq)) hline
  have hbetween : Text.columnAt t q.start = Text.columnAt t p.start + (q.start - p.start) := by
    refine Text.columnAt_of_sameLine (Nat.le_trans hpstart hpq) (Nat.le_trans hqstart hq.1) ?_
    exact (hline.later hstart).mono hqstart
  simp only [Span.stop, LineTable.span, Span.width, String.length_ofList, hpcolumn,
    hqcolumn] at hlength ⊢
  rw [stop] at hpq
  omega

end Piece

end ConfigAtlas
