import Mathlib.Data.List.Induction
import Mathlib.Data.List.TakeWhile
import ConfigAtlas.Proofs.Text.Part
import ConfigAtlas.Proofs.Text.Trimmed

/-!
# Carriage returns before line feeds

A text whose line feeds all get a carriage return, and what becomes of its positions and pieces.
-/

namespace ConfigAtlas

namespace Text

/-- A carriage return before every line feed. -/
def withReturns (t : List Char) : List Char :=
  t.flatMap fun c => if c = '\n' then ['\r', '\n'] else [c]

/-- Where a position of a text is then. -/
def moved (t : List Char) (position : Nat) : Nat := (withReturns (t.take position)).length

@[simp] theorem withReturns_nil : withReturns [] = [] := rfl

@[simp] theorem withReturns_feed (t : List Char) :
    withReturns ('\n' :: t) = '\r' :: '\n' :: withReturns t := rfl

theorem withReturns_cons {c : Char} (hc : c ≠ '\n') (t : List Char) :
    withReturns (c :: t) = c :: withReturns t := by
  simp [withReturns, hc]

@[simp] theorem withReturns_append (s t : List Char) :
    withReturns (s ++ t) = withReturns s ++ withReturns t := List.flatMap_append

theorem withReturns_eq_self {t : List Char} (h : '\n' ∉ t) : withReturns t = t := by
  induction t with
  | nil => rfl
  | cons c t ih =>
    rw [List.mem_cons, not_or] at h
    rw [withReturns_cons (Ne.symm h.1), ih h.2]

theorem withReturns_eq_nil_iff {t : List Char} : withReturns t = [] ↔ t = [] := by
  cases t with
  | nil => simp
  | cons c t => by_cases hc : c = '\n' <;> simp [withReturns, hc]

theorem feed_mem_withReturns_iff {t : List Char} : '\n' ∈ withReturns t ↔ '\n' ∈ t := by
  induction t with
  | nil => simp
  | cons c t ih =>
    by_cases hc : c = '\n'
    · simp [hc]
    · simp [withReturns_cons hc, ih]

theorem count_feed_withReturns (t : List Char) : (withReturns t).count '\n' = t.count '\n' := by
  induction t with
  | nil => rfl
  | cons c t ih =>
    by_cases hc : c = '\n'
    · simp [hc, ih]
    · simp [withReturns_cons hc, List.count_cons, ih]

theorem getLast?_withReturns (t : List Char) : (withReturns t).getLast? = t.getLast? := by
  cases t using List.reverseRecOn with
  | nil => rfl
  | append_singleton t c => by_cases hc : c = '\n' <;> simp [withReturns, hc]

theorem head?_withReturns_eq_iff {c : Char} (hfeed : c ≠ '\n') (hreturn : c ≠ '\r')
    (t : List Char) : (withReturns t).head? = some c ↔ t.head? = some c := by
  cases t with
  | nil => rfl
  | cons d t =>
    by_cases hd : d = '\n'
    · simp [hd, Ne.symm hfeed, Ne.symm hreturn]
    · rw [withReturns_cons hd]
      rfl

/-! ## Tests that do not tell the two apart -/

section

variable {test : Char → Bool} (h : test '\r' = test '\n')
include h

theorem takeWhile_withReturns (t : List Char) :
    (withReturns t).takeWhile test = withReturns (t.takeWhile test) := by
  induction t with
  | nil => rfl
  | cons c t ih =>
    by_cases hc : c = '\n'
    · cases htest : test '\n' <;> simp [hc, h, htest, ih]
    · rw [withReturns_cons hc, List.takeWhile_cons, List.takeWhile_cons, ih]
      split
      · rw [withReturns_cons hc]
      · rfl

theorem reverse_dropWhile_withReturns (t : List Char) :
    ((withReturns t).reverse.dropWhile test).reverse =
      withReturns (t.reverse.dropWhile test).reverse := by
  induction t using List.reverseRecOn with
  | nil => rfl
  | append_singleton t c ih =>
    by_cases hc : c = '\n'
    · cases htest : test '\n' <;> simp [hc, h, htest, ih]
    · have hlast : withReturns [c] = [c] := withReturns_cons hc []
      cases htest : test c <;> simp [hlast, htest, ih]

end

theorem isPrefixOf_withReturns {mark : List Char} (hfeed : '\n' ∉ mark) (hreturn : '\r' ∉ mark)
    (t : List Char) : mark.isPrefixOf (withReturns t) = mark.isPrefixOf t := by
  induction mark generalizing t with
  | nil => rfl
  | cons m mark ih =>
    rw [List.mem_cons, not_or] at hfeed hreturn
    cases t with
    | nil => rfl
    | cons c t =>
      by_cases hc : c = '\n'
      · have hm : (m == '\r') = false := beq_eq_false_iff_ne.mpr (Ne.symm hreturn.1)
        have hm' : (m == '\n') = false := beq_eq_false_iff_ne.mpr (Ne.symm hfeed.1)
        rw [hc, withReturns_feed, List.isPrefixOf, List.isPrefixOf, hm, hm', Bool.false_and,
          Bool.false_and]
      · rw [withReturns_cons hc, List.isPrefixOf, List.isPrefixOf, ih hfeed.2 hreturn.2]

/-! ## Positions -/

@[simp] theorem moved_zero (t : List Char) : moved t 0 = 0 := by simp [moved]

theorem moved_cons {c : Char} (hc : c ≠ '\n') (t : List Char) (n : Nat) :
    moved (c :: t) (n + 1) = moved t n + 1 := by
  rw [moved, List.take_succ_cons, withReturns_cons hc, List.length_cons, moved]

theorem moved_feed (t : List Char) (n : Nat) : moved ('\n' :: t) (n + 1) = moved t n + 1 + 1 := by
  rw [moved, List.take_succ_cons, withReturns_feed, List.length_cons, List.length_cons, moved]

theorem moved_append_of_le {s : List Char} {n : Nat} (h : n ≤ s.length) (t : List Char) :
    moved (s ++ t) n = moved s n := by
  rw [moved, List.take_append_of_le_length h, moved]

theorem moved_length_append (s t : List Char) :
    moved (s ++ t) s.length = (withReturns s).length := by
  rw [moved, List.take_left]

theorem moved_eq_self {s : List Char} (h : '\n' ∉ s) (t : List Char) :
    moved (s ++ t) s.length = s.length := by
  rw [moved_length_append, withReturns_eq_self h]

theorem take_moved (t : List Char) (position : Nat) :
    (withReturns t).take (moved t position) = withReturns (t.take position) := by
  have hsplit := congrArg withReturns (List.take_append_drop position t)
  rw [withReturns_append] at hsplit
  rw [moved, ← hsplit, List.take_left]

theorem drop_moved (t : List Char) (position : Nat) :
    (withReturns t).drop (moved t position) = withReturns (t.drop position) := by
  have hsplit := congrArg withReturns (List.take_append_drop position t)
  rw [withReturns_append] at hsplit
  rw [moved, ← hsplit, List.drop_left]

theorem moved_le_length (t : List Char) (position : Nat) :
    moved t position ≤ (withReturns t).length := by
  rw [moved, ← take_moved]
  exact List.length_take_le' _ _

theorem moved_add (t : List Char) (i n : Nat) :
    moved t (i + n) = moved t i + moved (t.drop i) n := by
  rw [moved, List.take_add, withReturns_append, List.length_append, moved, moved]

theorem moved_le {t : List Char} {i j : Nat} (h : i ≤ j) : moved t i ≤ moved t j := by
  obtain ⟨n, rfl⟩ := Nat.exists_eq_add_of_le h
  rw [moved_add]
  exact Nat.le_add_right _ _

end Text

/-! ## Pieces -/

namespace Piece

open Text (moved)

/-- The piece at its place in `t` when all line feeds have got their carriage returns. -/
def withReturns (t : List Char) (p : Piece) : Piece :=
  ⟨moved t p.start, Text.withReturns p.text⟩

variable {t : List Char} {p : Piece}

theorem withReturns_whole (t : List Char) :
    (whole t).withReturns t = whole (Text.withReturns t) := by
  simp [withReturns, whole, moved]

theorem isEmpty_withReturns (t : List Char) (p : Piece) :
    (p.withReturns t).isEmpty = p.isEmpty := by
  rw [Bool.eq_iff_iff, isEmpty, isEmpty, List.isEmpty_iff, List.isEmpty_iff]
  exact Text.withReturns_eq_nil_iff

theorem withReturns_of_feed_not_mem (h : '\n' ∉ p.text) :
    p.withReturns t = ⟨moved t p.start, p.text⟩ := by
  rw [withReturns, Text.withReturns_eq_self h]

theorem startsWith_withReturns {mark : List Char} (hfeed : '\n' ∉ mark) (hreturn : '\r' ∉ mark) :
    (p.withReturns t).startsWith mark = p.startsWith mark :=
  Text.isPrefixOf_withReturns hfeed hreturn p.text

theorem moved_start (hp : p.Within t) {n : Nat} (hn : n ≤ p.text.length) :
    moved t (p.start + n) = moved t p.start + moved p.text n := by
  obtain ⟨-, after, hafter⟩ := hp
  rw [Text.moved_add, ← hafter, Text.moved_append_of_le hn]

theorem withReturns_take (t : List Char) (p : Piece) (n : Nat) :
    (p.take n).withReturns t = (p.withReturns t).take (moved p.text n) := by
  rw [take, withReturns, take, withReturns, Text.take_moved]

theorem withReturns_drop (hp : p.Within t) {n : Nat} (hn : n ≤ p.text.length) :
    (p.drop n).withReturns t = (p.withReturns t).drop (moved p.text n) := by
  rw [drop_eq, drop_eq, withReturns, withReturns, Nat.min_eq_left hn, moved_start hp hn,
    Text.drop_moved, Nat.min_eq_left (Text.moved_le_length p.text n)]

theorem withReturns_drop_length (hp : p.Within t) {q : Piece} (h : q.text <+: p.text) :
    (p.drop q.length).withReturns t = (p.withReturns t).drop (q.withReturns t).length := by
  obtain ⟨rest, hrest⟩ := h
  have hmoved : moved p.text q.length = (q.withReturns t).length := by
    rw [← hrest]
    exact Text.moved_length_append q.text rest
  have hle : q.length ≤ p.text.length := (hrest ▸ List.prefix_append q.text rest).length_le
  rw [withReturns_drop hp hle, hmoved]

theorem withReturns_drop_one (hp : p.Within t) {c : Char} (hc : c ≠ '\n') {rest : List Char}
    (h : p.text = c :: rest) : (p.drop 1).withReturns t = (p.withReturns t).drop 1 := by
  have hmoved : moved p.text 1 = 1 := by rw [h, Text.moved_cons hc, Text.moved_zero]
  rw [withReturns_drop hp (by simp [h]), hmoved]

theorem withReturns_trimEnd (t : List Char) (p : Piece) :
    (p.trimEnd).withReturns t = (p.withReturns t).trimEnd := by
  have htext : Text.trimEnd (Text.withReturns p.text) = Text.withReturns (Text.trimEnd p.text) :=
    Text.reverse_dropWhile_withReturns (by decide) p.text
  rw [trimEnd, withReturns, withReturns, trimEnd, htext]

section

variable {test : Char → Bool} (h : test '\r' = test '\n')
include h

theorem withReturns_takeWhile (t : List Char) (p : Piece) :
    (p.takeWhile test).withReturns t = (p.withReturns t).takeWhile test := by
  simp [withReturns, takeWhile, Text.takeWhile_withReturns h]

theorem withReturns_dropWhile (hp : p.Within t) :
    (p.dropWhile test).withReturns t = (p.withReturns t).dropWhile test := by
  have hdrop := withReturns_drop_length hp (q := p.takeWhile test) (List.takeWhile_prefix test)
  rw [withReturns_takeWhile h] at hdrop
  rw [dropWhile_eq_drop, dropWhile_eq_drop]
  exact hdrop

end

theorem withReturns_trimStart (hp : p.Within t) :
    p.trimStart.withReturns t = (p.withReturns t).trimStart :=
  withReturns_dropWhile (by decide) hp

theorem withReturns_trim (hp : p.Within t) : p.trim.withReturns t = (p.withReturns t).trim := by
  rw [trim, withReturns_trimEnd, withReturns_trimStart hp, trim]

theorem withReturns_take_sub (hp : p.Within t) (stop : Nat) :
    (p.take (stop - p.start)).withReturns t =
      (p.withReturns t).take (moved t stop - moved t p.start) := by
  rcases Nat.le_total stop p.start with hle | hle
  · have hmoved := Text.moved_le (t := t) hle
    simp [withReturns_take, Nat.sub_eq_zero_of_le hle, Nat.sub_eq_zero_of_le hmoved]
  · obtain ⟨n, rfl⟩ := Nat.exists_eq_add_of_le hle
    obtain ⟨-, after, hafter⟩ := hp
    rw [Text.moved_add, Nat.add_sub_cancel_left, Nat.add_sub_cancel_left, ← hafter,
      withReturns_take]
    rcases Nat.le_total n p.text.length with hn | hn
    · rw [Text.moved_append_of_le hn]
    · -- Beyond its end both take all of the piece.
      have hall := Text.moved_le (t := p.text) hn
      have hmore := Text.moved_le (t := p.text ++ after) hn
      rw [Text.moved_length_append] at hmore
      rw [moved, List.take_length] at hall
      simp only [take, withReturns, List.take_of_length_le hall, List.take_of_length_le hmore]

section

variable {mark : List Char} (hfeed : '\n' ∉ mark) (hreturn : '\r' ∉ mark)
include hfeed hreturn

theorem skipPast_withReturns (u : List Char) :
    ∃ n ≤ u.length, (∀ start, skipPast mark start u = ⟨start + n, u.drop n⟩) ∧
      ∀ start, skipPast mark start (Text.withReturns u) =
        ⟨start + moved u n, Text.withReturns (u.drop n)⟩ := by
  induction u with
  | nil => exact ⟨0, Nat.le_refl 0, fun start => rfl, fun start => rfl⟩
  | cons c u ih =>
    have hsame := Text.isPrefixOf_withReturns hfeed hreturn (c :: u)
    cases hmark : mark.isPrefixOf (c :: u) with
    | true =>
      obtain ⟨rest, hrest⟩ := List.isPrefixOf_iff_prefix.mp hmark
      have hmoved : moved (c :: u) mark.length = mark.length := by
        rw [← hrest, Text.moved_eq_self hfeed]
      have hne : Text.withReturns (c :: u) ≠ [] := by simp [Text.withReturns_eq_nil_iff]
      refine ⟨mark.length, (List.isPrefixOf_iff_prefix.mp hmark).length_le, fun start => ?_,
        fun start => ?_⟩
      · rw [skipPast_of_isPrefixOf hmark (by simp)]
      · rw [skipPast_of_isPrefixOf (hsame.trans hmark) hne, ← Text.drop_moved, hmoved]
    | false =>
      obtain ⟨n, hn, hskip, hreturns⟩ := ih
      rw [hmark] at hsame
      refine ⟨n + 1, Nat.succ_le_succ hn, fun start => ?_, fun start => ?_⟩
      · rw [skipPast_of_not_isPrefixOf hmark, hskip, Nat.add_right_comm, Nat.add_assoc]
        rfl
      · by_cases hc : c = '\n'
        · -- The mark starts with neither of the two signs.
          have hbehind : mark.isPrefixOf ('\n' :: Text.withReturns u) = false := by
            cases mark with
            | nil => cases hmark
            | cons m mark =>
              have hm : m ≠ '\n' := by
                rintro rfl
                exact hfeed List.mem_cons_self
              rw [List.isPrefixOf, beq_eq_false_iff_ne.mpr hm, Bool.false_and]
          subst hc
          rw [Text.withReturns_feed] at hsame ⊢
          rw [skipPast_of_not_isPrefixOf hsame, skipPast_of_not_isPrefixOf hbehind, hreturns,
            Text.moved_feed, List.drop_succ_cons]
          simp only [mk.injEq, and_true]
          omega
        · rw [Text.withReturns_cons hc] at hsame ⊢
          rw [skipPast_of_not_isPrefixOf hsame, hreturns, Text.moved_cons hc,
            List.drop_succ_cons, Nat.add_right_comm, Nat.add_assoc]

theorem withReturns_past (hp : p.Within t) :
    (p.past mark).withReturns t = (p.withReturns t).past mark := by
  obtain ⟨n, hn, hskip, hreturns⟩ := skipPast_withReturns hfeed hreturn p.text
  rw [past, hskip, past, withReturns, withReturns, hreturns, moved_start hp hn]

end

end Piece

end ConfigAtlas
