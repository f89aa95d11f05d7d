import Mathlib.Data.List.Forall2
import ConfigAtlas.Path.Basic

/-! # An address says which steps a path takes, up to field or key -/

namespace ConfigAtlas

namespace Segment

/-- The step as an address keeps it: a key is a field of the same name. -/
def filed : Segment → Segment
  | .key raw => .field raw
  | s => s

theorem address_filed (s : Segment) : s.filed.address = s.address := by
  cases s <;> rfl

/-- The same list position, or a name of the same text. -/
def SameStep (s t : Segment) : Prop :=
  (∃ n, s = .index n ∧ t = .index n) ∨ ∃ name, s.name? = some name ∧ t.name? = some name

theorem filed_eq_iff (s t : Segment) : s.filed = t.filed ↔ s.SameStep t := by
  cases s <;> cases t <;> simp [filed, SameStep, name?, eq_comm]

/-- What can follow the name of a step: nothing, or the next step. -/
def StartsStep (t : List Char) : Prop := ∀ c, t.head? = some c → c = '.' ∨ c = '['

theorem startsStep_flatMap (steps : List Segment) : StartsStep (steps.flatMap address) := by
  intro c hc
  cases steps with
  | nil => simp at hc
  | cons s rest =>
    cases s <;> simp only [List.flatMap_cons, address, List.cons_append, List.head?_cons,
      Option.some.injEq] at hc <;> simp [← hc]

theorem not_startsStep_escape {c : Char} {t after : List Char} :
    ¬ StartsStep (Text.escape addressSpecial (c :: t) ++ after) := by
  intro h
  cases hc : addressSpecial c with
  | true =>
    have hslash := h '\\' (by rw [Text.escape_cons_of_special hc]; rfl)
    exact absurd hslash (by decide)
  | false =>
    have hstep := h c (by rw [Text.escape_cons_of_not_special hc]; rfl)
    rcases hstep with rfl | rfl <;> exact absurd hc (by decide)

/-- Escaped names end where the next step starts, so they can be told apart. -/
theorem escape_append_inj {s t r r' : List Char} (hr : StartsStep r) (hr' : StartsStep r')
    (h : Text.escape addressSpecial s ++ r = Text.escape addressSpecial t ++ r') :
    s = t ∧ r = r' := by
  induction s generalizing t with
  | nil =>
    cases t with
    | nil => exact ⟨rfl, by simpa using h⟩
    | cons d t =>
      simp only [Text.escape_nil, List.nil_append] at h
      rw [h] at hr
      exact absurd hr not_startsStep_escape
  | cons c s ih =>
    cases t with
    | nil =>
      simp only [Text.escape_nil, List.nil_append] at h
      rw [← h] at hr'
      exact absurd hr' not_startsStep_escape
    | cons d t =>
      have hslash : addressSpecial '\\' = true := by decide
      -- With one of them guarded, the other would be a backslash, which is guarded itself.
      cases hc : addressSpecial c <;> cases hd : addressSpecial d <;>
        simp only [Text.escape_cons_of_special, Text.escape_cons_of_not_special, hc, hd,
          List.cons_append, List.cons.injEq] at h
      · obtain ⟨hst, hrest⟩ := ih h.2
        exact ⟨by rw [h.1, hst], hrest⟩
      · rw [h.1, hslash] at hc
        cases hc
      · rw [← h.1, hslash] at hd
        cases hd
      · obtain ⟨hst, hrest⟩ := ih h.2.2
        exact ⟨by rw [h.2.1, hst], hrest⟩

theorem isDigit_toDigits (n : Nat) : ∀ d ∈ Nat.toDigits 10 n, d.isDigit = true :=
  fun _ hd => Nat.isDigit_of_mem_toDigits (by decide) (by decide) hd

theorem takeWhile_digits {ds : List Char} (h : ∀ d ∈ ds, d.isDigit = true) (r : List Char) :
    (ds ++ ']' :: r).takeWhile (· != ']') = ds ∧
      (ds ++ ']' :: r).dropWhile (· != ']') = ']' :: r := by
  have hdigits : ∀ c ∈ ds, (c != ']') = true := by
    intro c hc
    have hdigit := h c hc
    rw [bne_iff_ne]
    rintro rfl
    exact absurd hdigit (by decide)
  rw [List.takeWhile_append_of_pos hdigits, List.dropWhile_append_of_pos hdigits]
  simp

theorem digits_append_inj {ds ds' : List Char} (hds : ∀ d ∈ ds, d.isDigit = true)
    (hds' : ∀ d ∈ ds', d.isDigit = true) {r r' : List Char}
    (h : ds ++ ']' :: r = ds' ++ ']' :: r') : ds = ds' ∧ r = r' := by
  obtain ⟨hfront, hback⟩ := takeWhile_digits hds r
  obtain ⟨hfront', hback'⟩ := takeWhile_digits hds' r'
  rw [h, hfront'] at hfront
  rw [h, hback'] at hback
  exact ⟨hfront.symm, (List.cons.inj hback).2.symm⟩

theorem toDigits_append_inj {i j : Nat} {r r' : List Char}
    (h : Nat.toDigits 10 i ++ ']' :: r = Nat.toDigits 10 j ++ ']' :: r') : i = j ∧ r = r' := by
  obtain ⟨hdigits, hrest⟩ := digits_append_inj (isDigit_toDigits i) (isDigit_toDigits j) h
  have hij := congrArg (fun ds => Nat.ofDigitChars 10 ds 0) hdigits
  simp only [Nat.ofDigitChars_ten_toDigits] at hij
  exact ⟨hij, hrest⟩

theorem address_append_inj {s t : Segment} {r r' : List Char} (hr : StartsStep r)
    (hr' : StartsStep r') (h : s.address ++ r = t.address ++ r') : s.filed = t.filed ∧ r = r' := by
  rw [← address_filed s, ← address_filed t] at h
  have named : ∀ u : Segment, (∃ name, u.filed = .field name) ∨ (∃ i, u.filed = .index i) := by
    intro u
    cases u <;> simp [filed]
  rcases named s with ⟨name, hs⟩ | ⟨i, hs⟩ <;> rcases named t with ⟨name', ht⟩ | ⟨j, ht⟩ <;>
    rw [hs, ht] at h ⊢ <;>
    simp only [address, List.cons_append, List.cons.injEq, List.append_assoc] at h
  · obtain ⟨hname, hrest⟩ := escape_append_inj hr hr' h.2
    exact ⟨by rw [String.toList_inj.mp hname], hrest⟩
  · exact absurd h.1 (by decide)
  · exact absurd h.1 (by decide)
  · obtain ⟨hij, hrest⟩ := toDigits_append_inj (by simpa using h.2)
    exact ⟨by rw [hij], hrest⟩

theorem flatMap_address_inj {ss ts : List Segment}
    (h : ss.flatMap address = ts.flatMap address) : ss.map filed = ts.map filed := by
  have ne_nil : ∀ s : Segment, s.address ≠ [] := by
    intro s
    cases s <;> simp [address]
  induction ss generalizing ts with
  | nil =>
    cases ts with
    | nil => rfl
    | cons t ts => exact absurd (List.append_eq_nil_iff.mp h.symm).1 (ne_nil t)
  | cons s ss ih =>
    cases ts with
    | nil => exact absurd (List.append_eq_nil_iff.mp h).1 (ne_nil s)
    | cons t ts =>
      rw [List.flatMap_cons, List.flatMap_cons] at h
      obtain ⟨hst, hrest⟩ :=
        address_append_inj (startsStep_flatMap ss) (startsStep_flatMap ts) h
      rw [List.map_cons, List.map_cons, hst, ih hrest]

end Segment

namespace Path

theorem address_eq_iff (p q : Path) :
    p.address = q.address ↔ p.segments.map Segment.filed = q.segments.map Segment.filed := by
  rw [address, address, String.ofList_inj]
  constructor
  · exact Segment.flatMap_address_inj
  · intro h
    have hfiled : ∀ steps : List Segment,
        steps.flatMap Segment.address = (steps.map Segment.filed).flatMap Segment.address := by
      intro steps
      simp [List.flatMap_map, Segment.address_filed]
    rw [hfiled, h, ← hfiled]

/-- An address tells the steps apart and nothing more: whether a name is a field or a key does
not show, and all else does. -/
theorem address_eq_iff_sameSteps (p q : Path) :
    p.address = q.address ↔
      p.length = q.length ∧
        ∀ (i : Nat) (s t : Segment), p.segments[i]? = some s → q.segments[i]? = some t →
          s.SameStep t := by
  rw [address_eq_iff]
  constructor
  · intro h
    refine ⟨by simpa [length] using congrArg List.length h, ?_⟩
    intro i s t hs ht
    have hstep := congrArg (fun steps : List Segment => steps[i]?) h
    simp only [List.getElem?_map, hs, ht, Option.map_some, Option.some.injEq] at hstep
    exact (Segment.filed_eq_iff s t).mp hstep
  · rintro ⟨hlength, hsteps⟩
    apply List.ext_getElem
    · simpa [length] using hlength
    · intro i hi hj
      rw [List.length_map] at hi hj
      rw [List.getElem_map, List.getElem_map, Segment.filed_eq_iff]
      exact hsteps i _ _ (List.getElem?_eq_getElem hi) (List.getElem?_eq_getElem hj)

end Path

/-! ## Paths of the same steps -/

instance (s t : Segment) : Decidable (s.SameStep t) :=
  decidable_of_iff _ (Segment.filed_eq_iff s t)

namespace Path

/-- Step by step the same list position, or the same name as a field or as a key. -/
def SameSteps (p q : Path) : Prop := List.Forall₂ Segment.SameStep p.segments q.segments

instance (p q : Path) : Decidable (p.SameSteps q) :=
  inferInstanceAs (Decidable (List.Forall₂ Segment.SameStep p.segments q.segments))

theorem forall₂_sameStep_iff (ss ts : List Segment) :
    List.Forall₂ Segment.SameStep ss ts ↔ ss.map Segment.filed = ts.map Segment.filed := by
  rw [← List.forall₂_eq_eq_eq, List.forall₂_map_left_iff, List.forall₂_map_right_iff]
  simp only [Segment.filed_eq_iff]

theorem sameSteps_iff_address (p q : Path) : p.SameSteps q ↔ p.address = q.address := by
  rw [SameSteps, forall₂_sameStep_iff, address_eq_iff]

/-- The paths of a list without repeats, each where it first comes up. -/
def firsts : List Path → List Path
  | [] => []
  | p :: rest => p :: (firsts rest).filter fun q => ¬ p.SameSteps q

end Path

end ConfigAtlas
