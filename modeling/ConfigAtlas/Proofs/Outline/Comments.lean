import ConfigAtlas.Outline.Statement
import ConfigAtlas.Proofs.Text.Literal

/-! # Where a text is cut off by a comment -/

namespace ConfigAtlas.Outline

/-- A hash stands behind a space or a tab. -/
def HoldsComment (t : List Char) : Prop := ∃ gap, isGap gap = true ∧ [gap, '#'] <:+: t

theorem not_holdsComment_nil : ¬ HoldsComment [] := by
  rintro ⟨gap, -, hinfix⟩
  cases List.eq_nil_of_infix_nil hinfix

theorem holdsComment_cons (c : Char) (t : List Char) :
    HoldsComment (c :: t) ↔ (isGap c = true ∧ t.head? = some '#') ∨ HoldsComment t := by
  have hfront : ∀ gap, [gap, '#'] <+: c :: t ↔ gap = c ∧ t.head? = some '#' := by
    intro gap
    rw [List.cons_prefix_cons]
    cases t <;> simp [List.cons_prefix_cons, eq_comm]
  constructor
  · rintro ⟨gap, hgap, hinfix⟩
    rcases List.infix_cons_iff.mp hinfix with hprefix | hinfix
    · obtain ⟨rfl, hhash⟩ := (hfront gap).mp hprefix
      exact .inl ⟨hgap, hhash⟩
    · exact .inr ⟨gap, hgap, hinfix⟩
  · rintro (⟨hgap, hhash⟩ | ⟨gap, hgap, hinfix⟩)
    · exact ⟨c, hgap, ((hfront c).mpr ⟨rfl, hhash⟩).isInfix⟩
    · exact ⟨gap, hgap, List.infix_cons hinfix⟩

theorem holdsComment_append_cons {c : Char} (hgap : isGap c = false) (hhash : c ≠ '#')
    (s t : List Char) : HoldsComment (s ++ c :: t) ↔ HoldsComment s ∨ HoldsComment t := by
  induction s with
  | nil => simp [holdsComment_cons, hgap, not_holdsComment_nil]
  | cons d s ih =>
    have hhead : (s ++ c :: t).head? = some '#' ↔ s.head? = some '#' := by
      cases s <;> simp [hhash]
    rw [List.cons_append, holdsComment_cons, holdsComment_cons, ih, hhead, or_assoc]

theorem beforeComment_isPrefix (afterGap : Bool) (t : List Char) :
    beforeComment afterGap t <+: t := by
  induction t generalizing afterGap with
  | nil => exact List.prefix_rfl
  | cons c t ih =>
    rw [beforeComment]
    split
    · exact List.nil_prefix
    · exact List.cons_prefix_cons.mpr ⟨rfl, ih _⟩

theorem beforeComment_eq_self_iff (afterGap : Bool) (t : List Char) :
    beforeComment afterGap t = t ↔
      ¬ (afterGap = true ∧ t.head? = some '#') ∧ ¬ HoldsComment t := by
  induction t generalizing afterGap with
  | nil => simp [beforeComment, not_holdsComment_nil]
  | cons c t ih =>
    rw [beforeComment, holdsComment_cons, not_or, ← ih]
    by_cases hhash : c = '#'
    · cases afterGap <;> simp [hhash]
    · simp [hhash]

theorem beforeComment_append {t : List Char} (h : '#' ∉ t) (afterGap : Bool) (rest : List Char) :
    beforeComment afterGap (t ++ ' ' :: '#' :: rest) = t ++ [' '] := by
  induction t generalizing afterGap with
  | nil => cases afterGap <;> rfl
  | cons c t ih =>
    rw [List.mem_cons, not_or] at h
    have hc : (c == '#') = false := beq_eq_false_iff_ne.mpr (Ne.symm h.1)
    rw [List.cons_append, beforeComment, hc, Bool.false_and, ih h.2]
    rfl

theorem separates_of_quotedSpecial {c : Char} (h : Segment.quotedSpecial c = true) :
    isGap c = false ∧ c ≠ '#' := by
  rw [Segment.quotedSpecial, Bool.or_eq_true, beq_iff_eq, beq_iff_eq] at h
  rcases h with rfl | rfl <;> decide

theorem holdsComment_escape (t : List Char) :
    HoldsComment (Text.escape Segment.quotedSpecial t) ↔ HoldsComment t := by
  induction t with
  | nil => rfl
  | cons c t ih =>
    cases hc : Segment.quotedSpecial c with
    | true =>
      obtain ⟨hgap, hhash⟩ := separates_of_quotedSpecial hc
      have hslash : HoldsComment ('\\' :: c :: Text.escape Segment.quotedSpecial t) ↔ _ :=
        holdsComment_append_cons hgap hhash ['\\'] _
      have hplain : HoldsComment (c :: t) ↔ _ := holdsComment_append_cons hgap hhash [] t
      have hnil : ¬ HoldsComment ['\\'] := by simp [holdsComment_cons, not_holdsComment_nil]
      rw [Text.escape_cons_of_special hc, hslash, hplain, ih]
      simp [hnil, not_holdsComment_nil]
    | false =>
      have hhead : (Text.escape Segment.quotedSpecial t).head? = some '#' ↔
          t.head? = some '#' := by
        cases t with
        | nil => rfl
        | cons d t =>
          cases hd : Segment.quotedSpecial d with
          | true => simp [hd, (separates_of_quotedSpecial hd).2]
          | false => simp [hd]
      rw [Text.escape_cons_of_not_special hc, holdsComment_cons, holdsComment_cons, hhead, ih]

theorem holdsComment_literal (t : List Char) : HoldsComment (Text.literal t) ↔ HoldsComment t := by
  have hopen : HoldsComment (Text.literal t) ↔ _ :=
    holdsComment_append_cons (by decide) (by decide) [] _
  have hclose := holdsComment_append_cons (by decide : isGap '"' = false) (by decide)
    (Text.escape Segment.quotedSpecial t) []
  rw [hopen, hclose, holdsComment_escape]
  simp [not_holdsComment_nil]

end ConfigAtlas.Outline
