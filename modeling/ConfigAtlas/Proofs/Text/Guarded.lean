import Mathlib.Algebra.Ring.Parity
import Mathlib.Data.List.DropRight
import ConfigAtlas.Text.Basic

/-!
# Guarded quotes

In double quotes a backslash guards the next character, so a quote behind an odd number of
backslashes closes nothing.
-/

namespace ConfigAtlas.Text

theorem isBlank_of_isQuote {c : Char} (h : isQuote c = true) : isBlank c = false := by
  rw [isQuote, Bool.or_eq_true, beq_iff_eq, beq_iff_eq] at h
  rcases h with rfl | rfl <;> decide

/-- Backslashes at the end of a text guard a quote behind it, those apart that guard one another. -/
def GuardsQuote (quote : Char) (t : List Char) : Prop :=
  quote = '"' ∧ Odd (t.rtakeWhile (· == '\\')).length

instance (quote : Char) (t : List Char) : Decidable (GuardsQuote quote t) :=
  inferInstanceAs (Decidable (_ ∧ _))

/-! ## Reading on -/

/-- Whether the next character is guarded when a text without the quote is read. -/
def guardsNext (quote : Char) : (escaped : Bool) → List Char → Bool
  | escaped, [] => escaped
  | true, _ :: rest => guardsNext quote false rest
  | false, c :: rest => guardsNext quote (quote == '"' && c == '\\') rest

theorem untilClosed_append {quote : Char} {t : List Char} (h : quote ∉ t) (escaped : Bool)
    (rest : List Char) : untilClosed quote escaped (t ++ rest) =
      (untilClosed quote (guardsNext quote escaped t) rest).map (· + t.length) := by
  induction t generalizing escaped with
  | nil => simp [guardsNext]
  | cons c t ih =>
    rw [List.mem_cons, not_or] at h
    have hlength : ∀ n, n + t.length + 1 = n + (c :: t).length := fun n => rfl
    cases escaped with
    | true =>
      simp only [List.cons_append, untilClosed, guardsNext, ih h.2, Option.map_map,
        Function.comp_def, hlength]
    | false =>
      simp only [List.cons_append, untilClosed, guardsNext, if_neg (Ne.symm h.1), ih h.2,
        Option.map_map, Function.comp_def, hlength]

theorem untilClosed_pos {quote : Char} {escaped : Bool} {t : List Char} {n : Nat}
    (h : untilClosed quote escaped t = some n) : 0 < n := by
  cases t with
  | nil => simp [untilClosed] at h
  | cons c t =>
    cases escaped with
    | true =>
      obtain ⟨m, -, rfl⟩ := Option.map_eq_some_iff.mp h
      exact Nat.succ_pos m
    | false =>
      rw [untilClosed] at h
      split at h
      · cases h
        exact Nat.one_pos
      · obtain ⟨m, -, rfl⟩ := Option.map_eq_some_iff.mp h
        exact Nat.succ_pos m

theorem untilClosed_eq_none_iff (quote : Char) (escaped : Bool) (t : List Char) :
    untilClosed quote escaped t = none ↔
      ∀ before after, t = before ++ quote :: after → guardsNext quote escaped before = true := by
  induction t generalizing escaped with
  | nil => cases escaped <;> simp [untilClosed]
  | cons c t ih =>
    -- A split of the whole is one before its first character, or one of the rest.
    have hsplit : ∀ holds : List Char → Prop,
        (∀ before after, c :: t = before ++ quote :: after → holds before) ↔
          (c = quote → holds []) ∧
            ∀ before after, t = before ++ quote :: after → holds (c :: before) := by
      intro holds
      constructor
      · intro h
        exact ⟨fun hc => h [] t (by rw [hc]; rfl),
          fun before after ht => h (c :: before) after (by rw [ht]; rfl)⟩
      · rintro ⟨hfirst, hrest⟩ before after heq
        cases before with
        | nil => exact hfirst (List.cons.inj heq).1
        | cons d before =>
          obtain ⟨rfl, ht⟩ := List.cons.inj heq
          exact hrest before after ht
    rw [hsplit]
    cases escaped with
    | true => simp [untilClosed, guardsNext, ih]
    | false =>
      rw [untilClosed]
      split
      · rename_i hc
        simp [guardsNext, hc]
      · rename_i hc
        simp [guardsNext, ih, hc]

/-! ## How many backslashes -/

theorem guardsNext_concat (quote c : Char) (escaped : Bool) (t : List Char) :
    guardsNext quote escaped (t ++ [c]) =
      (!guardsNext quote escaped t && (quote == '"' && c == '\\')) := by
  induction t generalizing escaped with
  | nil => cases escaped <;> rfl
  | cons d t ih => cases escaped <;> exact ih _

theorem guardsNext_iff (quote : Char) (t : List Char) :
    guardsNext quote false t = true ↔ GuardsQuote quote t := by
  induction t using List.reverseRecOn with
  | nil => simp [guardsNext, GuardsQuote]
  | append_singleton t c ih =>
    rw [guardsNext_concat, Bool.and_eq_true, Bool.and_eq_true, Bool.not_eq_true', beq_iff_eq,
      beq_iff_eq, ← Bool.not_eq_true, ih, GuardsQuote, GuardsQuote]
    by_cases hc : c = '\\'
    · subst hc
      rw [List.rtakeWhile_concat_pos _ _ _ (by decide), List.length_append, List.length_singleton,
        Nat.odd_add_one]
      tauto
    · rw [List.rtakeWhile_concat_neg _ _ _ (by simpa using hc)]
      simp [hc]

end ConfigAtlas.Text
