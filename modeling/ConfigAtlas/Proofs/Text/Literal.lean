import ConfigAtlas.Path.Basic
import ConfigAtlas.Proofs.Text.Commas
import ConfigAtlas.Proofs.Text.Trimmed

/-! # Literals: texts in double quotes, with a backslash before each quote and backslash -/

namespace ConfigAtlas.Text

/-- The text in double quotes, with its quotes and backslashes escaped. -/
def literal (t : List Char) : List Char :=
  '"' :: (escape Segment.quotedSpecial t ++ ['"'])

theorem mem_escape {special : Char → Bool} {c : Char} {t : List Char}
    (h : c ∈ escape special t) : c ∈ t ∨ c = '\\' := by
  simp only [escape, List.mem_flatMap] at h
  obtain ⟨d, hd, hc⟩ := h
  split at hc
  · simp only [List.mem_cons, List.not_mem_nil, or_false] at hc
    rcases hc with rfl | rfl
    · exact Or.inr rfl
    · exact Or.inl hd
  · rw [List.mem_singleton.mp hc]
    exact Or.inl hd

theorem feed_not_mem_literal {t : List Char} (h : '\n' ∉ t) : '\n' ∉ literal t := by
  intro hmem
  simp only [literal, List.mem_cons, List.mem_append, List.not_mem_nil, or_false] at hmem
  rcases hmem with hq | hbody | hq
  · exact absurd hq (by decide)
  · rcases mem_escape hbody with hin | hslash
    · exact h hin
    · exact absurd hslash (by decide)
  · exact absurd hq (by decide)

theorem trim_quoted (t : List Char) : trim ('"' :: (t ++ ['"'])) = '"' :: (t ++ ['"']) :=
  trim_concat (by decide) (by decide) t

theorem untilClosed_escape (t rest : List Char) :
    untilClosed '"' false (escape Segment.quotedSpecial t ++ '"' :: rest) =
      some ((escape Segment.quotedSpecial t).length + 1) := by
  induction t with
  | nil => simp [untilClosed]
  | cons c t ih =>
    cases hc : Segment.quotedSpecial c with
    | true =>
      rw [escape_cons_of_special hc]
      simp [untilClosed, ih]
    | false =>
      obtain ⟨hquote, hslash⟩ : c ≠ '"' ∧ c ≠ '\\' := by
        simpa [Segment.quotedSpecial] using hc
      rw [escape_cons_of_not_special hc]
      simp [untilClosed, ih, hquote, beq_eq_false_iff_ne.mpr hslash]

theorem quotedRun?_literal (t rest : List Char) :
    quotedRun? (literal t ++ rest) = some (literal t).length := by
  simp [literal, quotedRun?, isQuote, untilClosed_escape]

theorem commaParts_escape (depth : Nat) (t rest : List Char) :
    commaParts ⟨depth, some '"', false⟩ (escape Segment.quotedSpecial t ++ '"' :: rest) =
      (commaParts ⟨depth, none, false⟩ rest).modifyHead
        (escape Segment.quotedSpecial t ++ '"' :: ·) := by
  have hcuts : ∀ escaped c, Nesting.cuts ⟨depth, some '"', escaped⟩ c = false := by
    intro escaped c
    simp [Nesting.cuts]
  -- Inside the quotes nothing is cut, so the first part only grows.
  induction t with
  | nil =>
    have hclose : Nesting.step ⟨depth, some '"', false⟩ '"' = ⟨depth, none, false⟩ := rfl
    rw [escape_nil, List.nil_append, commaParts, if_neg (by simp [hcuts]), hclose]
    rfl
  | cons c t ih =>
    cases hc : Segment.quotedSpecial c with
    | true =>
      have hslash : Nesting.step ⟨depth, some '"', false⟩ '\\' = ⟨depth, some '"', true⟩ := rfl
      have hguarded : Nesting.step ⟨depth, some '"', true⟩ c = ⟨depth, some '"', false⟩ := rfl
      rw [escape_cons_of_special hc, List.cons_append, commaParts, if_neg (by simp [hcuts]),
        hslash, List.cons_append, commaParts, if_neg (by simp [hcuts]), hguarded, ih,
        List.modifyHead_modifyHead, List.modifyHead_modifyHead]
      rfl
    | false =>
      obtain ⟨hquote, hslash⟩ : c ≠ '"' ∧ c ≠ '\\' := by
        simpa [Segment.quotedSpecial] using hc
      have hstep : Nesting.step ⟨depth, some '"', false⟩ c = ⟨depth, some '"', false⟩ := by
        simp [Nesting.step, hquote, hslash]
      rw [escape_cons_of_not_special hc, List.cons_append, commaParts, if_neg (by simp [hcuts]),
        hstep, ih, List.modifyHead_modifyHead]
      rfl

theorem passes_literal (t : List Char) : Passes 0 (literal t) := by
  intro depth _ rest
  have hopen : Nesting.step ⟨depth, none, false⟩ '"' = ⟨depth, some '"', false⟩ := rfl
  have hcuts : Nesting.cuts ⟨depth, none, false⟩ '"' = false := rfl
  rw [literal, List.cons_append, List.append_assoc, List.singleton_append, commaParts,
    if_neg (by simp [hcuts]), hopen, commaParts_escape, List.modifyHead_modifyHead]
  simp [Function.comp_def]

theorem unquote_quoted (t : List Char) : unquote ('"' :: (t ++ ['"'])) = t := by
  simp [unquote, isQuoted, isQuote]

end ConfigAtlas.Text
