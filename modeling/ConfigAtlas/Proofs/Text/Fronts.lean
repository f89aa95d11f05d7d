import ConfigAtlas.Proofs.Text.Part

/-!
# What is found in the front of a text

A search that ends in the front of a text ends there whatever follows the front.
-/

namespace ConfigAtlas

namespace Text

theorem trimEnd_append_cons {c : Char} (h : isBlank c = false) (s t : List Char) :
    trimEnd (s ++ c :: t) = s ++ c :: trimEnd t := by
  have hend := (Lists.takeWhile_append_cons h t.reverse s.reverse).2
  simp [trimEnd, hend]

end Text

namespace Piece

theorem start_le_skipPast (mark : List Char) (start : Nat) (t : List Char) :
    start ≤ (skipPast mark start t).start := (PartOf.skipPast start t).start_le

theorem skipPast_first {mark s : List Char} (hmark : mark ≠ [])
    (h : ¬ mark <:+: s ++ mark.dropLast) (start : Nat) (after : List Char) :
    skipPast mark start (s ++ (mark ++ after)) = ⟨start + (s ++ mark).length, after⟩ := by
  induction s generalizing start with
  | nil =>
    have hfront : mark.isPrefixOf (mark ++ after) = true :=
      List.isPrefixOf_iff_prefix.mpr (List.prefix_append mark after)
    rw [List.nil_append, skipPast_of_isPrefixOf hfront (List.append_ne_nil_of_left_ne_nil hmark _),
      List.drop_left]
    rfl
  | cons c s ih =>
    have hlater : ¬ mark <:+: s ++ mark.dropLast := fun hin => h (List.infix_cons hin)
    have hfront : mark.isPrefixOf (c :: (s ++ (mark ++ after))) = false := by
      rw [← Bool.not_eq_true, List.isPrefixOf_iff_prefix]
      intro hpre
      -- It would end before the last sign of the mark that stands there.
      have hshort : c :: (s ++ mark.dropLast) <+: c :: (s ++ (mark ++ after)) := by
        refine List.cons_prefix_cons.mpr ⟨rfl, (List.prefix_append_right_inj s).mpr ?_⟩
        exact (List.dropLast_prefix mark).trans (List.prefix_append mark after)
      have hpos := List.length_pos_iff.mpr hmark
      have hle : mark.length ≤ (c :: (s ++ mark.dropLast)).length := by
        simp only [List.length_cons, List.length_append, List.length_dropLast]
        omega
      exact h (List.prefix_of_prefix_length_le hpre hshort hle).isInfix
    rw [List.cons_append, skipPast_of_not_isPrefixOf hfront, ih hlater]
    simp only [List.cons_append, List.length_cons, mk.injEq, and_true]
    omega

theorem skipPast_append {mark s x : List Char} (hmark : mark ≠ []) (hx : x ≠ []) {start : Nat}
    (h : (skipPast mark start (s ++ x)).start ≤ start + s.length) :
    ∃ before rest, s = before ++ (mark ++ rest) ∧ ∀ y,
      skipPast mark start (s ++ y) = ⟨start + (before ++ mark).length, rest ++ y⟩ := by
  induction s generalizing start with
  | nil =>
    obtain ⟨c, x, rfl⟩ := List.exists_cons_of_ne_nil hx
    have hpos := List.length_pos_iff.mpr hmark
    rw [List.nil_append, skipPast] at h
    split at h
    · simp only [List.length_nil] at h
      omega
    · have := start_le_skipPast mark (start + 1) x
      simp only [List.length_nil] at h
      omega
  | cons c s ih =>
    rw [List.cons_append] at h
    cases hfound : mark.isPrefixOf (c :: (s ++ x)) with
    | true =>
      have hfront : mark <+: c :: s := by
        rw [skipPast, if_pos hfound] at h
        exact List.prefix_of_prefix_length_le (List.isPrefixOf_iff_prefix.mp hfound)
          (List.prefix_append (c :: s) x) (Nat.le_of_add_le_add_left h)
      obtain ⟨rest, hrest⟩ := hfront
      refine ⟨[], rest, hrest.symm, fun y => ?_⟩
      have hy : mark.isPrefixOf (c :: s ++ y) = true := by
        rw [← hrest, List.append_assoc]
        exact List.isPrefixOf_iff_prefix.mpr (List.prefix_append _ _)
      rw [skipPast_of_isPrefixOf hy (List.cons_ne_nil _ _), ← hrest, List.append_assoc,
        List.drop_left]
      rfl
    | false =>
      rw [skipPast_of_not_isPrefixOf hfound, List.length_cons] at h
      have hshort : (skipPast mark (start + 1) (s ++ x)).start ≤ start + 1 + s.length := by omega
      obtain ⟨before, rest, rfl, hskip⟩ := ih hshort
      refine ⟨c :: before, rest, rfl, fun y => ?_⟩
      -- A mark at the front would end in the front as well.
      have hy : mark.isPrefixOf (c :: (before ++ (mark ++ rest) ++ y)) = false := by
        rw [← Bool.not_eq_true, List.isPrefixOf_iff_prefix] at hfound ⊢
        intro hpre
        apply hfound
        have hle : mark.length ≤ (c :: (before ++ (mark ++ rest))).length := by
          simp only [List.length_cons, List.length_append]
          omega
        have hfront := List.prefix_of_prefix_length_le hpre
          (List.prefix_append (c :: (before ++ (mark ++ rest))) y) hle
        exact hfront.trans (List.prefix_append (c :: (before ++ (mark ++ rest))) x)
      rw [List.cons_append, skipPast_of_not_isPrefixOf hy, hskip y]
      simp only [List.cons_append, List.length_cons, mk.injEq, and_true]
      omega

end Piece

end ConfigAtlas
