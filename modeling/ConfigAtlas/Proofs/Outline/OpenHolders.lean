import Mathlib
import ConfigAtlas.Proofs.Outline.Ancestry

/-!
# What is open between two lines

The holders that are open form a stack of paths, each one step longer than the one below it, and
never less deep. The lists that may go on are those of the open items, and each counts the item
that is open.
-/

namespace ConfigAtlas.Outline.Context

variable {ctx : Context} {tree : Set (List Segment)}

/-! ## The stack -/

/-- Innermost first. Only an item is as deep as the holder below it, which is then the key that
its list belongs to. -/
structure Stacked (holders : List Holder) : Prop where
  sorted : holders.Pairwise fun h outer => outer.depth ≤ h.depth
  level : holders.IsChain fun h outer =>
    outer.depth = h.depth → outer.isItem = false ∧ h.isItem = true
  paths : (holders.map Holder.path ++ [Path.root]).IsChain fun path outer =>
    ∃ s, path = outer.push s
  lengths : ∀ h outer, h :: outer <:+ holders → h.path.length = outer.length + 1

namespace Stacked

theorem nil : Stacked [] where
  sorted := .nil
  level := .nil
  paths := .singleton _
  lengths := by simp

theorem length_base (h : Stacked ctx.holders) : ctx.base.length = ctx.holders.length := by
  unfold Context.base
  split
  · rename_i hnil
    rw [hnil]
    rfl
  · rename_i holder outer houter
    rw [houter]
    exact h.lengths holder outer (by rw [houter])

theorem depth_le (h : Stacked ctx.holders) {depth : Nat}
    (hfront : ∀ holder ∈ ctx.holders.head?, holder.depth ≤ depth) :
    ∀ holder ∈ ctx.holders, holder.depth ≤ depth := by
  intro holder hholder
  have hsorted := h.sorted
  cases hholders : ctx.holders with
  | nil =>
    rw [hholders] at hholder
    cases hholder
  | cons front rest =>
    rw [hholders] at hsorted hholder
    have hle : front.depth ≤ depth := hfront front (by rw [hholders]; rfl)
    rcases List.mem_cons.mp hholder with rfl | hholder
    · exact hle
    · exact (List.rel_of_pairwise_cons hsorted hholder).trans hle

theorem push (h : Stacked ctx.holders) (s : Segment) {depth : Nat} {isItem : Bool}
    (hdeep : ∀ holder ∈ ctx.holders.head?, holder.depth ≤ depth)
    (hlevel : ∀ holder ∈ ctx.holders.head?,
      holder.depth = depth → holder.isItem = false ∧ isItem = true) :
    Stacked (⟨ctx.base.push s, depth, isItem⟩ :: ctx.holders) where
  sorted := List.pairwise_cons.mpr ⟨h.depth_le hdeep, h.sorted⟩
  level := List.isChain_cons.mpr ⟨hlevel, h.level⟩
  paths := by
    rw [List.map_cons, List.cons_append, List.isChain_cons]
    refine ⟨?_, h.paths⟩
    intro outer houter
    refine ⟨s, ?_⟩
    -- What is outside of the new holder is the base its path is built on.
    suffices houter : outer = ctx.base by rw [houter]
    unfold Context.base
    split
    · rename_i hnil
      rw [hnil] at houter
      exact (Option.some.inj houter).symm
    · rename_i holder rest hholders
      rw [hholders] at houter
      exact (Option.some.inj houter).symm
  lengths := by
    intro holder outer hsuffix
    rcases List.suffix_cons_iff.mp hsuffix with heq | hsuffix
    · obtain ⟨rfl, rfl⟩ := List.cons.inj heq
      rw [← h.length_base]
      simp [Path.length]
    · exact h.lengths holder outer hsuffix

end Stacked

/-! ## The lists that may go on -/

/-- The lists that may go on are those of the open items, each with the index behind its item. -/
structure Counted (ctx : Context) : Prop where
  columns : ∀ column, (ctx.nextIndices.lookup column).isSome ↔
    ∃ h ∈ ctx.holders, h.isItem = true ∧ h.depth = column
  counters : ∀ h ∈ ctx.holders, h.isItem = true →
    ∃ n, h.path.last? = some (.index n) ∧ ctx.nextIndices.lookup h.depth = some (n + 1)

namespace Counted

theorem openPair (h : ctx.Counted) (path : Path) (depth : Nat) :
    (ctx.openPair path depth).Counted where
  columns := by
    intro column
    rw [Context.openPair, h.columns]
    simp
  counters := by
    intro holder hholder hitem
    rcases List.mem_cons.mp hholder with rfl | hholder
    · cases hitem
    · exact h.counters holder hholder hitem

theorem openElement (h : ctx.Counted) {depth : Nat}
    (hcolumns : ∀ counter ∈ ctx.nextIndices, counter.1 < depth) (n : Nat) :
    (ctx.openElement depth n).Counted where
  columns := by
    intro column
    rw [Context.openElement, List.lookup_cons]
    by_cases hcolumn : column = depth
    · simp [hcolumn]
    · rw [beq_eq_false_iff_ne.mpr hcolumn]
      simp [h.columns, Ne.symm hcolumn]
  counters := by
    intro holder hholder hitem
    rw [Context.openElement, List.lookup_cons]
    rcases List.mem_cons.mp hholder with rfl | hholder
    · exact ⟨n, by simp [Path.last?, Path.element], by simp⟩
    · -- An item that was open has its counter, so it is less deep than the new one.
      obtain ⟨m, hlast, hcounter⟩ := h.counters holder hholder hitem
      obtain ⟨before, after, hsplit, -⟩ := List.lookup_eq_some_iff.mp hcounter
      have hne : holder.depth ≠ depth := (hcolumns (holder.depth, m + 1) (by simp [hsplit])).ne
      rw [beq_eq_false_iff_ne.mpr hne]
      exact ⟨m, hlast, hcounter⟩

end Counted

/-! ## However a source is indented -/

section

variable {column : Nat}

theorem Shallow.depth_lt (h : Shallow column ctx) :
    ∀ holder ∈ ctx.holders.head?, holder.depth < column := by
  have hkept : ctx.holders.dropWhile (column ≤ ·.depth) = ctx.holders := congrArg holders h
  intro holder hholder
  obtain ⟨outer, houter⟩ := List.head?_eq_some_iff.mp hholder
  simpa using Lists.not_of_dropWhile_eq_cons (hkept.trans houter)

theorem ListShallow.front (h : ListShallow column ctx) : ∀ holder ∈ ctx.holders.head?,
    holder.depth ≤ column ∧ (holder.depth = column → holder.isItem = false) := by
  have hkept : ctx.holders.dropWhile
      (fun h => column < h.depth || (h.depth == column && h.isItem)) = ctx.holders :=
    congrArg holders h
  intro holder hholder
  obtain ⟨outer, houter⟩ := List.head?_eq_some_iff.mp hholder
  simpa using Lists.not_of_dropWhile_eq_cons (hkept.trans houter)

theorem ListShallow.column_lt (h : ListShallow column ctx) :
    ∀ counter ∈ ctx.nextIndices, counter.1 < column := by
  have hkept : ctx.nextIndices.filter (·.1 < column) = ctx.nextIndices := congrArg nextIndices h
  intro counter hcounter
  simpa using List.filter_eq_self.mp hkept counter hcounter

end

namespace Nested

theorem stacked (h : ctx.Nested tree) : Stacked ctx.holders := by
  induction h with
  | nothing => exact .nil
  | pair outer shallow mem ih =>
    have hfront := shallow.depth_lt
    exact ih.push _ (fun holder hholder => (hfront holder hholder).le)
      fun holder hholder hlevel => absurd hlevel (hfront holder hholder).ne
  | element outer shallow mem ih =>
    have hfront := shallow.front
    exact ih.push _ (fun holder hholder => (hfront holder hholder).1)
      fun holder hholder hlevel => ⟨(hfront holder hholder).2 hlevel, rfl⟩

theorem counted (h : ctx.Nested tree) : ctx.Counted := by
  induction h with
  | nothing => exact ⟨by simp, by simp⟩
  | pair outer shallow mem ih => exact ih.openPair _ _
  | element outer shallow mem ih => exact ih.openElement shallow.column_lt _

theorem path_mem (h : ctx.Nested tree) : ∀ holder ∈ ctx.holders, holder.path.segments ∈ tree := by
  induction h with
  | nothing => simp
  | pair outer shallow mem ih => exact List.forall_mem_cons.mpr ⟨mem, ih⟩
  | element outer shallow mem ih => exact List.forall_mem_cons.mpr ⟨mem, ih⟩

end Nested

theorem contains_of_placed {found : List Finding} {p : Path} (hroot : p.isRoot = false)
    (h : p.segments ∈ placedSteps found) : (Atlas.ofFindings found).contains p = true := by
  obtain ⟨r, hr, hsegments⟩ := h
  rw [Atlas.ofFindings, Atlas.contains_ofRecords_iff]
  refine ⟨r, Finding.mem_filterMap_record?.mpr hr, ?_, ?_⟩
  · rw [Path.isRoot, hsegments]
    exact hroot
  · rw [Path.filed, hsegments, Path.filed]

/-- Between any two lines of a source, the open holders form a stack of paths on record, and the
lists that may go on are those of the open items. -/
theorem holders_between_lines (content : List Char) (k : Nat) :
    Stacked (Context.run {} ((Line.ofContent content).take k)).1.holders ∧
      (Context.run {} ((Line.ofContent content).take k)).1.Counted ∧
      ∀ h ∈ (Context.run {} ((Line.ofContent content).take k)).1.holders,
        (Atlas.ofFindings (Context.run {} ((Line.ofContent content).take k)).2).contains h.path =
          true := by
  have hnested := (rooted_empty.run ((Line.ofContent content).take k)).nested
  refine ⟨hnested.stacked, hnested.counted, ?_⟩
  intro h hh
  apply contains_of_placed
  · obtain ⟨front, outer, hsplit⟩ := List.append_of_mem hh
    have hlength := hnested.stacked.lengths h outer (hsplit ▸ List.suffix_append _ _)
    rw [Path.isRoot, List.isEmpty_eq_false_iff]
    rintro hnil
    simp [Path.length, hnil] at hlength
  · exact hnested.path_mem h hh

end ConfigAtlas.Outline.Context
