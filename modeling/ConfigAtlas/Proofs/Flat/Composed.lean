import ConfigAtlas.Flat.Context
import ConfigAtlas.Proofs.Path.Composed
import ConfigAtlas.Proofs.Text.Lines

/-! # No array of a flat source has more tables than the source has characters -/

namespace ConfigAtlas.Flat

variable {limit used : Nat}

theorem composed_keyPath {base : Path} (h : base.Composed limit) (key : List Char) :
    (keyPath base key).Composed limit := by
  unfold keyPath
  induction KeyScan.names {} key generalizing base with
  | nil => exact h
  | cons name rest ih => exact ih (h.field _)

theorem ne_nil_of_read_table {text : List Char} {name : Piece}
    (h : Statement.read text = .table name) : text ≠ [] := by
  rintro rfl
  cases h

namespace Context

/-- After so many characters. -/
structure CountsTo (limit used : Nat) (ctx : Context) : Prop where
  current : ctx.current.Composed limit
  tables_le : ∀ row ∈ ctx.tables, row.2 ≤ used

variable {ctx : Context}

theorem countsTo_empty : CountsTo limit 0 {} := ⟨Path.composed_root, by simp⟩

namespace CountsTo

theorem mono (h : ctx.CountsTo limit used) {later : Nat} (hle : used ≤ later) :
    ctx.CountsTo limit later :=
  ⟨h.current, fun row hrow => (h.tables_le row hrow).trans hle⟩

theorem tableCount_le (h : ctx.CountsTo limit used) (array : Path) :
    ctx.tableCount array ≤ used := by
  unfold tableCount
  cases hlookup : ctx.tables.lookup array.address with
  | none => exact Nat.zero_le used
  | some n =>
    obtain ⟨before, after, htables, -⟩ := List.lookup_eq_some_iff.mp hlookup
    exact h.tables_le (array.address, n) (by simp [htables])

theorem openTable (h : ctx.CountsTo limit used) (hlimit : used < limit) {array : Path}
    (harray : array.Composed limit) : (ctx.openTable array).CountsTo limit (used + 1) where
  current := harray.element (Nat.lt_of_le_of_lt (h.tableCount_le array) hlimit)
  tables_le := by
    intro row hrow
    rcases List.mem_cons.mp hrow with rfl | hrow
    · exact Nat.succ_le_succ (h.tableCount_le array)
    · exact (h.tables_le row hrow).trans (Nat.le_succ used)

theorem step (h : ctx.CountsTo limit used) (line : Line)
    (hlimit : used + line.text.length < limit) :
    (ctx.step line).1.CountsTo limit (used + line.text.length) ∧
      ComposedIn limit (ctx.step line).2 := by
  have hsame := h.mono (Nat.le_add_right used line.text.length)
  unfold Context.step
  split
  · exact ⟨hsame, composedIn_nil⟩
  · rename_i name hread
    have hpos := List.length_pos_iff.mpr (ne_nil_of_read_table hread)
    have hopened := h.openTable (by omega) (composed_keyPath Path.composed_root name.text)
    exact ⟨hopened.mono (by omega), composedIn_nil⟩
  · exact ⟨⟨composed_keyPath Path.composed_root _, hsame.tables_le⟩, composedIn_nil⟩
  · exact ⟨hsame, composedIn_singleton (composed_keyPath h.current _) _⟩
  · exact ⟨hsame, by simp [ComposedIn]⟩

theorem run (h : ctx.CountsTo limit used) {lines : List Line}
    (hlimit : used + (lines.flatMap Line.text).length < limit) :
    ComposedIn limit (ctx.run lines).2 := by
  induction lines generalizing ctx used with
  | nil => exact composedIn_nil
  | cons line rest ih =>
    rw [List.flatMap_cons, List.length_append] at hlimit
    obtain ⟨hnext, hfound⟩ := h.step line (by omega)
    exact hfound.append (ih hnext (by omega))

end CountsTo

end Context

theorem composedIn_findings {content : List Char} (h : content.length < limit) :
    ComposedIn limit (findings content) := by
  have hlines := Line.length_flatMap_ofContent_le content
  exact Context.countsTo_empty.run (by omega)

end ConfigAtlas.Flat
