import Mathlib
import ConfigAtlas.Proofs.Outline.Nesting
import ConfigAtlas.Proofs.Outline.Spans
import ConfigAtlas.Proofs.Path.Composed
import ConfigAtlas.Proofs.Text.Lines

/-! # No list of an outline source has more items than the source has characters -/

namespace ConfigAtlas.Outline

open Piece (PartOf)

variable {limit used : Nat} {line : Line}

theorem composedIn_inlineItems {path : Path} (hpath : path.Composed limit) {value : Piece}
    (hvalue : value.text.length < limit) : ComposedIn limit (inlineItems line path value) := by
  unfold inlineItems
  split
  · exact composedIn_nil
  · rename_i list hlist
    split
    · exact composedIn_nil
    · intro r hr
      obtain ⟨i, hi, hplaced⟩ := List.mem_mapIdx.mp hr
      cases hplaced
      have helements := list.length_elements_le
      have hlength := (PartOf.between? hlist).length_le
      exact hpath.element (by omega)

namespace Context

/-- After so many characters. -/
structure CountsTo (limit used : Nat) (ctx : Context) : Prop where
  holders : ∀ holder ∈ ctx.holders, holder.path.Composed limit
  next_le : ∀ entry ∈ ctx.nextIndices, entry.2 ≤ used

variable {ctx : Context}

theorem countsTo_empty : CountsTo limit 0 {} := ⟨by simp, by simp⟩

namespace CountsTo

theorem mono (h : ctx.CountsTo limit used) {later : Nat} (hle : used ≤ later) :
    ctx.CountsTo limit later :=
  ⟨h.holders, fun entry hentry => (h.next_le entry hentry).trans hle⟩

theorem withBlock (h : ctx.CountsTo limit used) (block? : Option Nat) :
    CountsTo limit used { ctx with block? := block? } := ⟨h.holders, h.next_le⟩

theorem base (h : ctx.CountsTo limit used) : ctx.base.Composed limit := by
  unfold Context.base
  split
  · exact Path.composed_root
  · rename_i holder outer hholders
    exact h.holders holder (by simp [hholders])

theorem closeForPair (h : ctx.CountsTo limit used) (depth : Nat) :
    (ctx.closeForPair depth).CountsTo limit used where
  holders := fun holder hholder => h.holders holder ((List.dropWhile_sublist _).mem hholder)
  next_le := fun entry hentry => h.next_le entry (List.mem_filter.mp hentry).1

theorem closeForItem (h : ctx.CountsTo limit used) (depth : Nat) :
    (ctx.closeForItem depth).CountsTo limit used where
  holders := fun holder hholder => h.holders holder ((List.dropWhile_sublist _).mem hholder)
  next_le := fun entry hentry => h.next_le entry (List.mem_filter.mp hentry).1

theorem nextIndex_le (h : ctx.CountsTo limit used) (depth : Nat) :
    ctx.nextIndex depth ≤ used := by
  unfold nextIndex
  cases hlookup : ctx.nextIndices.lookup depth with
  | none => exact Nat.zero_le used
  | some n =>
    obtain ⟨before, after, hnext, -⟩ := List.lookup_eq_some_iff.mp hlookup
    exact h.next_le (depth, n) (by simp [hnext])

theorem openPair (h : ctx.CountsTo limit used) {path : Path} (hpath : path.Composed limit)
    (depth : Nat) : (ctx.openPair path depth).CountsTo limit used where
  holders := by
    intro holder hholder
    rcases List.mem_cons.mp hholder with rfl | hholder
    · exact hpath
    · exact h.holders holder hholder
  next_le := h.next_le

theorem openItem (h : ctx.CountsTo limit used) (hlimit : used < limit) (depth : Nat) :
    (ctx.openItem depth).CountsTo limit (used + 1) := by
  have hclosed := h.closeForItem depth
  have hnext := h.nextIndex_le depth
  rw [openItem_eq]
  refine ⟨?_, ?_⟩
  · intro holder hholder
    rcases List.mem_cons.mp hholder with rfl | hholder
    · exact hclosed.base.element (Nat.lt_of_le_of_lt hnext hlimit)
    · exact hclosed.holders holder hholder
  · intro entry hentry
    rcases List.mem_cons.mp hentry with rfl | hentry
    · exact Nat.succ_le_succ hnext
    · exact (hclosed.next_le entry hentry).trans (Nat.le_succ used)

theorem placeValue (h : ctx.CountsTo limit used) (line : Line) {path : Path}
    (hpath : path.Composed limit) {value : Piece} (hvalue : value.text.length < limit)
    (depth : Nat) (key? : Option Piece) :
    (ctx.placeValue line path depth key? value).1.CountsTo limit used ∧
      ComposedIn limit (ctx.placeValue line path depth key? value).2 := by
  have hplaced := composedIn_singleton hpath (line.place key? (some value))
  unfold Context.placeValue
  simp only
  split
  · exact ⟨h.withBlock _, hplaced⟩
  · exact ⟨h, (composedIn_inlineItems hpath hvalue).append hplaced⟩

theorem placePair (h : ctx.CountsTo limit used) (line : Line) {pair : Pair}
    (hpair : ∀ value ∈ pair.value?, value.text.length < limit) :
    (ctx.placePair line pair ctx.base).1.CountsTo limit used ∧
      ComposedIn limit (ctx.placePair line pair ctx.base).2 := by
  have hpath := h.base.field (String.ofList (Text.unquote pair.key.text))
  have hopened := h.openPair hpath (line.depth pair.key.start)
  unfold Context.placePair
  simp only
  split
  · exact ⟨hopened, composedIn_singleton hpath _⟩
  · rename_i value hvalue
    exact hopened.placeValue line hpath (hpair value hvalue) _ _

theorem value_lt {p : Piece} {pair : Pair} (hp : p.PartOf (.whole line.text))
    (hline : line.text.length < limit) (hread : Statement.read p = .pair pair) :
    ∀ value ∈ pair.value?, value.text.length < limit := by
  intro value hvalue
  have hcut := cutFrom_read hp
  rw [hread] at hcut
  exact Nat.lt_of_le_of_lt (hcut.value_part value hvalue).length_le hline

theorem placeItem (h : ctx.CountsTo limit used) {marker : Piece} (hne : marker.text ≠ [])
    (hmarker : marker.PartOf (.whole line.text)) (hline : line.text.length < limit)
    (hlimit : used + marker.text.length < limit) :
    (ctx.placeItem line marker).1.CountsTo limit (used + marker.text.length) ∧
      ComposedIn limit (ctx.placeItem line marker).2 := by
  have hpos := List.length_pos_iff.mpr hne
  fun_induction Context.placeItem ctx line marker generalizing used with
  | case1 ctx marker depth opened path =>
    have hopened := h.openItem (by omega) depth
    exact ⟨hopened.mono (by omega), composedIn_singleton hopened.base _⟩
  | case2 ctx marker depth opened path bare hread hlt next found hnext =>
    rename_i ih
    have hopened := h.openItem (by omega) depth
    have hbehind := Statement.text_ne_nil_of_read_eq_item hread
    simp only [Piece.length] at hlt
    -- What stands behind the marker is shorter than the marker, which pays for the next item.
    have hinner := ih hopened hbehind ((afterMarker_part marker).trans hmarker) (by omega)
      (List.length_pos_iff.mpr hbehind)
    rw [hnext] at hinner
    exact ⟨hinner.1.mono (by omega), (composedIn_singleton hopened.base _).append hinner.2⟩
  | case3 ctx marker depth opened path bare pair hread next found =>
    rename_i hnext
    have hopened := h.openItem (by omega) depth
    have hpair := value_lt ((afterMarker_part marker).trans hmarker) hline hread
    have hinner := hopened.placePair line hpair
    rw [hnext] at hinner
    exact ⟨hinner.1.mono (by omega), (composedIn_singleton hopened.base _).append hinner.2⟩
  | case4 ctx marker depth opened path value =>
    rename_i hread
    have hopened := h.openItem (by omega) depth
    have hcut := cutFrom_read ((afterMarker_part marker).trans hmarker)
    rw [hread] at hcut
    have hvalue := (hcut.value_part value rfl).length_le
    have hinner := hopened.placeValue line hopened.base (Nat.lt_of_le_of_lt hvalue hline) depth
      none
    exact ⟨hinner.1.mono (by omega), hinner.2⟩

theorem step (h : ctx.CountsTo limit used) (line : Line)
    (hlimit : used + line.text.length < limit) :
    (ctx.step line).1.CountsTo limit (used + line.text.length) ∧
      ComposedIn limit (ctx.step line).2 := by
  have hsame := h.mono (Nat.le_add_right used line.text.length)
  have hline : line.text.length < limit := by omega
  have hfront : ((Piece.whole line.text).drop (line.text.takeWhile isGap).length).PartOf
      (.whole line.text) := .drop _ _
  have hlength : ((Piece.whole line.text).drop
      (line.text.takeWhile isGap).length).text.length ≤ line.text.length := hfront.length_le
  unfold Context.step
  split
  · exact ⟨hsame, composedIn_nil⟩
  · simp only
    split
    · exact ⟨hsame.withBlock none, composedIn_nil⟩
    · split
      · exact ⟨hsame.withBlock none, composedIn_nil⟩
      · rename_i hread
        have hitem := (h.withBlock none).placeItem (Statement.text_ne_nil_of_read_eq_item hread)
          hfront hline (by omega)
        exact ⟨hitem.1.mono (by omega), hitem.2⟩
      · rename_i pair hread
        exact ((hsame.withBlock none).closeForPair _).placePair line (value_lt hfront hline hread)
      · exact ⟨hsame.withBlock none, by simp [ComposedIn]⟩

theorem run (h : ctx.CountsTo limit used) {lines : List Line}
    (hlimit : used + (lines.flatMap Line.text).length < limit) :
    ComposedIn limit (ctx.run lines).2 := by
  induction lines generalizing ctx used with
  | nil => exact composedIn_nil
  | cons line rest ih =>
    rw [List.flatMap_cons, List.length_append] at hlimit
    obtain ⟨hnext, hfound⟩ := h.step line (by omega)
    exact hfound.append (ih hnext (by omega))

end CountsTo

end Context

theorem composedIn_findings {content : List Char} (h : content.length < limit) :
    ComposedIn limit (findings content) := by
  have hlines := Line.length_flatMap_ofContent_le content
  exact Context.countsTo_empty.run (by omega)

end ConfigAtlas.Outline
