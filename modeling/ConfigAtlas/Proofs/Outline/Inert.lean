import Mathlib.Data.List.TakeWhile
import ConfigAtlas.Proofs.Outline.Rows
import ConfigAtlas.Proofs.Place.Renumbered

/-!
# Lines of outline sources that carry no entry

What such a line is depends on the block of text that is open where it stands.
-/

namespace ConfigAtlas.Outline

/-- The line is blank, a comment, a document marker or a directive, or neither an item nor a
pair. -/
inductive NoEntry (row : List Char) : Prop where
  | blank (h : ∀ c ∈ row, Text.isBlank c = true)
  | comment (h : (Text.trimStart row).head? = some '#')
  | directive (h : Statement.isDirective (Text.trimStart row) = true)
  | unread (hitem : Statement.isMarker (Text.trimStart row) = false)
      (hpair : Pair.read? ((Piece.whole row).drop (row.takeWhile isGap).length) = none)

theorem trimStart_drop_gap (row : List Char) :
    Text.trimStart ((Piece.whole row).drop (row.takeWhile isGap).length).text =
      Text.trimStart row := by
  have hgap : ∀ c, isGap c = true → Text.isBlank c = true := by
    intro c hc
    rw [isGap, Bool.or_eq_true, beq_iff_eq, beq_iff_eq] at hc
    rcases hc with rfl | rfl <;> decide
  have htext : ((Piece.whole row).drop (row.takeWhile isGap).length).text =
      row.dropWhile isGap := by
    rw [Piece.text_drop]
    exact Lists.drop_length_takeWhile isGap row
  rw [htext]
  exact Lists.dropWhile_dropWhile hgap row

theorem NoEntry.read_front {row : List Char} (h : NoEntry row)
    (hdirective : Statement.isDirective (Text.trimStart row) = false) :
    Statement.read ((Piece.whole row).drop (row.takeWhile isGap).length) = .blank ∨
      ∃ value, Statement.read ((Piece.whole row).drop (row.takeWhile isGap).length) =
        .scalar value := by
  unfold Statement.read
  simp only [trimStart_drop_gap]
  cases h with
  | blank h =>
    have htrim : Text.trimStart row = [] := List.dropWhile_eq_nil_iff.mpr h
    simp [htrim]
  | comment h => simp [h]
  | directive h =>
    rw [hdirective] at h
    cases h
  | unread hitem hpair =>
    simp only [hitem, hpair]
    split
    · exact .inl rfl
    · exact .inr ⟨_, rfl⟩

/-- Inside a block of text the line is blank or deeper than the entry that the block belongs to,
and outside it says nothing about an entry. -/
inductive Context.Inert (ctx : Context) (row : List Char) : Prop where
  | inBlock {depth : Nat} (hblock : ctx.block? = some depth)
      (h : (∀ c ∈ row, Text.isBlank c = true) ∨ depth < (row.takeWhile isGap).length)
  | outside (hblock : ctx.block? = none) (h : NoEntry row)

namespace Context

theorem run_eq_scan (ctx : Context) (lines : List Line) :
    ctx.run lines = Scan.run Context.step ctx lines := by
  induction lines generalizing ctx with
  | nil => rfl
  | cons line rest ih => simp only [run, Scan.run, ih]

theorem findings_eq_scan (content : List Char) :
    findings content = (Scan.run step {} (Line.ofContent content)).2 :=
  congrArg Prod.snd (run_eq_scan {} _)

section

variable (ctx : Context) (line : Line) (f : Nat → Nat)

theorem inlineItems_renumber (path : Path) (value : Piece) :
    inlineItems (line.renumber f) path value =
      (inlineItems line path value).map (·.renumber f) := by
  unfold inlineItems
  split
  · rfl
  · split
    · rfl
    · rw [List.mapIdx_eq_zipIdx_map, List.mapIdx_eq_zipIdx_map, List.map_map]
      rfl

theorem placeValue_renumber (path : Path) (depth : Nat) (key? : Option Piece) (value : Piece) :
    ctx.placeValue (line.renumber f) path depth key? value =
      ((ctx.placeValue line path depth key? value).1,
        (ctx.placeValue line path depth key? value).2.map (·.renumber f)) := by
  unfold placeValue
  simp only
  split
  · rfl
  · rw [inlineItems_renumber, List.map_append]
    rfl

theorem placePair_renumber (pair : Pair) (base : Path) :
    ctx.placePair (line.renumber f) pair base =
      ((ctx.placePair line pair base).1, (ctx.placePair line pair base).2.map (·.renumber f)) := by
  unfold placePair
  simp only
  split
  · rfl
  · exact placeValue_renumber _ line f _ _ _ _

theorem placeItem_renumber (marker : Piece) :
    ctx.placeItem (line.renumber f) marker =
      ((ctx.placeItem line marker).1, (ctx.placeItem line marker).2.map (·.renumber f)) := by
  fun_induction placeItem ctx line marker with
  | case1 ctx marker depth opened path bare hread =>
    rw [placeItem_eq]
    simp only [hread]
    rfl
  | case2 ctx marker depth opened path bare hread hlt next found hnext ih =>
    have hopened : ctx.openItem ((line.renumber f).depth marker.start) = opened := rfl
    rw [hnext] at ih
    rw [placeItem_eq]
    simp only [hread, enter, hopened, ih]
    rfl
  | case3 ctx marker depth opened path bare pair hread next found hnext =>
    have hopened : ctx.openItem ((line.renumber f).depth marker.start) = opened := rfl
    have hpair := placePair_renumber opened line f pair path
    rw [hnext] at hpair
    rw [placeItem_eq]
    simp only [hread, enter, hopened, path, hpair]
    rfl
  | case4 ctx marker depth opened path value hread =>
    rw [placeItem_eq]
    simp only [hread]
    exact placeValue_renumber _ line f _ _ _ _

end

theorem handsOn_step : Scan.HandsOn step := by
  intro ctx line f
  have htext : (line.renumber f).text = line.text := rfl
  unfold step
  simp only [htext]
  split
  · rfl
  · split
    · rfl
    · split
      · rfl
      · exact placeItem_renumber _ line f _
      · exact placePair_renumber _ line f _ _
      · rfl

theorem Inert.silent {ctx : Context} {row : List Char} (h : ctx.Inert row) :
    Scan.Silent step ctx row := by
  intro n
  cases h with
  | inBlock hblock hrow =>
    have htrim : (∀ c ∈ row, Text.isBlank c = true) → Text.trimStart row = [] :=
      List.dropWhile_eq_nil_iff.mpr
    have hpasses : ctx.passesOver row = true := by
      simp only [passesOver, hblock, Bool.or_eq_true, List.isEmpty_iff, decide_eq_true_eq]
      exact hrow.imp_left htrim
    simp [step, hpasses, Scan.placed]
  | outside hblock hrow =>
    have hpasses : ctx.passesOver row = false := by simp only [passesOver, hblock]
    have hctx : { ctx with block? := none } = ctx := by rw [← hblock]
    simp only [step, hpasses, hctx, Bool.false_eq_true, if_false]
    split
    · exact ⟨rfl, rfl⟩
    · rename_i hdirective
      obtain hread | ⟨value, hread⟩ := hrow.read_front (by simpa using hdirective) <;>
        rw [hread] <;> exact ⟨rfl, rfl⟩

theorem inert_nil (ctx : Context) : ctx.Inert [] := by
  cases hblock : ctx.block? with
  | none => exact .outside hblock (.blank (by simp))
  | some depth => exact .inBlock hblock (.inl (by simp))

end Context

end ConfigAtlas.Outline
