import Mathlib
import ConfigAtlas.Proofs.Outline.Ancestry
import ConfigAtlas.Proofs.Outline.FlowList
import ConfigAtlas.Proofs.Path.Branches
import ConfigAtlas.Proofs.Place.Renumbered

/-!
# The order of what one line places

What nests on a line comes from the outside in, with one exception: the elements of a list in
brackets come before the entry whose value the list is.
-/

namespace ConfigAtlas.Outline

/-- An element of the list in brackets that the other record has for its value. -/
def ElementOf (r q : Record) : Prop :=
  ∃ value, q.place.value? = some value ∧
    r ∈ itemRecords ⟨q.place.line, q.place.raw.toList⟩ q.path
      (inlinePieces ⟨value.column, value.text.toList⟩)

theorem ElementOf.inside {r q : Record} (h : ElementOf r q) : r.path.Inside q.path := by
  obtain ⟨value, -, hr⟩ := h
  obtain ⟨i, hi, rfl⟩ := List.mem_mapIdx.mp hr
  exact q.path.inside_push (.index i)

/-- What holds of a record and a later one of the same line. -/
def InLineOrder (r q : Record) : Prop :=
  (r.path.Inside q.path ↔ ElementOf r q) ∧ ¬ ElementOf q r

section

variable {r q : Record}

theorem inLineOrder_of_elementOf (h : ElementOf r q) : InLineOrder r q :=
  ⟨⟨fun _ => h, fun _ => h.inside⟩,
    fun hback => Nat.lt_asymm h.inside.length_lt hback.inside.length_lt⟩

theorem inLineOrder_of_outer (hpath : ¬ r.path.Inside q.path) (hvalue : ¬ ElementOf q r) :
    InLineOrder r q :=
  ⟨⟨fun h => absurd h hpath, fun h => absurd h.inside hpath⟩, hvalue⟩

theorem inLineOrder_of_length_eq (h : r.path.segments.length = q.path.segments.length) :
    InLineOrder r q := by
  apply inLineOrder_of_outer
  · intro hinside
    exact Nat.ne_of_gt hinside.length_lt h
  · intro helement
    exact Nat.ne_of_lt helement.inside.length_lt h

end

/-! ## What one call places -/

/-- Records of one line, in their order, of the path and of what is inside it. -/
structure OrderedAt (path : Path) (rs : List Record) : Prop where
  ordered : rs.Pairwise InLineOrder
  inside : ∀ r ∈ rs, path.segments <+: r.path.segments

theorem orderedAt_singleton (path : Path) (place : Place) : OrderedAt path [⟨path, place⟩] :=
  ⟨List.pairwise_singleton _ _, by simp⟩

theorem OrderedAt.cons_bare {path inner : Path} {rs : List Record} (h : OrderedAt inner rs)
    (hinner : inner.Inside path) (line : Line) :
    OrderedAt path (⟨path, line.place none none⟩ :: rs) where
  ordered := by
    refine List.pairwise_cons.mpr ⟨?_, h.ordered⟩
    intro q hq
    apply inLineOrder_of_outer
    · intro hinside
      have hback : q.path.segments.length < path.segments.length := hinside.length_lt
      have := (h.inside q hq).length_le
      have := hinner.length_lt
      omega
    · rintro ⟨value, hvalue, -⟩
      cases hvalue
  inside := by
    intro q hq
    rcases List.mem_cons.mp hq with rfl | hq
    · exact List.prefix_rfl
    · exact hinner.1.trans (h.inside q hq)

theorem orderedAt_items (line : Line) (path : Path) (key? : Option Piece) (value : Piece) :
    OrderedAt path (itemRecords line path (inlinePieces value) ++
      [⟨path, line.place key? (some value)⟩]) := by
  have hitem : ∀ r ∈ itemRecords line path (inlinePieces value),
      ∃ i, r.path = path.element i := by
    intro r hr
    obtain ⟨i, hi, rfl⟩ := List.mem_mapIdx.mp hr
    exact ⟨i, rfl⟩
  constructor
  · refine List.pairwise_append.mpr ⟨?_, List.pairwise_singleton _ _, ?_⟩
    · rw [List.pairwise_iff_forall_sublist]
      intro r q hsub
      obtain ⟨i, hi⟩ := hitem r (hsub.subset (by simp))
      obtain ⟨j, hj⟩ := hitem q (hsub.subset (by simp))
      apply inLineOrder_of_length_eq
      rw [hi, hj]
      simp [Path.element]
    · intro r hr q hq
      rw [List.mem_singleton.mp hq]
      apply inLineOrder_of_elementOf
      refine ⟨value.span, rfl, ?_⟩
      simp only [Line.place, Piece.of_span, String.toList_ofList]
      exact hr
  · intro r hr
    rcases List.mem_append.mp hr with hr | hr
    · obtain ⟨i, hi⟩ := hitem r hr
      rw [hi]
      exact (path.inside_push (.index i)).1
    · rw [List.mem_singleton.mp hr]

namespace Context

variable {ctx : Context} {line : Line}

theorem orderedAt_placeValue (path : Path) (depth : Nat) (key? : Option Piece) (value : Piece) :
    OrderedAt path (Scan.placed (ctx.placeValue line path depth key? value).2) := by
  unfold placeValue
  simp only
  split
  · exact orderedAt_singleton path _
  · rw [inlineItems_eq, Scan.placed_append, Scan.placed, Finding.filterMap_record?_placed]
    exact orderedAt_items line path key? value

theorem orderedAt_placePair (pair : Pair) (base : Path) :
    OrderedAt (base.field (String.ofList (Text.unquote pair.key.text)))
      (Scan.placed (ctx.placePair line pair base).2) := by
  unfold placePair
  simp only
  split
  · exact orderedAt_singleton _ _
  · exact orderedAt_placeValue _ _ _ _

theorem base_openItem_openItem (ctx : Context) {depth inner : Nat} (hdepth : depth < inner) :
    ((ctx.openItem depth).openItem inner).base =
      (ctx.openItem depth).base.element ((ctx.openItem depth).nextIndex inner) := by
  have hopen : (ctx.openItem depth).closeForItem inner = ctx.openItem depth :=
    (Rooted.shallow_openItem ctx hdepth).listShallow
  rw [openItem_eq (ctx.openItem depth), base_openElement, hopen]

theorem orderedAt_placeItem {marker : Piece} (hmarker : marker.PartOf (.whole line.text)) :
    OrderedAt (ctx.openItem (line.depth marker.start)).base
      (Scan.placed (ctx.placeItem line marker).2) := by
  fun_induction Context.placeItem ctx line marker with
  | case1 ctx marker depth opened path => exact orderedAt_singleton path _
  | case2 ctx marker depth opened path bare hread hlt next found hnext ih =>
    have hne : marker.text ≠ [] := List.length_pos_iff.mp (Nat.zero_lt_of_lt hlt)
    have hdepth : depth < line.depth (afterMarker marker).start :=
      depth_lt_afterMarker hmarker hne
    have hinner := ih ((afterMarker_part marker).trans hmarker)
    rw [hnext, base_openItem_openItem ctx hdepth] at hinner
    exact hinner.cons_bare (path.inside_push _) line
  | case3 ctx marker depth opened path bare pair hread next found hnext =>
    have hinner : OrderedAt _ (Scan.placed (opened.placePair line pair path).2) :=
      orderedAt_placePair pair path
    rw [hnext] at hinner
    exact hinner.cons_bare (path.inside_push _) line
  | case4 ctx marker depth opened path value =>
    exact orderedAt_placeValue path depth none value

theorem ordered_step (ctx : Context) (line : Line) :
    (Scan.placed (ctx.step line).2).Pairwise InLineOrder := by
  unfold step
  split
  · exact List.Pairwise.nil
  · simp only
    split
    · exact List.Pairwise.nil
    · split
      · exact List.Pairwise.nil
      · exact (orderedAt_placeItem (.drop _ _)).ordered
      · exact (orderedAt_placePair _ _).ordered
      · exact List.Pairwise.nil

theorem line_of_mem_step {ctx : Context} {r : Record} (h : r ∈ Scan.placed (ctx.step line).2) :
    r.place.line = line.number :=
  (shows_step (Finding.mem_filterMap_record?.mp h)).line_eq

end Context

end ConfigAtlas.Outline
