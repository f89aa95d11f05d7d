import Mathlib
import ConfigAtlas.Survey
import ConfigAtlas.Proofs.Atlas.Lookup
import ConfigAtlas.Proofs.Outline.Nesting
import ConfigAtlas.Proofs.Outline.Spans
import ConfigAtlas.Proofs.Path.Gapless
import ConfigAtlas.Proofs.Text.Bytes

/-!
# What an outline entry hangs on

However a source is indented, the holders that are open are on record, and each next index follows
an item on record. So the entries form a tree whose lists have no gaps.
-/

namespace ConfigAtlas.Outline

open Piece (PartOf)

/-! ## What is placed -/

/-- The steps of all that is placed. -/
def placedSteps (found : List Finding) : Set (List Segment) :=
  {steps | ∃ r, .placed r ∈ found ∧ r.path.segments = steps}

theorem mem_placedSteps {found : List Finding} {steps : List Segment} :
    steps ∈ placedSteps found ↔ ∃ r, .placed r ∈ found ∧ r.path.segments = steps := Iff.rfl

theorem placedSteps_append (found later : List Finding) :
    placedSteps (found ++ later) = placedSteps found ∪ placedSteps later := by
  ext steps
  simp only [mem_placedSteps, List.mem_append, or_and_right, exists_or, Set.mem_union]

theorem placedSteps_subset_append (found later : List Finding) :
    placedSteps found ⊆ placedSteps (found ++ later) := by
  rw [placedSteps_append]
  exact Set.subset_union_left

theorem placedSteps_singleton (r : Record) : placedSteps [.placed r] = {r.path.segments} := by
  ext steps
  simp only [mem_placedSteps, List.mem_singleton, Finding.placed.injEq, exists_eq_left,
    Set.mem_singleton_iff]
  exact eq_comm

theorem placedSteps_finite (found : List Finding) : (placedSteps found).Finite := by
  apply ((found.filterMap Finding.record?).map (·.path.segments)).finite_toSet.subset
  rintro steps ⟨r, hr, rfl⟩
  exact List.mem_map.mpr ⟨r, Finding.mem_filterMap_record?.mpr hr, rfl⟩

theorem placedSteps_inlineItems (line : Line) (path : Path) (value : Piece) :
    ∃ n, placedSteps (inlineItems line path value) = Path.items path.segments n := by
  have hnone : placedSteps [] = Path.items path.segments 0 := by
    simp [placedSteps, Path.items]
  unfold inlineItems
  split
  · exact ⟨0, hnone⟩
  · rename_i list _
    split
    · exact ⟨0, hnone⟩
    · refine ⟨list.elements.length, ?_⟩
      ext steps
      simp only [mem_placedSteps, Path.mem_items, List.mem_mapIdx, Finding.placed.injEq]
      constructor
      · rintro ⟨r, ⟨i, hi, rfl⟩, rfl⟩
        exact ⟨i, hi, Path.segments_push _ _⟩
      · rintro ⟨i, hi, rfl⟩
        exact ⟨_, ⟨i, hi, rfl⟩, Path.segments_push _ _⟩

namespace Context

variable {ctx : Context} {tree : Set (List Segment)} {earlier : List Finding} {line : Line}

/-- Places the path, and the first items of a list below it. -/
def Places (found : List Finding) (path : Path) : Prop :=
  ∃ n, placedSteps found = {path.segments} ∪ Path.items path.segments n

theorem places_singleton (path : Path) (place : Place) : Places [.placed ⟨path, place⟩] path := by
  refine ⟨0, ?_⟩
  rw [placedSteps_singleton]
  simp [Path.items]

theorem placeValue_eq (ctx : Context) (line : Line) (path : Path) (depth : Nat)
    (key? : Option Piece) (value : Piece) :
    ∃ block? found, ctx.placeValue line path depth key? value =
      ({ ctx with block? := block? }, found) ∧ Places found path := by
  unfold placeValue
  simp only
  split
  · exact ⟨some depth, _, rfl, places_singleton path _⟩
  · refine ⟨ctx.block?, _, rfl, ?_⟩
    obtain ⟨n, hn⟩ := placedSteps_inlineItems line path value
    refine ⟨n, ?_⟩
    rw [placedSteps_append, placedSteps_singleton, hn, Set.union_comm]

theorem placePair_eq (ctx : Context) (line : Line) (pair : Pair) (base : Path) :
    ∃ name block? found, ctx.placePair line pair base =
      ({ ctx.openPair (base.field name) (line.depth pair.key.start) with block? := block? },
        found) ∧ Places found (base.field name) := by
  refine ⟨String.ofList (Text.unquote pair.key.text), ?_⟩
  unfold placePair
  simp only
  split
  · exact ⟨ctx.block?, _, rfl, places_singleton _ _⟩
  · exact placeValue_eq (ctx.openPair _ _) line _ _ _ _

/-! ## What is open -/

/-- A context that is reached by opening one holder after the other, each deeper than those it
was opened in, and each on record. -/
inductive Nested (tree : Set (List Segment)) : Context → Prop where
  | nothing (block? : Option Nat) : Nested tree { block? := block? }
  | pair {ctx : Context} {depth : Nat} {name : String} (outer : Nested tree ctx)
      (shallow : Shallow depth ctx) (mem : (ctx.base.field name).segments ∈ tree) :
      Nested tree (ctx.openPair (ctx.base.field name) depth)
  | element {ctx : Context} {depth n : Nat} (outer : Nested tree ctx)
      (shallow : ListShallow depth ctx) (mem : (ctx.base.element n).segments ∈ tree) :
      Nested tree (ctx.openElement depth n)

namespace Nested

theorem mono (h : ctx.Nested tree) {wider : Set (List Segment)} (hsub : tree ⊆ wider) :
    ctx.Nested wider := by
  induction h with
  | nothing block? => exact .nothing block?
  | pair outer shallow mem ih => exact ih.pair shallow (hsub mem)
  | element outer shallow mem ih => exact ih.element shallow (hsub mem)

theorem withBlock (h : ctx.Nested tree) (block? : Option Nat) :
    Nested tree { ctx with block? := block? } := by
  induction h with
  | nothing => exact .nothing block?
  | pair outer shallow mem ih =>
    exact ih.pair (shallow.withBlock block?) mem
  | element outer shallow mem ih =>
    exact ih.element (shallow.withBlock block?) mem

theorem base_mem (h : ctx.Nested tree) : ctx.base.segments = [] ∨ ctx.base.segments ∈ tree := by
  cases h with
  | nothing => exact .inl rfl
  | pair outer shallow mem => exact .inr mem
  | element outer shallow mem => exact .inr mem

theorem closeForPair (h : ctx.Nested tree) (c : Nat) : (ctx.closeForPair c).Nested tree := by
  induction h with
  | nothing block? => exact .nothing block?
  | @pair ctx depth name outer shallow mem ih =>
    rcases Nat.lt_or_ge depth c with hlt | hge
    · rw [shallow.openPair _ hlt]
      exact outer.pair shallow mem
    · rw [closeForPair_congr hge (closeForPair_openPair _ ctx)]
      exact ih
  | @element ctx depth n outer shallow mem ih =>
    rcases Nat.lt_or_ge depth c with hlt | hge
    · rw [shallow.openElement n hlt]
      exact outer.element shallow mem
    · rw [closeForPair_congr hge (closeForPair_openElement n ctx)]
      exact ih

theorem closeForItem (h : ctx.Nested tree) (c : Nat) : (ctx.closeForItem c).Nested tree := by
  induction h with
  | nothing block? => exact .nothing block?
  | pair outer shallow mem ih =>
    obtain ⟨hopen, -⟩ | ⟨hclosed, -⟩ := shallow.openPair_at _ c
    · rw [hopen]
      exact outer.pair shallow mem
    · rw [hclosed]
      exact ih
  | element outer shallow mem ih =>
    obtain ⟨hopen, -⟩ | ⟨hlist, -⟩ | ⟨hclosed, -⟩ := shallow.openElement_at _ c
    · rw [hopen]
      exact outer.element shallow mem
    · rw [hlist]
      exact outer
    · rw [hclosed]
      exact ih

theorem nextIndex_mem (h : ctx.Nested tree) {c n : Nat} (hn : ctx.nextIndex c = n + 1) :
    ((ctx.closeForItem c).base.element n).segments ∈ tree := by
  induction h with
  | nothing => cases hn
  | pair outer shallow mem ih =>
    obtain ⟨-, hnext⟩ | ⟨hclosed, hnext⟩ := shallow.openPair_at _ c
    · rw [hnext] at hn
      cases hn
    · rw [hclosed]
      exact ih (hnext ▸ hn)
  | element outer shallow mem ih =>
    obtain ⟨-, hnext⟩ | ⟨hlist, hnext⟩ | ⟨hclosed, hnext⟩ := shallow.openElement_at _ c
    · rw [hnext] at hn
      cases hn
    · rw [hnext] at hn
      cases hn
      rw [hlist]
      exact mem
    · rw [hclosed]
      exact ih (hnext ▸ hn)

end Nested

/-! ## What a line adds -/

theorem depth_lt_afterMarker {marker : Piece} (hmarker : marker.PartOf (.whole line.text))
    (hne : marker.text ≠ []) :
    line.depth marker.start < line.depth (afterMarker marker).start := by
  have hstop : marker.stop ≤ line.text.length := hmarker.within.1
  have hpos := List.length_pos_iff.mpr hne
  have hafter : marker.start < (afterMarker marker).start := by
    unfold afterMarker
    split
    · rename_i hnil
      exact absurd hnil hne
    · calc marker.start
        _ < (marker.drop 1).start := Piece.start_lt_drop_one hne
        _ ≤ _ := ((PartOf.trimStart _).trans (PartOf.take (marker.drop 1) _)).start_le
  apply Text.byteSize_take_lt hafter
  rw [Piece.stop] at hstop
  omega

theorem start_key_of_read? {p : Piece} {pair : Pair} (h : Pair.read? p = some pair) :
    pair.key.start = p.start := by
  unfold Pair.read? at h
  split at h
  · cases h
  · simp only at h
    split at h
    · cases h
    · split at h
      · split at h
        · cases h
          rfl
        · cases h
      · cases h

theorem start_key_of_read {p : Piece} {pair : Pair} (h : Statement.read p = .pair pair) :
    pair.key.start = p.start := by
  unfold Statement.read at h
  simp only at h
  split at h
  · cases h
  · split at h
    · cases h
    · split at h
      · rename_i hpair
        cases h
        exact start_key_of_read? hpair
      · cases h

theorem text_ne_nil_of_read_pair {marker : Piece} {pair : Pair}
    (h : Statement.read (afterMarker marker) = .pair pair) : marker.text ≠ [] := by
  intro hnil
  simp [afterMarker, hnil, Statement.read, Text.trimStart] at h

/-- What holds between two lines: all that is open is on record, and what is on record is a tree
whose lists have no gaps. -/
structure Rooted (earlier : List Finding) (ctx : Context) : Prop where
  nested : ctx.Nested (placedSteps earlier)
  gapless : Path.Gapless (placedSteps earlier)

namespace Rooted

theorem withBlock (h : ctx.Rooted earlier) (block? : Option Nat) :
    Rooted earlier { ctx with block? := block? } := ⟨h.nested.withBlock block?, h.gapless⟩

theorem gapless_append {later : List Finding} (h : Path.Gapless (placedSteps earlier))
    {base : Path} {s : Segment} (hs : s.filed = s) (hplaces : Places later (base.push s))
    (hbase : base.segments = [] ∨ base.segments ∈ placedSteps earlier)
    (hbefore : ∀ n, s = .index (n + 1) → base.segments ++ [.index n] ∈ placedSteps earlier) :
    Path.Gapless (placedSteps (earlier ++ later)) := by
  obtain ⟨n, hn⟩ := hplaces
  rw [placedSteps_append, hn, ← Set.union_assoc, Set.union_singleton, Path.segments_push]
  exact (h.insert hs hbase hbefore).insertItems (Set.mem_insert _ _) n

theorem mem_append {later : List Finding} {path : Path} (hplaces : Places later path) :
    path.segments ∈ placedSteps (earlier ++ later) := by
  obtain ⟨n, hn⟩ := hplaces
  rw [placedSteps_append, hn]
  exact .inr (.inl rfl)

theorem placePair (h : ctx.Rooted earlier) {pair : Pair}
    (hshallow : Shallow (line.depth pair.key.start) ctx) :
    Rooted (earlier ++ (ctx.placePair line pair ctx.base).2)
      (ctx.placePair line pair ctx.base).1 := by
  obtain ⟨name, block?, found, heq, hplaces⟩ := placePair_eq ctx line pair ctx.base
  have houter := h.nested.mono (placedSteps_subset_append earlier found)
  rw [heq]
  refine ⟨(houter.pair hshallow (mem_append hplaces)).withBlock block?, ?_⟩
  exact gapless_append h.gapless rfl hplaces h.nested.base_mem (by simp)

theorem closeForPair (h : ctx.Rooted earlier) (c : Nat) : Rooted earlier (ctx.closeForPair c) :=
  ⟨h.nested.closeForPair c, h.gapless⟩

theorem openItem (h : ctx.Rooted earlier) (depth : Nat) {later : List Finding}
    (hplaces : Places later (ctx.openItem depth).base) :
    Rooted (earlier ++ later) (ctx.openItem depth) := by
  -- What closes for the item leaves its list open, with the item before it on record.
  have hclosed := h.nested.closeForItem depth
  rw [openItem_eq] at hplaces ⊢
  refine ⟨(hclosed.mono (placedSteps_subset_append earlier later)).element
    (listShallow_closeForItem depth ctx) (mem_append hplaces), ?_⟩
  apply gapless_append h.gapless rfl hplaces hclosed.base_mem
  intro n hn
  exact h.nested.nextIndex_mem (Segment.index.inj hn)

theorem shallow_openItem (ctx : Context) {depth inner : Nat} (hdepth : depth < inner) :
    Shallow inner (ctx.openItem depth) :=
  (listShallow_closeForItem depth ctx).openElement _ hdepth

theorem placeItem (h : ctx.Rooted earlier) {marker : Piece}
    (hmarker : marker.PartOf (.whole line.text)) :
    Rooted (earlier ++ (ctx.placeItem line marker).2) (ctx.placeItem line marker).1 := by
  fun_induction Context.placeItem ctx line marker generalizing earlier with
  | case1 ctx marker depth opened path =>
    exact h.openItem depth (places_singleton path _)
  | case2 ctx marker depth opened path bare hread hlt next found hnext =>
    rename_i ih
    have hbare := h.openItem depth (places_singleton path (line.place none none))
    have hinner := ih hbare ((afterMarker_part marker).trans hmarker)
    rw [hnext, List.append_assoc] at hinner
    exact hinner
  | case3 ctx marker depth opened path bare pair hread next found =>
    rename_i hnext
    have hbare := h.openItem depth (places_singleton path (line.place none none))
    -- The pair stands behind its marker, so nothing that is open is as deep as the pair.
    have hdepth : depth < line.depth pair.key.start := by
      rw [start_key_of_read hread]
      exact depth_lt_afterMarker hmarker (text_ne_nil_of_read_pair hread)
    have hinner := hbare.placePair (shallow_openItem ctx hdepth)
    rw [hnext, List.append_assoc] at hinner
    exact hinner
  | case4 ctx marker depth opened path value =>
    obtain ⟨block?, found, heq, hplaces⟩ := placeValue_eq opened line path depth none value
    rw [heq]
    exact (h.openItem depth hplaces).withBlock block?

theorem step (h : ctx.Rooted earlier) (line : Line) :
    Rooted (earlier ++ (ctx.step line).2) (ctx.step line).1 := by
  have hnothing : Rooted (earlier ++ []) { ctx with block? := none } := by
    rw [List.append_nil]
    exact h.withBlock none
  unfold Context.step
  split
  · rw [List.append_nil]
    exact h
  · simp only
    split
    · exact hnothing
    · split
      · exact hnothing
      · exact (h.withBlock none).placeItem (.drop _ _)
      · rename_i pair hread
        rw [← start_key_of_read hread]
        have hclosed := (h.withBlock none).closeForPair (line.depth pair.key.start)
        exact hclosed.placePair (shallow_closeForPair _ _)
      · -- A line that says nothing is an event, and places nothing.
        have hskipped : placedSteps [.skippedLine line.number] = ∅ := by
          simp [placedSteps]
        have hsame : placedSteps (earlier ++ [.skippedLine line.number]) = placedSteps earlier := by
          rw [placedSteps_append, hskipped, Set.union_empty]
        refine ⟨?_, ?_⟩ <;> rw [hsame]
        · exact (h.withBlock none).nested
        · exact h.gapless

theorem run (h : ctx.Rooted earlier) (lines : List Line) :
    Rooted (earlier ++ (ctx.run lines).2) (ctx.run lines).1 := by
  induction lines generalizing ctx earlier with
  | nil =>
    rw [Context.run, List.append_nil]
    exact h
  | cons line rest ih =>
    rw [Context.run, ← List.append_assoc]
    exact ih (h.step line)

end Rooted

theorem rooted_empty : Rooted [] {} := by
  have hnone : placedSteps [] = ∅ := by simp [placedSteps]
  refine ⟨.nothing none, ?_⟩
  rw [hnone]
  exact .empty

end Context

/-! ## What is on record -/

theorem gapless_findings (content : List Char) : Path.Gapless (placedSteps (findings content)) :=
  (Context.rooted_empty.run (Line.ofContent content)).gapless

theorem filed_eq_segments {content : List Char} {r : Record} (h : .placed r ∈ findings content) :
    r.path.filed = r.path.segments :=
  (gapless_findings content).map_filed _ ⟨r, h, rfl⟩

section

variable (content : String)

theorem contains_iff_placed (p : Path) : (Survey.build .outline content).atlas.contains p = true ↔
    p.filed ∈ placedSteps (findings content.toList) := by
  have hroot : ∀ r, .placed r ∈ findings content.toList → r.path.isRoot = false := by
    intro r hr
    rw [Path.isRoot, List.isEmpty_eq_false_iff]
    exact fun hnil => (gapless_findings content.toList).nil_not_mem ⟨r, hr, hnil⟩
  rw [Survey.atlas_build, Atlas.ofFindings, Atlas.contains_ofRecords_iff]
  simp only [Survey.findings, Finding.mem_filterMap_record?]
  constructor
  · rintro ⟨r, hr, -, hfiled⟩
    exact ⟨r, hr, by rw [← filed_eq_segments hr, hfiled]⟩
  · rintro ⟨r, hr, hsegments⟩
    exact ⟨r, hr, hroot r hr, by rw [filed_eq_segments hr, hsegments]⟩

theorem recorded_iff_placed (steps : List Segment) :
    (∃ r ∈ (Survey.build .outline content).atlas.records, r.path.segments = steps) ↔
      steps ∈ placedSteps (findings content.toList) := by
  have hplaced : ∀ r ∈ (Survey.build .outline content).atlas.records,
      .placed r ∈ findings content.toList := by
    intro r hr
    rw [Survey.atlas_build] at hr
    exact Atlas.placed_of_mem_records hr
  constructor
  · rintro ⟨r, hr, rfl⟩
    exact ⟨r, hplaced r hr, rfl⟩
  · rintro ⟨r, hr, rfl⟩
    have hcontains := (contains_iff_placed content r.path).mpr
      ⟨r, hr, (filed_eq_segments hr).symm⟩
    rw [Survey.atlas_build] at hcontains
    obtain ⟨q, hq, hfiled⟩ := (Atlas.filed_ofRecords _).contains_iff.mp hcontains
    refine ⟨q, ?_, ?_⟩
    · rw [Survey.atlas_build]
      exact hq
    · rw [← Atlas.ofFindings] at hq
      rwa [filed_eq_segments hr, filed_eq_segments (Atlas.placed_of_mem_records hq)] at hfiled

end

/-- Whatever hangs below an entry does so by entries, and each list counts from zero without a
gap, both for the paths as they are on record and for all by which they are found. -/
theorem entries_form_tree (content : String) :
    let atlas := (Survey.build .outline content).atlas
    (∀ r ∈ atlas.records, ∀ front, front <+: r.path.segments → front ≠ [] →
      ∃ q ∈ atlas.records, q.path.segments = front) ∧
    (∀ p : Path, ∃ n, ∀ i,
      (∃ r ∈ atlas.records, r.path.segments = (p.element i).segments) ↔ i < n) ∧
    (∀ p q : Path, atlas.contains p = true → q.segments <+: p.segments → q.isRoot = false →
      atlas.contains q = true) ∧
    ∀ p : Path, ∃ n, ∀ i, atlas.contains (p.element i) = true ↔ i < n := by
  intro atlas
  have htree := gapless_findings content.toList
  have hfinite := placedSteps_finite (findings content.toList)
  refine ⟨?_, ?_, ?_, ?_⟩
  · intro r hr front hfront hne
    rw [recorded_iff_placed]
    exact htree.mem_of_prefix ((recorded_iff_placed content _).mp ⟨r, hr, rfl⟩) hfront hne
  · intro p
    simp only [atlas, recorded_iff_placed]
    exact htree.exists_length hfinite p.segments
  · intro p q hp hfront hroot
    rw [contains_iff_placed] at hp ⊢
    apply htree.mem_of_prefix hp (hfront.map Segment.filed)
    rwa [ne_eq, ← Path.filed, ← Path.isRoot_iff_filed, Bool.not_eq_true]
  · intro p
    simp only [atlas, contains_iff_placed, Path.element, Path.filed_push]
    exact htree.exists_length hfinite p.filed

theorem parents_of_inline_item :
    let atlas := (Survey.build .outline "a:\n    - - [x, y]\n  - z").atlas
    let item : Path := .ofSegments [.key "a", .index 0, .index 0, .index 1]
    let list : Path := .ofSegments [.key "a", .index 0]
    atlas.contains item = true ∧ atlas.contains list = true ∧
      (∃ r ∈ atlas.records, r.path.segments = [.field "a", .index 0]) ∧
      ∃ n, ∀ i, atlas.contains (list.element i) = true ↔ i < n := by
  intro atlas item list
  obtain ⟨hrecords, -, hcontains, hitems⟩ := entries_form_tree "a:\n    - - [x, y]\n  - z"
  have hitem : (Survey.build .outline "a:\n    - - [x, y]\n  - z").atlas.contains
      (.ofSegments [.key "a", .index 0, .index 0, .index 1]) = true := by cbv
  have hpath : ((Survey.build .outline "a:\n    - - [x, y]\n  - z").atlas.records.map
      (·.path.segments))[3]? = some [.field "a", .index 0, .index 0, .index 1] := by cbv
  obtain ⟨r, hr, hsegments⟩ := List.mem_map.mp (List.mem_of_getElem? hpath)
  have hparent := hrecords r hr [.field "a", .index 0] (by rw [hsegments]; decide) (by decide)
  exact ⟨hitem, hcontains item list hitem (by decide) (by decide), hparent, hitems list⟩

end ConfigAtlas.Outline
