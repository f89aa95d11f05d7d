import Mathlib
import ConfigAtlas.Proofs.Markup.Built
import ConfigAtlas.Proofs.Markup.Stops
import ConfigAtlas.Proofs.Markup.TagParts
import ConfigAtlas.Proofs.Text.Positions

/-!
# Elements in the order of their tags

The forest is built with every tag in the place where it was opened, and read from the outside in.
So what is placed stands in the order of the source, whatever tags are stray or left open.
-/

namespace ConfigAtlas.Markup

/-! ## The tags of a forest, from the outside in -/

mutual

/-- The tag of the element and those of all in it, in their order. -/
def Element.openTags : Element → List OpenTag
  | ⟨tag, _, children⟩ => tag :: openTagsAll children

def openTagsAll : List Element → List OpenTag
  | [] => []
  | e :: rest => e.openTags ++ openTagsAll rest

end

theorem Element.openTags_eq (e : Element) : e.openTags = e.tag :: openTagsAll e.children := by
  cases e
  rfl

theorem openTagsAll_append (es later : List Element) :
    openTagsAll (es ++ later) = openTagsAll es ++ openTagsAll later := by
  induction es with
  | nil => rfl
  | cons e rest ih => rw [List.cons_append, openTagsAll, ih, openTagsAll, List.append_assoc]

theorem openTagsAll_singleton (e : Element) : openTagsAll [e] = e.openTags := by
  rw [openTagsAll, openTagsAll, List.append_nil]

theorem openTagsAll_sublist {es fs : List Element} (h : es.Sublist fs) :
    (openTagsAll es).Sublist (openTagsAll fs) := by
  induction h with
  | slnil => exact List.Sublist.refl _
  | cons e _ ih =>
    rw [openTagsAll]
    exact ih.trans (List.sublist_append_right _ _)
  | cons_cons e _ ih =>
    rw [openTagsAll, openTagsAll]
    exact (List.Sublist.refl _).append ih

/-! ## Building keeps the order -/

def Unclosed.openTags (u : Unclosed) : List OpenTag := u.tag :: openTagsAll u.children.reverse

namespace Builder

/-- All tags that were opened so far, in the order in which they were opened. -/
def openTags (b : Builder) : List OpenTag :=
  openTagsAll b.roots.reverse ++ b.unclosed.reverse.flatMap Unclosed.openTags

theorem openTags_attach (b : Builder) (e : Element) :
    (b.attach e).openTags = b.openTags ++ e.openTags := by
  unfold attach
  split
  · rename_i hnone
    simp [openTags, hnone, openTagsAll_append, openTagsAll_singleton]
  · rename_i parent outer houter
    simp [openTags, houter, Unclosed.openTags, openTagsAll_append, openTagsAll_singleton]

theorem openTags_openTag (b : Builder) (tag : OpenTag) :
    (b.openTag tag).openTags = b.openTags ++ [tag] := by
  unfold openTag
  split
  · rw [openTags_attach]
    rfl
  · simp [openTags, Unclosed.openTags, openTagsAll]

theorem openTags_close (b : Builder) (text : Unclosed → Option Piece) :
    (b.close text).openTags = b.openTags := by
  unfold close
  split
  · rfl
  · rename_i u outer houter
    rw [openTags_attach]
    simp [openTags, houter, Unclosed.openTags, Element.openTags]

theorem openTags_abandon (n : Nat) (b : Builder) : (abandon n b).openTags = b.openTags := by
  induction n generalizing b with
  | zero => rfl
  | succ n ih => rw [abandon, ih, openTags_close]

theorem openTags_step (b : Builder) (t : Tag) :
    (b.step t).openTags = b.openTags ++ t.opening?.toList := by
  cases t with
  | opening tag => exact b.openTags_openTag tag
  | closing name start =>
    rw [step, closeTag, openTags_close, openTags_abandon]
    exact (List.append_nil _).symm

theorem openTags_run (b : Builder) (ts : List Tag) :
    (b.run ts).openTags = b.openTags ++ ts.filterMap Tag.opening? := by
  induction ts generalizing b with
  | nil => exact (List.append_nil _).symm
  | cons t rest ih =>
    rw [run, ih, openTags_step, List.append_assoc]
    cases h : t.opening? <;> simp [h]

theorem openTags_forest (b : Builder) : (openTagsAll b.forest).Sublist b.openTags := by
  rw [← openTags_abandon b.unclosed.length b]
  exact List.sublist_append_left _ _

end Builder

/-! ## Placing keeps the order -/

theorem openTags_ofRoots (roots : List Element) :
    (openTagsAll (Document.ofRoots roots).children).Sublist (openTagsAll roots) := by
  have htops : (openTagsAll (roots.filter (!·.isNull))).Sublist (openTagsAll roots) :=
    openTagsAll_sublist List.filter_sublist
  unfold Document.ofRoots
  simp only
  split
  · rename_i e htop
    split
    · exact htops
    · rw [htop, openTagsAll_singleton, e.openTags_eq] at htops
      exact (List.sublist_cons_self e.tag _).trans htops
  · exact htops

mutual

theorem tags_placements (e : Element) (path : Path) :
    ((e.placements path).map (·.element.tag)).Sublist e.openTags := by
  cases e with
  | mk tag text? children =>
    rw [Element.placements, List.map_cons, Element.openTags]
    exact (tags_placeAll children _).cons_cons tag

theorem tags_placeAll (es : List Element) (paths : List (Option Path)) :
    ((placeAll paths es).map (·.element.tag)).Sublist (openTagsAll es) := by
  cases es with
  | nil =>
    rw [placeAll_nil]
    exact List.nil_sublist _
  | cons e rest =>
    have hlater := fun paths => (tags_placeAll rest paths).trans
      (List.sublist_append_right e.openTags (openTagsAll rest))
    cases paths with
    | nil => exact List.nil_sublist _
    | cons path? paths =>
      cases path? with
      | none => exact hlater paths
      | some path =>
        rw [placeAll, List.map_append, openTagsAll]
        exact (tags_placements e path).append (tags_placeAll rest paths)

end

/-! ## Where tags stand -/

theorem mem_filterMap_opening? {ts : List Tag} {tag : OpenTag} :
    tag ∈ ts.filterMap Tag.opening? ↔ .opening tag ∈ ts := by
  rw [List.mem_filterMap]
  constructor
  · rintro ⟨t, ht, htag⟩
    cases t <;> cases htag
    exact ht
  · exact fun h => ⟨_, h, rfl⟩

/-- A position that the tag is known by: its name, or its `<`. -/
def Tag.start : Tag → Nat
  | .opening tag => tag.name.start
  | .closing _ start => start

/-- Where an opening tag ends. Of a closing tag it is enough to know where it starts. -/
def Tag.stop : Tag → Nat
  | .opening tag => tag.after.start
  | .closing _ start => start

theorem stop_le_of_read {p : Piece} {t : Tag} (h : (Tag.read p).1 = some t) :
    t.stop ≤ (Tag.read p).2.start := by
  cases t with
  | opening tag =>
    rw [read_eq_after h]
    exact Nat.le_refl _
  | closing name start =>
    rw [Tag.stop, start_of_read_closing h]
    exact (Tag.read_part p).start_le

theorem start_le_of_mem_tags {p : Piece} {t : Tag} (h : t ∈ tags p) : p.start ≤ t.start := by
  cases t with
  | opening tag => exact (partsOf_of_mem_tags h).name_part.start_le
  | closing name start => exact start_le_of_closing_mem_tags h

/-- Each tag ends before the next one begins. -/
theorem pairwise_tags (p : Piece) : (tags p).Pairwise fun s t => s.stop ≤ t.start := by
  fun_induction tags p with
  | case1 => exact List.Pairwise.nil
  | case2 p front hempty hlt ih =>
    rw [List.pairwise_append]
    refine ⟨?_, ih, ?_⟩
    · cases (Tag.read front).1 with
      | none => exact List.Pairwise.nil
      | some t => exact List.pairwise_singleton _ _
    · intro s hs t ht
      exact (stop_le_of_read (Option.mem_toList.mp hs)).trans (start_le_of_mem_tags ht)

theorem pairwise_openTags (p : Piece) :
    ((tags p).filterMap Tag.opening?).Pairwise fun s t => s.after.start ≤ t.name.start := by
  refine (pairwise_tags p).filterMap Tag.opening? ?_
  intro t t' horder tag htag tag' htag'
  cases t <;> cases htag
  cases t' <;> cases htag'
  exact horder

theorem text_after_eq_drop {content : List Char} {tag : OpenTag}
    (h : .opening tag ∈ tags (.whole content)) :
    tag.after.text = content.drop tag.after.start := by
  obtain ⟨q, hq, hqstop, hread⟩ := exists_read?_of_mem_tags h
  have hpart := (partsOf_of_mem_tags h).after_part
  have hstop : tag.after.stop = content.length := by
    rw [OpenTag.stop_after hread, hqstop]
    simp [Piece.stop, Piece.whole]
  exact hpart.text_eq_drop hstop

theorem start_name_of_read {p : Piece} {a : Attribute} (h : (Attribute.read p).1 = some a) :
    a.name.start = p.start := by
  unfold Attribute.read at h
  simp only at h
  split at h
  · split at h
    · cases h
    · cases h
      rfl
  · cases h

theorem pairwise_readAll (p : Piece) :
    (Attribute.readAll p).Pairwise fun a b => a.name.start ≤ b.name.start := by
  fun_induction Attribute.readAll p with
  | case1 => exact List.Pairwise.nil
  | case2 p front hempty hlt ih =>
    rw [List.pairwise_append]
    refine ⟨?_, ih, ?_⟩
    · cases (Attribute.read front).1 <;> simp
    · intro a ha b hb
      rw [start_name_of_read (Option.mem_toList.mp ha)]
      exact ((Attribute.read_part front).start_le).trans
        (Attribute.partsOf_of_mem_readAll hb).name_part.start_le

/-- An opening tag is cut from the source, and so are its attributes, one behind the other. -/
structure OpenTag.InOrder (content : List Char) (tag : OpenTag) : Prop where
  parts : tag.PartsOf (.whole content)
  attributes : tag.attributes.Pairwise fun a b => a.name.start ≤ b.name.start

theorem inOrder_of_mem_tags {content : List Char} {tag : OpenTag}
    (h : .opening tag ∈ tags (.whole content)) : tag.InOrder content := by
  refine ⟨partsOf_of_mem_tags h, ?_⟩
  obtain ⟨q, -, -, hread⟩ := exists_read?_of_mem_tags h
  unfold OpenTag.read? at hread
  simp only at hread
  split at hread
  · cases hread
  · split at hread
    · cases hread
    · cases hread
      exact pairwise_readAll _

theorem pairwise_placements (content : List Char) :
    (Document.ofContent content).placements.Pairwise fun p q =>
      p.element.tag.after.start ≤ q.element.tag.name.start := by
  have hforest := (Builder.run {} (tags (.whole content))).openTags_forest
  rw [Builder.openTags_run] at hforest
  have hplaced : ((Document.ofContent content).placements.map (·.element.tag)).Sublist
      ((tags (.whole content)).filterMap Tag.opening?) :=
    (tags_placeAll _ _).trans ((openTags_ofRoots _).trans hforest)
  exact List.pairwise_map.mp ((pairwise_openTags _).sublist hplaced)

/-! ## Lines of records -/

section

variable {content : List Char} {p : Placement}

theorem mem_attributes_of_mem_recorded {e : Element} {a : Attribute}
    (h : a ∈ e.recordedAttributes) : a ∈ e.tag.attributes := (List.mem_filter.mp h).1

theorem exists_position (table : LineTable) (h : p.element.tag.InOrder content) {r : Record}
    (hr : r ∈ p.records table) : ∃ n, r.place.line = table.rowIndex n + 1 ∧
      p.element.tag.name.start ≤ n ∧ n ≤ p.element.tag.after.start := by
  have hname : p.element.tag.name.start ≤ p.element.tag.name.stop := Nat.le_add_right _ _
  rcases List.mem_cons.mp hr with rfl | hr
  · exact ⟨_, rfl, Nat.le_refl _, hname.trans h.parts.name_before⟩
  · obtain ⟨a, ha, rfl⟩ := List.mem_map.mp hr
    obtain ⟨hparts, hbehind, hbefore⟩ :=
      h.parts.attributes a (mem_attributes_of_mem_recorded ha)
    have hown : a.name.start ≤ a.name.stop := Nat.le_add_right _ _
    have hvalue : a.value.start ≤ a.value.stop := Nat.le_add_right _ _
    exact ⟨_, rfl, hname.trans hbehind, by have := hparts.ordered; omega⟩

theorem pairwise_line_records (table : LineTable) (h : p.element.tag.InOrder content) :
    (p.records table).Pairwise fun r q => r.place.line ≤ q.place.line := by
  refine List.pairwise_cons.mpr ⟨?_, ?_⟩
  · intro q hq
    obtain ⟨n, hline, hbehind, -⟩ := exists_position table h (List.mem_cons_of_mem _ hq)
    rw [hline]
    exact Nat.succ_le_succ (table.rowIndex_mono hbehind)
  · rw [List.pairwise_map]
    have hrecorded := h.attributes.sublist
      (List.filter_sublist : p.element.recordedAttributes.Sublist _)
    exact hrecorded.imp fun hbefore => Nat.succ_le_succ (table.rowIndex_mono hbefore)

theorem pairwise_line_recordsOf (content : List Char) :
    (recordsOf content).Pairwise fun r q => r.place.line ≤ q.place.line := by
  have horder : ∀ p ∈ (Document.ofContent content).placements, p.element.tag.InOrder content :=
    fun p hp => (builtFrom_ofContent (fun _ htag => inOrder_of_mem_tags htag) p hp).tag
  rw [recordsOf, List.pairwise_flatMap]
  constructor
  · exact fun p hp => pairwise_line_records _ (horder p hp)
  · apply (pairwise_placements content).imp_of_mem
    intro p q hp hq hafter r hr s hs
    obtain ⟨m, hm, -, hend⟩ := exists_position _ (horder p hp) hr
    obtain ⟨n, hn, hfront, -⟩ := exists_position _ (horder q hq) hs
    rw [hm, hn]
    exact Nat.succ_le_succ (LineTable.rowIndex_mono _ (hend.trans (hafter.trans hfront)))

end

end ConfigAtlas.Markup
