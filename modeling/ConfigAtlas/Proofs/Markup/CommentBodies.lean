import ConfigAtlas.Proofs.Markup.CommentScan
import ConfigAtlas.Proofs.Markup.Spans
import ConfigAtlas.Proofs.Place.Renumbered
import ConfigAtlas.Proofs.Text.Feeds

/-!
# What stands in a comment is not seen

A comment may get any other body of the same length with line feeds in the same places. The paths
on record stay as they are, and so do their lines, their keys and the columns of their values.
-/

namespace ConfigAtlas

/-! ## Records without some of their texts -/

/-- The line of a place, its key, and where its value stands and how wide it is. -/
def Place.shape (place : Place) : Nat × Option Span × Option (Nat × Nat) :=
  (place.line, place.key?, place.value?.map fun v => (v.column, v.width))

/-- A place of this shape, in blanks. -/
def Place.ofShape : Nat × Option Span × Option (Nat × Nat) → Place
  | (line, key?, value?) => ⟨line, "", key?, value?.map fun (column, width) =>
      ⟨String.ofList (List.replicate width ' '), column⟩⟩

theorem Place.shape_ofShape (shape : Nat × Option Span × Option (Nat × Nat)) :
    (ofShape shape).shape = shape := by
  obtain ⟨line, key?, value?⟩ := shape
  cases value? <;> simp [Place.shape, ofShape, Span.width]

def Record.shape (r : Record) : Path × Nat × Option Span × Option (Nat × Nat) :=
  (r.path, r.place.shape)

theorem Atlas.map_shape_ofRecords {rs ss : List Record}
    (h : rs.map Record.shape = ss.map Record.shape) :
    (ofRecords rs).records.map Record.shape = (ofRecords ss).records.map Record.shape := by
  have hblank := congrArg (List.map fun (path, shape) => Record.mk path (Place.ofShape shape)) h
  rw [List.map_map, List.map_map] at hblank
  have hatlas : (ofRecords rs).mapPlaces (Place.ofShape ∘ Place.shape) =
      (ofRecords ss).mapPlaces (Place.ofShape ∘ Place.shape) := by
    rw [← ofRecords_mapPlace, ← ofRecords_mapPlace]
    exact congrArg ofRecords hblank
  have hshape : ∀ atlas : Atlas,
      (atlas.mapPlaces (Place.ofShape ∘ Place.shape)).records.map Record.shape =
        atlas.records.map Record.shape := by
    intro atlas
    simp [records, mapPlaces, Record.shape, Record.mapPlace, Place.shape_ofShape]
  rw [← hshape, hatlas, hshape]

namespace Markup

open LineTable (ofContent)
open Text (SameFeeds)

variable {front after : List Char} {k k' : Comment}

/-! ## Texts around the comment -/

namespace Comment

theorem length_text_eq (h : SameFeeds k.body k'.body) : k'.text.length = k.text.length := by
  rw [length_text, length_text, h.length_eq]

theorem sameFeeds_text (h : SameFeeds k.body k'.body) : SameFeeds k.text k'.text :=
  (SameFeeds.refl _).append (h.append (SameFeeds.refl _))

/-- The same text, or the same but for the comment in it. -/
def Alike (k k' : Comment) (s s' : List Char) : Prop :=
  s' = s ∨ ∃ u v, s = u ++ (k.text ++ v) ∧ s' = u ++ (k'.text ++ v)

theorem Alike.sameFeeds {s s' : List Char} (h : Alike k k' s s')
    (hbody : SameFeeds k.body k'.body) : SameFeeds s s' := by
  rcases h with rfl | ⟨u, v, rfl, rfl⟩
  · exact SameFeeds.refl _
  · exact (SameFeeds.refl u).append ((sameFeeds_text hbody).append (SameFeeds.refl v))

theorem trim_text (k : Comment) (start : Nat) (u v : List Char) :
    Piece.trim ⟨start, u ++ (k.text ++ v)⟩ = ⟨start + (u.takeWhile Text.isBlank).length,
      u.dropWhile Text.isBlank ++ (k.text ++ Text.trimEnd v)⟩ := by
  have hsign : Text.isBlank '<' = false := by decide
  obtain ⟨htake, hdrop⟩ := Lists.takeWhile_append_cons hsign u (k.inner ++ '>' :: v)
  have hend := Text.trimEnd_append_cons (c := '>') (by decide)
    (u.dropWhile Text.isBlank ++ '<' :: k.inner) v
  rw [List.append_assoc, List.cons_append] at hend
  rw [k.text_append, k.text_append, Piece.trim, Piece.trimStart, Piece.dropWhile, Piece.trimEnd,
    htake, hdrop, hend]
  simp

theorem Alike.trim {s s' : List Char} (h : Alike k k' s s') (start : Nat) :
    (Piece.trim ⟨start, s'⟩).start = (Piece.trim ⟨start, s⟩).start ∧
      Alike k k' (Piece.trim ⟨start, s⟩).text (Piece.trim ⟨start, s'⟩).text := by
  rcases h with rfl | ⟨u, v, rfl, rfl⟩
  · exact ⟨rfl, .inl rfl⟩
  · rw [trim_text, trim_text]
    exact ⟨rfl, .inr ⟨_, _, rfl, rfl⟩⟩

theorem drop_behind (front after : List Char) (k : Comment) (n : Nat) :
    (k.between front after).drop (front.length + k.text.length + n) = after.drop n := by
  rw [between, ← List.append_assoc, ← List.length_append, List.drop_length_add_append]

theorem alike_stretch (after : List Char) (h : SameFeeds k.body k'.body) {i j : Nat}
    (hi : k.Clear front i) (hj : k.Clear front j) :
    Alike k k' (((k.between front after).drop i).take (j - i))
      (((k'.between front after).drop i).take (j - i)) := by
  have hlength := length_text_eq h
  rcases hi with hi | hi
  · have hdrop : ∀ l : Comment,
        (l.between front after).drop i = front.drop i ++ (l.text ++ after) :=
      fun l => List.drop_append_of_le_length hi
    rw [hdrop, hdrop]
    rcases hj with hj | hj
    · -- Both ends are in front of the comment.
      have hle : j - i ≤ (front.drop i).length := by
        rw [List.length_drop]
        omega
      left
      rw [List.take_append_of_le_length hle, List.take_append_of_le_length hle]
    · -- The comment is in between.
      obtain ⟨n, rfl⟩ := Nat.exists_eq_add_of_le hj
      have htake : ∀ l : Comment, l.text.length = k.text.length →
          (front.drop i ++ (l.text ++ after)).take (front.length + k.text.length + n - i) =
            front.drop i ++ (l.text ++ after.take n) := by
        intro l hl
        have hn : front.length + k.text.length + n - i =
            (front.drop i ++ l.text).length + n := by
          rw [List.length_append, List.length_drop, hl]
          omega
        rw [← List.append_assoc, hn, List.take_length_add_append, List.append_assoc]
      exact .inr ⟨_, _, htake k rfl, htake k' hlength⟩
  · obtain ⟨n, rfl⟩ := Nat.exists_eq_add_of_le hi
    have hdrop' := drop_behind front after k' n
    rw [hlength] at hdrop'
    left
    rw [k.drop_behind, hdrop']

theorem Apart.clear {tag : OpenTag} (h : k.Apart front after tag) {position : Nat}
    (hbehind : tag.name.start ≤ position) (hbefore : position ≤ tag.after.start) :
    k.Clear front position :=
  h.apart.imp (Nat.le_trans hbefore) fun hend => Nat.le_trans hend hbehind

theorem Apart.clear_after {tag : OpenTag} (h : k.Apart front after tag) :
    k.Clear front tag.after.start :=
  h.clear (Nat.le_trans (Nat.le_add_right _ _) h.parts.name_before) (Nat.le_refl _)

theorem Apart.clear_trim {tag : OpenTag} (h : k.Apart front after tag) (n : Nat) :
    k.Clear front (tag.after.take n).trim.start := by
  rcases h.clear_after with hfront | hbehind
  · have htext : tag.after.text =
        front.drop tag.after.start ++ '<' :: (k.inner ++ '>' :: after) := by
      rw [h.after_text, between, k.text_append, List.drop_append_of_le_length hfront]
    have hblank : ((tag.after.take n).text.takeWhile Text.isBlank).length ≤
        (front.drop tag.after.start).length := by
      refine Lists.length_le_of_prefix (t := k.inner ++ '>' :: after) (a := '<') (by decide) ?_
        (List.all_eq_true.mp List.all_takeWhile)
      rw [← htext]
      exact (List.takeWhile_prefix _).trans (List.take_prefix n _)
    left
    rw [List.length_drop] at hblank
    simp only [Piece.trim, Piece.trimEnd, Piece.trimStart, Piece.dropWhile, Piece.take] at hblank ⊢
    omega
  · exact .inr (Nat.le_trans hbehind
      ((Piece.PartOf.trim _).trans (Piece.PartOf.take tag.after n)).start_le)

end Comment

/-! ## Elements -/

theorem keyPiece_onto (t : List Char) (e : Element) :
    (e.relocate (onto t)).keyPiece = e.keyPiece := by
  unfold Element.keyPiece
  rw [Element.label?_relocate, Element.tag_relocate]
  cases e.label? <;> rfl

section

variable (hbody : SameFeeds k.body k'.body)
include hbody

theorem length_between : (k'.between front after).length = (k.between front after).length := by
  simp [Comment.between, Comment.length_text_eq hbody]

theorem trim_onto {t u v : List Char} (h : k.Alike k' u v) {start : Nat}
    (hwithin : Piece.Within ⟨start, v⟩ t) :
    Piece.trim ⟨start, v⟩ = (onto t).text (Piece.trim ⟨start, u⟩) := by
  obtain ⟨hstart, htrim⟩ := h.trim start
  have hkept := List.prefix_iff_eq_take.mp (hwithin.part (.trim _)).2
  rw [← (htrim.sameFeeds hbody).length_eq, hstart] at hkept
  rw [text_onto, ← hkept, ← hstart]

theorem textMoves_onto {tag : OpenTag} (htag : k.Apart front after tag) {stop : Nat}
    (hstop : k.Clear front stop) :
    Builder.TextMoves (onto (k'.between front after)) tag stop := by
  intro children
  have hstart : tag.after.start ≤ (k'.between front after).length := by
    rw [length_between hbody]
    exact htag.parts.after_part.within.start_le
  have hwithin := (Piece.within_drop hstart).part (.take _ (stop - tag.after.start))
  have halike := Comment.alike_stretch after hbody htag.clear_after hstop
  rw [← htag.after_text] at halike
  have hchildren : (children.map (Element.relocate (onto (k'.between front after)))).isEmpty =
      children.isEmpty := List.isEmpty_map
  have hbodies : ∀ u : Unclosed, Builder.inlineText? stop u =
      if u.children.isEmpty &&
          !((u.tag.after.text.take (stop - u.tag.after.start)).contains '\n') then
        some (Piece.trim ⟨u.tag.after.start, u.tag.after.text.take (stop - u.tag.after.start)⟩)
      else none := fun u => rfl
  have hother := hbodies (Unclosed.relocate (onto (k'.between front after)) ⟨tag, children⟩)
  rw [Unclosed.relocate, hchildren, relocate_onto, after_onto] at hother
  refine hother.trans ?_
  rw [hbodies, apply_ite (Option.map (onto (k'.between front after)).text), Option.map_some,
    ← trim_onto hbody halike hwithin, (halike.sameFeeds hbody).contains_eq]
  rfl

/-! ## Positions outside the comment -/

theorem sameFeeds_between : SameFeeds (k.between front after) (k'.between front after) :=
  (SameFeeds.refl front).append ((Comment.sameFeeds_text hbody).append (SameFeeds.refl after))

theorem column_between {position : Nat} (hclear : k.Clear front position)
    (hle : position ≤ (k.between front after).length) :
    (ofContent (k'.between front after)).column position =
      (ofContent (k.between front after)).column position := by
  rcases hclear with hfront | hbehind
  · rw [Comment.between, k'.text_append, Comment.between, k.text_append]
    exact LineTable.column_in_front (by decide) hfront _ _
  · -- Both have the last sign of their comment on the way.
    have hsplit : ∀ l : Comment, l.between front after =
        (front ++ '<' :: l.inner) ++ '>' :: after := by
      intro l
      rw [Comment.between, l.text_append, List.append_assoc, List.cons_append]
    have hfeeds : SameFeeds (front ++ '<' :: k.inner) (front ++ '<' :: k'.inner) :=
      (SameFeeds.refl front).append ((SameFeeds.refl ['<', '!', '-', '-']).append
        (hbody.append (SameFeeds.refl ['-', '-'])))
    rw [hsplit] at hle ⊢
    rw [hsplit]
    refine (LineTable.column_behind hfeeds (by decide) after ?_ hle).symm
    have hlength := congrArg List.length (k.text_append [])
    simp only [List.length_append, List.length_cons, List.length_nil] at hlength ⊢
    omega

theorem span_between {p : Piece} (hclear : k.Clear front p.start)
    (hp : p.Within (k.between front after)) :
    (ofContent (k'.between front after)).span p = (ofContent (k.between front after)).span p := by
  rw [LineTable.span, LineTable.span,
    column_between hbody hclear hp.start_le]

/-! ## What is on record -/

theorem value_onto {v : Piece} (hclear : k.Clear front v.start)
    (hv : v.Within (k.between front after)) :
    let v' := (ofContent (k'.between front after)).span
      ((onto (k'.between front after)).text v)
    (v'.column, v'.width) = (((ofContent (k.between front after)).span v).column,
      ((ofContent (k.between front after)).span v).width) := by
  have hle := hv.1
  rw [Piece.stop, ← length_between hbody] at hle
  have hcolumn := column_between hbody hclear hv.start_le
  simp only [LineTable.span, text_onto, Span.width, String.length_ofList, hcolumn, List.length_take,
    List.length_drop, Prod.mk.injEq, true_and]
  omega

theorem shape_place {start : Nat} {key : Piece} {value? value'? : Option Span}
    (hstart : start ≤ (k.between front after).length) (hclear : k.Clear front key.start)
    (hkey : key.Within (k.between front after))
    (hvalue : (value'?.map fun v => (v.column, v.width)) =
      value?.map fun v => (v.column, v.width)) :
    ((ofContent (k'.between front after)).place start
      (some ((ofContent (k'.between front after)).span key)) value'?).shape =
    ((ofContent (k.between front after)).place start
      (some ((ofContent (k.between front after)).span key)) value?).shape := by
  have hstart' := hstart
  rw [← length_between hbody] at hstart'
  rw [LineTable.place_ofContent hstart, LineTable.place_ofContent hstart',
    span_between hbody hclear hkey, ← (sameFeeds_between hbody).number_lineAt_eq start]
  simp only [Place.shape, hvalue]

theorem shape_element {p : Placement} (h : p.element.BuiltFrom (k.Apart front after)) :
    Record.shape ⟨p.path, (p.relocate (onto (k'.between front after))).elementPlace
        (ofContent (k'.between front after))⟩ =
      Record.shape ⟨p.path, p.elementPlace (ofContent (k.between front after))⟩ := by
  have hkey := keyStands_keyPiece h.tag.parts
  have hname := h.tag.parts.name_part.within
  have hvalue : ((p.element.text?.map (onto (k'.between front after)).text).map
        (ofContent (k'.between front after)).span).map (fun v => (v.column, v.width)) =
      (p.element.text?.map (ofContent (k.between front after)).span).map
        fun v => (v.column, v.width) := by
    rw [Option.map_map, Option.map_map, Option.map_map]
    refine Option.map_congr fun v hv => ?_
    obtain ⟨n, rfl⟩ := h.text v hv
    exact value_onto hbody (h.tag.clear_trim n)
      ((Piece.PartOf.trim _).trans ((Piece.PartOf.take _ n).trans h.tag.parts.after_part)).within
  have hplace := shape_place hbody hname.start_le
    (h.tag.clear hkey.behind (Nat.le_trans (Nat.le_add_right _ _) hkey.before)) hkey.key_within
    hvalue
  rw [Record.shape, Record.shape, Placement.elementPlace, Placement.elementPlace, ← hplace,
    Placement.relocate, keyPiece_onto, Element.text?_relocate, Element.tag_relocate]
  rfl

theorem shape_attribute {p : Placement} (h : p.element.BuiltFrom (k.Apart front after))
    {a : Attribute} (ha : a ∈ p.element.recordedAttributes) :
    ((p.relocate (onto (k'.between front after))).attributeRecord
        (ofContent (k'.between front after)) (a.relocate (onto (k'.between front after)))).shape =
      (p.attributeRecord (ofContent (k.between front after)) a).shape := by
  obtain ⟨hparts, hbehind, hbefore⟩ := h.tag.parts.attributes a (List.mem_filter.mp ha).1
  have hname := hparts.name_part.within
  have hvalue := hparts.value_part.within
  have hstarts : p.element.tag.name.start ≤ a.name.start :=
    Nat.le_trans (Nat.le_add_right _ _) hbehind
  have hends : a.value.start ≤ p.element.tag.after.start :=
    Nat.le_trans (Nat.le_add_right _ _) hbefore
  have hordered : a.name.start ≤ a.value.start :=
    Nat.le_trans (Nat.le_add_right _ _) hparts.ordered
  have hspan := span_between hbody
    (h.tag.clear (Nat.le_trans hstarts hordered) hends) hvalue
  have hplace := shape_place hbody hname.start_le
    (h.tag.clear hstarts (Nat.le_trans hordered hends)) hname
    (congrArg (fun v => (some v).map fun v : Span => (v.column, v.width)) hspan)
  exact congrArg (Prod.mk (p.path.field (String.ofList a.name.text))) hplace

end

section

variable (hbody : SameFeeds k.body k'.body)
variable (hcomment : ⟨front.length, k.text ++ after⟩ ∈ stops (.whole (k.between front after)))
variable (hends : ∀ q ∈ stops (.whole (k.between front after)), q.start < front.length →
  EndsBefore front.length q)
include hbody hcomment hends

theorem tags_between : tags (.whole (k'.between front after)) =
    (tags (.whole (k.between front after))).map
      (Tag.relocate (onto (k'.between front after))) := by
  have hlength := Comment.length_text_eq hbody
  have hrest : tags ⟨front.length, k'.text ++ after⟩ = (tags ⟨front.length, k.text ++ after⟩).map
      (Tag.relocate (onto (k'.between front after))) := by
    have hsame : ∀ tag ∈ tags ⟨front.length + k'.text.length, after⟩,
        tag.relocate (onto (k'.between front after)) = tag :=
      fun tag htag => relocate_onto_eq_self (behind_part k') (stop_behind k') htag
    rw [k.tags_text, k'.tags_text, ← hlength, List.map_congr_left hsame, List.map_id']
  have hwhole : ∀ l : Comment, Piece.whole (l.between front after) =
      ⟨0, front ++ '<' :: (l.inner ++ '>' :: after)⟩ := by
    intro l
    rw [Comment.between, l.text_append]
    rfl
  rw [hwhole, k.text_append] at hcomment
  rw [hwhole] at hends ⊢
  rw [hwhole]
  rw [k.text_append, k'.text_append] at hrest
  refine tags_onto hrest (Nat.zero_add _) ?_ hcomment hends
  rw [Comment.between, k'.text_append]
  rfl

theorem ofContent_between : Document.ofContent (k'.between front after) =
    (Document.ofContent (k.between front after)).relocate (onto (k'.between front after)) := by
  have hempty : Builder.BuiltFrom (k.Apart front after) {} := ⟨by simp, by simp⟩
  have hrun := Builder.run_relocate hempty (fun tag htag => apart_of_mem_tags hcomment htag)
    fun tag htag _ start hclosing =>
      textMoves_onto hbody htag (clear_of_mem_tags hcomment hclosing)
  rw [Document.ofContent, tags_between hbody hcomment hends,
    show ({} : Builder) = Builder.relocate (onto (k'.between front after)) {} from rfl, hrun,
    Builder.forest_relocate, Document.ofRoots_relocate]
  rfl

theorem shape_recordsOf : (recordsOf (k'.between front after)).map Record.shape =
    (recordsOf (k.between front after)).map Record.shape := by
  have hbuilt := builtFrom_ofContent fun tag htag => apart_of_mem_tags hcomment htag
  rw [recordsOf, ofContent_between hbody hcomment hends, Document.placements_relocate,
    List.flatMap_map, recordsOf, List.map_flatMap, List.map_flatMap]
  exact List.flatMap_congr fun p hp => map_records_relocate (shape_element hbody (hbuilt p hp))
    fun a ha => shape_attribute hbody (hbuilt p hp) ha

end

/-- A comment that the scan passes over may get another body of the same length with line feeds in
the same places, if each named tag in front of it ends there. No path, line or key changes, and
all values keep their columns and widths. In `<!-->` and `<!--->` there is no body to change. -/
theorem shapes_whatever_comment_says (hbody : SameFeeds k.body k'.body)
    (hcomment : ⟨front.length, k.text ++ after⟩ ∈ stops (.whole (k.between front after)))
    (hends : ∀ q ∈ stops (.whole (k.between front after)), q.start < front.length →
      EndsBefore front.length q) :
    let survey := Survey.build .markup (String.ofList (k.between front after))
    let other := Survey.build .markup (String.ofList (k'.between front after))
    other.atlas.records.map Record.shape = survey.atlas.records.map Record.shape := by
  intro survey other
  rw [atlas_build_markup, atlas_build_markup, String.toList_ofList, String.toList_ofList]
  exact Atlas.map_shape_ofRecords (shape_recordsOf hbody hcomment hends)

/-- A comment in a text is a part of the value, and what looks like a tag in it is none. -/
theorem shapes_whatever_comment_in_text_says :
    let front := "<r>\n<a>1".toList
    let after := "2</a></r>".toList
    let k : Comment := ⟨" b ".toList, by decide⟩
    let k' : Comment := ⟨"<b>".toList, by decide⟩
    let survey := Survey.build .markup (String.ofList (k.between front after))
    let other := Survey.build .markup (String.ofList (k'.between front after))
    SameFeeds k.body k'.body ∧
      ⟨front.length, k.text ++ after⟩ ∈ stops (.whole (k.between front after)) ∧
      (∀ q ∈ stops (.whole (k.between front after)), q.start < front.length →
        EndsBefore front.length q) ∧
      survey.atlas.records.map Record.shape =
        [(Path.root.field "a", 2, some ⟨"a", 1⟩, some (3, 12))] ∧
      other.atlas.records.map Record.shape = survey.atlas.records.map Record.shape := by
  intro front after k k' survey other
  have hcontent : k.between front after = "<r>\n<a>1<!-- b -->2</a></r>".toList := by decide
  have hbody : SameFeeds k.body k'.body := by
    simp [k, k', SameFeeds]
  have hstops : stops (.whole (k.between front after)) =
      [⟨0, "<r>\n<a>1<!-- b -->2</a></r>".toList⟩, ⟨4, "<a>1<!-- b -->2</a></r>".toList⟩,
        ⟨8, "<!-- b -->2</a></r>".toList⟩, ⟨19, "</a></r>".toList⟩, ⟨23, "</r>".toList⟩] := by
    rw [hcontent]
    cbv
  have hcomment : ⟨front.length, k.text ++ after⟩ ∈ stops (.whole (k.between front after)) := by
    rw [hstops]
    decide
  have hread : OpenTag.read? ⟨0, "<r>\n<a>1<!-- b -->2</a></r>".toList⟩ =
      some ⟨⟨1, ['r']⟩, [], false, ⟨3, "\n<a>1<!-- b -->2</a></r>".toList⟩⟩ := by cbv
  have hread' : OpenTag.read? ⟨4, "<a>1<!-- b -->2</a></r>".toList⟩ =
      some ⟨⟨5, ['a']⟩, [], false, ⟨7, "1<!-- b -->2</a></r>".toList⟩⟩ := by cbv
  have hends : ∀ q ∈ stops (.whole (k.between front after)), q.start < front.length →
      EndsBefore front.length q := by
    rw [hstops]
    simp only [List.forall_mem_cons]
    exact ⟨fun _ _ _ => ⟨_, hread, by decide⟩, fun _ _ _ => ⟨_, hread', by decide⟩,
      fun h => absurd h (by decide), fun h => absurd h (by decide),
      fun h => absurd h (by decide), by simp⟩
  have hshapes : survey.atlas.records.map Record.shape =
      [(Path.root.field "a", 2, some ⟨"a", 1⟩, some (3, 12))] := by
    simp only [survey, hcontent]
    cbv
  exact ⟨hbody, hcomment, hends, hshapes, shapes_whatever_comment_says hbody hcomment hends⟩

end Markup

end ConfigAtlas
