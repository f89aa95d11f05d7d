import Mathlib
import ConfigAtlas.Proofs.Atlas.Records
import ConfigAtlas.Proofs.Markup.Built
import ConfigAtlas.Proofs.Markup.TagParts
import ConfigAtlas.Proofs.Text.OnLine

/-!
# Spans of markup entries

An entry is made of pieces of its tag: its own name, the word under which it is found, and what
stands for its value. It is on record under the line of its own name, and its spans are on this line
as far as the line goes.
-/

namespace ConfigAtlas.Markup

open Piece (PartOf)

/-- What an entry is made of. -/
structure Origin where
  path : Path
  /-- The entry's own name, which need not be the word under which it is found. -/
  name : Piece
  key : Piece
  value? : Option Piece

/-- The line of a name, with the spans of a word and a value in whatever line they stand. -/
def Origin.placeIn (o : Origin) (content : List Char) : Place where
  line := (Text.lineAt content o.name.start).number
  raw := String.ofList (Text.lineAt content o.name.start).text
  key? := some ((LineTable.ofContent content).span o.key)
  value? := o.value?.map (LineTable.ofContent content).span

namespace Placement

/-- An element has the name of its tag. -/
def elementOrigin (p : Placement) : Origin where
  path := p.path
  name := p.element.tag.name
  key := p.element.keyPiece
  value? := p.element.text?

/-- An attribute is found under its own name. -/
def attributeOrigin (p : Placement) (a : Attribute) : Origin where
  path := p.path.field (String.ofList a.name.text)
  name := a.name
  key := a.name
  value? := some a.value

/-- What the entries of an element are made of, its own before those of its attributes. -/
def origins (p : Placement) : List Origin :=
  p.elementOrigin :: p.element.recordedAttributes.map p.attributeOrigin

end Placement

/-- The pieces stand in the source, one behind the other. -/
structure Origin.StandsIn (o : Origin) (content : List Char) : Prop where
  name_within : o.name.Within content
  key_within : o.key.Within content
  key_behind : o.name.start ≤ o.key.start
  key_solid : o.key.Solid content
  value_within : ∀ v ∈ o.value?, v.Within content
  value_behind : ∀ v ∈ o.value?, o.key.stop ≤ v.start
  value_solid : ∀ v ∈ o.value?, v.Solid content

/-! ## Keys -/

theorem solid_unquote {content : List Char} {p : Piece} (hp : p.Within content)
    (hsolid : Text.EndsSolid p.text) : p.unquote.Solid content := by
  cases hquoted : Text.isQuoted p.text with
  | false =>
    left
    rw [Piece.unquote, hquoted]
    exact hsolid
  | true =>
    right
    obtain ⟨quote, middle, hquote, htext⟩ := Text.isQuoted_eq hquoted
    have hunquote : p.unquote = ⟨p.start + 1, middle⟩ := by
      rw [Piece.unquote_of_isQuoted hquoted, htext]
      simp
    have hbehind : content.drop p.unquote.stop = quote :: content.drop p.stop := by
      have hstart := Piece.drop_start hp
      rw [hunquote, Piece.stop, Nat.add_assoc, ← List.drop_drop, hstart, htext, Nat.add_comm 1]
      simp
    have hfeed : quote ≠ '\n' := by
      rintro rfl
      exact absurd hquote (by decide)
    rw [hbehind, Text.firstLine, List.takeWhile_cons_of_pos (by simpa using hfeed)]
    simp

/-- The word under which an element is found stands between its name and the end of its tag. -/
structure KeyStands (content : List Char) (tag : OpenTag) (key : Piece) : Prop where
  key_within : key.Within content
  behind : tag.name.start ≤ key.start
  before : key.stop ≤ tag.after.start
  solid : key.Solid content

theorem label?_mem {e : Element} {label : Attribute} (h : e.label? = some label) :
    label ∈ e.tag.attributes := by
  unfold Element.label? at h
  split at h
  · exact List.mem_of_find?_eq_some h
  · cases h

theorem keyStands_keyPiece {content : List Char} {e : Element}
    (h : e.tag.PartsOf (.whole content)) : KeyStands content e.tag e.keyPiece := by
  have hname : e.tag.name.start ≤ e.tag.name.stop := Nat.le_add_right _ _
  unfold Element.keyPiece
  split
  · rename_i label hlabel
    obtain ⟨hparts, hbehind, hbefore⟩ := h.attributes label (label?_mem hlabel)
    have hkey := PartOf.unquote label.value
    have hlabelName : label.name.start ≤ label.name.stop := Nat.le_add_right _ _
    refine ⟨(hkey.trans hparts.value_part).within, ?_, Nat.le_trans hkey.stop_le hbefore,
      solid_unquote hparts.value_part.within hparts.value_solid⟩
    have := hkey.start_le
    have := hparts.ordered
    omega
  · exact ⟨h.name_part.within, Nat.le_refl _, h.name_before, Or.inl h.name_solid⟩

/-! ## Entries -/

theorem standsIn_elementOrigin {content : List Char} {p : Placement}
    (h : p.element.BuiltFrom (·.PartsOf (.whole content))) : p.elementOrigin.StandsIn content := by
  obtain ⟨path, e⟩ := p
  cases h with
  | @mk tag text? children htag htext hchildren =>
    have hkey := keyStands_keyPiece (e := ⟨tag, text?, children⟩) htag
    have hpart : ∀ v ∈ text?, v.PartOf tag.after := by
      intro v hv
      obtain ⟨n, rfl⟩ := htext v hv
      exact (PartOf.trim _).trans (PartOf.take _ n)
    refine ⟨htag.name_part.within, hkey.key_within, hkey.behind, hkey.solid, ?_, ?_, ?_⟩
    · intro v hv
      exact ((hpart v hv).trans htag.after_part).within
    · intro v hv
      exact Nat.le_trans hkey.before (hpart v hv).start_le
    · intro v hv
      obtain ⟨n, rfl⟩ := htext v hv
      exact Or.inl (Text.endsSolid_trim _)

theorem standsIn_attributeOrigin {content : List Char} {a : Attribute}
    (h : a.PartsOf (.whole content)) (p : Placement) :
    (p.attributeOrigin a).StandsIn content := by
  refine ⟨h.name_part.within, h.name_part.within, Nat.le_refl _, Or.inl h.name_solid, ?_, ?_, ?_⟩
    <;> rintro v ⟨⟩
  · exact h.value_part.within
  · exact h.ordered
  · exact Or.inl h.value_solid

theorem standsIn_origins {content : List Char} {p : Placement}
    (h : p.element.BuiltFrom (·.PartsOf (.whole content))) :
    ∀ o ∈ p.origins, o.StandsIn content := by
  intro o ho
  rcases List.mem_cons.mp ho with rfl | ho
  · exact standsIn_elementOrigin h
  · obtain ⟨a, ha, rfl⟩ := List.mem_map.mp ho
    have hmem : a ∈ p.element.tag.attributes := (List.mem_filter.mp ha).1
    exact standsIn_attributeOrigin (h.tag.attributes a hmem).1 p

theorem placeIn_eq {content : List Char} {o : Origin} (h : o.StandsIn content) :
    o.placeIn content = (LineTable.ofContent content).place o.name.start
      (some ((LineTable.ofContent content).span o.key))
      (o.value?.map (LineTable.ofContent content).span) := by
  rw [LineTable.place_ofContent h.name_within.start_le, Origin.placeIn]

theorem records_eq_origins {content : List Char} {p : Placement}
    (h : p.element.BuiltFrom (·.PartsOf (.whole content))) :
    p.records (LineTable.ofContent content) =
      p.origins.map fun o => ⟨o.path, o.placeIn content⟩ := by
  have hall := standsIn_origins h
  rw [Placement.origins, List.forall_mem_cons, List.forall_mem_map] at hall
  rw [Placement.records, Placement.origins, List.map_cons, List.map_map, placeIn_eq hall.1]
  congr 1
  apply List.map_congr_left
  intro a ha
  rw [Function.comp_apply, placeIn_eq (hall.2 a ha)]
  rfl

theorem exists_origin {content : String} {r : Record}
    (h : r ∈ (Survey.build .markup content).atlas.records) :
    ∃ p ∈ (Document.ofContent content.toList).placements,
      .opening p.element.tag ∈ tags (.whole content.toList) ∧
        ∃ o ∈ p.origins, o.StandsIn content.toList ∧
          r = ⟨o.path, o.placeIn content.toList⟩ := by
  rw [atlas_build_markup] at h
  obtain ⟨p, hp, hr⟩ := List.mem_flatMap.mp (Atlas.mem_of_mem_records_ofRecords h)
  have hbuilt := builtFrom_ofContent (fun tag htag => partsOf_of_mem_tags htag) p hp
  have htag := (builtFrom_ofContent (fun tag htag => htag) p hp).tag
  rw [records_eq_origins hbuilt] at hr
  obtain ⟨o, ho, rfl⟩ := List.mem_map.mp hr
  exact ⟨p, hp, htag, o, ho, standsIn_origins hbuilt o ho, rfl⟩

/-! ## Spans -/

/-- Each span is found on the line at its own column, and the key ends before the value. -/
def SpansOnLine (place : Place) : Prop :=
  (∀ s, place.key? = some s ∨ place.value? = some s → s.On place.raw.toList) ∧
    ∀ k v, place.key? = some k → place.value? = some v → k.stop ≤ v.column

namespace Origin.StandsIn

variable {content : List Char} {o : Origin}

theorem piece_within (h : o.StandsIn content) {p : Piece} (hp : p = o.key ∨ p ∈ o.value?) :
    p.Within content ∧ o.name.start ≤ p.start ∧ p.Solid content := by
  rcases hp with rfl | hp
  · exact ⟨h.key_within, h.key_behind, h.key_solid⟩
  · have hkey : o.key.start ≤ o.key.stop := Nat.le_add_right _ _
    exact ⟨h.value_within p hp,
      Nat.le_trans h.key_behind (Nat.le_trans hkey (h.value_behind p hp)), h.value_solid p hp⟩

theorem number_eq_iff (h : o.StandsIn content) {p : Piece} (hp : p = o.key ∨ p ∈ o.value?) :
    (Text.lineAt content p.stop).number = (o.placeIn content).line ↔
      Text.SameLine content o.name.start p.stop := by
  obtain ⟨-, hstart, -⟩ := h.piece_within hp
  exact Text.number_lineAt_eq_iff content (Nat.le_trans hstart (Nat.le_add_right _ _))

theorem span_on (h : o.StandsIn content) {p : Piece} (hp : p = o.key ∨ p ∈ o.value?)
    (hline : Text.SameLine content o.name.start p.stop) :
    ((LineTable.ofContent content).span p).On (o.placeIn content).raw.toList := by
  obtain ⟨hwithin, hstart, hsolid⟩ := h.piece_within hp
  rw [placeIn, String.toList_ofList]
  exact Piece.span_on_lineAt hwithin hstart hline hsolid

theorem spansOnLine (h : o.StandsIn content)
    (hline : ∀ p, p = o.key ∨ p ∈ o.value? → Text.SameLine content o.name.start p.stop) :
    SpansOnLine (o.placeIn content) := by
  constructor
  · rintro s (hs | hs)
    · cases hs
      exact h.span_on (Or.inl rfl) (hline o.key (Or.inl rfl))
    · obtain ⟨v, hv, rfl⟩ := Option.map_eq_some_iff.mp hs
      exact h.span_on (Or.inr hv) (hline v (Or.inr hv))
  · intro k v hk hv
    obtain ⟨p, hp, rfl⟩ := Option.map_eq_some_iff.mp hv
    cases hk
    exact Piece.stop_span_le_column h.key_within (h.value_within p hp) h.key_behind
      (h.value_behind p hp) (hline p (Or.inr hp)) h.key_solid

end Origin.StandsIn

/-- A record is that of an element or of one of its attributes, and stands under the line of its own
name. A span is where it is said to be if its piece ends on this line, and its piece ends there
exactly when no line feed stands between the name and its end. -/
theorem spans_of_record {content : String} {r : Record}
    (h : r ∈ (Survey.build .markup content).atlas.records) :
    ∃ p ∈ (Document.ofContent content.toList).placements,
      .opening p.element.tag ∈ tags (.whole content.toList) ∧
      ∃ o ∈ p.origins, o.StandsIn content.toList ∧ r = ⟨o.path, o.placeIn content.toList⟩ ∧
        (∀ piece, piece = o.key ∨ piece ∈ o.value? →
          ((Text.lineAt content.toList piece.stop).number = r.place.line ↔
            Text.SameLine content.toList o.name.start piece.stop) ∧
          (Text.SameLine content.toList o.name.start piece.stop →
            ((LineTable.ofContent content.toList).span piece).On r.place.raw.toList)) ∧
        ((∀ piece, piece = o.key ∨ piece ∈ o.value? →
          Text.SameLine content.toList o.name.start piece.stop) → SpansOnLine r.place) := by
  obtain ⟨p, hp, htag, o, ho, hstands, rfl⟩ := exists_origin h
  refine ⟨p, hp, htag, o, ho, hstands, rfl, ?_, hstands.spansOnLine⟩
  intro piece hpiece
  exact ⟨hstands.number_eq_iff hpiece, hstands.span_on hpiece⟩

/-- An element and its attribute on the second line. -/
theorem spans_of_second_line :
    let content := "<root>\n <a b=\"1\">é</a>\n</root>"
    let line := " <a b=\"1\">é</a>"
    let outer : Record := ⟨Path.root.field "a", ⟨2, line, some ⟨"a", 2⟩, some ⟨"é", 10⟩⟩⟩
    let inner : Record :=
      ⟨(Path.root.field "a").field "b", ⟨2, line, some ⟨"b", 4⟩, some ⟨"\"1\"", 6⟩⟩⟩
    (Survey.build .markup content).atlas.records = [outer, inner] ∧
      SpansOnLine outer.place ∧ SpansOnLine inner.place := by
  intro content line outer inner
  have hrecords : (Survey.build .markup content).atlas.records = [outer, inner] := by cbv
  have horigins : (Document.ofContent content.toList).placements.flatMap Placement.origins =
      [⟨Path.root.field "a", ⟨9, ['a']⟩, ⟨9, ['a']⟩, some ⟨17, ['é']⟩⟩,
        ⟨(Path.root.field "a").field "b", ⟨11, ['b']⟩, ⟨11, ['b']⟩,
          some ⟨13, ['"', '1', '"']⟩⟩] := by cbv
  have hspans : ∀ r ∈ (Survey.build .markup content).atlas.records, SpansOnLine r.place := by
    intro r hr
    obtain ⟨p, hp, -, o, ho, -, -, -, hline⟩ := spans_of_record hr
    apply hline
    have hmem := List.mem_flatMap.mpr ⟨p, hp, ho⟩
    rw [horigins, List.mem_cons, List.mem_singleton] at hmem
    rcases hmem with rfl | rfl
    all_goals
      rintro piece (rfl | hpiece)
      · decide
      · cases Option.mem_some.mp hpiece
        decide
  rw [hrecords] at hspans
  exact ⟨hrecords, hspans outer (by simp), hspans inner (by simp)⟩

/-- A tag may end on a later line than its name, and then the text behind it is not on the line
of the name. -/
theorem text_off_line :
    ¬ ∀ content : String, ∀ r ∈ (Survey.build .markup content).atlas.records,
      SpansOnLine r.place := by
  intro h
  have hrecords : (Survey.build .markup "<root><a\n>text</a></root>").atlas.records =
      [⟨Path.root.field "a", ⟨1, "<root><a", some ⟨"a", 7⟩, some ⟨"text", 1⟩⟩⟩] := by cbv
  have hmem := hrecords ▸ List.mem_singleton_self _
  have hspan := (h _ _ hmem).1 ⟨"text", 1⟩ (Or.inr rfl)
  exact absurd hspan (by unfold Span.On; decide)

end ConfigAtlas.Markup
