import ConfigAtlas.Markup.Document
import ConfigAtlas.Proofs.Markup.Built

/-!
# Elements that move

When the tags of a source move in another and keep their words, so do the elements that are built
from them, and the paths of the elements stay as they are.
-/

namespace ConfigAtlas.Markup

/-- What becomes of positions, of what follows a tag and of the texts of elements. -/
structure Relocation where
  position : Nat → Nat
  after : Piece → Piece
  text : Piece → Piece

/-- A word is found elsewhere and reads the same. -/
def Relocation.word (m : Relocation) (p : Piece) : Piece := ⟨m.position p.start, p.text⟩

variable (m : Relocation)

theorem Relocation.text_unquote_word (p : Piece) : (m.word p).unquote.text = p.unquote.text := by
  have htext : (m.word p).text = p.text := rfl
  unfold Piece.unquote
  rw [htext]
  split
  · simp [Piece.take, Piece.length, htext]
  · rfl

/-! ## Tags -/

def Attribute.relocate (a : Attribute) : Attribute := ⟨m.word a.name, m.word a.value⟩

def OpenTag.relocate (tag : OpenTag) : OpenTag where
  name := m.word tag.name
  attributes := tag.attributes.map (Attribute.relocate m)
  selfClosing := tag.selfClosing
  after := m.after tag.after

def Tag.relocate : Tag → Tag
  | .opening tag => .opening (tag.relocate m)
  | .closing name start => .closing name (m.position start)

/-! ## Elements -/

mutual

def Element.relocate : Element → Element
  | ⟨tag, text?, children⟩ => ⟨tag.relocate m, text?.map m.text, relocateAll children⟩

def relocateAll : List Element → List Element
  | [] => []
  | e :: rest => e.relocate :: relocateAll rest

end

theorem relocateAll_eq_map (es : List Element) :
    relocateAll m es = es.map (Element.relocate m) := by
  induction es with
  | nil => rfl
  | cons e rest ih => rw [relocateAll, ih, List.map_cons]

theorem Element.relocate_eq (e : Element) :
    e.relocate m =
      ⟨e.tag.relocate m, e.text?.map m.text, e.children.map (Element.relocate m)⟩ := by
  obtain ⟨tag, text?, children⟩ := e
  rw [Element.relocate, relocateAll_eq_map]

@[simp] theorem Element.tag_relocate (e : Element) : (e.relocate m).tag = e.tag.relocate m := by
  rw [relocate_eq]

@[simp] theorem Element.text?_relocate (e : Element) :
    (e.relocate m).text? = e.text?.map m.text := by rw [relocate_eq]

@[simp] theorem Element.children_relocate (e : Element) :
    (e.relocate m).children = e.children.map (Element.relocate m) := by rw [relocate_eq]

@[simp] theorem Element.name_relocate (e : Element) : (e.relocate m).name = e.name := by
  rw [name, tag_relocate]
  rfl

@[simp] theorem Element.isNull_relocate (e : Element) : (e.relocate m).isNull = e.isNull := by
  rw [isNull, name_relocate, isNull]

@[simp] theorem Element.label?_relocate (e : Element) :
    (e.relocate m).label? = e.label?.map (Attribute.relocate m) := by
  rw [label?, label?, name_relocate, tag_relocate]
  split
  · exact List.find?_map
  · rfl

/-! ## Building -/

def Unclosed.relocate (u : Unclosed) : Unclosed :=
  ⟨u.tag.relocate m, u.children.map (Element.relocate m)⟩

namespace Builder

def relocate (b : Builder) : Builder :=
  ⟨b.roots.map (Element.relocate m), b.unclosed.map (Unclosed.relocate m)⟩

theorem attach_relocate (b : Builder) (e : Element) :
    (b.relocate m).attach (e.relocate m) = (b.attach e).relocate m := by
  obtain ⟨roots, unclosed⟩ := b
  cases unclosed <;> rfl

theorem openTag_relocate (b : Builder) (tag : OpenTag) :
    (b.relocate m).openTag (tag.relocate m) = (b.openTag tag).relocate m := by
  unfold openTag
  rw [show (tag.relocate m).selfClosing = tag.selfClosing from rfl]
  split
  · rw [← attach_relocate, Element.relocate_eq]
    rfl
  · rfl

variable {m}

theorem close_relocate {b : Builder} {text text' : Unclosed → Option Piece}
    (h : ∀ u ∈ b.unclosed, text' (u.relocate m) = (text u).map m.text) :
    (b.relocate m).close text' = (b.close text).relocate m := by
  obtain ⟨roots, unclosed⟩ := b
  cases unclosed with
  | nil => rfl
  | cons u outer =>
    have htext := h u List.mem_cons_self
    unfold close
    rw [← attach_relocate, Element.relocate_eq]
    simp only [relocate, List.map_cons, htext]
    simp [Unclosed.relocate]

theorem abandon_relocate (n : Nat) (b : Builder) :
    abandon n (b.relocate m) = (abandon n b).relocate m := by
  induction n generalizing b with
  | zero => rfl
  | succ n ih =>
    have hclose : (b.relocate m).close (fun _ => none) = (b.close fun _ => none).relocate m :=
      close_relocate fun u hu => rfl
    rw [abandon, hclose, ih, abandon]

/-- From a tag to a closing tag at this position, the text between them goes where texts go. -/
def TextMoves (m : Relocation) (tag : OpenTag) (stop : Nat) : Prop :=
  ∀ children, inlineText? (m.position stop) (Unclosed.relocate m ⟨tag, children⟩) =
    (inlineText? stop ⟨tag, children⟩).map m.text

variable {good : OpenTag → Prop}

theorem closeTag_relocate {b : Builder} (h : b.BuiltFrom good) {start : Nat}
    (htext : ∀ tag, good tag → TextMoves m tag start) (name : List Char) :
    (b.relocate m).closeTag name (m.position start) = (b.closeTag name start).relocate m := by
  have hdepth : (b.relocate m).unclosed.findIdx? (·.tag.name.text == name) =
      b.unclosed.findIdx? (·.tag.name.text == name) := List.findIdx?_map
  rw [closeTag, hdepth, abandon_relocate]
  exact close_relocate fun u hu => htext u.tag ((h.abandon _).unclosed u hu).tag u.children

theorem run_relocate {b : Builder} (h : b.BuiltFrom good) {ts : List Tag}
    (hts : ∀ tag, .opening tag ∈ ts → good tag)
    (htext : ∀ tag, good tag → ∀ name start, .closing name start ∈ ts → TextMoves m tag start) :
    (b.relocate m).run (ts.map (Tag.relocate m)) = (b.run ts).relocate m := by
  induction ts generalizing b with
  | nil => rfl
  | cons tag rest ih =>
    have hstep : (b.relocate m).step (tag.relocate m) = (b.step tag).relocate m := by
      cases tag with
      | opening tag => exact openTag_relocate m b tag
      | closing name start =>
        have hmoves := fun tag htag => htext tag htag name start List.mem_cons_self
        exact closeTag_relocate h hmoves name
    have hnext : (b.step tag).BuiltFrom good := by
      cases tag with
      | opening tag => exact h.openTag (hts tag List.mem_cons_self)
      | closing name start => exact h.closeTag name start
    rw [List.map_cons, run, run, hstep]
    exact ih hnext (fun tag htag => hts tag (List.mem_cons_of_mem _ htag))
      fun tag htag name start hmem => htext tag htag name start (List.mem_cons_of_mem _ hmem)

theorem forest_relocate (b : Builder) :
    (b.relocate m).forest = b.forest.map (Element.relocate m) := by
  have hlength : (b.relocate m).unclosed.length = b.unclosed.length := List.length_map _
  rw [forest, hlength, abandon_relocate, relocate, ← List.map_reverse]
  rfl

end Builder

/-! ## Paths -/

variable {m}

theorem plainNames_relocate (es : List Element) :
    plainNames (es.map (Element.relocate m)) = plainNames es := by
  rw [plainNames, List.filter_map, List.map_map, plainNames]
  congr 1
  · funext e
    exact e.name_relocate m
  · congr 1
    funext e
    simp

theorem childPath_relocate (parent : Path) (isList : Bool) (names earlier : List (List Char))
    (e : Element) : childPath parent isList names earlier (e.relocate m) =
      childPath parent isList names earlier e := by
  unfold childPath
  rw [Element.label?_relocate, Element.name_relocate]
  cases e.label? with
  | none => rfl
  | some label => simp only [Option.map_some, Attribute.relocate, Relocation.text_unquote_word]

theorem siblingPaths_relocate (parent : Path) (isList : Bool) (names earlier : List (List Char))
    (es : List Element) : siblingPaths parent isList names earlier (es.map (Element.relocate m)) =
      siblingPaths parent isList names earlier es := by
  induction es generalizing earlier with
  | nil => rfl
  | cons e rest ih =>
    rw [List.map_cons, siblingPaths, siblingPaths, Element.isNull_relocate, Element.name_relocate,
      Element.label?_relocate, Option.isNone_map, childPath_relocate]
    simp only [ih]

theorem childPaths_relocate (parent : Path) (parentName : List Char) (es : List Element) :
    childPaths parent parentName (es.map (Element.relocate m)) =
      childPaths parent parentName es := by
  rw [childPaths, plainNames_relocate, siblingPaths_relocate, childPaths]

theorem filter_isNull_relocate (es : List Element) :
    (es.map (Element.relocate m)).filter (!·.isNull) =
      (es.filter (!·.isNull)).map (Element.relocate m) := by
  rw [List.filter_map]
  congr 2
  funext e
  simp

theorem onlyChild?_relocate (parentName : List Char) (es : List Element) :
    onlyChild? parentName (es.map (Element.relocate m)) = onlyChild? parentName es := by
  rw [onlyChild?, onlyChild?, filter_isNull_relocate]
  generalize es.filter (!·.isNull) = tops
  match tops with
  | [] => rfl
  | [e] => simp
  | _ :: _ :: _ => rfl

theorem tableRow?_relocate (path : Path) (name : List Char) (es : List Element) :
    tableRow? path name (es.map (Element.relocate m)) = tableRow? path name es := by
  rw [tableRow?, onlyChild?_relocate, tableRow?]

/-! ## Placing -/

def Placement.relocate (m : Relocation) (p : Placement) : Placement :=
  ⟨p.path, p.element.relocate m⟩

mutual

theorem placements_relocate (e : Element) (path : Path) :
    (e.relocate m).placements path = (e.placements path).map (Placement.relocate m) := by
  cases e with
  | mk tag text? children =>
    have hname : (tag.relocate m).name.text = tag.name.text := rfl
    rw [Element.relocate, relocateAll_eq_map, Element.placements, Element.placements, hname,
      childPaths_relocate, placeAll_relocate children, List.map_cons, Placement.relocate,
      Element.relocate, relocateAll_eq_map]

theorem placeAll_relocate (es : List Element) (paths : List (Option Path)) :
    placeAll paths (es.map (Element.relocate m)) =
      (placeAll paths es).map (Placement.relocate m) := by
  cases es with
  | nil => rw [List.map_nil, placeAll_nil, List.map_nil]
  | cons e rest =>
    cases paths with
    | nil => rfl
    | cons path? paths =>
      cases path? with
      | none => exact placeAll_relocate rest paths
      | some path =>
        rw [List.map_cons, placeAll, placeAll, placements_relocate e, placeAll_relocate rest,
          List.map_append]

end

/-! ## What is on record -/

theorem recordedAttributes_relocate (e : Element) :
    (e.relocate m).recordedAttributes = e.recordedAttributes.map (Attribute.relocate m) := by
  rw [Element.recordedAttributes, Element.tag_relocate, Element.label?_relocate]
  simp only [OpenTag.relocate, List.filter_map, Option.isSome_map]
  rfl

theorem map_records_relocate {α : Type} {f : Record → α} {table table' : LineTable} {p : Placement}
    (helement : f ⟨p.path, (p.relocate m).elementPlace table'⟩ =
      f ⟨p.path, p.elementPlace table⟩)
    (hattributes : ∀ a ∈ p.element.recordedAttributes,
      f ((p.relocate m).attributeRecord table' (a.relocate m)) = f (p.attributeRecord table a)) :
    ((p.relocate m).records table').map f = (p.records table).map f := by
  have helements : (p.relocate m).element = p.element.relocate m := rfl
  have hpath : (p.relocate m).path = p.path := rfl
  rw [Placement.records, Placement.records, helements, recordedAttributes_relocate, hpath,
    List.map_cons, List.map_cons, helement, List.map_map, List.map_map, List.map_map]
  congr 1
  exact List.map_congr_left hattributes

namespace Document

def relocate (m : Relocation) (d : Document) : Document :=
  ⟨d.name, d.children.map (Element.relocate m)⟩

theorem ofRoots_relocate (roots : List Element) :
    ofRoots (roots.map (Element.relocate m)) = (ofRoots roots).relocate m := by
  rw [ofRoots, ofRoots, filter_isNull_relocate]
  generalize roots.filter (!·.isNull) = tops
  match tops with
  | [] => rfl
  | [e] =>
    simp only [List.map_cons, List.map_nil, Element.children_relocate, List.isEmpty_map,
      Element.name_relocate]
    split <;> rfl
  | _ :: _ :: _ => rfl

theorem placements_relocate (d : Document) :
    (d.relocate m).placements = d.placements.map (Placement.relocate m) := by
  rw [placements, relocate, childPaths_relocate, placeAll_relocate, placements]

theorem onlyChildren_relocate (d : Document) :
    (d.relocate m).onlyChildren = d.onlyChildren := by
  rw [onlyChildren, placements_relocate, List.filterMap_map, onlyChildren, relocate,
    tableRow?_relocate]
  congr 3
  funext p
  simp only [Function.comp_apply, Placement.relocate, Element.name_relocate,
    Element.children_relocate, tableRow?_relocate]

end Document

end ConfigAtlas.Markup
