import ConfigAtlas.Markup.Element
import ConfigAtlas.Path.Basic

/-!
# Documents

Each element gets its path from the outside in, and what is on record of it is the element itself
and its attributes. The children of one element are told apart by their names. Children that all
share one name may be a list, and then they are told apart by their positions. The element that
holds a whole source adds no step to the paths of what it holds.
-/

namespace ConfigAtlas.Markup

/-! ## Paths of siblings -/

def itemName : List Char := ['i', 't', 'e', 'm']

/-- The names by which siblings are told apart. Nulls and labelled entries have none. -/
def plainNames (siblings : List Element) : List (List Char) :=
  (siblings.filter fun e => !e.isNull && e.label?.isNone).map Element.name

/-- Siblings are a list when they share one name and there are two or more, or when the only
one is called an item or has the name of its parent. -/
def formList (parentName : List Char) : List (List Char) → Bool
  | [] => false
  | name :: rest =>
    rest.all (· == name) && (!rest.isEmpty || name == itemName || name == parentName)

/-- The path of one child. `names` are those of all siblings, `earlier` those that came before. -/
def childPath (parent : Path) (isList : Bool) (names earlier : List (List Char)) (e : Element) :
    Path :=
  match e.label? with
  | some label => parent.key (String.ofList label.value.unquote.text)
  | none =>
    if isList then parent.element (earlier.count e.name)
    else if 1 < names.count e.name then
      (parent.field (String.ofList e.name)).element (earlier.count e.name)
    else parent.field (String.ofList e.name)

/-- A null has no path. It is not counted among the siblings that came before. -/
def siblingPaths (parent : Path) (isList : Bool) (names : List (List Char)) :
    (earlier : List (List Char)) → List Element → List (Option Path)
  | _, [] => []
  | earlier, e :: rest =>
    if e.isNull then none :: siblingPaths parent isList names earlier rest
    else
      let next := if e.label?.isNone then e.name :: earlier else earlier
      some (childPath parent isList names earlier e) ::
        siblingPaths parent isList names next rest

def childPaths (parent : Path) (parentName : List Char) (children : List Element) :
    List (Option Path) :=
  let names := plainNames children
  siblingPaths parent (formList parentName names) names [] children

/-- The name of a child that stands alone and under its own name. It cannot be told from the
only item of a list. -/
def onlyChild? (parentName : List Char) (children : List Element) : Option (List Char) :=
  match children.filter (!·.isNull) with
  | [e] =>
    if e.label?.isNone && !formList parentName [e.name] then some e.name else none
  | _ => none

/-! ## Placing the elements -/

/-- An element and the path that it was given. -/
structure Placement where
  path : Path
  element : Element

mutual

/-- The element and all that lies in it, from the outside in. -/
def Element.placements (path : Path) : Element → List Placement
  | ⟨tag, text?, children⟩ =>
    ⟨path, ⟨tag, text?, children⟩⟩ :: placeAll (childPaths path tag.name.text children) children

def placeAll : List (Option Path) → List Element → List Placement
  | some path :: paths, e :: rest => e.placements path ++ placeAll paths rest
  | none :: paths, _ :: rest => placeAll paths rest
  | _, _ => []

end

/-! ## What is on record for an element -/

/-- The word under which an element is found: its name, or the name that its label gives. -/
def Element.keyPiece (e : Element) : Piece :=
  match e.label? with
  | some label => label.value.unquote
  | none => e.tag.name

def namespaceName : List Char := ['x', 'm', 'l', 'n', 's']

/-- It goes by its name: `xmlns`, or any name with a colon. -/
def Attribute.declaresNamespace (a : Attribute) : Bool :=
  a.name.text == namespaceName || a.name.text.contains ':'

/-- Namespaces and labels are not on record. -/
def Element.recordedAttributes (e : Element) : List Attribute :=
  e.tag.attributes.filter fun a =>
    !a.declaresNamespace && !(e.label?.isSome && a.name.text == Element.keyName)

namespace Placement

/-- The element is on record with its text, on the line of its name. -/
def elementPlace (table : LineTable) (p : Placement) : Place :=
  table.place p.element.tag.name.start (some (table.span p.element.keyPiece))
    (p.element.text?.map table.span)

/-- An attribute is on record as a field of its element. -/
def attributeRecord (table : LineTable) (p : Placement) (a : Attribute) : Record :=
  ⟨p.path.field (String.ofList a.name.text),
    table.place a.name.start (some (table.span a.name)) (some (table.span a.value))⟩

def records (table : LineTable) (p : Placement) : List Record :=
  ⟨p.path, p.elementPlace table⟩ :: p.element.recordedAttributes.map (p.attributeRecord table)

end Placement

/-! ## The document of a source -/

/-- What is placed of a source, below the element of this name. -/
structure Document where
  name : List Char
  children : List Element

/-- A single root with children is the document. Other roots are its children, and it has no
name. -/
def Document.ofRoots (roots : List Element) : Document :=
  let tops := roots.filter (!·.isNull)
  match tops with
  | [e] => if e.children.isEmpty then ⟨[], tops⟩ else ⟨e.name, e.children⟩
  | _ => ⟨[], tops⟩

def Document.placements (d : Document) : List Placement :=
  placeAll (childPaths .root d.name d.children) d.children

/-- Elements that are still open at the end of the content are closed there. -/
def Document.ofContent (content : List Char) : Document :=
  .ofRoots (Builder.run {} (tags (.whole content))).forest

def findings (content : List Char) : List Finding :=
  let table := LineTable.ofContent content
  Builder.strays {} (tags (.whole content)) ++
    ((Document.ofContent content).placements.flatMap (·.records table)).map .placed

/-!
## Only children

An element with one child looks the same as a list of one item. So a path may take index 0
where the source has an only child, and is answered as if it named that child.
-/

/-- The names of only children, by the address of their parent. The latest comes first. -/
abbrev OnlyChildren := List (String × String)

def tableRow? (path : Path) (name : List Char) (children : List Element) :
    Option (String × String) :=
  (onlyChild? name children).map fun child => (path.address, String.ofList child)

/-- The document may have an only child as well. -/
def Document.onlyChildren (d : Document) : OnlyChildren :=
  ((tableRow? .root d.name d.children).toList ++
    d.placements.filterMap fun p =>
      tableRow? p.path p.element.name p.element.children).reverse

/-! ## Resolving -/

/-- Puts the only child of the steps before it in the place of an index 0. -/
def nameChild? (only : OnlyChildren) (steps : List Segment) (depth : Nat) :
    Option (List Segment) :=
  if steps[depth]? = some (.index 0) then
    (only.lookup (Path.ofSegments (steps.take depth)).address).map fun child =>
      steps.set depth (.field child)
  else none

theorem count_nameChild?_lt {only : OnlyChildren} {steps named : List Segment} {depth : Nat}
    (h : nameChild? only steps depth = some named) :
    named.count (.index 0) < steps.count (.index 0) := by
  unfold nameChild? at h
  split at h
  · rename_i hzero
    obtain ⟨child, _, rfl⟩ := Option.map_eq_some_iff.mp h
    obtain ⟨hlt, hget⟩ := List.getElem?_eq_some_iff.mp hzero
    have hmem : Segment.index 0 ∈ steps := hget ▸ List.getElem_mem hlt
    have hpos := List.count_pos_iff.mpr hmem
    rw [List.count_set hlt, hget]
    simp
    omega
  · cases h

/-- What is on record, or else what is found when an index 0 is read as an only child, the
outermost first. -/
def resolveSteps (atlas : Atlas) (only : OnlyChildren) (steps : List Segment) : Option Place :=
  match atlas.get? (.ofSegments steps) with
  | some place => some place
  | none => (List.range steps.length).findSome? fun depth =>
    match h : nameChild? only steps depth with
    | none => none
    | some named =>
      have := count_nameChild?_lt h
      resolveSteps atlas only named
termination_by steps.count (.index 0)

def resolve? (atlas : Atlas) (only : OnlyChildren) (p : Path) : Option Place :=
  resolveSteps atlas only p.segments

end ConfigAtlas.Markup
