import ConfigAtlas.Atlas
import ConfigAtlas.Markup.Document
import ConfigAtlas.Proofs.Text.Positions

/-!
# Trees of markup elements

A tree of elements without attributes, together with what stands between them. How it is written,
and what should be on record of it. Nothing here reads a source.
-/

namespace ConfigAtlas.Markup

/-! ## Trees -/

/-- The name of an element that is no null and does not look like a declaration. -/
structure Name where
  text : List Char
  ne_nil : text ≠ []
  chars : ∀ c ∈ text, Text.isBlank c = false ∧ c ∉ ['<', '>', '/']
  no_mark : ∀ c ∈ text.head?, c ∉ ['!', '?']
  ne_null : text ≠ Element.nullName

/-- Text in which no tag starts. -/
structure Gap where
  text : List Char
  no_tag : '<' ∉ text

/-- An element with a text, or with other elements in it, and what follows its closing tag. -/
inductive Tree where
  | leaf (name : Name) (text : Gap) (feed_not_mem : '\n' ∉ text.text) (after : Gap)
  | branch (name : Name) (gap : Gap) (first : Tree) (rest : List Tree) (after : Gap)

def Tree.name : Tree → Name
  | .leaf name _ _ _ => name
  | .branch name _ _ _ _ => name

/-! ## As text -/

namespace Name

def opening (n : Name) : List Char := '<' :: (n.text ++ ['>'])

def closing (n : Name) : List Char := '<' :: '/' :: (n.text ++ ['>'])

end Name

mutual

def Tree.written : Tree → List Char
  | .leaf name text _ after => name.opening ++ (text.text ++ (name.closing ++ after.text))
  | .branch name gap first rest after =>
    name.opening ++ (gap.text ++ (first.written ++ (treesWritten rest ++
      (name.closing ++ after.text))))

def treesWritten : List Tree → List Char
  | [] => []
  | t :: rest => t.written ++ treesWritten rest

end

/-! ## Paths -/

/-- All siblings have one name, and there are two or more, or the only one is called an item or
has the name of its parent. -/
def FormsList (parent : List Char) (names : List (List Char)) : Prop :=
  ∃ name ∈ names, (∀ other ∈ names, other = name) ∧
    (2 ≤ names.length ∨ name = itemName ∨ name = parent)

instance (parent : List Char) (names : List (List Char)) : Decidable (FormsList parent names) :=
  inferInstanceAs (Decidable (∃ name ∈ names, (∀ other ∈ names, other = name) ∧
    (2 ≤ names.length ∨ name = itemName ∨ name = parent)))

/-- The steps from a parent to the child of this name, where `names` are those of all children
and `earlier` those of the children before it. -/
def childSteps (parent : List Char) (names earlier : List (List Char)) (name : List Char) :
    List Segment :=
  if FormsList parent names then [.index earlier.length]
  else if 2 ≤ names.count name then
    [.field (String.ofList name), .index (earlier.count name)]
  else [.field (String.ofList name)]

def childPathOf (path : Path) (parent : List Char) (names earlier : List (List Char))
    (name : List Char) : Path :=
  (childSteps parent names earlier name).foldl Path.push path

/-! ## What should be on record -/

def Tree.value? (start : Nat) : Tree → Option Piece
  | .leaf name text _ _ => some (Piece.trim ⟨start + name.opening.length, text.text⟩)
  | .branch _ _ _ _ _ => none

/-- An element that starts at this position of the content, on the line of its name. -/
def Tree.record (content : List Char) (path : Path) (start : Nat) (t : Tree) : Record where
  path := path
  place := (Text.lineAt content (start + 1)).place
    (some ⟨Text.columnAt content (start + 1), t.name.text⟩)
    ((t.value? start).map fun p => ⟨Text.columnAt content p.start, p.text⟩)

mutual

def Tree.recordsBelow (content : List Char) (path : Path) (start : Nat) : Tree → List Record
  | .leaf _ _ _ _ => []
  | .branch name gap first rest _ =>
    let names := first.name.text :: rest.map fun t => t.name.text
    let inner := start + name.opening.length + gap.text.length
    let firstPath := childPathOf path name.text names [] first.name.text
    first.record content firstPath inner :: first.recordsBelow content firstPath inner ++
      treesRecords content path name.text names [first.name.text]
        (inner + first.written.length) rest

def treesRecords (content : List Char) (path : Path) (parent : List Char)
    (names earlier : List (List Char)) (start : Nat) : List Tree → List Record
  | [] => []
  | t :: rest =>
    let childPath := childPathOf path parent names earlier t.name.text
    t.record content childPath start :: t.recordsBelow content childPath start ++
      treesRecords content path parent names (earlier ++ [t.name.text])
        (start + t.written.length) rest

end

end ConfigAtlas.Markup
