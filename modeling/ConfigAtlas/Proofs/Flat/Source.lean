import ConfigAtlas.Atlas
import ConfigAtlas.Proofs.Text.Literal

/-!
# Flat sources with quoted names

How such a source is written, and what should be on record for it. Nothing here reads a source.
-/

namespace ConfigAtlas.Flat

/-- Any text that fits on a line can be a name, quotes, dots and signs included. -/
structure Name where
  text : List Char
  ne_nil : text ≠ []
  feed_not_mem : '\n' ∉ text

structure Key where
  first : Name
  rest : List Name

/-- A key and a value without blanks around it. -/
structure Entry where
  key : Key
  value : List Char
  value_ne_nil : value ≠ []
  feed_not_mem_value : '\n' ∉ value
  trim_value : Text.trim value = value

/-- A header and the entries below it. The header of an array adds a table to that array. -/
structure Section where
  isArray : Bool
  key : Key
  entries : List Entry

structure Source where
  entries : List Entry
  sections : List Section

/-! ## How it is written -/

def Key.names (k : Key) : List Name := k.first :: k.rest

def Name.written (n : Name) : List Char := Text.literal n.text

def Key.written (k : Key) : List Char := ['.'].intercalate (k.names.map Name.written)

def Entry.written (e : Entry) : List Char := e.key.written ++ '=' :: e.value

def Section.header (s : Section) : List Char :=
  if s.isArray then '[' :: '[' :: (s.key.written ++ [']', ']'])
  else '[' :: (s.key.written ++ [']'])

def Section.lines (s : Section) : List (List Char) := s.header :: s.entries.map Entry.written

def Source.lines (s : Source) : List (List Char) :=
  s.entries.map Entry.written ++ s.sections.flatMap Section.lines

/-! ## What should be on record -/

def Key.texts (k : Key) : List (List Char) := k.names.map Name.text

def Key.steps (k : Key) : List Segment := k.texts.map fun text => .field (String.ofList text)

/-- The steps to what stands in a section. A table has its number among the tables of its array,
whatever stands between them. -/
def Section.steps (earlier : List Section) (s : Section) : List Segment :=
  s.key.steps ++
    if s.isArray then [.index (earlier.countP fun t => t.isArray && t.key.texts == s.key.texts)]
    else []

def Entry.record (base : List Segment) (line : Nat) (e : Entry) : Record where
  path := .ofSegments (base ++ e.key.steps)
  place :=
    { line := line
      raw := String.ofList e.written
      key? := some ⟨String.ofList e.key.written, 0⟩
      value? := some ⟨String.ofList e.value, e.key.written.length + 1⟩ }

def entryRecords (base : List Segment) (line : Nat) : List Entry → List Record
  | [] => []
  | e :: rest => e.record base line :: entryRecords base (line + 1) rest

def sectionRecords (earlier : List Section) (line : Nat) : List Section → List Record
  | [] => []
  | s :: rest =>
    entryRecords (s.steps earlier) (line + 1) s.entries ++
      sectionRecords (earlier ++ [s]) (line + s.lines.length) rest

def Source.entryRecords (s : Source) : List Record :=
  Flat.entryRecords [] 1 s.entries ++ sectionRecords [] (s.entries.length + 1) s.sections

/-- Entries of one path make one record, which stands where the first stood and says what the
last says. -/
def Source.records (s : Source) : List Record :=
  (s.entryRecords.map (·.path.segments)).eraseDups.filterMap fun steps =>
    s.entryRecords.reverse.find? (·.path.segments == steps)

end ConfigAtlas.Flat
