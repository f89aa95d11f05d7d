import ConfigAtlas.Text.Piece

/-!
# Lines and places

Two readings of a text as lines. `Line.ofContent` numbers the lines, of which each line feed
ends one. `LineTable` keeps every stretch between line feeds, and finds the row and the column
of any position. A place says where an entry stands: its line, and the spans of its key and value
on that line.
-/

namespace ConfigAtlas

/-! ## Numbered lines -/

/-- Takes one carriage return off at the end. -/
def Text.dropReturn (t : List Char) : List Char :=
  if t.getLast? = some '\r' then t.dropLast else t

/-- The lines of a text. An empty rest after the last line feed is no line, and without a line
feed behind it a carriage return belongs to its line. -/
def Text.lines (t : List Char) : List (List Char) :=
  let parts := t.splitOn '\n'
  parts.dropLast.map dropReturn ++ parts.getLast?.toList.filter (!·.isEmpty)

/-- A line of a source. Numbers start at one. -/
structure Line where
  number : Nat
  text : List Char
deriving DecidableEq

namespace Line

def ofContent (content : List Char) : List Line :=
  (Text.lines content).mapIdx fun i text => ⟨i + 1, text⟩

theorem ofContent_number {content : List Char} {l : Line} (h : l ∈ ofContent content) :
    (Text.lines content)[l.number - 1]? = some l.text := by
  obtain ⟨i, hi, rfl⟩ := List.mem_mapIdx.mp h
  simp

end Line

/-! ## Positions of a whole text -/

/-- The stretches between line feeds, each without its carriage return. -/
structure LineTable where
  rows : List Piece
deriving DecidableEq

namespace LineTable

def ofContent (content : List Char) : LineTable :=
  ⟨(Piece.consecutive 0 (content.splitOn '\n')).map fun row =>
    { row with text := Text.dropReturn row.text }⟩

def count (table : LineTable) : Nat := table.rows.length

/-- The row in which a position lies: the last that starts at or before it. -/
def rowIndex (table : LineTable) (position : Nat) : Nat :=
  table.rows.countP (·.start ≤ position) - 1

/-- There is nothing past the last row. -/
def row (table : LineTable) (index : Nat) : Piece := table.rows.getD index ⟨0, []⟩

/-- How far a position is behind the start of its row. -/
def offset (table : LineTable) (position : Nat) : Nat :=
  position - (table.row (table.rowIndex position)).start

/-- The column of a position. The end of a line has the column just past its last character. -/
def column (table : LineTable) (position : Nat) : Nat :=
  ((table.row (table.rowIndex position)).text.take (table.offset position)).length

end LineTable

/-! ## Places -/

/-- A text on a line. Its column is the number of characters in front of it. -/
structure Span where
  text : String
  column : Nat
deriving DecidableEq

namespace Span

def width (s : Span) : Nat := s.text.length

def stop (s : Span) : Nat := s.column + s.width

/-- The span is found on the line at its own column. -/
def On (s : Span) (line : List Char) : Prop :=
  (line.drop s.column).take s.width = s.text.toList

end Span

def Piece.span (p : Piece) : Span := ⟨String.ofList p.text, p.start⟩

/-- A list item has no key, and a container whose content stands on other lines no value. -/
structure Place where
  line : Nat
  raw : String
  key? : Option Span := none
  value? : Option Span := none
deriving DecidableEq

def Line.place (l : Line) (key? value? : Option Piece) : Place where
  line := l.number
  raw := String.ofList l.text
  key? := key?.map Piece.span
  value? := value?.map Piece.span

def LineTable.place (table : LineTable) (position : Nat) (key? value? : Option Span) : Place where
  line := table.rowIndex position + 1
  raw := String.ofList (table.row (table.rowIndex position)).text
  key? := key?
  value? := value?

def LineTable.span (table : LineTable) (p : Piece) : Span :=
  ⟨String.ofList p.text, table.column p.start⟩

end ConfigAtlas
