import ConfigAtlas.Atlas
import ConfigAtlas.Flat.Statement
import ConfigAtlas.Text.Elements

/-!
# Reading flat sources

Each entry is placed below the section that was opened last. A value such as `[a, b]` or `a, b`
answers for its elements, which are not on record themselves.
-/

namespace ConfigAtlas.Flat

structure Context where
  current : Path := .root
  /-- How many tables each array has so far, by the address of the array. -/
  tables : List (String × Nat) := []

namespace Context

def tableCount (ctx : Context) (array : Path) : Nat := (ctx.tables.lookup array.address).getD 0

/-- Opens one more table of an array. -/
def openTable (ctx : Context) (array : Path) : Context :=
  let n := ctx.tableCount array
  { current := array.element n, tables := (array.address, n + 1) :: ctx.tables }

/-- Reads one line, and places an entry below the section that is open. -/
def step (ctx : Context) (line : Line) : Context × List Finding :=
  match Statement.read line.text with
  | .blank => (ctx, [])
  | .table name => (ctx.openTable (keyPath .root name.text), [])
  | .header name => ({ ctx with current := keyPath .root name.text }, [])
  | .entry key value? =>
    (ctx, [.placed ⟨keyPath ctx.current key.text, line.place (some key) value?⟩])
  | .unread => (ctx, [.skippedLine line.number])

def run (ctx : Context) : List Line → Context × List Finding
  | [] => (ctx, [])
  | line :: rest =>
    let (next, found) := ctx.step line
    let (last, later) := next.run rest
    (last, found ++ later)

end Context

def findings (content : List Char) : List Finding :=
  (Context.run {} (Line.ofContent content)).2

/-! ## Inline lists -/

/-- The list that a value is. One without brackets needs a comma. -/
def inlineList? (value : Piece) : Option Piece :=
  match value.between? ['['] [']'] with
  | some inner => some inner
  | none => if value.text.contains ',' then some value else none

/-- The element of a list, in the place of the entry that has the list for its value. -/
def listElement? (n : Nat) (container : Place) : Option Place :=
  match container.value? with
  | none => none
  | some value =>
    match inlineList? ⟨value.column, value.text.toList⟩ with
    | none => none
    | some list => list.elements[n]?.map fun e => { container with value? := some e.span }

/-- Answers for the first `n` steps of a path: what is on record, or an element of what answers
for one step less. -/
def resolveSteps (atlas : Atlas) (p : Path) : Nat → Option Place
  | 0 => none
  | n + 1 =>
    match atlas.get? (p.subPath (n + 1)), p.segments[n]? with
    | some place, _ => some place
    | none, some (.index i) => (resolveSteps atlas p n).bind (listElement? i)
    | none, _ => none

def resolve? (atlas : Atlas) (p : Path) : Option Place := resolveSteps atlas p p.length

end ConfigAtlas.Flat
