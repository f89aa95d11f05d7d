import ConfigAtlas.Path.Basic
import ConfigAtlas.Text.Piece

/-!
# Lines of flat sources

What one line says: a section or table header, an entry, or nothing. The key of an entry is
dotted and names one field for each of its parts. A part may be quoted, and a backslash makes any
character part of a name.
-/

namespace ConfigAtlas.Flat

/-! ## Parts of a key -/

structure KeyScan where
  /-- The part so far, last character first. -/
  part : List Char := []
  quote : Option Char := none
  escaped : Bool := false
deriving DecidableEq

namespace KeyScan

def ends (s : KeyScan) (c : Char) : Bool := !s.escaped && s.quote.isNone && c == '.'

/-- A quote opens a quoted part only where the part is blank so far. -/
def quoteAfter (s : KeyScan) (c : Char) : Option Char :=
  match s.quote with
  | none => if Text.isQuote c && s.part.all Text.isBlank then some c else none
  | some quote => if c = quote then none else some quote

/-- Backslashes are dropped, and the character after one is kept whatever it is. -/
def step (s : KeyScan) (c : Char) : KeyScan :=
  if s.escaped then { s with part := c :: s.part, escaped := false }
  else if c = '\\' then { s with escaped := true }
  else if s.ends c then {}
  else { s with part := c :: s.part, quote := s.quoteAfter c }

/-- The name of the part that ends here. Blanks around it and one layer of quotes are left
out, and a part with nothing in it names nothing. -/
def name? (s : KeyScan) : Option (List Char) :=
  match Text.unquote (Text.trim s.part.reverse) with
  | [] => none
  | name => some name

def names (s : KeyScan) : List Char → List (List Char)
  | [] => s.name?.toList
  | c :: rest =>
    if s.ends c then s.name?.toList ++ (s.step c).names rest else (s.step c).names rest

end KeyScan

/-- The path of a dotted key, one field below the other. -/
def keyPath (base : Path) (key : List Char) : Path :=
  (KeyScan.names {} key).foldl (fun p name => p.field (String.ofList name)) base

/-! ## The end of a key -/

structure SeparatorScan where
  quote : Option Char := none
  escaped : Bool := false
  /-- Nothing but blanks since the last dot, or since the front. -/
  fresh : Bool := true
deriving DecidableEq

namespace SeparatorScan

/-- A quote opens a quoted part only where the part is fresh. -/
def quoteAfter (s : SeparatorScan) (c : Char) : Option Char :=
  match s.quote with
  | none => if Text.isQuote c && s.fresh then some c else none
  | some quote => if c = quote then none else some quote

/-- An escaped character is never blank, whatever it is. -/
def step (s : SeparatorScan) (c : Char) : SeparatorScan :=
  if s.escaped then { s with escaped := false, fresh := false }
  else
    let quote := if c = '\\' then s.quote else s.quoteAfter c
    { quote := quote
      escaped := c == '\\'
      fresh := if quote.isNone then c == '.' || (s.fresh && Text.isBlank c) else s.fresh }

def finds (s : SeparatorScan) (c : Char) : Bool := !s.escaped && s.quote.isNone && c == '='

/-- How many characters stand before the sign that ends the key. -/
def find? (s : SeparatorScan) : List Char → Option Nat
  | [] => none
  | c :: rest => if s.finds c then some 0 else ((s.step c).find? rest).map (· + 1)

end SeparatorScan

/-! ## What a line says -/

inductive Statement where
  | blank
  | header (name : Piece)
  | table (name : Piece)
  /-- A key and its value. A blank value is no value. -/
  | entry (key : Piece) (value? : Option Piece)
  | unread
deriving DecidableEq

namespace Statement

def isCommentMark (c : Char) : Bool := c == ';' || c == '#'

/-- A line without a sign says nothing, and neither does one with nothing before it. -/
def readEntry (line : Piece) : Statement :=
  match SeparatorScan.find? {} line.text with
  | none => .unread
  | some n =>
    let key := (line.take n).trim
    let value := (line.drop (n + 1)).trim
    if key.isEmpty then .unread else .entry key (if value.isEmpty then none else some value)

/-- A line in double brackets is a table before it is a section, and either before an entry. -/
def read (text : List Char) : Statement :=
  let line := Piece.whole text
  let body := line.trim
  match body.text with
  | [] => .blank
  | c :: _ =>
    if isCommentMark c then .blank
    else match body.between? ['[', '['] [']', ']'] with
      | some name => .table name.trim
      | none => match body.between? ['['] [']'] with
        | some name => .header name.trim
        | none => readEntry line

end Statement

end ConfigAtlas.Flat
