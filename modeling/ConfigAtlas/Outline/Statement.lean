import ConfigAtlas.Text.Piece

/-!
# Lines of outline sources

What stands at a position of a line: a list item, a `key: value` pair, a bare scalar, or nothing.
-/

namespace ConfigAtlas.Outline

/-- A space or a tab. No other blank counts as a gap. -/
def isGap (c : Char) : Bool := c == ' ' || c == '\t'

/-! ## Values -/

/-- What stands before a comment. A `#` starts one at the front, or after a space or a tab. -/
def beforeComment : (afterGap : Bool) → List Char → List Char
  | _, [] => []
  | afterGap, c :: rest => if c == '#' && afterGap then [] else c :: beforeComment (isGap c) rest

/-- The value at the front of a piece: a quoted run, or all up to a comment. -/
def scalarAt (p : Piece) : Piece :=
  match Text.quotedRun? p.text with
  | some n => p.take n
  | none => Piece.trimEnd ⟨p.start, beforeComment true p.text⟩

/-- The header of a block of text: a bar or an angle, and then only signs and digits. -/
def isBlockHeader : List Char → Bool
  | [] => false
  | c :: rest => (c == '|' || c == '>') && rest.all fun d => d == '+' || d == '-' || d.isDigit

/-! ## Pairs -/

/-- A key and its value, both as written. A key may stand alone. -/
structure Pair where
  key : Piece
  value? : Option Piece
deriving DecidableEq

namespace Pair

/-- Where the first colon stands that ends the text or has a space or a tab after it. -/
def colon? : List Char → Option Nat
  | [] => none
  | c :: rest =>
    if c == ':' && rest.head?.all isGap then some 0 else (colon? rest).map (· + 1)

/-- These start something that is no plain key. The last is the grave accent. -/
def isKeyBarrier (c : Char) : Bool :=
  ['{', '[', '?', '|', '>', '&', '!', '%', '@', '\x60'].contains c

/-- A key, quoted or up to a colon, then the colon, then the end or a gap and the value. -/
def read? (p : Piece) : Option Pair :=
  match (Text.quotedRun? p.text).or (colon? p.text) with
  | none => none
  | some n =>
    let key := (p.take n).trimEnd
    let rest := (p.drop n).trimStart
    if key.text.head?.all isKeyBarrier then none
    else match rest.text with
      | ':' :: after =>
        if after.head?.all isGap then
          let value := scalarAt (rest.drop 1).trimStart
          some ⟨key, if value.isEmpty then none else some value⟩
        else none
      | _ => none

end Pair

/-! ## Statements -/

inductive Statement where
  | blank
  | item
  | pair (p : Pair)
  | scalar (value : Piece)
deriving DecidableEq

namespace Statement

/-- A hyphen at the end or before a gap. -/
def isMarker : List Char → Bool
  | '-' :: rest => rest.head?.all isGap
  | _ => false

/-- Comments and markers are seen behind any blanks. A pair starts at the front. -/
def read (p : Piece) : Statement :=
  let body := Text.trimStart p.text
  if body.head?.all (· == '#') then .blank
  else if isMarker body then .item
  else match Pair.read? p with
    | some found => .pair found
    | none => .scalar (scalarAt p)

/-- Document markers and `%` directives say nothing about an entry. -/
def isDirective (body : List Char) : Bool :=
  body.head? == some '%' || body == ['-', '-', '-'] || ['-', '-', '-', ' '].isPrefixOf body
    || body == ['.', '.', '.']

theorem text_ne_nil_of_read_eq_item {p : Piece} (h : read p = .item) : p.text ≠ [] := by
  intro hp
  simp [read, hp, Text.trimStart] at h

end Statement

end ConfigAtlas.Outline
