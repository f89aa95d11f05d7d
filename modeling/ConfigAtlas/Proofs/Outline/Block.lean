import ConfigAtlas.Atlas
import ConfigAtlas.Proofs.Text.Literal

/-!
# Blocks of outline sources

A block is a tree of fields and items together with the layout of each. How it is written, row by
row, and what stands on each row. Nothing here reads a source.
-/

namespace ConfigAtlas.Outline

/-! ## Trees -/

/-- Letters and digits, and all but blanks beyond ASCII. -/
def isWordChar (c : Char) : Bool := c.isAlphanum || (128 ≤ c.toNat && !Text.isBlank c)

/-- A text that is read as it is, as a key or as a value. -/
structure Word where
  text : List Char
  ne_nil : text ≠ []
  chars : ∀ c ∈ text, isWordChar c = true

def Word.ofChars (t : List Char) (h : (!t.isEmpty && t.all isWordChar) = true) : Word where
  text := t
  ne_nil := by
    rintro rfl
    cases h
  chars := by
    rw [Bool.and_eq_true] at h
    exact List.all_eq_true.mp h.2

/-- A word, or a text in double quotes. -/
inductive Scalar where
  | word (w : Word)
  | literal (text : List Char) (feed_not_mem : '\n' ∉ text)

mutual

/-- No block is empty. -/
inductive Block where
  | mapping (first : Field) (rest : List Field)
  | list (first : Item) (rest : List Item)

/-- The value stands behind the key, or it is a block that is deeper by one column and `extra`
more, or a list that is as deep as the key. -/
inductive Field where
  | scalar (key : Word) (value : Scalar)
  | nested (key : Word) (extra : Nat) (child : Block)
  | level (key : Word) (first : Item) (rest : List Item)

/-- The value stands behind the marker, or it is a block on the rows below, or a block that
starts on the row of the marker, behind one space and `gap` more. -/
inductive Item where
  | scalar (value : Scalar)
  | nested (extra : Nat) (child : Block)
  | inline (gap : Nat) (child : Block)

end

def Field.key : Field → Word
  | .scalar key _ => key
  | .nested key _ _ => key
  | .level key _ _ => key

mutual

/-- No mapping uses a key twice. -/
def Block.DistinctKeys : Block → Prop
  | .mapping first rest =>
    ((first :: rest).map fun f => f.key.text).Nodup ∧ first.DistinctKeys ∧ fieldsDistinct rest
  | .list first rest => first.DistinctKeys ∧ itemsDistinct rest

/-- No mapping in the field has a key twice. -/
def Field.DistinctKeys : Field → Prop
  | .scalar _ _ => True
  | .nested _ _ child => child.DistinctKeys
  | .level _ first rest => first.DistinctKeys ∧ itemsDistinct rest

def Item.DistinctKeys : Item → Prop
  | .scalar _ => True
  | .nested _ child => child.DistinctKeys
  | .inline _ child => child.DistinctKeys

def fieldsDistinct : List Field → Prop
  | [] => True
  | f :: rest => f.DistinctKeys ∧ fieldsDistinct rest

def itemsDistinct : List Item → Prop
  | [] => True
  | i :: rest => i.DistinctKeys ∧ itemsDistinct rest

end

/-! ## Rows -/

/-- An entry of a row, with the pieces that name it and that it holds. -/
structure Mark where
  path : Path
  key? : Option Piece
  value? : Option Piece

/-- A line of a print, and the entries that stand on it. -/
structure Row where
  text : List Char
  marks : List Mark

/-- A node as it is written: its first row from its own column on, and the rows below. -/
structure Print where
  head : List Char
  marks : List Mark
  tail : List Row

def spaces (n : Nat) : List Char := List.replicate n ' '

def Print.rows (column : Nat) (p : Print) : List Row := ⟨spaces column ++ p.head, p.marks⟩ :: p.tail

def Scalar.written : Scalar → List Char
  | .word w => w.text
  | .literal text _ => Text.literal text

def Word.mark (key : Word) (base : Path) (column : Nat) (value? : Option Piece) : Mark :=
  ⟨base.field (String.ofList key.text), some ⟨column, key.text⟩, value?⟩

mutual

/-- Every entry of the block lies one step below `base`. -/
def Block.print (base : Path) (column : Nat) : Block → Print
  | .mapping first rest =>
    let p := first.print base column
    ⟨p.head, p.marks, p.tail ++ fieldRows base column rest⟩
  | .list first rest =>
    let p := first.print base column 0
    ⟨p.head, p.marks, p.tail ++ itemRows base column 1 rest⟩

/-- How a field is written below a path, from this column on. -/
def Field.print (base : Path) (column : Nat) : Field → Print
  | .scalar key value =>
    ⟨key.text ++ ':' :: ' ' :: value.written,
      [key.mark base column (some ⟨column + key.text.length + 2, value.written⟩)], []⟩
  | .nested key extra child =>
    ⟨key.text ++ [':'], [key.mark base column none],
      (child.print (key.mark base column none).path (column + extra + 1)).rows
        (column + extra + 1)⟩
  | .level key first rest =>
    ⟨key.text ++ [':'], [key.mark base column none],
      (first.print (key.mark base column none).path column 0).rows column ++
        itemRows (key.mark base column none).path column 1 rest⟩

def Item.print (base : Path) (column n : Nat) : Item → Print
  | .scalar value =>
    ⟨'-' :: ' ' :: value.written,
      [⟨base.element n, none, some ⟨column + 2, value.written⟩⟩], []⟩
  | .nested extra child =>
    ⟨['-'], [⟨base.element n, none, none⟩],
      (child.print (base.element n) (column + extra + 1)).rows (column + extra + 1)⟩
  | .inline gap child =>
    let p := child.print (base.element n) (column + gap + 2)
    ⟨'-' :: (spaces (gap + 1) ++ p.head), ⟨base.element n, none, none⟩ :: p.marks, p.tail⟩

def fieldRows (base : Path) (column : Nat) : List Field → List Row
  | [] => []
  | f :: rest => (f.print base column).rows column ++ fieldRows base column rest

def itemRows (base : Path) (column n : Nat) : List Item → List Row
  | [] => []
  | i :: rest => (i.print base column n).rows column ++ itemRows base column (n + 1) rest

end

/-! ## What should be on record -/

def Mark.record (m : Mark) (line : Line) : Record := ⟨m.path, line.place m.key? m.value?⟩

def rowRecords (n : Nat) : List Row → List Record
  | [] => []
  | row :: rest => row.marks.map (·.record ⟨n, row.text⟩) ++ rowRecords (n + 1) rest

/-- The rows of a block that is a whole source, written from some column on. -/
def Block.rows (b : Block) (column : Nat) : List Row := (b.print .root column).rows column

end ConfigAtlas.Outline
