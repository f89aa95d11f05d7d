import ConfigAtlas.Atlas
import ConfigAtlas.Outline.Statement
import ConfigAtlas.Text.Elements

/-!
# Reading outline sources

The pairs and items that are open form a stack, and each list column has a next index. An entry is
placed below the innermost holder that its line leaves open.
-/

namespace ConfigAtlas

/-- How many bytes a text has in UTF-8. -/
def Text.byteSize : List Char → Nat
  | [] => 0
  | c :: rest => c.utf8Size + byteSize rest

/-- How deep a column lies: the bytes before it. Behind spaces and tabs this is the column. -/
def Line.depth (l : Line) (column : Nat) : Nat := Text.byteSize (l.text.take column)

end ConfigAtlas

namespace ConfigAtlas.Outline

/-- A pair or an item that entries on deeper lines are placed below. -/
structure Holder where
  path : Path
  depth : Nat
  isItem : Bool

/-- What is open between two lines. The innermost holder comes first. -/
structure Context where
  holders : List Holder := []
  /-- The next index of each list that may go on, by the depth of its markers. -/
  nextIndices : List (Nat × Nat) := []
  /-- The depth of the entry whose block of text is being passed over. -/
  block? : Option Nat := none

/-- The elements of a value in brackets. Blank brackets have none. -/
def inlineItems (line : Line) (path : Path) (value : Piece) : List Finding :=
  match value.between? ['['] [']'] with
  | none => []
  | some list =>
    if list.trim.isEmpty then []
    else list.elements.mapIdx fun i e => .placed ⟨path.element i, line.place none (some e)⟩

namespace Context

/-- The path below which the next entry is placed. -/
def base (ctx : Context) : Path :=
  match ctx.holders with
  | [] => .root
  | holder :: _ => holder.path

/-- Places an entry with a value. The header of a block starts one that lasts while lines lie
deeper than the entry. -/
def placeValue (ctx : Context) (line : Line) (path : Path) (depth : Nat) (key? : Option Piece)
    (value : Piece) : Context × List Finding :=
  let found := .placed ⟨path, line.place key? (some value)⟩
  if isBlockHeader value.text then ({ ctx with block? := some depth }, [found])
  else (ctx, inlineItems line path value ++ [found])

/-- Opens a pair, and places it with its value. -/
def placePair (ctx : Context) (line : Line) (pair : Pair) (base : Path) : Context × List Finding :=
  let path := base.field (String.ofList (Text.unquote pair.key.text))
  let depth := line.depth pair.key.start
  let opened := { ctx with holders := ⟨path, depth, false⟩ :: ctx.holders }
  match pair.value? with
  | none => (opened, [.placed ⟨path, line.place (some pair.key) none⟩])
  | some value => opened.placeValue line path depth (some pair.key) value

/-- Closes whatever is as deep as the pair or deeper, and the lists there. -/
def closeForPair (ctx : Context) (depth : Nat) : Context :=
  { ctx with
    holders := ctx.holders.dropWhile (depth ≤ ·.depth)
    nextIndices := ctx.nextIndices.filter (·.1 < depth) }

/-- Opens the next item of the list at this depth. A list may stand as deep as the key that it
belongs to, so at its own depth only an item is closed. -/
def openItem (ctx : Context) (depth : Nat) : Context :=
  let closed := { ctx with
    holders := ctx.holders.dropWhile fun h => depth < h.depth || (h.depth == depth && h.isItem) }
  let n := (ctx.nextIndices.lookup depth).getD 0
  { closed with
    holders := ⟨closed.base.element n, depth, true⟩ :: closed.holders
    nextIndices := (depth, n + 1) :: ctx.nextIndices.filter (·.1 < depth) }

/-- What stands behind a marker. A marker behind a wide blank has nothing behind it. -/
def afterMarker (marker : Piece) : Piece :=
  match marker.text with
  | [] => marker
  | c :: _ => ((marker.drop 1).take (if c.utf8Size = 1 then marker.length else 0)).trimStart

theorem length_afterMarker_lt {marker : Piece} (h : (afterMarker marker).text ≠ []) :
    (afterMarker marker).length < marker.length := by
  unfold afterMarker at h ⊢
  split
  · rename_i hm
    simp [hm] at h
  · rename_i c rest hm
    apply Nat.lt_of_le_of_lt (Piece.length_trimStart_le _)
    have : marker.length = rest.length + 1 := by simp [Piece.length, hm]
    simp only [Piece.length_take, Piece.length_drop]
    omega

/-- Places an item, with what stands behind its marker. -/
def placeItem (ctx : Context) (line : Line) (marker : Piece) : Context × List Finding :=
  let depth := line.depth marker.start
  let opened := ctx.openItem depth
  let path := opened.base
  let bare := .placed ⟨path, line.place none none⟩
  match h : Statement.read (afterMarker marker) with
  | .blank => (opened, [bare])
  | .item =>
    have := length_afterMarker_lt (Statement.text_ne_nil_of_read_eq_item h)
    let (next, found) := opened.placeItem line (afterMarker marker)
    (next, bare :: found)
  | .pair pair =>
    let (next, found) := opened.placePair line pair path
    (next, bare :: found)
  | .scalar value => opened.placeValue line path depth none value
termination_by marker.length

/-- Inside a block of text, blank lines and deeper lines say nothing. -/
def passesOver (ctx : Context) (text : List Char) : Bool :=
  match ctx.block? with
  | none => false
  | some depth => (Text.trimStart text).isEmpty || depth < (text.takeWhile isGap).length

/-- Reads one line. A bare scalar that no marker stands before is skipped. -/
def step (ctx : Context) (line : Line) : Context × List Finding :=
  if ctx.passesOver line.text then (ctx, [])
  else
    let ctx := { ctx with block? := none }
    let front := (Piece.whole line.text).drop (line.text.takeWhile isGap).length
    if Statement.isDirective (Text.trimStart line.text) then (ctx, [])
    else match Statement.read front with
      | .blank => (ctx, [])
      | .item => ctx.placeItem line front
      | .pair pair =>
        let closed := ctx.closeForPair (line.depth front.start)
        closed.placePair line pair closed.base
      | .scalar _ => (ctx, [.skippedLine line.number])

def run (ctx : Context) : List Line → Context × List Finding
  | [] => (ctx, [])
  | line :: rest =>
    let (next, found) := ctx.step line
    let (last, later) := next.run rest
    (last, found ++ later)

end Context

def findings (content : List Char) : List Finding :=
  (Context.run {} (Line.ofContent content)).2

end ConfigAtlas.Outline
