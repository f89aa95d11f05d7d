import ConfigAtlas.Atlas
import ConfigAtlas.Markup.Tag

/-!
# Elements

The tags of a source as a forest. A closing tag closes the innermost open element of its name,
and all that was opened inside it. One without an element of its name closes the innermost.
-/

namespace ConfigAtlas.Markup

/-- An opening tag, and what stands between it and the tag that closes it. -/
structure Element where
  tag : OpenTag
  /-- The text between the tags, for an element without children that ends on its own line. -/
  text? : Option Piece
  children : List Element

namespace Element

def name (e : Element) : List Char := e.tag.name.text

/-- Written for a value that is explicitly nothing. -/
def nullName : List Char := ['n', 'u', 'l', 'l']

/-- Written for an entry whose name is no legal tag name. -/
def entryName : List Char := ['e', 'n', 't', 'r', 'y']

/-- The attribute that holds the name of such an entry. -/
def keyName : List Char := ['k', 'e', 'y']

def isNull (e : Element) : Bool := e.name == nullName

/-- The attribute that names an entry in place of its tag. -/
def label? (e : Element) : Option Attribute :=
  if e.name == entryName then e.tag.attributes.find? (·.name.text == keyName) else none

end Element

/-! ## Building the forest -/

/-- An element whose closing tag has not come yet. -/
structure Unclosed where
  tag : OpenTag
  children : List Element

/-- Lists grow at the front: the last root, the last child and the innermost element come first. -/
structure Builder where
  roots : List Element := []
  unclosed : List Unclosed := []

namespace Builder

/-- Puts an element where it belongs: in the innermost open one, or among the roots. -/
def attach (b : Builder) (e : Element) : Builder :=
  match b.unclosed with
  | [] => { b with roots := e :: b.roots }
  | parent :: outer =>
    { b with unclosed := { parent with children := e :: parent.children } :: outer }

/-- A tag that closes itself leaves nothing open. -/
def openTag (b : Builder) (tag : OpenTag) : Builder :=
  if tag.selfClosing then b.attach ⟨tag, none, []⟩
  else { b with unclosed := ⟨tag, []⟩ :: b.unclosed }

/-- Closes the innermost open element with a text. -/
def close (b : Builder) (text : Unclosed → Option Piece) : Builder :=
  match b.unclosed with
  | [] => b
  | e :: outer => { b with unclosed := outer }.attach ⟨e.tag, text e, e.children.reverse⟩

def abandon : Nat → Builder → Builder
  | 0, b => b
  | n + 1, b => abandon n (b.close fun _ => none)

/-- What stands between an opening tag and the closing tag at `stop`, unless the line ends in
between or other elements stand there. -/
def inlineText? (stop : Nat) (e : Unclosed) : Option Piece :=
  let body := e.tag.after.take (stop - e.tag.after.start)
  if e.children.isEmpty && !body.text.contains '\n' then some body.trim else none

/-- Closes the innermost element of the name, or of any name if there is none, and what lies in it
without a text. -/
def closeTag (b : Builder) (name : List Char) (start : Nat) : Builder :=
  let depth := (b.unclosed.findIdx? (·.tag.name.text == name)).getD 0
  (abandon depth b).close (inlineText? start)

def step (b : Builder) : Tag → Builder
  | .opening tag => b.openTag tag
  | .closing name start => b.closeTag name start

/-- What is told of a closing tag that no open element has the name of. -/
def stray? (b : Builder) : Tag → Option Finding
  | .opening _ => none
  | .closing name _ =>
    if b.unclosed.any (·.tag.name.text == name) then none
    else some (.strayClosing (String.ofList name))

def run (b : Builder) : List Tag → Builder
  | [] => b
  | tag :: rest => (b.step tag).run rest

def strays (b : Builder) : List Tag → List Finding
  | [] => []
  | tag :: rest => (b.stray? tag).toList ++ (b.step tag).strays rest

/-- The roots in their order, when all that is open has been closed. -/
def forest (b : Builder) : List Element := (abandon b.unclosed.length b).roots.reverse

end Builder

end ConfigAtlas.Markup
