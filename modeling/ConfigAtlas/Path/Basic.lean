import ConfigAtlas.Text.Basic

/-!
# Logical paths

A path is a list of steps into a configuration tree. It has two texts: `Path.text`, which a
person reads and which decides equality, and `Path.address`, which does not tell a field from a
map key of the same name.
-/

namespace ConfigAtlas

/-- A step from a node of a tree to one below it. -/
inductive Segment where
  | field (name : String)
  | index (n : Nat)
  /-- A map key, which need not be a legal bare name. -/
  | key (raw : String)
deriving DecidableEq

namespace Segment

def name? : Segment → Option String
  | .field name => some name
  | .key raw => some raw
  | .index _ => none

/-- What is escaped in a quoted key. -/
def quotedSpecial (c : Char) : Bool := c == '"' || c == '\\'

/-- Only a field that is not the first step starts with a dot. -/
def chars (first : Bool) : Segment → List Char
  | .field name => if first then name.toList else '.' :: name.toList
  | .index n => '[' :: Nat.toDigits 10 n ++ [']']
  | .key raw => '[' :: '"' :: Text.escape quotedSpecial raw.toList ++ ['"', ']']

def text (s : Segment) : String := String.ofList (s.chars true)

/-- What must be escaped in a name for the next step to be told from it. -/
def addressSpecial (c : Char) : Bool := c == '\\' || c == '.' || c == '['

/-- The step as it is filed. A key is filed as a field of its name. -/
def address : Segment → List Char
  | .field name => '.' :: Text.escape addressSpecial name.toList
  | .key raw => '.' :: Text.escape addressSpecial raw.toList
  | .index n => '[' :: Nat.toDigits 10 n ++ [']']

end Segment

/-- The steps from the root, and the text they were given on the way. -/
structure Path where
  segments : List Segment
  text : String

namespace Path

def root : Path := ⟨[], ""⟩

/-- Goes one step further, and the text goes on with the text of the step. -/
def push (p : Path) (s : Segment) : Path :=
  ⟨p.segments ++ [s], p.text ++ String.ofList (s.chars p.segments.isEmpty)⟩

def field (p : Path) (name : String) : Path := p.push (.field name)

def element (p : Path) (n : Nat) : Path := p.push (.index n)

def key (p : Path) (raw : String) : Path := p.push (.key raw)

def ofSegments (segments : List Segment) : Path := segments.foldl push root

/-- Two paths are equal when they read the same. -/
instance : BEq Path := ⟨fun p q => p.text == q.text⟩

def length (p : Path) : Nat := p.segments.length

def isRoot (p : Path) : Bool := p.segments.isEmpty

def last? (p : Path) : Option Segment := p.segments.getLast?

def subPath (p : Path) (n : Nat) : Path := ofSegments (p.segments.take n)

def parent? (p : Path) : Option Path :=
  if p.isRoot then none else some (p.subPath (p.length - 1))

/-- What lies between the path and the root, longest first. -/
def ancestors (p : Path) : List Path :=
  ((List.range p.length).drop 1).reverse.map p.subPath

/-- The path under which an entry is filed: the text of a source does not say whether a name
is a field or a map key. -/
def address (p : Path) : String := String.ofList (p.segments.flatMap Segment.address)

/-! ## Steps -/

@[simp] theorem segments_root : root.segments = [] := rfl

@[simp] theorem segments_push (p : Path) (s : Segment) :
    (p.push s).segments = p.segments ++ [s] := rfl

theorem segments_foldl_push (segments : List Segment) (p : Path) :
    (segments.foldl push p).segments = p.segments ++ segments := by
  induction segments generalizing p with
  | nil => simp
  | cons s rest ih => simp [ih]

@[simp] theorem segments_ofSegments (segments : List Segment) :
    (ofSegments segments).segments = segments := by
  simp [ofSegments, segments_foldl_push]

theorem ofSegments_append (a b : List Segment) :
    ofSegments (a ++ b) = b.foldl push (ofSegments a) := by
  rw [ofSegments, List.foldl_append]
  rfl

@[simp] theorem segments_subPath (p : Path) (n : Nat) :
    (p.subPath n).segments = p.segments.take n := by
  simp [subPath]

end Path

end ConfigAtlas
