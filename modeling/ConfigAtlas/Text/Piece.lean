import ConfigAtlas.Text.Basic

/-!
# Pieces

A piece is a stretch of a longer text that still knows how many characters stood before it, so
what is found in it can be pointed at.
-/

namespace ConfigAtlas

/-- A text, and how many characters stand in front of it. -/
structure Piece where
  start : Nat
  text : List Char
deriving DecidableEq

namespace Piece

/-- A whole text, with nothing in front of it. -/
def whole (t : List Char) : Piece := ⟨0, t⟩

def length (p : Piece) : Nat := p.text.length

/-- The position right behind the piece. -/
def stop (p : Piece) : Nat := p.start + p.text.length

def isEmpty (p : Piece) : Bool := p.text.isEmpty

def startsWith (p : Piece) (front : List Char) : Bool := front.isPrefixOf p.text

def take (p : Piece) (n : Nat) : Piece := ⟨p.start, p.text.take n⟩

/-- The position moves on only as far as there are characters. -/
def drop : Piece → Nat → Piece
  | p, 0 => p
  | ⟨start, []⟩, _ + 1 => ⟨start, []⟩
  | ⟨start, _ :: rest⟩, n + 1 => drop ⟨start + 1, rest⟩ n

def takeWhile (p : Piece) (test : Char → Bool) : Piece := ⟨p.start, p.text.takeWhile test⟩

/-- Drops characters as long as they pass the test, and moves on by as many. -/
def dropWhile (p : Piece) (test : Char → Bool) : Piece :=
  ⟨p.start + (p.text.takeWhile test).length, p.text.dropWhile test⟩

def trimStart (p : Piece) : Piece := p.dropWhile Text.isBlank

def trimEnd (p : Piece) : Piece := ⟨p.start, Text.trimEnd p.text⟩

/-- A blank piece is trimmed to nothing at its end. -/
def trim (p : Piece) : Piece := p.trimStart.trimEnd

/-- What stands between `opening` at the front and `closing` at the end. -/
def between? (opening closing : List Char) (p : Piece) : Option Piece :=
  if p.startsWith opening then
    let inner := p.drop opening.length
    if closing.isSuffixOf inner.text then some (inner.take (inner.length - closing.length))
    else none
  else none

/-- The piece between its quotes, or all of it if it has none. -/
def unquote (p : Piece) : Piece :=
  if Text.isQuoted p.text then (p.drop 1).take (p.length - 2) else p

/-- What follows the first mark from here on, or the end if there is none. -/
def skipPast (mark : List Char) : Nat → List Char → Piece
  | start, [] => ⟨start, []⟩
  | start, c :: rest =>
    if mark.isPrefixOf (c :: rest) then ⟨start + mark.length, (c :: rest).drop mark.length⟩
    else skipPast mark (start + 1) rest

def past (p : Piece) (mark : List Char) : Piece := skipPast mark p.start p.text

/-- The given texts one after another, with one character between two. -/
def consecutive (start : Nat) : List (List Char) → List Piece
  | [] => []
  | t :: rest => ⟨start, t⟩ :: consecutive (start + t.length + 1) rest

@[simp] theorem map_text_consecutive (start : Nat) (ts : List (List Char)) :
    (consecutive start ts).map Piece.text = ts := by
  induction ts generalizing start with
  | nil => rfl
  | cons t rest ih => simp [consecutive, ih]

/-! ## Lengths -/

theorem drop_eq (p : Piece) (n : Nat) :
    p.drop n = ⟨p.start + min n p.text.length, p.text.drop n⟩ := by
  fun_induction drop p n with
  | case1 p => simp
  | case2 start n => simp
  | case3 start c rest n ih =>
    rw [ih]
    simp only [List.length_cons, List.drop_succ_cons, mk.injEq, and_true]
    omega

@[simp] theorem text_drop (p : Piece) (n : Nat) : (p.drop n).text = p.text.drop n := by
  rw [drop_eq]

@[simp] theorem length_drop (p : Piece) (n : Nat) : (p.drop n).length = p.length - n := by
  simp [length]

@[simp] theorem length_take (p : Piece) (n : Nat) : (p.take n).length = min n p.length := by
  simp [take, length]

theorem length_dropWhile_le (p : Piece) (test : Char → Bool) :
    (p.dropWhile test).length ≤ p.length :=
  (List.dropWhile_sublist test).length_le

theorem length_trimStart_le (p : Piece) : p.trimStart.length ≤ p.length :=
  p.length_dropWhile_le Text.isBlank

theorem length_skipPast_le (mark : List Char) (start : Nat) (t : List Char) :
    (skipPast mark start t).length ≤ t.length := by
  induction t generalizing start with
  | nil => simp [skipPast, length]
  | cons c rest ih =>
    simp only [skipPast]
    split
    · simp [length]
    · have := ih (start + 1)
      simp; omega

theorem length_past_lt {p : Piece} {mark : List Char} (hmark : mark ≠ []) (hp : p.text ≠ []) :
    (p.past mark).length < p.length := by
  have hpos : 0 < mark.length := List.length_pos_iff.mpr hmark
  unfold past
  cases ht : p.text with
  | nil => exact absurd ht hp
  | cons c rest =>
    simp only [skipPast, length, ht]
    split
    · simp; omega
    · have := length_skipPast_le mark (p.start + 1) rest
      simp only [length] at this
      simp; omega

end Piece

end ConfigAtlas
