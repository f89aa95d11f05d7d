import ConfigAtlas.Path.Basic

/-!
# Reading a path

`Path.read` takes the text of a path apart: names joined by dots, list indices and quoted keys
in brackets. A text that is no path is refused with the position of the fault.
-/

namespace ConfigAtlas.Path

inductive Fault where
  | missingName
  | missingDot
  | openBracket
  | openKey
  | closingBracket
  | badIndex
deriving DecidableEq

def Fault.message : Fault → String
  | .missingName => "expected a property name"
  | .missingDot => "expected '.' or '[' after a closing bracket"
  | .openBracket => "unterminated '['"
  | .openKey => "unterminated quoted key"
  | .closingBracket => "expected ']' after a quoted key"
  | .badIndex => "expected a non-negative list index"

inductive Error where
  | empty
  | invalid (position : Nat) (fault : Fault)
deriving DecidableEq

def Error.message : Error → String
  | .empty => "path must not be empty"
  | .invalid position fault => s!"invalid path at character {position}: {fault.message}"

/-! ## Names, indices and keys -/

def isNameChar (c : Char) : Bool := c != '.' && c != '['

/-- The key up to its closing quote, and what follows that quote. A backslash makes the next
character part of the key. -/
def readKey : List Char → Option (List Char × List Char)
  | [] => none
  | ['\\'] => none
  | '\\' :: c :: rest => (readKey rest).map fun (raw, after) => (c :: raw, after)
  | c :: rest =>
    if c = '"' then some ([], rest)
    else (readKey rest).map fun (raw, after) => (c :: raw, after)

/-- Decimal digits of a number that fits in 64 bits. Leading zeros are allowed. -/
def readIndex? (digits : List Char) : Option Nat :=
  if !digits.isEmpty && digits.all Char.isDigit then
    let n := Nat.ofDigitChars 10 digits 0
    if n < UInt64.size then some n else none
  else none

/-- The step in brackets, and what follows them. `start` is the position of the opening bracket,
which is read already. -/
def readBracket (start : Nat) : List Char → Except Error (Segment × List Char)
  | '"' :: rest =>
    match readKey rest with
    | none => .error (.invalid start .openKey)
    | some (raw, ']' :: after) => .ok (.key (String.ofList raw), after)
    | some (_, []) => .error (.invalid start .openBracket)
    | some (_, after) =>
      .error (.invalid (start + 2 + (rest.length - after.length)) .closingBracket)
  | rest =>
    match rest.dropWhile (· != ']') with
    | [] => .error (.invalid start .openBracket)
    | _ :: after =>
      match readIndex? (rest.takeWhile (· != ']')) with
      | some n => .ok (.index n, after)
      | none => .error (.invalid (start + 1) .badIndex)

/-- The field at the front, up to a dot or an opening bracket, and what follows it. -/
def readName (start : Nat) (t : List Char) : Except Error (Segment × List Char) :=
  match t.takeWhile isNameChar with
  | [] => .error (.invalid start .missingName)
  | name => .ok (.field (String.ofList name), t.dropWhile isNameChar)

/-- The next step. Only the first may be a name without a dot. -/
def readSegment (first : Bool) (start : Nat) : List Char → Except Error (Segment × List Char)
  | '[' :: rest => readBracket start rest
  | t =>
    if first then readName start t
    else match t with
      | '.' :: rest => readName (start + 1) rest
      | _ => .error (.invalid start .missingDot)

/-! ## Each step takes something -/

theorem length_readKey_lt {t raw after : List Char} (h : readKey t = some (raw, after)) :
    after.length < t.length := by
  fun_induction readKey t generalizing raw with
  | case1 => simp at h
  | case2 => simp at h
  | case3 c rest ih =>
    obtain ⟨⟨raw', after'⟩, hr, heq⟩ := Option.map_eq_some_iff.mp h
    cases heq
    have := ih hr
    simp; omega
  | case4 rest =>
    cases h
    simp
  | case5 c rest _ _ _ ih =>
    obtain ⟨⟨raw', after'⟩, hr, heq⟩ := Option.map_eq_some_iff.mp h
    cases heq
    have := ih hr
    simp; omega

theorem length_readBracket_le {start : Nat} {t after : List Char} {s : Segment}
    (h : readBracket start t = .ok (s, after)) : after.length ≤ t.length := by
  unfold readBracket at h
  split at h
  · rename_i rest
    split at h
    · cases h
    · rename_i raw' after' hk
      cases h
      have := length_readKey_lt hk
      simp at this ⊢; omega
    · cases h
    · cases h
  · split at h
    · cases h
    · rename_i after' hd
      split at h
      · cases h
        have := (List.dropWhile_sublist (· != ']') (l := t)).length_le
        rw [hd] at this
        simp at this; omega
      · cases h

theorem length_readName_lt {start : Nat} {t after : List Char} {s : Segment}
    (h : readName start t = .ok (s, after)) : after.length < t.length := by
  unfold readName at h
  split at h
  · cases h
  · rename_i name hne
    cases h
    have happ := congrArg List.length
      (List.takeWhile_append_dropWhile (p := isNameChar) (l := t))
    cases hn : t.takeWhile isNameChar with
    | nil => exact absurd hn hne
    | cons c rest =>
      rw [hn] at happ
      simp at happ; omega

theorem length_readSegment_lt {first : Bool} {start : Nat} {t after : List Char} {s : Segment}
    (h : readSegment first start t = .ok (s, after)) : after.length < t.length := by
  unfold readSegment at h
  split at h
  · have := length_readBracket_le h
    simp; omega
  · split at h
    · exact length_readName_lt h
    · split at h
      · have := length_readName_lt h
        simp; omega
      · cases h

/-! ## Whole paths -/

/-- All steps of a text that starts at this position of the whole. -/
def readSegments (first : Bool) (start : Nat) (t : List Char) : Except Error (List Segment) :=
  if t.isEmpty then .ok []
  else match h : readSegment first start t with
    | .error e => .error e
    | .ok (s, after) =>
      have := length_readSegment_lt h
      match readSegments false (start + (t.length - after.length)) after with
      | .error e => .error e
      | .ok rest => .ok (s :: rest)
termination_by t.length

/-- No text reads as the root. -/
def read (text : String) : Except Error Path :=
  if text.isEmpty then .error .empty
  else match readSegments true 0 text.toList with
    | .error e => .error e
    | .ok segments => .ok (ofSegments segments)

end ConfigAtlas.Path
