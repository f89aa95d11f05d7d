import ConfigAtlas.Place

/-!
# Pointing at a place

A diagnostic shows the line of a place with carets under the span that matters:

```text
 --> site.yaml:3:8
  |
3 | depth: many
  |        ^^^^ not a number
```
-/

namespace ConfigAtlas

/-- A part of a value. Its characters are counted inside the opening quote, if there is one. -/
structure Highlight where
  offset : Nat
  length : Nat
deriving DecidableEq

/-- A place to point at, with its source above it and a hint beside the carets, if there are any. -/
structure Diagnostic where
  place : Place
  source? : Option String := none
  hint? : Option String := none
  highlight? : Option Highlight := none

namespace Diagnostic

/-- The columns that the carets stand in. -/
structure Underline where
  start : Nat
  width : Nat
deriving DecidableEq

/-- Why a place cannot be pointed at. -/
inductive Fault where
  /-- A sum does not fit in 64 bits. -/
  | overflow
  /-- A text would have more bytes than a text can have. -/
  | tooLong
deriving DecidableEq

/-- Positions are counted in 64 bits. -/
def sum (m n : Nat) : Except Fault Nat :=
  if m + n < UInt64.size then .ok (m + n) else .error .overflow

/-- An ASCII character so many times. A text has at most `2 ^ 63 - 1` bytes. -/
def repeated (n : Nat) (c : Char) : Except Fault String :=
  if n < UInt64.size / 2 then .ok (String.ofList (List.replicate n c)) else .error .tooLong

/-- How many characters a quote at the front of a value takes. -/
def quoteWidth (text : String) : Nat := if text.toList.head?.any Text.isQuote then 1 else 0

/-- A highlight that starts past the value is dropped, and one that ends past it is cut. Where it
starts is added up first. -/
def underlineValue (value : Span) (highlight? : Option Highlight) : Except Fault Underline :=
  match highlight? with
  | none => .ok ⟨value.column, value.width⟩
  | some highlight => do
    let start ← sum highlight.offset (quoteWidth value.text)
    if value.width ≤ start then return ⟨value.column, value.width⟩
    return ⟨← sum value.column start, min highlight.length (value.width - start)⟩

/-- The value comes before the key, and the key before the whole line without its outer blanks. -/
def underline (d : Diagnostic) : Except Fault Underline :=
  match d.place.value?, d.place.key? with
  | some value, _ => underlineValue value d.highlight?
  | none, some key => .ok ⟨key.column, key.width⟩
  | none, none =>
    let raw := d.place.raw.toList
    .ok ⟨(raw.takeWhile Text.isBlank).length, (Text.trim raw).length⟩

/-- The header, a spacer, the line and the carets. An empty span gets one caret. -/
def lines (d : Diagnostic) : Except Fault (List String) := do
  let u ← d.underline
  let number := toString d.place.line
  let gutter ← repeated number.length ' '
  let source := match d.source? with
    | some source => source ++ ":"
    | none => ""
  let hint := match d.hint? with
    | some hint => " " ++ hint
    | none => ""
  let column ← sum u.start 1
  let margin ← repeated u.start ' '
  let carets ← repeated (max u.width 1) '^'
  return [" --> " ++ source ++ number ++ ":" ++ toString column,
    gutter ++ " |",
    number ++ " | " ++ d.place.raw,
    gutter ++ " | " ++ margin ++ carets ++ hint]

/-- The lines as one text. -/
def render (d : Diagnostic) : Except Fault String := d.lines.map "\n".intercalate

/-! ## Outcomes -/

theorem sum_of_lt {m n : Nat} (h : m + n < UInt64.size) : sum m n = .ok (m + n) := if_pos h

theorem sum_of_le {m n : Nat} (h : UInt64.size ≤ m + n) : sum m n = .error .overflow :=
  if_neg (Nat.not_lt_of_le h)

theorem sum_eq_ok {m n k : Nat} (h : sum m n = .ok k) : k = m + n := by
  unfold sum at h
  split at h
  · exact (Except.ok.inj h).symm
  · cases h

theorem toList_of_repeated {n : Nat} {c : Char} {t : String} (h : repeated n c = .ok t) :
    t.toList = List.replicate n c := by
  unfold repeated at h
  split at h
  · cases h
    exact String.toList_ofList
  · cases h

theorem exists_of_bind {α β : Type} {x : Except Fault α} {f : α → Except Fault β} {b : β}
    (h : x >>= f = .ok b) : ∃ a, x = .ok a ∧ f a = .ok b := by
  cases x with
  | error e => cases h
  | ok a => exact ⟨a, rfl, h⟩

end Diagnostic

end ConfigAtlas
