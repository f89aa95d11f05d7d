import ConfigAtlas.Text.Piece

/-!
# Comma lists

Elements are cut at the commas that stand outside quotes and brackets.
-/

namespace ConfigAtlas.Text

/-- How deep in brackets a character stands, and in which quotes. -/
structure Nesting where
  depth : Nat := 0
  quote : Option Char := none
  escaped : Bool := false
deriving DecidableEq

namespace Nesting

def opensBracket (c : Char) : Bool := c == '[' || c == '{' || c == '('

def closesBracket (c : Char) : Bool := c == ']' || c == '}' || c == ')'

/-- A backslash guards the next character in double quotes only. A closing bracket that
matches nothing is ignored, and so is its kind. -/
def step (n : Nesting) (c : Char) : Nesting :=
  match n.quote with
  | some quote =>
    if n.escaped then { n with escaped := false }
    else if c = '\\' ∧ quote = '"' then { n with escaped := true }
    else if c = quote then { n with quote := none }
    else n
  | none =>
    if isQuote c then { n with quote := some c }
    else if opensBracket c then { n with depth := n.depth + 1 }
    else if closesBracket c then { n with depth := n.depth - 1 }
    else n

def cuts (n : Nesting) (c : Char) : Bool := c == ',' && n.quote.isNone && n.depth == 0

end Nesting

/-- The texts between the commas. Each starts with nothing open. -/
def commaParts : Nesting → List Char → List (List Char)
  | _, [] => [[]]
  | n, c :: rest =>
    if n.cuts c then [] :: commaParts {} rest
    else (commaParts (n.step c) rest).modifyHead (c :: ·)

theorem commaParts_ne_nil (n : Nesting) (t : List Char) : commaParts n t ≠ [] := by
  induction t generalizing n with
  | nil => simp [commaParts]
  | cons c rest ih =>
    simp only [commaParts]
    split
    · simp
    · have := ih (n.step c)
      cases hp : commaParts (n.step c) rest with
      | nil => exact absurd hp this
      | cons p ps => simp

/-- Nothing is lost: the parts joined by commas are the text. -/
theorem intercalate_commaParts (n : Nesting) (t : List Char) :
    [','].intercalate (commaParts n t) = t := by
  induction t generalizing n with
  | nil => simp [commaParts]
  | cons c rest ih =>
    simp only [commaParts]
    split
    · rename_i hcut
      have hc : c = ',' := by
        simp only [Nesting.cuts, Bool.and_eq_true, beq_iff_eq] at hcut
        exact hcut.1.1
      have hne := commaParts_ne_nil {} rest
      cases hp : commaParts {} rest with
      | nil => exact absurd hp hne
      | cons p ps =>
        have := ih {}
        rw [hp] at this
        simp [List.intercalate_cons_cons, this, hc]
    · have hne := commaParts_ne_nil (n.step c) rest
      have hrest := ih (n.step c)
      cases hp : commaParts (n.step c) rest with
      | nil => exact absurd hp hne
      | cons p ps =>
        rw [hp] at hrest
        cases ps with
        | nil => simpa [List.intercalate] using hrest
        | cons q qs =>
          rw [List.intercalate_cons_cons] at hrest
          simp [List.intercalate_cons_cons, ← hrest]

end ConfigAtlas.Text

namespace ConfigAtlas.Piece

/-- The elements of a comma list, trimmed. There is always at least one. -/
def elements (p : Piece) : List Piece :=
  (consecutive p.start (Text.commaParts {} p.text)).map trim

end ConfigAtlas.Piece
