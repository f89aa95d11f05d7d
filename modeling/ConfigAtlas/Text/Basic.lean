/-!
# Blanks, quotes and escapes

What the three dialects share in how they read the characters of a text: which of them are blank,
how quotes stand around a name, and how a backslash guards a character.
-/

namespace ConfigAtlas.Text

/-! ## Blank characters -/

/-- The ranges of the Unicode property `White_Space`, both ends included. -/
def blankRanges : List (Nat × Nat) :=
  [(0x09, 0x0D), (0x20, 0x20), (0x85, 0x85), (0xA0, 0xA0), (0x1680, 0x1680), (0x2000, 0x200A),
    (0x2028, 0x2029), (0x202F, 0x202F), (0x205F, 0x205F), (0x3000, 0x3000)]

def isBlank (c : Char) : Bool :=
  blankRanges.any fun (low, high) => low ≤ c.toNat && c.toNat ≤ high

def trimStart (t : List Char) : List Char := t.dropWhile isBlank

def trimEnd (t : List Char) : List Char := (t.reverse.dropWhile isBlank).reverse

def trim (t : List Char) : List Char := trimEnd (trimStart t)

theorem trimEnd_isPrefix (t : List Char) : trimEnd t <+: t := by
  have h := List.dropWhile_suffix isBlank (l := t.reverse)
  simpa [trimEnd] using List.reverse_prefix.mpr h

theorem trimStart_isSuffix (t : List Char) : trimStart t <:+ t := List.dropWhile_suffix isBlank

/-! ## Quotes -/

def isQuote (c : Char) : Bool := c == '"' || c == '\''

/-- The same quote stands at both ends, and they are not one character. -/
def isQuoted : List Char → Bool
  | [] => false
  | c :: rest => isQuote c && rest.getLast? == some c

/-- Takes off one layer of quotes. What stands between them is left as written. -/
def unquote (t : List Char) : List Char := if isQuoted t then t.tail.dropLast else t

/-- How many characters are left up to the closing quote, that quote included. -/
def untilClosed (quote : Char) : (escaped : Bool) → List Char → Option Nat
  | _, [] => none
  | true, _ :: rest => (untilClosed quote false rest).map (· + 1)
  | false, c :: rest =>
    if c = quote then some 1
    else (untilClosed quote (quote == '"' && c == '\\') rest).map (· + 1)

/-- The length of the quoted run at the front of a text, both quotes included. A backslash
guards the next character in double quotes only. -/
def quotedRun? : List Char → Option Nat
  | [] => none
  | c :: rest => if isQuote c then (untilClosed c false rest).map (· + 1) else none

theorem untilClosed_le {quote : Char} {escaped : Bool} {t : List Char} {n : Nat}
    (h : untilClosed quote escaped t = some n) : n ≤ t.length := by
  induction t generalizing escaped n with
  | nil => simp [untilClosed] at h
  | cons c rest ih =>
    cases escaped with
    | true =>
      simp only [untilClosed, Option.map_eq_some_iff] at h
      obtain ⟨m, hm, rfl⟩ := h
      have := ih hm
      simp; omega
    | false =>
      simp only [untilClosed] at h
      split at h
      · cases h; simp
      · obtain ⟨m, hm, rfl⟩ := Option.map_eq_some_iff.mp h
        have := ih hm
        simp; omega

theorem quotedRun?_le {t : List Char} {n : Nat} (h : quotedRun? t = some n) : n ≤ t.length := by
  cases t with
  | nil => simp [quotedRun?] at h
  | cons c rest =>
    simp only [quotedRun?] at h
    split at h
    · obtain ⟨m, hm, rfl⟩ := Option.map_eq_some_iff.mp h
      have := untilClosed_le hm
      simp; omega
    · simp at h

/-! ## Escapes -/

/-- Puts a backslash before each character that `special` names. -/
def escape (special : Char → Bool) (t : List Char) : List Char :=
  t.flatMap fun c => if special c then ['\\', c] else [c]

@[simp] theorem escape_nil (special : Char → Bool) : escape special [] = [] := rfl

@[simp] theorem escape_cons (special : Char → Bool) (c : Char) (t : List Char) :
    escape special (c :: t) = (if special c then ['\\', c] else [c]) ++ escape special t := rfl

theorem escape_cons_of_special {special : Char → Bool} {c : Char} (h : special c = true)
    (t : List Char) : escape special (c :: t) = '\\' :: c :: escape special t := by
  simp [h]

theorem escape_cons_of_not_special {special : Char → Bool} {c : Char} (h : special c = false)
    (t : List Char) : escape special (c :: t) = c :: escape special t := by
  simp [h]

@[simp] theorem escape_append (special : Char → Bool) (s t : List Char) :
    escape special (s ++ t) = escape special s ++ escape special t := by
  simp [escape]

end ConfigAtlas.Text
