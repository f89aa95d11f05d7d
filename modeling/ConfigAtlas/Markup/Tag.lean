import ConfigAtlas.Text.Piece

/-!
# Tags

A markup source as the list of its opening and closing tags. Comments, character data,
instructions and declarations are passed over whole, so no tag is found inside them. The
attributes of a tag are `name=value` pairs between blanks, and words without an equals sign are
passed over.
-/

namespace ConfigAtlas.Markup

/-! ## Attributes -/

/-- A name in a tag and what stands behind its equals sign. -/
structure Attribute where
  name : Piece
  /-- The value as written, quotes included. -/
  value : Piece
deriving DecidableEq

namespace Attribute

def isNameChar (c : Char) : Bool := !Text.isBlank c && c != '='

/-- A quoted run with its quotes, or all up to a blank. -/
def valueAt (p : Piece) : Piece :=
  match Text.quotedRun? p.text with
  | some n => p.take n
  | none => p.takeWhile (!Text.isBlank ·)

/-- The attribute at the front, and what follows it. A value without a name is no attribute. -/
def read (p : Piece) : Option Attribute × Piece :=
  let name := p.takeWhile isNameChar
  let rest := (p.drop name.length).trimStart
  match rest.text with
  | '=' :: _ =>
    let front := (rest.drop 1).trimStart
    let value := valueAt front
    (if name.isEmpty then none else some ⟨name, value⟩, front.drop value.length)
  | _ => (none, p.drop (max 1 name.length))

theorem length_read_lt {p : Piece} (h : p.text ≠ []) : (read p).2.length < p.length := by
  have hpos : 0 < p.length := List.length_pos_iff.mpr h
  unfold read
  simp only
  split
  · rename_i after hrest
    have hfront := Piece.length_trimStart_le
      (((p.drop (p.takeWhile isNameChar).length).trimStart).drop 1)
    have hle := Piece.length_trimStart_le (p.drop (p.takeWhile isNameChar).length)
    have hlen : ((p.drop (p.takeWhile isNameChar).length).trimStart).length = after.length + 1 := by
      rw [Piece.length, hrest, List.length_cons]
    simp only [Piece.length_drop] at *
    omega
  · simp only [Piece.length_drop]
    omega

def readAll (p : Piece) : List Attribute :=
  let front := p.trimStart
  if h : front.text = [] then []
  else
    have : (read front).2.length < p.length :=
      Nat.lt_of_lt_of_le (length_read_lt h) p.length_trimStart_le
    (read front).1.toList ++ readAll (read front).2
termination_by p.length

end Attribute

/-! ## Tags and their ends -/

/-- What is read of an opening tag. The source goes on at `after`. -/
structure OpenTag where
  name : Piece
  attributes : List Attribute
  selfClosing : Bool
  after : Piece
deriving DecidableEq

/-- A closing tag is kept with the position of its `<`. -/
inductive Tag where
  | opening (tag : OpenTag)
  | closing (name : List Char) (start : Nat)
deriving DecidableEq

/-! ## Opening tags -/

def isTagNameChar (c : Char) : Bool := !Text.isBlank c && c != '/' && c != '>'

/-- How many characters stand before the `>` that ends a tag. One in quotes does not, and
nothing guards a quote. -/
def tagStop? : (quote : Option Char) → List Char → Option Nat
  | _, [] => none
  | none, c :: rest =>
    if c = '>' then some 0
    else (tagStop? (if Text.isQuote c then some c else none) rest).map (· + 1)
  | some quote, c :: rest =>
    (tagStop? (if c = quote then none else some quote) rest).map (· + 1)

/-- The inside of a tag without the slashes at its end. -/
def withoutSlashes (p : Piece) : Piece :=
  ⟨p.start, (p.text.reverse.dropWhile (· == '/')).reverse⟩

/-- The tag whose `<` is at the front. It must have a name and an end. -/
def OpenTag.read? (p : Piece) : Option OpenTag :=
  let name := (p.drop 1).takeWhile isTagNameChar
  let body := (p.drop 1).drop name.length
  if name.isEmpty then none
  else match tagStop? none body.text with
    | none => none
    | some n => some {
        name := name
        attributes := Attribute.readAll (withoutSlashes (body.take n))
        selfClosing := (body.take n).trimEnd.text.getLast? == some '/'
        after := body.drop (n + 1) }

/-! ## All tags -/

/-- What is passed over, by how it starts and how it ends. The first that fits counts. -/
def hiddenMarks : List (List Char × List Char) :=
  [(['<', '!', '-', '-'], ['-', '-', '>']),
    (['<', '!', '[', 'C', 'D', 'A', 'T', 'A', '['], [']', ']', '>']),
    (['<', '?'], ['?', '>']),
    (['<', '!'], ['>'])]

def hiddenEnd? (p : Piece) : Option (List Char) :=
  (hiddenMarks.find? fun mark => p.startsWith mark.1).map Prod.snd

/-- The tag whose `<` is at the front, if it is one, and what to go on with. -/
def Tag.read (p : Piece) : Option Tag × Piece :=
  match hiddenEnd? p with
  | some mark => (none, p.past mark)
  | none =>
    if p.startsWith ['<', '/'] then
      (some (.closing ((p.drop 2).takeWhile isTagNameChar).text p.start), p.past ['>'])
    else match OpenTag.read? p with
      | some tag => (some (.opening tag), tag.after)
      | none => (none, p.drop 1)

/-! ## Each tag takes something -/

theorem tagStop?_lt {quote : Option Char} {t : List Char} {n : Nat}
    (h : tagStop? quote t = some n) : n < t.length := by
  induction t generalizing quote n with
  | nil => simp [tagStop?] at h
  | cons c rest ih =>
    cases quote with
    | none =>
      simp only [tagStop?] at h
      split at h
      · cases h; simp
      · obtain ⟨m, hm, rfl⟩ := Option.map_eq_some_iff.mp h
        have := ih hm
        simp; omega
    | some quote =>
      simp only [tagStop?] at h
      obtain ⟨m, hm, rfl⟩ := Option.map_eq_some_iff.mp h
      have := ih hm
      simp; omega

theorem OpenTag.length_after_lt {p : Piece} {tag : OpenTag} (h : OpenTag.read? p = some tag) :
    tag.after.length < p.length := by
  unfold OpenTag.read? at h
  simp only at h
  split at h
  · cases h
  · split at h
    · cases h
    · rename_i n hn
      cases h
      have := tagStop?_lt hn
      simp only [Piece.text_drop, List.length_drop, Piece.length_drop] at this ⊢
      simp only [Piece.length] at this ⊢
      omega

theorem hiddenEnd?_ne_nil {p : Piece} {mark : List Char} (h : hiddenEnd? p = some mark) :
    mark ≠ [] := by
  obtain ⟨pair, hpair, rfl⟩ := Option.map_eq_some_iff.mp h
  have hmem := List.mem_of_find?_eq_some hpair
  simp only [hiddenMarks, List.mem_cons, List.not_mem_nil, or_false] at hmem
  rcases hmem with rfl | rfl | rfl | rfl <;> simp

theorem Tag.length_read_lt {p : Piece} (h : p.text ≠ []) : (Tag.read p).2.length < p.length := by
  have hpos : 0 < p.length := List.length_pos_iff.mpr h
  unfold Tag.read
  split
  · rename_i mark hmark
    exact Piece.length_past_lt (hiddenEnd?_ne_nil hmark) h
  · split
    · exact Piece.length_past_lt (by simp) h
    · split
      · rename_i tag htag
        exact OpenTag.length_after_lt htag
      · simp only [Piece.length_drop]
        omega

def tags (p : Piece) : List Tag :=
  let front := p.dropWhile (· != '<')
  if h : front.text = [] then []
  else
    have : (Tag.read front).2.length < p.length :=
      Nat.lt_of_lt_of_le (Tag.length_read_lt h) (p.length_dropWhile_le _)
    (Tag.read front).1.toList ++ tags (Tag.read front).2
termination_by p.length

end ConfigAtlas.Markup
