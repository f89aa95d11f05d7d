import ConfigAtlas.Proofs.Outline.Block

/-!
# Lists in flat values

A value is a plain text or a list of values in brackets. How it is written, and what stands where
a list of indices leads. Nothing here reads a value.
-/

namespace ConfigAtlas.Flat

def isPlain (c : Char) : Bool :=
  !(['\n', ',', '"', '\'', '[', ']', '{', '}', '(', ')'].contains c)

/-- The text may be empty. -/
structure Leaf where
  text : List Char
  trim_text : Text.trim text = text
  plain : ∀ c ∈ text, isPlain c = true

/-- Blanks on one line. -/
structure Gap where
  text : List Char
  blank : ∀ c ∈ text, Text.isBlank c = true
  feed_not_mem : '\n' ∉ text

mutual

/-- No list is empty, but its only item may be a leaf with an empty text. -/
inductive Value where
  | leaf (l : Leaf)
  | list (first : Item) (rest : List Item)

inductive Item where
  | mk (before : Gap) (value : Value) (after : Gap)

end

def Item.value : Item → Value
  | .mk _ value _ => value

/-! ## How it is written -/

mutual

def Value.written : Value → List Char
  | .leaf l => l.text
  | .list first rest => '[' :: (first.written ++ restWritten rest ++ [']'])

def Item.written : Item → List Char
  | .mk before value after => before.text ++ (value.written ++ after.text)

def restWritten : List Item → List Char
  | [] => []
  | item :: rest => ',' :: (item.written ++ restWritten rest)

end

/-- What stands in front of the value on the line of an entry. -/
def opening (key : Outline.Word) : List Char := key.text ++ [' ', '=', ' ']

def Value.line (key : Outline.Word) (v : Value) : List Char := opening key ++ v.written

mutual

theorem Value.feed_not_mem (v : Value) : '\n' ∉ v.written :=
  match v with
  | .leaf l => fun h => absurd (l.plain '\n' h) (by decide)
  | .list first rest => by
    simp [Value.written, first.feed_not_mem, feed_not_mem_rest rest]

theorem Item.feed_not_mem (item : Item) : '\n' ∉ item.written :=
  match item with
  | .mk before value after => by
    simp [Item.written, before.feed_not_mem, value.feed_not_mem, after.feed_not_mem]

theorem feed_not_mem_rest (items : List Item) : '\n' ∉ restWritten items :=
  match items with
  | [] => List.not_mem_nil
  | item :: rest => by simp [restWritten, item.feed_not_mem, feed_not_mem_rest rest]

end

/-! ## What stands where -/

/-- A value together with the text around it. -/
structure Spot where
  front : List Char
  value : Value
  behind : List Char

/-- A spot in the value at another spot, seen from where that one is. -/
def Spot.inside (outer inner : Spot) : Spot :=
  ⟨outer.front ++ inner.front, inner.value, inner.behind ++ outer.behind⟩

/-- The blanks in front of an item's value. All blanks around an empty value are in front of it. -/
def Item.lead : Item → List Char
  | .mk before value after => before.text ++ if value.written = [] then after.text else []

def Item.trail : Item → List Char
  | .mk _ value after => if value.written = [] then [] else after.text

/-- The item of a list that has `earlier` in front and `later` behind. -/
def Item.spot (earlier : List Item) (item : Item) (later : List Item) : Spot where
  front := '[' :: (earlier.flatMap fun i => i.written ++ [',']) ++ item.lead
  value := item.value
  behind := item.trail ++ (restWritten later ++ [']'])

def Value.child? : Value → Nat → Option Spot
  | .leaf _, _ => none
  | .list first rest, n =>
    (first :: rest)[n]?.map fun item =>
      item.spot ((first :: rest).take n) ((first :: rest).drop (n + 1))

/-- One index leads to an item of the value, and the next ones on from there. -/
def Value.at? (v : Value) : List Nat → Option Spot
  | [] => some ⟨[], v, []⟩
  | n :: ns => (v.child? n).bind fun s => (s.value.at? ns).map s.inside

/-- The place of what stands there in the value of an entry. -/
def Spot.place (key : Outline.Word) (line : List Char) (s : Spot) : Place where
  line := 1
  raw := String.ofList line
  key? := some ⟨String.ofList key.text, 0⟩
  value? := some ⟨String.ofList s.value.written, (opening key ++ s.front).length⟩

/-! ## The text around -/

theorem Item.written_eq (item : Item) :
    item.written = item.lead ++ (item.value.written ++ item.trail) := by
  cases item with
  | mk before value after =>
    by_cases h : value.written = [] <;> simp [Item.written, Item.lead, Item.value, Item.trail, h]

theorem written_of_split (earlier : List Item) (item : Item) (later : List Item) {first : Item}
    {rest : List Item} (h : first :: rest = earlier ++ item :: later) :
    first.written ++ restWritten rest =
      (earlier.flatMap fun i => i.written ++ [',']) ++ (item.written ++ restWritten later) := by
  induction earlier generalizing first rest with
  | nil =>
    obtain ⟨rfl, rfl⟩ := List.cons.inj h
    rfl
  | cons i earlier ih =>
    obtain ⟨rfl, hrest⟩ := List.cons.inj h
    cases rest with
    | nil => simp at hrest
    | cons second rest =>
      have hsecond := ih hrest
      simp only [restWritten, hsecond, List.flatMap_cons, List.append_assoc, List.cons_append,
        List.nil_append]

theorem Value.written_of_child? {v : Value} {n : Nat} {s : Spot} (h : v.child? n = some s) :
    v.written = s.front ++ (s.value.written ++ s.behind) := by
  cases v with
  | leaf l => cases h
  | list first rest =>
    obtain ⟨item, hitem, rfl⟩ := Option.map_eq_some_iff.mp h
    obtain ⟨hn, rfl⟩ := List.getElem?_eq_some_iff.mp hitem
    have hsplit : first :: rest =
        (first :: rest).take n ++ (first :: rest)[n] :: (first :: rest).drop (n + 1) := by
      rw [List.getElem_cons_drop, List.take_append_drop]
    rw [Value.written, written_of_split _ _ _ hsplit, Item.written_eq, Item.spot]
    simp only [List.append_assoc, List.cons_append]

theorem Value.written_of_at? {v : Value} {ns : List Nat} {s : Spot} (h : v.at? ns = some s) :
    v.written = s.front ++ (s.value.written ++ s.behind) := by
  induction ns generalizing v s with
  | nil =>
    cases h
    simp
  | cons n ns ih =>
    obtain ⟨outer, houter, hinner⟩ := Option.bind_eq_some_iff.mp h
    obtain ⟨inner, hat, rfl⟩ := Option.map_eq_some_iff.mp hinner
    rw [Value.written_of_child? houter, ih hat, Spot.inside]
    simp

theorem Value.at?_concat (v : Value) (ns : List Nat) (n : Nat) :
    v.at? (ns ++ [n]) = (v.at? ns).bind fun s => (s.value.child? n).map s.inside := by
  induction ns generalizing v with
  | nil => cases h : v.child? n <;> simp [Value.at?, Spot.inside, h]
  | cons m ns ih =>
    rw [List.cons_append, Value.at?, Value.at?]
    cases v.child? m with
    | none => rfl
    | some outer =>
      have hinside : ∀ s : Spot, outer.inside ∘ s.inside = (outer.inside s).inside := by
        intro s
        funext t
        simp [Spot.inside]
      simp only [Option.bind_some, ih, Option.bind_map, Option.map_bind, Function.comp_def,
        Option.map_map]
      exact Option.bind_congr fun s _ => congrArg (Option.map · (s.value.child? n)) (hinside s)

end ConfigAtlas.Flat
