import ConfigAtlas.Dialect
import ConfigAtlas.Path.Basic
import ConfigAtlas.Place

/-!
# The atlas of a source

Which path stands where. Entries keep the order in which their paths first came up, and the last
place given to a path is the one that counts. A scan of a source is a list of findings: those that
place a path make up the atlas, and the others are events.
-/

namespace ConfigAtlas

/-- What a scan places: a path, and where it stands. -/
structure Record where
  path : Path
  place : Place

/-- Records by address, in the order of first insertion. -/
structure Atlas where
  slots : List (String × Record) := []

namespace Atlas

/-- Replaces the record at an address where it stands, or adds it at the end. -/
def put (address : String) (r : Record) : List (String × Record) → List (String × Record)
  | [] => [(address, r)]
  | (a, old) :: rest => if a = address then (address, r) :: rest else (a, old) :: put address r rest

/-- The root is no entry. -/
def insert (atlas : Atlas) (r : Record) : Atlas :=
  if r.path.isRoot then atlas else ⟨put r.path.address r atlas.slots⟩

def ofRecords (records : List Record) : Atlas := records.foldl insert {}

def records (atlas : Atlas) : List Record := atlas.slots.map Prod.snd

def size (atlas : Atlas) : Nat := atlas.slots.length

def isEmpty (atlas : Atlas) : Bool := atlas.slots.isEmpty

/-- The place that was last given to the address of the path. -/
def get? (atlas : Atlas) (p : Path) : Option Place :=
  (atlas.slots.lookup p.address).map Record.place

def contains (atlas : Atlas) (p : Path) : Bool := (atlas.get? p).isSome

/-! ## After an insertion -/

theorem lookup_put (address a : String) (r : Record) (slots : List (String × Record)) :
    (put address r slots).lookup a = if a = address then some r else slots.lookup a := by
  induction slots with
  | nil =>
    by_cases h : a = address
    · simp [put, h]
    · have : (a == address) = false := by simpa using h
      simp [put, h, List.lookup_cons, this]
  | cons slot rest ih =>
    obtain ⟨b, old⟩ := slot
    by_cases h : a = b
    · subst h
      by_cases hb : a = address <;> simp [put, hb]
    · have hab : (a == b) = false := by simpa using h
      by_cases hb : b = address
      · subst hb
        simp [put, h, List.lookup_cons, hab]
      · simp [put, hb, List.lookup_cons, hab, ih]

theorem get?_insert (atlas : Atlas) (r : Record) (h : r.path.isRoot = false) (p : Path) :
    (atlas.insert r).get? p =
      if p.address = r.path.address then some r.place else atlas.get? p := by
  have hslots : atlas.insert r = ⟨put r.path.address r atlas.slots⟩ := by simp [insert, h]
  rw [hslots, get?, lookup_put]
  split <;> simp [get?]

end Atlas

/-! ## Findings and events -/

/-- What a line or a tag of a source comes to. -/
inductive Finding where
  | placed (record : Record)
  | skippedLine (line : Nat)
  /-- A closing tag without an opening tag of its name. -/
  | strayClosing (tag : String)

/-- What is told of a survey, or of a question that it was asked. -/
inductive Event where
  | surveyed (dialect : Dialect) (lines entries : Nat)
  | skippedLine (line : Nat)
  | strayClosing (tag : String)
  | fellBack (requested resolved : Path)

namespace Finding

def record? : Finding → Option Record
  | .placed record => some record
  | _ => none

/-- What is placed is not told of one by one. -/
def event? : Finding → Option Event
  | .placed _ => none
  | .skippedLine line => some (.skippedLine line)
  | .strayClosing tag => some (.strayClosing tag)

end Finding

def Atlas.ofFindings (findings : List Finding) : Atlas :=
  .ofRecords (findings.filterMap Finding.record?)

end ConfigAtlas
