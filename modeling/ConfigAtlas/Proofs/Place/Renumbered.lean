import ConfigAtlas.Atlas
import ConfigAtlas.Proofs.Text.Lines

/-!
# Lines under other numbers

What a scan says of a line does not depend on the number of that line, which it only hands on.
`Scan.run` is the loop of such a scan, whatever it keeps from one line to the next.
-/

namespace ConfigAtlas

def Line.renumber (l : Line) (f : Nat → Nat) : Line := { l with number := f l.number }

def Place.renumber (place : Place) (f : Nat → Nat) : Place := { place with line := f place.line }

def Record.renumber (r : Record) (f : Nat → Nat) : Record :=
  { r with place := r.place.renumber f }

def Finding.renumber (f : Nat → Nat) : Finding → Finding
  | .placed r => .placed (r.renumber f)
  | .skippedLine n => .skippedLine (f n)
  | .strayClosing tag => .strayClosing tag

theorem Line.map_renumber_numbered {f : Nat → Nat} {n m : Nat} {rows : List (List Char)}
    (h : ∀ i < rows.length, f (n + i) = m + i) :
    (numbered n rows).map (·.renumber f) = numbered m rows := by
  induction rows generalizing n m with
  | nil => rfl
  | cons text rest ih =>
    have hfirst : f n = m := h 0 (by simp)
    have hrest : ∀ i < rest.length, f (n + 1 + i) = m + 1 + i := by
      intro i hi
      have hnext := h (i + 1) (by simpa using hi)
      rwa [Nat.add_right_comm, Nat.add_right_comm m]
    rw [numbered, numbered, List.map_cons, ih hrest, renumber, hfirst]

/-! ## Atlases -/

/-- The record of the same path at another place. -/
def Record.mapPlace (r : Record) (f : Place → Place) : Record := { r with place := f r.place }

namespace Atlas

def mapPlaces (atlas : Atlas) (f : Place → Place) : Atlas :=
  ⟨atlas.slots.map fun (address, r) => (address, r.mapPlace f)⟩

@[simp] theorem size_mapPlaces (atlas : Atlas) (f : Place → Place) :
    (atlas.mapPlaces f).size = atlas.size :=
  List.length_map _

theorem put_mapPlace (address : String) (r : Record) (f : Place → Place)
    (slots : List (String × Record)) :
    put address (r.mapPlace f) (slots.map fun (a, old) => (a, old.mapPlace f)) =
      (put address r slots).map fun (a, old) => (a, old.mapPlace f) := by
  induction slots with
  | nil => rfl
  | cons slot rest ih =>
    obtain ⟨a, old⟩ := slot
    by_cases h : a = address
    · simp [put, h]
    · simp [put, h, ih]

theorem insert_mapPlace (atlas : Atlas) (r : Record) (f : Place → Place) :
    (atlas.mapPlaces f).insert (r.mapPlace f) = (atlas.insert r).mapPlaces f := by
  unfold insert
  have hroot : (r.mapPlace f).path.isRoot = r.path.isRoot := rfl
  rw [hroot]
  split
  · rfl
  · exact congrArg Atlas.mk (put_mapPlace r.path.address r f atlas.slots)

/-- What is on record depends on places only where it shows them. -/
theorem ofRecords_mapPlace (rs : List Record) (f : Place → Place) :
    ofRecords (rs.map (·.mapPlace f)) = (ofRecords rs).mapPlaces f := by
  have hfold : ∀ atlas : Atlas, (rs.map (·.mapPlace f)).foldl insert (atlas.mapPlaces f) =
      (rs.foldl insert atlas).mapPlaces f := by
    induction rs with
    | nil => exact fun atlas => rfl
    | cons r rest ih =>
      intro atlas
      rw [List.map_cons, List.foldl_cons, insert_mapPlace, ih, List.foldl_cons]
  exact hfold {}

def renumber (atlas : Atlas) (f : Nat → Nat) : Atlas :=
  ⟨atlas.slots.map fun (address, r) => (address, r.renumber f)⟩

theorem ofRecords_renumber (rs : List Record) (f : Nat → Nat) :
    ofRecords (rs.map (·.renumber f)) = (ofRecords rs).renumber f :=
  ofRecords_mapPlace rs (·.renumber f)

theorem renumber_renumber (atlas : Atlas) (f g : Nat → Nat) :
    (atlas.renumber f).renumber g = atlas.renumber (g ∘ f) := by
  simp [renumber, Record.renumber, Place.renumber]

theorem renumber_id (atlas : Atlas) : atlas.renumber id = atlas := by
  simp [renumber, Record.renumber, Place.renumber]

end Atlas

/-! ## Scans -/

namespace Scan

variable {State : Type} {step : State → Line → State × List Finding} {s : State}

/-- What a scan finds that goes from line to line with a state. -/
def run (step : State → Line → State × List Finding) (s : State) :
    List Line → State × List Finding
  | [] => (s, [])
  | line :: rest =>
    let (next, found) := step s line
    let (last, later) := run step next rest
    (last, found ++ later)

/-- What is on record of some findings. -/
def placed (found : List Finding) : List Record := found.filterMap Finding.record?

theorem placed_append (found later : List Finding) :
    placed (found ++ later) = placed found ++ placed later := List.filterMap_append

theorem placed_renumber (found : List Finding) (f : Nat → Nat) :
    placed (found.map (·.renumber f)) = (placed found).map (·.renumber f) := by
  induction found with
  | nil => rfl
  | cons finding rest ih =>
    have hcons : ∀ fs : List Finding, placed (finding :: fs) = placed [finding] ++ placed fs :=
      fun fs => placed_append [finding] fs
    have hfirst : placed [finding.renumber f] = (placed [finding]).map (·.renumber f) := by
      cases finding <;> rfl
    rw [List.map_cons, hcons rest, List.map_append, ← ih, ← hfirst]
    exact placed_append [finding.renumber f] _

/-- The number of a line comes out again in what is found there, and nowhere else. -/
def HandsOn (step : State → Line → State × List Finding) : Prop :=
  ∀ s line f, step s (line.renumber f) = ((step s line).1, (step s line).2.map (·.renumber f))

/-- A line with this text leaves the state as it is and places nothing. -/
def Silent (step : State → Line → State × List Finding) (s : State) (text : List Char) :
    Prop :=
  ∀ n, (step s ⟨n, text⟩).1 = s ∧ placed (step s ⟨n, text⟩).2 = []

theorem run_append (s : State) (a b : List Line) :
    run step s (a ++ b) =
      ((run step (run step s a).1 b).1, (run step s a).2 ++ (run step (run step s a).1 b).2) := by
  induction a generalizing s with
  | nil => rfl
  | cons line rest ih => simp [run, ih]

theorem run_renumber (h : HandsOn step) (s : State) (lines : List Line) (f : Nat → Nat) :
    run step s (lines.map (·.renumber f)) =
      ((run step s lines).1, (run step s lines).2.map (·.renumber f)) := by
  induction lines generalizing s with
  | nil => rfl
  | cons line rest ih => simp [run, h s line f, ih]

end Scan

end ConfigAtlas
