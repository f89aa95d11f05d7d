import ConfigAtlas.Proofs.Atlas.Lookup
import ConfigAtlas.Proofs.Path.Reading

/-!
# Paths that can be asked for by a text

A path put together step by step has the text of its steps. If its indices fit in a word, its own
text reads as the path when its names are plain, and with its names as keys it does in any case.
-/

namespace ConfigAtlas

namespace Segment

/-- The step with its name in quotes. -/
def keyed : Segment → Segment
  | .field name => .key name
  | s => s

@[simp] theorem filed_keyed (s : Segment) : s.keyed.filed = s.filed := by
  cases s <;> rfl

end Segment

namespace Path

/-- Put together step by step, with no index as high as the limit. -/
structure Composed (limit : Nat) (p : Path) : Prop where
  eq_ofSegments : p = ofSegments p.segments
  index_lt : ∀ n, .index n ∈ p.segments → n < limit

variable {limit : Nat} {p q : Path}

theorem composed_root : Composed limit root := ⟨rfl, by simp⟩

namespace Composed

theorem push (h : p.Composed limit) {s : Segment} (hs : ∀ n, s = .index n → n < limit) :
    (p.push s).Composed limit where
  eq_ofSegments := by
    rw [segments_push, ofSegments_append, ← h.eq_ofSegments]
    rfl
  index_lt := by
    intro n hn
    rcases List.mem_append.mp hn with hn | hn
    · exact h.index_lt n hn
    · exact hs n (List.mem_singleton.mp hn).symm

theorem field (h : p.Composed limit) (name : String) : (p.field name).Composed limit :=
  h.push (by simp)

theorem key (h : p.Composed limit) (raw : String) : (p.key raw).Composed limit :=
  h.push (by simp)

theorem element (h : p.Composed limit) {n : Nat} (hn : n < limit) :
    (p.element n).Composed limit := by
  apply h.push
  rintro m ⟨⟩
  exact hn

theorem fitsWord (h : p.Composed UInt64.size) : ∀ s ∈ p.segments, s.FitsWord := by
  intro s hs
  cases s with
  | index n => exact h.index_lt n hs
  | field name => trivial
  | key raw => trivial

end Composed

/-! ## Its texts -/

/-- All names on the path are plain, so its text says what its steps are. -/
def PlainlyNamed (p : Path) : Prop := ∀ s ∈ p.segments, s.Plain

/-- The same path with its names in quotes. -/
def keyed (p : Path) : Path := ofSegments (p.segments.map Segment.keyed)

@[simp] theorem filed_keyed (p : Path) : p.keyed.filed = p.filed := by
  rw [keyed, filed_ofSegments, List.map_map, filed]
  exact List.map_congr_left fun s _ => s.filed_keyed

theorem read_text (h : p.Composed UInt64.size) (hroot : p.isRoot = false)
    (hplain : p.PlainlyNamed) : read p.text = .ok p := by
  have hne : p.segments ≠ [] := List.isEmpty_eq_false_iff.mp hroot
  have hread := read_text_ofSegments hne fun s hs => ⟨hplain s hs, h.fitsWord s hs⟩
  rwa [← h.eq_ofSegments] at hread

theorem read_text_keyed (h : p.Composed UInt64.size) (hroot : p.isRoot = false) :
    read p.keyed.text = .ok p.keyed := by
  have hne : p.segments.map Segment.keyed ≠ [] := by
    rw [ne_eq, List.map_eq_nil_iff]
    exact List.isEmpty_eq_false_iff.mp hroot
  apply read_text_ofSegments hne
  intro s hs
  obtain ⟨t, ht, rfl⟩ := List.mem_map.mp hs
  have hfits := h.fitsWord t ht
  cases t with
  | index n => exact ⟨trivial, hfits⟩
  | field name => exact ⟨trivial, trivial⟩
  | key raw => exact ⟨trivial, trivial⟩

theorem beq_eq_false_of_read (hp : read p.text = .ok p) (hq : read q.text = .ok q)
    (h : p.filed ≠ q.filed) : (p == q) = false := by
  have htext : p.text ≠ q.text := by
    intro heq
    rw [heq, hq] at hp
    exact h (congrArg filed (Except.ok.inj hp).symm)
  show (p.text == q.text) = false
  exact beq_eq_false_iff_ne.mpr htext

end Path

/-! ## Findings -/

/-- All paths that are placed can be asked for. -/
def ComposedIn (limit : Nat) (found : List Finding) : Prop :=
  ∀ r, .placed r ∈ found → r.path.Composed limit

section

variable {limit : Nat}

theorem composedIn_nil : ComposedIn limit [] := by simp [ComposedIn]

theorem composedIn_singleton {p : Path} (h : p.Composed limit) (place : Place) :
    ComposedIn limit [.placed ⟨p, place⟩] := by
  intro r hr
  cases List.mem_singleton.mp hr
  exact h

theorem ComposedIn.append {found later : List Finding} (h : ComposedIn limit found)
    (h' : ComposedIn limit later) : ComposedIn limit (found ++ later) := by
  intro r hr
  rcases List.mem_append.mp hr with hr | hr
  · exact h r hr
  · exact h' r hr

end

end ConfigAtlas
