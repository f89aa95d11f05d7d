import ConfigAtlas.Place
import ConfigAtlas.Proofs.Text.Part

/-!
# Places that a line shows

A place that is made of pieces of a line is where it says it is in the text of that line.
-/

namespace ConfigAtlas

/-- The place is a line of the text, its spans stand on this line, and its key ends before its
value. -/
structure Place.StandsIn (place : Place) (content : List Char) : Prop where
  line_pos : 0 < place.line
  raw_eq : (Text.lines content)[place.line - 1]? = some place.raw.toList
  span_on : ∀ s, place.key? = some s ∨ place.value? = some s →
    s.On place.raw.toList ∧ s.stop ≤ place.raw.length
  key_before : ∀ k v, place.key? = some k → place.value? = some v → k.stop < v.column

namespace Piece

theorem stop_span (p : Piece) : p.span.stop = p.stop := by
  simp [Span.stop, span, Span.width, stop]

theorem of_span (p : Piece) : (⟨p.span.column, p.span.text.toList⟩ : Piece) = p := by
  simp [span]

end Piece

namespace Line

/-- A key and a value cut out of a line, the key in front. -/
structure Cut (l : Line) (key? value? : Option Piece) : Prop where
  key_part : ∀ k ∈ key?, k.PartOf (.whole l.text)
  value_part : ∀ v ∈ value?, v.PartOf (.whole l.text)
  key_before : ∀ k ∈ key?, ∀ v ∈ value?, k.stop < v.start

/-- The place is made of pieces of the line. -/
def Shows (l : Line) (place : Place) : Prop :=
  ∃ key? value?, l.Cut key? value? ∧ place = l.place key? value?

variable {l : Line} {key value : Piece}

theorem cut_none (l : Line) : l.Cut none none := ⟨by simp, by simp, by simp⟩

theorem cut_value (h : value.PartOf (.whole l.text)) : l.Cut none (some value) :=
  ⟨by simp, by simpa using h, by simp⟩

theorem cut_pair (hkey : key.PartOf (.whole l.text)) (hvalue : value.PartOf (.whole l.text))
    (hbefore : key.stop < value.start) :
    l.Cut (some key) (if value.isEmpty then none else some value) := by
  split
  · exact ⟨by simpa using hkey, by simp, by simp⟩
  · exact ⟨by simpa using hkey, by simpa using hvalue, by simpa using hbefore⟩

theorem Cut.part {key? : Option Piece} (h : l.Cut key? (some value)) {e : Piece}
    (he : e.PartOf value) : l.Cut key? (some e) where
  key_part := h.key_part
  value_part := by
    rintro v ⟨⟩
    exact he.trans (h.value_part value rfl)
  key_before := by
    rintro k hk v ⟨⟩
    have := h.key_before k hk value rfl
    have := he.start_le
    omega

theorem Shows.line_eq {place : Place} (h : l.Shows place) : place.line = l.number := by
  obtain ⟨key?, value?, -, rfl⟩ := h
  rfl

theorem Shows.standsIn {place : Place} (h : l.Shows place) {content : List Char}
    (hl : l ∈ ofContent content) : place.StandsIn content := by
  obtain ⟨key?, value?, hcut, rfl⟩ := h
  have hspan : ∀ p : Piece, p.PartOf (.whole l.text) →
      p.span.On (String.ofList l.text).toList ∧ p.span.stop ≤ (String.ofList l.text).length := by
    intro p hp
    rw [String.toList_ofList, String.length_ofList, Piece.stop_span]
    exact ⟨hp.within.span_on, hp.within.1⟩
  constructor
  · obtain ⟨i, hi, rfl⟩ := List.mem_mapIdx.mp hl
    exact Nat.succ_pos i
  · simpa [place] using ofContent_number hl
  · rintro s (hs | hs) <;> obtain ⟨p, hp, rfl⟩ := Option.map_eq_some_iff.mp hs
    · exact hspan p (hcut.key_part p hp)
    · exact hspan p (hcut.value_part p hp)
  · intro k v hk hv
    obtain ⟨p, hp, rfl⟩ := Option.map_eq_some_iff.mp hk
    obtain ⟨q, hq, rfl⟩ := Option.map_eq_some_iff.mp hv
    rw [Piece.stop_span]
    exact hcut.key_before p hp q hq

end Line

end ConfigAtlas
