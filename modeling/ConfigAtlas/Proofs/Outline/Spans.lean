import Mathlib
import ConfigAtlas.Survey
import ConfigAtlas.Proofs.Atlas.Records
import ConfigAtlas.Proofs.Outline.Comments
import ConfigAtlas.Proofs.Place.Shown

/-!
# Spans of outline entries

Pairs, items and the elements of their inline lists are all shown by the line they are read on,
however deep a line nests them.
-/

namespace ConfigAtlas.Outline

open Piece (PartOf)

/-! ## What is read on a line -/

theorem scalarAt_part (p : Piece) : (scalarAt p).PartOf p := by
  unfold scalarAt
  split
  · exact PartOf.take p _
  · exact (PartOf.trimEnd _).trans (PartOf.of_prefix (beforeComment_isPrefix true p.text))

theorem stop_lt_start {p value : Piece} {n : Nat} (hcolon : (p.drop n).trimStart.text ≠ [])
    (hvalue : value.PartOf ((p.drop n).trimStart.drop 1)) :
    (p.take n).trimEnd.stop < value.start :=
  calc (p.take n).trimEnd.stop
    _ ≤ (p.take n).stop := (PartOf.trimEnd _).stop_le
    _ = (p.drop n).start := p.stop_take n
    _ ≤ (p.drop n).trimStart.start := (PartOf.trimStart _).start_le
    _ < ((p.drop n).trimStart.drop 1).start := Piece.start_lt_drop_one hcolon
    _ ≤ value.start := hvalue.start_le

theorem cut_read? {l : Line} {p : Piece} {pair : Pair} (hp : p.PartOf (.whole l.text))
    (h : Pair.read? p = some pair) : l.Cut (some pair.key) pair.value? := by
  unfold Pair.read? at h
  split at h
  · cases h
  · rename_i n _
    simp only at h
    split at h
    · cases h
    · split at h
      · rename_i after htext
        split at h
        · cases h
          have hkey := (PartOf.trimEnd (p.take n)).trans (.take p n)
          have hrest := (PartOf.trimStart (p.drop n)).trans (.drop p n)
          have hvalue := (scalarAt_part ((p.drop n).trimStart.drop 1).trimStart).trans
            (.trimStart _)
          exact Line.cut_pair (hkey.trans hp) ((hvalue.trans (.drop _ 1)).trans (hrest.trans hp))
            (stop_lt_start (by simp [htext]) hvalue)
        · cases h
      · cases h

/-- What a statement names is cut out of the line. -/
def Statement.CutFrom (l : Line) : Statement → Prop
  | .pair found => l.Cut (some found.key) found.value?
  | .scalar value => l.Cut none (some value)
  | _ => True

theorem cutFrom_read {l : Line} {p : Piece} (hp : p.PartOf (.whole l.text)) :
    (Statement.read p).CutFrom l := by
  unfold Statement.read
  simp only
  split
  · trivial
  · split
    · trivial
    · split
      · rename_i pair hpair
        exact cut_read? hp hpair
      · exact Line.cut_value ((scalarAt_part p).trans hp)

/-! ## What a line places -/

namespace Context

theorem afterMarker_part (marker : Piece) : (afterMarker marker).PartOf marker := by
  unfold afterMarker
  split
  · exact .refl marker
  · exact (PartOf.trimStart _).trans ((PartOf.take _ _).trans (PartOf.drop marker 1))

section

variable {l : Line} {r : Record} {ctx : Context} {path : Path}

theorem shows_inlineItems {value : Piece} (hvalue : value.PartOf (.whole l.text))
    (h : .placed r ∈ inlineItems l path value) : l.Shows r.place := by
  unfold inlineItems at h
  split at h
  · cases h
  · rename_i list hlist
    split at h
    · cases h
    · obtain ⟨i, hi, hr⟩ := List.mem_mapIdx.mp h
      cases hr
      have hpart := PartOf.elements (List.getElem_mem hi)
      exact ⟨none, _, Line.cut_value (hpart.trans ((PartOf.between? hlist).trans hvalue)), rfl⟩

theorem shows_placeValue {depth : Nat} {key? : Option Piece} {value : Piece}
    (hcut : l.Cut key? (some value))
    (h : .placed r ∈ (ctx.placeValue l path depth key? value).2) : l.Shows r.place := by
  have hfound : Finding.placed r = .placed ⟨path, l.place key? (some value)⟩ → l.Shows r.place := by
    rintro ⟨⟩
    exact ⟨key?, some value, hcut, rfl⟩
  unfold placeValue at h
  simp only at h
  split at h
  · exact hfound (List.mem_singleton.mp h)
  · rcases List.mem_append.mp h with h | h
    · exact shows_inlineItems (hcut.value_part value rfl) h
    · exact hfound (List.mem_singleton.mp h)

theorem shows_placePair {pair : Pair} (hcut : l.Cut (some pair.key) pair.value?)
    (h : .placed r ∈ (ctx.placePair l pair path).2) : l.Shows r.place := by
  unfold placePair at h
  simp only at h
  split at h
  · rename_i hvalue
    rw [List.mem_singleton, Finding.placed.injEq] at h
    rw [hvalue] at hcut
    rw [h]
    exact ⟨_, _, hcut, rfl⟩
  · rename_i value hvalue
    rw [hvalue] at hcut
    exact shows_placeValue hcut h

theorem shows_bare (h : Finding.placed r = .placed ⟨path, l.place none none⟩) :
    l.Shows r.place := by
  cases h
  exact ⟨none, none, l.cut_none, rfl⟩

theorem shows_placeItem {marker : Piece} (hmarker : marker.PartOf (.whole l.text))
    (h : .placed r ∈ (ctx.placeItem l marker).2) : l.Shows r.place := by
  fun_induction placeItem ctx l marker with
  | case1 => exact shows_bare (List.mem_singleton.mp h)
  | case2 ctx marker depth opened path bare hread hlt next found hnext ih =>
    rcases List.mem_cons.mp h with h | h
    · exact shows_bare h
    · rw [hnext] at ih
      exact ih ((afterMarker_part marker).trans hmarker) h
  | case3 ctx marker depth opened path bare pair hread next found hnext =>
    have hcut := cutFrom_read ((afterMarker_part marker).trans hmarker)
    rw [hread] at hcut
    rcases List.mem_cons.mp h with h | h
    · exact shows_bare h
    · have hfound : .placed r ∈ (opened.placePair l pair path).2 := by
        rw [hnext]
        exact h
      exact shows_placePair hcut hfound
  | case4 ctx marker depth opened path value hread =>
    have hcut := cutFrom_read ((afterMarker_part marker).trans hmarker)
    rw [hread] at hcut
    exact shows_placeValue hcut h

theorem shows_step (h : .placed r ∈ (ctx.step l).2) : l.Shows r.place := by
  have hfront : ((Piece.whole l.text).drop (l.text.takeWhile isGap).length).PartOf
      (.whole l.text) := .drop _ _
  have hcut := cutFrom_read hfront
  unfold step at h
  split at h
  · cases h
  · simp only at h
    split at h
    · cases h
    · split at h
      · cases h
      · exact shows_placeItem hfront h
      · rename_i pair hread
        rw [hread] at hcut
        exact shows_placePair hcut h
      · cases List.mem_singleton.mp h

end

theorem shows_run {ctx : Context} {lines : List Line} {r : Record}
    (h : .placed r ∈ (ctx.run lines).2) : ∃ l ∈ lines, l.Shows r.place := by
  induction lines generalizing ctx with
  | nil => cases h
  | cons l rest ih =>
    rcases List.mem_append.mp h with h | h
    · exact ⟨l, List.mem_cons_self, shows_step h⟩
    · obtain ⟨q, hq, hshows⟩ := ih h
      exact ⟨q, List.mem_cons_of_mem l hq, hshows⟩

end Context

/-- Every entry of an outline source is where it is said to be. -/
theorem standsIn_record {content : String} {r : Record}
    (h : r ∈ (Survey.build .outline content).atlas.records) :
    r.place.StandsIn content.toList := by
  rw [Survey.atlas_build] at h
  obtain ⟨l, hl, hshows⟩ := Context.shows_run (Atlas.placed_of_mem_records h)
  exact hshows.standsIn hl

theorem standsIn_inline_item :
    let content := "é:\n- - k: [\"ü,\", w] # c\n"
    let r : Record := ⟨.ofSegments [.field "é", .index 0, .index 0, .field "k", .index 1],
      ⟨2, "- - k: [\"ü,\", w] # c", none, some ⟨"w", 14⟩⟩⟩
    r ∈ (Survey.build .outline content).atlas.records ∧ r.place.StandsIn content.toList := by
  intro content r
  have hrecords : (Survey.build .outline content).atlas.records[4]? = some r := by cbv
  have hmem := List.mem_of_getElem? hrecords
  exact ⟨hmem, standsIn_record hmem⟩

end ConfigAtlas.Outline
