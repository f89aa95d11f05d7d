import Mathlib
import ConfigAtlas.Proofs.Flat.Composed
import ConfigAtlas.Proofs.Markup.Composed
import ConfigAtlas.Proofs.Outline.Composed
import ConfigAtlas.Proofs.Survey.Nearest

/-!
# Asking for what is on record

The text of a path on record finds its entry when the names on the path are plain. With its names
in quotes the path finds it whatever they are.
-/

namespace ConfigAtlas.Survey

variable {d : Dialect} {content : String}

theorem composed_record (h : content.length < UInt64.size) {r : Record}
    (hr : r ∈ (build d content).atlas.records) : r.path.Composed UInt64.size := by
  rw [← String.length_toList] at h
  cases d with
  | outline =>
    rw [atlas_build] at hr
    exact Outline.composedIn_findings h r (Atlas.placed_of_mem_records hr)
  | flat =>
    rw [atlas_build] at hr
    exact Flat.composedIn_findings h r (Atlas.placed_of_mem_records hr)
  | markup =>
    rw [Markup.atlas_build_markup] at hr
    exact Markup.composed_recordsOf h r (Atlas.mem_of_mem_records_ofRecords hr)

theorem filed_atlas (d : Dialect) (content : String) : (build d content).atlas.Filed := by
  rw [atlas_build]
  exact Atlas.filed_ofRecords _

theorem not_isRoot_record {r : Record} (hr : r ∈ (build d content).atlas.records) :
    r.path.isRoot = false := by
  obtain ⟨slot, hslot, rfl⟩ := List.mem_map.mp hr
  exact (filed_atlas d content).not_root slot hslot

/-! ## What is on record resolves -/

theorem resolve?_of_get? {s : Survey} {p : Path} {place : Place} (hroot : p.isRoot = false)
    (h : s.atlas.get? p = some place) : s.resolve? p = some place := by
  have hsteps : (Path.ofSegments p.segments).filed = p.filed := by
    rw [Path.filed_ofSegments, Path.filed]
  cases s with
  | outline atlas => exact h
  | flat atlas =>
    obtain ⟨n, hn⟩ := Nat.exists_eq_succ_of_ne_zero (Path.length_pos_iff.mpr hroot).ne'
    have hget : atlas.get? (p.subPath (n + 1)) = some place := by
      rw [← Nat.succ_eq_add_one, ← hn, Path.subPath, Path.length, List.take_length,
        Atlas.get?_congr atlas hsteps]
      exact h
    rw [resolve?, Flat.resolve?, hn, Flat.resolveSteps, hget]
  | markup atlas only =>
    have hget : atlas.get? (.ofSegments p.segments) = some place := by
      rw [Atlas.get?_congr atlas hsteps]
      exact h
    rw [resolve?, Markup.resolve?, Markup.resolveSteps, hget]

theorem find?_of_filed {r : Record} (hr : r ∈ (build d content).atlas.records) {p : Path}
    (hp : p.filed = r.path.filed) : (build d content).find? p = some r.place := by
  have hroot : p.isRoot = false := by
    have hrecord := not_isRoot_record hr
    rw [← Bool.not_eq_true, Path.isRoot_iff_filed] at hrecord ⊢
    rwa [hp]
  have hget : (build d content).atlas.get? p = some r.place := by
    rw [Atlas.get?_congr _ hp]
    exact (filed_atlas d content).get?_record hr
  rw [find?, resolve?_of_get? hroot hget]

/-! ## Texts -/

theorem findText_eq {text : String} {p : Path} (h : Path.read text = .ok p) (s : Survey) :
    s.findText text = .ok (s.find? p) := by
  rw [findText, h]
  rfl

theorem pairwise_filed (d : Dialect) (content : String) :
    (build d content).atlas.records.Pairwise fun r q => r.path.filed ≠ q.path.filed := by
  have hnodup := (filed_atlas d content).nodup_records
  rw [List.Nodup, List.pairwise_map] at hnodup
  exact hnodup.imp fun haddress hfiled =>
    haddress ((Path.address_eq_iff_filed _ _).mpr hfiled)

/-- Every entry is found by the text of its path, as it stands when the names on it are plain, and
with the names in quotes in any case. Those texts are all different. -/
theorem findText_of_record (d : Dialect) {content : String} (h : content.length < UInt64.size) :
    let s := build d content
    (∀ r ∈ s.atlas.records, r.path.PlainlyNamed →
      s.findText r.path.text = .ok (some r.place)) ∧
    (∀ r ∈ s.atlas.records, s.findText r.path.keyed.text = .ok (some r.place)) ∧
    (s.atlas.records.Pairwise fun r q => r.path.PlainlyNamed → q.path.PlainlyNamed →
      (r.path == q.path) = false) ∧
    s.atlas.records.Pairwise fun r q => (r.path.keyed == q.path.keyed) = false := by
  intro s
  have hread : ∀ r ∈ s.atlas.records, r.path.PlainlyNamed → Path.read r.path.text = .ok r.path :=
    fun r hr hplain => Path.read_text (composed_record h hr) (not_isRoot_record hr) hplain
  have hkeyed : ∀ r ∈ s.atlas.records, Path.read r.path.keyed.text = .ok r.path.keyed :=
    fun r hr => Path.read_text_keyed (composed_record h hr) (not_isRoot_record hr)
  refine ⟨?_, ?_, ?_, ?_⟩
  · intro r hr hplain
    rw [findText_eq (hread r hr hplain), find?_of_filed hr rfl]
  · intro r hr
    rw [findText_eq (hkeyed r hr), find?_of_filed hr r.path.filed_keyed]
  · apply (pairwise_filed d content).imp_of_mem
    intro r q hr hq hfiled hplain hplain'
    exact Path.beq_eq_false_of_read (hread r hr hplain) (hread q hq hplain') hfiled
  · apply (pairwise_filed d content).imp_of_mem
    intro r q hr hq hfiled
    apply Path.beq_eq_false_of_read (hkeyed r hr) (hkeyed q hq)
    rwa [Path.filed_keyed, Path.filed_keyed]

theorem records_dotted : (build .outline "a.b: 1\na:\n  b: 2").atlas.records =
    [⟨.ofSegments [.field "a.b"], ⟨1, "a.b: 1", some ⟨"a.b", 0⟩, some ⟨"1", 5⟩⟩⟩,
      ⟨.ofSegments [.field "a"], ⟨2, "a:", some ⟨"a", 0⟩, none⟩⟩,
      ⟨.ofSegments [.field "a", .field "b"],
        ⟨3, "  b: 2", some ⟨"b", 2⟩, some ⟨"2", 5⟩⟩⟩] := by cbv

theorem findText_dotted :
    let s := build .outline "a.b: 1\na:\n  b: 2"
    "a.b: 1\na:\n  b: 2".length < UInt64.size ∧
      s.findText "[\"a.b\"]" = .ok (some ⟨1, "a.b: 1", some ⟨"a.b", 0⟩, some ⟨"1", 5⟩⟩) ∧
      s.findText "a.b" = .ok (some ⟨3, "  b: 2", some ⟨"b", 2⟩, some ⟨"2", 5⟩⟩) := by
  intro s
  have hlength : "a.b: 1\na:\n  b: 2".length < UInt64.size := by decide
  obtain ⟨hplain, hkeyed, -⟩ := findText_of_record .outline hlength
  rw [records_dotted] at hplain hkeyed
  refine ⟨hlength, hkeyed _ List.mem_cons_self, ?_⟩
  apply hplain ⟨.ofSegments [.field "a", .field "b"], _⟩ (by simp)
  simp [Path.PlainlyNamed, Segment.Plain]

/-- A name with a dot in it reads as two, so its text finds nothing or another entry. -/
theorem dotted_name_taken_for_two :
    (¬ ∀ (d : Dialect) (content : String), ∀ r ∈ (build d content).atlas.records,
      (build d content).findText r.path.text = .ok (some r.place)) ∧
    ¬ ∀ (d : Dialect) (content : String),
      (build d content).atlas.records.Pairwise fun r q => (r.path == q.path) = false := by
  constructor
  · intro hfound
    have hrecords : (build .outline "a.b: 1").atlas.records =
        [⟨.ofSegments [.field "a.b"], ⟨1, "a.b: 1", some ⟨"a.b", 0⟩, some ⟨"1", 5⟩⟩⟩] := by cbv
    have hnone : (build .outline "a.b: 1").findText "a.b" = .ok none := by cbv
    have hsome := hfound .outline "a.b: 1"
    rw [hrecords] at hsome
    cases (hsome _ List.mem_cons_self).symm.trans hnone
  · intro hpairwise
    have hdotted := hpairwise .outline "a.b: 1\na:\n  b: 2"
    rw [records_dotted, List.pairwise_cons] at hdotted
    have hdiffer := hdotted.1 _ (List.mem_cons_of_mem _ List.mem_cons_self)
    have hsame : (Path.ofSegments [.field "a.b"] == .ofSegments [.field "a", .field "b"]) =
        true := by cbv
    rw [hsame] at hdiffer
    cases hdiffer

end ConfigAtlas.Survey
