import Mathlib
import ConfigAtlas.Survey
import ConfigAtlas.Proofs.Atlas.History
import ConfigAtlas.Proofs.Flat.Spans
import ConfigAtlas.Proofs.Markup.OuterFirst
import ConfigAtlas.Proofs.Markup.TagOrder
import ConfigAtlas.Proofs.Outline.Inert
import ConfigAtlas.Proofs.Outline.LineOrder
import ConfigAtlas.Proofs.Survey.InertLines

/-!
# The order of entries

Where no path is placed twice, entries stand in the order in which they were placed. Line numbers
never go down, and on one line a container comes before what is inside it, but for the elements of
a list in brackets.
-/

namespace ConfigAtlas

/-! ## Line by line -/

namespace Scan

variable {State : Type} {step : State → Line → State × List Finding}
  {onLine : Record → Record → Prop}

theorem line_of_mem_run
    (hline : ∀ s l, ∀ r ∈ placed (step s l).2, r.place.line = l.number) {s : State} {n : Nat}
    {rows : List (List Char)} {r : Record} (hr : r ∈ placed (run step s (Line.numbered n rows)).2) :
    n ≤ r.place.line := by
  induction rows generalizing s n with
  | nil => cases hr
  | cons row rest ih =>
    rw [Line.numbered, run, placed_append] at hr
    rcases List.mem_append.mp hr with hr | hr
    · exact Nat.le_of_eq (hline s ⟨n, row⟩ r hr).symm
    · exact Nat.le_of_succ_le (ih hr)

theorem pairwise_run (hline : ∀ s l, ∀ r ∈ placed (step s l).2, r.place.line = l.number)
    (hstep : ∀ s l, (placed (step s l).2).Pairwise onLine) (s : State) (n : Nat)
    (rows : List (List Char)) :
    (placed (run step s (Line.numbered n rows)).2).Pairwise fun r q =>
      r.place.line ≤ q.place.line ∧ (r.place.line = q.place.line → onLine r q) := by
  induction rows generalizing s n with
  | nil => exact List.Pairwise.nil
  | cons row rest ih =>
    rw [Line.numbered, run, placed_append, List.pairwise_append]
    refine ⟨?_, ih _ (n + 1), ?_⟩
    · apply (hstep s ⟨n, row⟩).imp_of_mem
      intro r q hr hq horder
      rw [hline s _ r hr, hline s _ q hq]
      exact ⟨Nat.le_refl n, fun _ => horder⟩
    · intro r hr q hq
      have hlater : n < q.place.line := line_of_mem_run hline hq
      rw [hline s _ r hr]
      exact ⟨Nat.le_of_lt hlater, fun heq => absurd heq (Nat.ne_of_lt hlater)⟩

end Scan

namespace Flat

theorem line_of_mem_step {ctx : Context} {l : Line} {r : Record}
    (h : r ∈ Scan.placed (ctx.step l).2) : r.place.line = l.number :=
  (shows_step (Finding.mem_filterMap_record?.mp h)).line_eq

theorem ordered_step (ctx : Context) (l : Line) :
    (Scan.placed (ctx.step l).2).Pairwise fun _ _ => False := by
  unfold Context.step
  split <;> first | exact List.Pairwise.nil | exact List.pairwise_singleton _ _

end Flat

/-! ## All dialects -/

namespace Survey

/-- What a scan places. The root is no entry. -/
def placed (d : Dialect) (content : String) : List Record :=
  Atlas.entered (Scan.placed (findings d content.toList))

/-- No two placed paths have the same steps, so each has an address of its own. -/
def PlacedOnce (d : Dialect) (content : String) : Prop :=
  (placed d content).Pairwise fun r q => ¬ r.path.SameSteps q.path

/-- What holds of two records, one placed before the other. The line of the first is no later, and
on one line the first is inside the second just when it is an element of its list in brackets. -/
def InOrder (d : Dialect) (r q : Record) : Prop :=
  r.place.line ≤ q.place.line ∧
    (r.place.line = q.place.line →
      (r.path.Inside q.path ↔ d = .outline ∧ Outline.ElementOf r q) ∧
        ¬ (d = .outline ∧ Outline.ElementOf q r))

theorem records_build_of_placedOnce {d : Dialect} {content : String} (h : PlacedOnce d content) :
    (build d content).atlas.records = placed d content := by
  have hnodup : ((placed d content).map (·.path.address)).Nodup := by
    rw [List.Nodup, List.pairwise_map]
    exact h.imp fun hne haddress => hne ((Path.sameSteps_iff_address _ _).mpr haddress)
  rw [atlas_build, Atlas.ofFindings, ← Atlas.ofRecords_entered]
  exact Atlas.records_ofRecords_of_nodup Atlas.not_isRoot_of_mem_entered hnodup

theorem pairwise_placed_outline (content : String) :
    (placed .outline content).Pairwise (InOrder .outline) := by
  have horder := Scan.pairwise_run (fun _ _ _ => Outline.Context.line_of_mem_step)
    Outline.Context.ordered_step {} 1 (Text.lines content.toList)
  rw [placed, findings, Outline.Context.findings_eq_scan, Line.ofContent_eq]
  apply (horder.sublist List.filter_sublist).imp
  rintro r q ⟨hline, hsame⟩
  refine ⟨hline, fun heq => ?_⟩
  simp only [true_and]
  exact hsame heq

theorem pairwise_placed_flat (content : String) :
    (placed .flat content).Pairwise (InOrder .flat) := by
  have horder := Scan.pairwise_run (fun _ _ _ => Flat.line_of_mem_step) Flat.ordered_step {} 1
    (Text.lines content.toList)
  rw [placed, findings, Flat.findings_eq_scan, Line.ofContent_eq]
  apply (horder.sublist List.filter_sublist).imp
  rintro r q ⟨hline, hsame⟩
  exact ⟨hline, fun heq => (hsame heq).elim⟩

theorem pairwise_placed_markup {content : String} (h : PlacedOnce .markup content) :
    (placed .markup content).Pairwise (InOrder .markup) := by
  have hplaced : placed .markup content = Markup.recordsOf content.toList := by
    have hrecords : Scan.placed (findings .markup content.toList) =
        Markup.recordsOf content.toList := Markup.filterMap_record?_findings content.toList
    rw [placed, hrecords, Atlas.entered, List.filter_eq_self]
    intro r hr
    rw [Markup.not_isRoot_of_mem_recordsOf r hr]
    rfl
  rw [PlacedOnce, hplaced] at h
  have hnodup : ((Markup.recordsOf content.toList).map (·.path.segments)).Nodup := by
    rw [List.Nodup, List.pairwise_map]
    apply h.imp
    intro r q hne hsegments
    rw [Path.SameSteps, Path.forall₂_sameStep_iff, hsegments] at hne
    exact hne rfl
  have hlines := Markup.pairwise_line_recordsOf content.toList
  rw [hplaced]
  apply (hlines.and (Markup.outerFirst_recordsOf hnodup)).imp
  rintro r q ⟨hline, houter⟩
  refine ⟨hline, fun _ => ⟨⟨fun hinside => absurd hinside houter, ?_⟩, ?_⟩⟩
  · rintro ⟨hdialect, -⟩
    cases hdialect
  · rintro ⟨hdialect, -⟩
    cases hdialect

/-- Where no path is placed twice, line numbers never go down from entry to entry. On one line, the
entries that come before their container are the elements of its list in brackets, and no others
are; this is so in outline sources only. -/
theorem entries_in_order (d : Dialect) (content : String) (h : PlacedOnce d content) :
    (build d content).atlas.records.Pairwise (InOrder d) := by
  rw [records_build_of_placedOnce h]
  cases d with
  | outline => exact pairwise_placed_outline content
  | flat => exact pairwise_placed_flat content
  | markup => exact pairwise_placed_markup h

theorem placedOnce_of_paths {d : Dialect} {content : String} {paths : List (List Segment)}
    (h : (placed d content).map (·.path.segments) = paths)
    (hpaths : paths.Pairwise fun s t => ¬ List.Forall₂ Segment.SameStep s t) :
    PlacedOnce d content := by
  rw [← h, List.pairwise_map] at hpaths
  exact hpaths

theorem entries_in_order_of_item :
    PlacedOnce .outline "- k: [x]\n  j: 1" ∧
      (build .outline "- k: [x]\n  j: 1").atlas.records.Pairwise (InOrder .outline) ∧
      (build .outline "- k: [x]\n  j: 1").atlas.records.map (·.path.text) =
        ["[0]", "[0].k[0]", "[0].k", "[0].j"] := by
  have hpaths : (placed .outline "- k: [x]\n  j: 1").map (·.path.segments) =
      [[.index 0], [.index 0, .field "k", .index 0], [.index 0, .field "k"],
        [.index 0, .field "j"]] := by cbv
  have honce := placedOnce_of_paths hpaths (by decide)
  exact ⟨honce, entries_in_order .outline _ honce, by cbv⟩

/-- The elements of a list in brackets come before the key that has the list for its value. -/
theorem elements_before_their_list :
    ¬ ∀ (d : Dialect) (content : String), PlacedOnce d content →
      (build d content).atlas.records.Pairwise fun r q =>
        r.place.line ≤ q.place.line ∧
          (r.place.line = q.place.line → ¬ r.path.Inside q.path) := by
  intro h
  have hpaths : (placed .outline "ports: [80, 443]").map (·.path.segments) =
      [[.field "ports", .index 0], [.field "ports", .index 1], [.field "ports"]] := by cbv
  have hrecords : (build .outline "ports: [80, 443]").atlas.records.map
      (fun r => (r.path.segments, r.place.line)) =
      [([.field "ports", .index 0], 1), ([.field "ports", .index 1], 1),
        ([.field "ports"], 1)] := by cbv
  have horder : ((build .outline "ports: [80, 443]").atlas.records.map
      (fun r => (r.path.segments, r.place.line))).Pairwise
      fun r q => r.2 = q.2 → ¬ (q.1 <+: r.1 ∧ q.1 ≠ r.1) :=
    List.pairwise_map.mpr ((h _ _ (placedOnce_of_paths hpaths (by decide))).imp And.right)
  rw [hrecords] at horder
  exact absurd horder (by decide)

end Survey

end ConfigAtlas
