import Mathlib
import ConfigAtlas.Proofs.Diagnostic.Carets
import ConfigAtlas.Proofs.Flat.Spans
import ConfigAtlas.Proofs.Outline.Spans
import ConfigAtlas.Proofs.Text.Lines
import ConfigAtlas.Proofs.Text.Positions

/-!
# Diagnostics of outline and flat sources

Whatever path is asked for, the carets stand under the text that is found.
-/

namespace ConfigAtlas

theorem Text.feed_not_mem_of_mem_lines {t row : List Char} (h : row ∈ lines t) : '\n' ∉ row := by
  induction t using line_induction with
  | last own hown =>
    by_cases hempty : own = []
    · rw [hempty, lines_nil] at h
      cases h
    · rw [lines_of_feed_not_mem hown hempty] at h
      rwa [List.mem_singleton.mp h]
  | feed own rest hown ih =>
    rw [lines_append_feed hown] at h
    rcases List.mem_cons.mp h with rfl | h
    · intro hfeed
      unfold dropReturn at hfeed
      split at hfeed
      · exact hown (List.mem_of_mem_dropLast hfeed)
      · exact hown hfeed
    · exact ih h

theorem Place.StandsIn.feed_not_mem {place : Place} {content : List Char}
    (h : place.StandsIn content) : '\n' ∉ place.raw.toList :=
  Text.feed_not_mem_of_mem_lines (List.mem_of_getElem? h.raw_eq)

namespace Survey

theorem standsIn_of_find? {d : Dialect} (hd : d ≠ .markup) {content : String} {p : Path}
    {place : Place} (h : (build d content).find? p = some place) :
    place.StandsIn content.toList := by
  obtain ⟨q, hq⟩ := exists_resolve_of_find h
  have hshows : ∃ l ∈ Line.ofContent content.toList, l.Shows place := by
    cases d with
    | outline =>
      obtain ⟨r, hr, rfl⟩ := Atlas.exists_record_of_get? hq
      exact Outline.Context.shows_run (Atlas.placed_of_mem_records hr)
    | flat => exact Flat.shows_resolveSteps (fun r hr => Flat.shows_record hr) hq
    | markup => exact absurd rfl hd
  obtain ⟨l, hl, hshown⟩ := hshows
  exact hshown.standsIn hl

theorem exists_of_render? {s : Survey} {p : Path} {source? hint? : Option String}
    {highlight? : Option Highlight} {text : String}
    (h : s.render? p source? hint? highlight? = .ok (some text)) :
    ∃ place, s.find? p = some place ∧
      (Diagnostic.mk place source? hint? highlight?).render = .ok text := by
  unfold render? at h
  split at h
  · cases h
  · rename_i place hfind
    refine ⟨place, hfind, ?_⟩
    cases hrender : (Diagnostic.mk place source? hint? highlight?).render with
    | error e =>
      rw [hrender] at h
      cases h
    | ok shown =>
      rw [hrender] at h
      cases h
      rfl

/-- A diagnostic of an outline or flat source has four lines, and points at the text of the place
that is found. -/
theorem pointsAt_render? {d : Dialect} (hd : d ≠ .markup) {content : String} {p : Path}
    {source? hint? : Option String} {text : String} (hsource : ∀ s ∈ source?, '\n' ∉ s.toList)
    (hhint : ∀ s ∈ hint?, '\n' ∉ s.toList)
    (h : (build d content).render? p source? hint? none = .ok (some text)) :
    ∃ place header spacer excerpt carets, (build d content).find? p = some place ∧
      text.toList.splitOn '\n' = [header, spacer, excerpt, carets] ∧
        Diagnostic.PointsAt place header excerpt carets := by
  obtain ⟨place, hfind, hrender⟩ := exists_of_render? h
  have hstands := standsIn_of_find? hd hfind
  obtain ⟨u, hunderline, hsplit⟩ :=
    Diagnostic.splitOn_render hrender hstands.feed_not_mem hsource hhint
  rw [Diagnostic.underline_eq_target rfl] at hunderline
  cases hunderline
  obtain ⟨header, spacer, excerpt, carets, hlines, hpoints⟩ :=
    Diagnostic.pointsAt_linesAround (d := ⟨place, source?, hint?, none⟩)
      (Place.target_on fun s hs => (hstands.span_on s hs).1)
  exact ⟨place, header, spacer, excerpt, carets, hfind, hsplit.trans hlines, hpoints⟩

theorem pointsAt_empty_item :
    let s := build .flat "é = [a, ]"
    let p : Path := .ofSegments [.field "é", .index 1, .field "x"]
    let text := " --> s:1:9\n  |\n1 | é = [a, ]\n  |         ^ ^"
    s.render? p (some "s") (some "^") none = .ok (some text) ∧
      ∃ place header spacer excerpt carets, s.find? p = some place ∧
        text.toList.splitOn '\n' = [header, spacer, excerpt, carets] ∧
          Diagnostic.PointsAt place header excerpt carets := by
  intro s p text
  have hrender : s.render? p (some "s") (some "^") none = .ok (some text) := by
    simp only [s, p, text]
    cbv
  exact ⟨hrender, pointsAt_render? (by decide) (by simp) (by simp) hrender⟩

end Survey

end ConfigAtlas
