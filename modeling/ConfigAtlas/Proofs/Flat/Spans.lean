import Mathlib
import ConfigAtlas.Survey
import ConfigAtlas.Proofs.Atlas.Records
import ConfigAtlas.Proofs.Place.Shown

/-!
# Spans of flat entries and of their elements

Each entry is shown by its line, and so is each element that is cut out of its value, at any depth.
-/

namespace ConfigAtlas.Survey

theorem exists_resolve_of_find {s : Survey} {p : Path} {place : Place}
    (h : s.find? p = some place) : ∃ q, s.resolve? q = some place := by
  unfold Survey.find? at h
  split at h
  · rename_i found hresolve
    exact ⟨p, hresolve.trans h⟩
  · obtain ⟨⟨ancestor, found⟩, hnearest, rfl⟩ := Option.map_eq_some_iff.mp h
    obtain ⟨q, -, hq⟩ := List.exists_of_findSome?_eq_some hnearest
    obtain ⟨found', hresolve, heq⟩ := Option.map_eq_some_iff.mp hq
    cases heq
    exact ⟨_, hresolve⟩

end ConfigAtlas.Survey

namespace ConfigAtlas.Flat

/-! ## Entries -/

theorem find?_lt {s : SeparatorScan} {t : List Char} {n : Nat} (h : s.find? t = some n) :
    n < t.length := by
  induction t generalizing s n with
  | nil => cases h
  | cons c t ih =>
    rw [SeparatorScan.find?] at h
    split at h
    · cases h
      simp
    · obtain ⟨m, hm, rfl⟩ := Option.map_eq_some_iff.mp h
      have := ih hm
      simpa using this

theorem cut_readEntry {l : Line} {key : Piece} {value? : Option Piece}
    (h : Statement.readEntry (.whole l.text) = .entry key value?) : l.Cut (some key) value? := by
  unfold Statement.readEntry at h
  split at h
  · cases h
  · rename_i n hfind
    have hkey := Piece.PartOf.trim ((Piece.whole l.text).take n)
    have hvalue := Piece.PartOf.trim ((Piece.whole l.text).drop (n + 1))
    have hbefore : ((Piece.whole l.text).take n).trim.stop <
        ((Piece.whole l.text).drop (n + 1)).trim.start :=
      calc ((Piece.whole l.text).take n).trim.stop
        _ ≤ ((Piece.whole l.text).take n).stop := hkey.stop_le
        _ < ((Piece.whole l.text).drop (n + 1)).start := Piece.stop_take_lt (find?_lt hfind)
        _ ≤ ((Piece.whole l.text).drop (n + 1)).trim.start := hvalue.start_le
    simp only at h
    split at h
    · cases h
    · cases h
      exact Line.cut_pair (hkey.trans (.take _ n)) (hvalue.trans (.drop _ (n + 1))) hbefore

theorem cut_read {l : Line} {key : Piece} {value? : Option Piece}
    (h : Statement.read l.text = .entry key value?) : l.Cut (some key) value? := by
  unfold Statement.read at h
  simp only at h
  split at h
  · cases h
  · split at h
    · cases h
    · split at h
      · cases h
      · split at h
        · cases h
        · exact cut_readEntry h

theorem shows_step {ctx : Context} {l : Line} {r : Record} (h : .placed r ∈ (ctx.step l).2) :
    l.Shows r.place := by
  unfold Context.step at h
  split at h
  · cases h
  · cases h
  · cases h
  · rename_i key value? hread
    rw [List.mem_singleton, Finding.placed.injEq] at h
    rw [h]
    exact ⟨some key, value?, cut_read hread, rfl⟩
  · cases List.mem_singleton.mp h

theorem shows_run {ctx : Context} {lines : List Line} {r : Record}
    (h : .placed r ∈ (ctx.run lines).2) : ∃ l ∈ lines, l.Shows r.place := by
  induction lines generalizing ctx with
  | nil => cases h
  | cons l rest ih =>
    rcases List.mem_append.mp h with h | h
    · exact ⟨l, List.mem_cons_self, shows_step h⟩
    · obtain ⟨q, hq, hshows⟩ := ih h
      exact ⟨q, List.mem_cons_of_mem l hq, hshows⟩

theorem shows_record {content : String} {r : Record}
    (h : r ∈ (Survey.build .flat content).atlas.records) :
    ∃ l ∈ Line.ofContent content.toList, l.Shows r.place := by
  rw [Survey.atlas_build] at h
  exact shows_run (Atlas.placed_of_mem_records h)

/-! ## Elements of a value -/

theorem inlineList?_part {value list : Piece} (h : inlineList? value = some list) :
    list.PartOf value := by
  unfold inlineList? at h
  split at h
  · rename_i inner hinner
    cases h
    exact .between? hinner
  · simp only [Option.ite_none_right_eq_some, Option.some.injEq] at h
    exact h.2 ▸ .refl value

theorem shows_listElement {l : Line} {n : Nat} {container place : Place}
    (hcontainer : l.Shows container) (h : listElement? n container = some place) :
    l.Shows place := by
  obtain ⟨key?, value?, hcut, rfl⟩ := hcontainer
  cases value? with
  | none => cases h
  | some value =>
    simp only [listElement?, Line.place, Option.map_some, Piece.of_span] at h
    split at h
    · cases h
    · rename_i list hlist
      obtain ⟨e, he, rfl⟩ := Option.map_eq_some_iff.mp h
      have hpart := Piece.PartOf.elements (List.mem_of_getElem? he)
      exact ⟨key?, some e, hcut.part (hpart.trans (inlineList?_part hlist)), rfl⟩

theorem shows_resolveSteps {atlas : Atlas} {lines : List Line}
    (hatlas : ∀ r ∈ atlas.records, ∃ l ∈ lines, l.Shows r.place) {p : Path} {n : Nat}
    {place : Place} (h : resolveSteps atlas p n = some place) : ∃ l ∈ lines, l.Shows place := by
  induction n generalizing place with
  | zero => cases h
  | succ n ih =>
    unfold resolveSteps at h
    split at h
    · rename_i hget
      cases h
      obtain ⟨r, hr, rfl⟩ := Atlas.exists_record_of_get? hget
      exact hatlas r hr
    · obtain ⟨container, hcontainer, hplace⟩ := Option.bind_eq_some_iff.mp h
      obtain ⟨l, hl, hshows⟩ := ih hcontainer
      exact ⟨l, hl, shows_listElement hshows hplace⟩
    · cases h

/-! ## Answers -/

/-- Whatever a survey of a flat source answers, on record, cut out of a value, or in place of a
path below it, is where it is said to be. -/
theorem standsIn_answer {content : String} {p : Path} {place : Place}
    (h : (Survey.build .flat content).resolve? p = some place ∨
      (Survey.build .flat content).find? p = some place) :
    place.StandsIn content.toList := by
  have hresolve : ∃ q, (Survey.build .flat content).resolve? q = some place := by
    rcases h with h | h
    · exact ⟨p, h⟩
    · exact Survey.exists_resolve_of_find h
  obtain ⟨q, hq⟩ := hresolve
  obtain ⟨l, hl, hshows⟩ := shows_resolveSteps (fun r hr => shows_record hr) hq
  exact hshows.standsIn hl

theorem standsIn_nested_element :
    let content := "[a]\nports = [80, [é, 2]]\n"
    let survey := Survey.build .flat content
    let p := Path.ofSegments [.field "a", .field "ports", .index 1, .index 0]
    let place : Place := ⟨2, "ports = [80, [é, 2]]", some ⟨"ports", 0⟩, some ⟨"é", 14⟩⟩
    (survey.resolve? p = some place ∨ survey.find? p = some place) ∧
      place.StandsIn content.toList := by
  intro content survey p place
  have hanswer : survey.resolve? p = some place := by cbv
  exact ⟨.inl hanswer, standsIn_answer (.inl hanswer)⟩

end ConfigAtlas.Flat
