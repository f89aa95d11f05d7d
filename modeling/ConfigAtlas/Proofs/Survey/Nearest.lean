import Mathlib
import ConfigAtlas.Survey
import ConfigAtlas.Proofs.Outline.Ancestry

/-!
# The nearest answer

A path is answered for by the longest of its prefixes that resolves, and the path itself counts as
one. The root answers for nothing.
-/

namespace ConfigAtlas

namespace Path

variable {p e : Path}

theorem subPath_of_prefix (h : p.segments <+: e.segments) {n : Nat} (hn : n ≤ p.length) :
    e.subPath n = p.subPath n := by
  obtain ⟨more, hmore⟩ := h
  rw [subPath, subPath, ← hmore, List.take_append_of_le_length hn]

@[simp] theorem segments_subPath_length (p : Path) :
    (p.subPath p.length).segments = p.segments := by
  rw [segments_subPath]
  exact List.take_length

theorem length_pos_iff : 0 < p.length ↔ p.isRoot = false := by
  rw [length, isRoot, List.length_pos_iff, List.isEmpty_eq_false_iff]

theorem mem_ancestors {q : Path} :
    q ∈ p.ancestors ↔ ∃ n, 0 < n ∧ n < p.length ∧ p.subPath n = q := by
  rw [ancestors, List.range_eq_range', List.drop_range']
  simp only [List.mem_map, List.mem_reverse, List.mem_range'_1]
  constructor
  · rintro ⟨n, hn, rfl⟩
    exact ⟨n, by omega, by omega, rfl⟩
  · rintro ⟨n, hpos, hlt, rfl⟩
    exact ⟨n, by omega, rfl⟩

theorem ancestors_split {n : Nat} (hpos : 0 < n) (hlt : n < p.length) :
    ∃ longer shorter, p.ancestors = longer ++ p.subPath n :: shorter ∧
      ∀ q ∈ longer, ∃ m, n < m ∧ m < p.length ∧ p.subPath m = q := by
  have hsplit : (List.range p.length).drop 1 =
      List.range' 1 (n - 1) ++ n :: List.range' (n + 1) (p.length - (n + 1)) := by
    have hlength : p.length - 1 = (n - 1) + (p.length - (n + 1) + 1) := by omega
    have hn : 0 + 1 * 1 + (n - 1) = n := by omega
    rw [List.range_eq_range', List.drop_range', hlength, ← List.range'_append_1, hn,
      List.range'_succ]
  refine ⟨(List.range' (n + 1) (p.length - (n + 1))).reverse.map p.subPath,
    (List.range' 1 (n - 1)).reverse.map p.subPath, ?_, ?_⟩
  · rw [ancestors, hsplit]
    simp
  · intro q hq
    simp only [List.mem_map, List.mem_reverse, List.mem_range'_1] at hq
    obtain ⟨m, hm, rfl⟩ := hq
    exact ⟨m, by omega, by omega, rfl⟩

end Path

namespace Survey

variable {s : Survey} {p e : Path} {n : Nat}

theorem resolve?_congr (s : Survey) (h : p.segments = e.segments) :
    s.resolve? p = s.resolve? e := by
  cases s with
  | outline atlas => exact Atlas.get?_congr atlas (congrArg (List.map Segment.filed) h)
  | flat atlas =>
    have hsub : ∀ n, p.subPath n = e.subPath n := by
      intro n
      rw [Path.subPath, Path.subPath, h]
    have hsteps : ∀ n, Flat.resolveSteps atlas p n = Flat.resolveSteps atlas e n := by
      intro n
      induction n with
      | zero => rfl
      | succ n ih => rw [Flat.resolveSteps, Flat.resolveSteps, hsub, h, ih]
    have hlength : p.length = e.length := congrArg List.length h
    exact (hsteps p.length).trans (congrArg _ hlength)
  | markup atlas only =>
    exact congrArg (Markup.resolveSteps atlas only) h

/-- The first `n` steps of the path resolve, and no longer part of it does. -/
structure AnsweredAt (s : Survey) (p : Path) (n : Nat) : Prop where
  pos : 0 < n
  le_length : n ≤ p.length
  resolves : s.resolve? (p.subPath n) ≠ none
  longest : ∀ m, n < m → m ≤ p.length → s.resolve? (p.subPath m) = none

theorem exists_answeredAt (hn : 0 < n) (hle : n ≤ p.length)
    (h : s.resolve? (p.subPath n) ≠ none) : ∃ m, s.AnsweredAt p m := by
  let Resolves (m : Nat) : Prop := 0 < m ∧ s.resolve? (p.subPath m) ≠ none
  classical
  have hgreatest : Resolves (Nat.findGreatest Resolves p.length) :=
    Nat.findGreatest_spec hle ⟨hn, h⟩
  refine ⟨Nat.findGreatest Resolves p.length, hgreatest.1, Nat.findGreatest_le _, hgreatest.2, ?_⟩
  intro m hlonger hm
  by_contra hresolves
  exact Nat.findGreatest_is_greatest hlonger hm ⟨Nat.zero_lt_of_lt hlonger, hresolves⟩

namespace AnsweredAt

theorem resolve?_eq_none (h : s.AnsweredAt p n) (hlt : n < p.length) : s.resolve? p = none := by
  rw [← h.longest p.length hlt (Nat.le_refl _)]
  exact resolve?_congr s (Path.segments_subPath_length p).symm

theorem nearest?_eq (h : s.AnsweredAt p n) (hlt : n < p.length) :
    s.nearest? p = (s.resolve? (p.subPath n)).map fun place => (p.subPath n, place) := by
  obtain ⟨longer, shorter, hancestors, hlonger⟩ := Path.ancestors_split h.pos hlt
  have hskipped : longer.findSome? (fun ancestor =>
      (s.resolve? ancestor).map fun place => (ancestor, place)) = none := by
    rw [List.findSome?_eq_none_iff]
    intro q hq
    obtain ⟨m, hnm, hm, rfl⟩ := hlonger q hq
    rw [h.longest m hnm (Nat.le_of_lt hm)]
    rfl
  obtain ⟨place, hplace⟩ := Option.ne_none_iff_exists'.mp h.resolves
  rw [nearest?, hancestors, List.findSome?_append, hskipped, Option.none_or, List.findSome?_cons,
    hplace]
  rfl

theorem find?_eq (h : s.AnsweredAt p n) : s.find? p = s.resolve? (p.subPath n) := by
  rcases Nat.lt_or_eq_of_le h.le_length with hlt | rfl
  · rw [find?, h.resolve?_eq_none hlt, h.nearest?_eq hlt]
    cases s.resolve? (p.subPath n) <;> rfl
  · obtain ⟨place, hplace⟩ := Option.ne_none_iff_exists'.mp h.resolves
    rw [find?, ← resolve?_congr s (Path.segments_subPath_length p), hplace]

theorem findEvents_eq (h : s.AnsweredAt p n) :
    s.findEvents p = if n < p.length then [.fellBack p (p.subPath n)] else [] := by
  obtain ⟨place, hplace⟩ := Option.ne_none_iff_exists'.mp h.resolves
  split
  · rename_i hlt
    rw [findEvents, h.resolve?_eq_none hlt, h.nearest?_eq hlt, hplace]
    rfl
  · rename_i hge
    obtain rfl := Nat.le_antisymm h.le_length (Nat.le_of_not_lt hge)
    rw [findEvents, ← resolve?_congr s (Path.segments_subPath_length p), hplace]

theorem extend (h : s.AnsweredAt p n) (hfront : p.segments <+: e.segments)
    (hbelow : ∀ m, p.length < m → m ≤ e.length → s.resolve? (e.subPath m) = none) :
    s.AnsweredAt e n where
  pos := h.pos
  le_length := h.le_length.trans hfront.length_le
  resolves := by
    rw [Path.subPath_of_prefix hfront h.le_length]
    exact h.resolves
  longest := by
    intro m hnm hm
    rcases Nat.lt_or_ge p.length m with hlonger | hle
    · exact hbelow m hlonger hm
    · rw [Path.subPath_of_prefix hfront hle]
      exact h.longest m hnm hle

end AnsweredAt

theorem findEvents_eq_nil (h : s.find? p = none) : s.findEvents p = [] := by
  unfold find? at h
  split at h
  · cases h
  · rename_i hself
    rw [findEvents, hself, Option.map_eq_none_iff.mp h]
    rfl

/-! ## The root -/

theorem resolve?_of_isRoot (d : Dialect) (content : String) (h : p.isRoot = true) :
    (build d content).resolve? p = none := by
  have hsteps : p.segments = [] := List.isEmpty_iff.mp h
  cases d with
  | outline => exact Atlas.get?_of_isRoot _ h
  | flat =>
    have hlength : p.length = 0 := congrArg List.length hsteps
    rw [build, resolve?, Flat.resolve?, hlength, Flat.resolveSteps]
  | markup =>
    rw [build, resolve?, Markup.resolve?, hsteps, Markup.resolveSteps, Atlas.ofFindings,
      Atlas.get?_of_isRoot _ rfl]
    rfl

theorem find?_eq_none_iff (d : Dialect) (content : String) (p : Path) :
    (build d content).find? p = none ↔
      ∀ n, 0 < n → n ≤ p.length → (build d content).resolve? (p.subPath n) = none := by
  constructor
  · intro hfind n hn hle
    by_contra hresolves
    obtain ⟨m, hm⟩ := exists_answeredAt hn hle hresolves
    exact hm.resolves (hm.find?_eq ▸ hfind)
  · intro hnone
    have hself : (build d content).resolve? p = none := by
      cases hroot : p.isRoot with
      | true => exact resolve?_of_isRoot d content hroot
      | false =>
        rw [← hnone p.length (Path.length_pos_iff.mpr hroot) (Nat.le_refl _)]
        exact resolve?_congr _ (Path.segments_subPath_length p).symm
    have hnearest : (build d content).nearest? p = none := by
      rw [nearest?, List.findSome?_eq_none_iff]
      intro q hq
      obtain ⟨n, hpos, hlt, rfl⟩ := Path.mem_ancestors.mp hq
      rw [hnone n hpos (Nat.le_of_lt hlt)]
      rfl
    rw [find?, hself, hnearest]
    rfl

theorem exists_answeredAt_of_find? (d : Dialect) (content : String) (p : Path)
    (h : (build d content).find? p ≠ none) : ∃ n, (build d content).AnsweredAt p n := by
  by_contra hnever
  apply h
  rw [find?_eq_none_iff]
  intro n hn hle
  by_contra hresolves
  exact hnever (exists_answeredAt hn hle hresolves)

theorem find?_extend (d : Dialect) (content : String) (hfront : p.segments <+: e.segments)
    (hbelow : ∀ n, p.length < n → n ≤ e.length →
      (build d content).resolve? (e.subPath n) = none) :
    (build d content).find? e = (build d content).find? p := by
  by_cases hfind : (build d content).find? p = none
  · rw [hfind]
    rw [find?_eq_none_iff] at hfind ⊢
    intro n hn hle
    rcases Nat.lt_or_ge p.length n with hlonger | hshort
    · exact hbelow n hlonger hle
    · rw [Path.subPath_of_prefix hfront hshort]
      exact hfind n hn hshort
  · obtain ⟨n, hn⟩ := exists_answeredAt_of_find? d content p hfind
    rw [hn.find?_eq, (hn.extend hfront hbelow).find?_eq,
      Path.subPath_of_prefix hfront hn.le_length]

theorem find?_outline_eq_none_iff (content : String) (h : p.isRoot = false) :
    (build .outline content).find? p = none ↔
      (build .outline content).atlas.contains (p.subPath 1) = false := by
  have hresolve : ∀ q, (build .outline content).resolve? q = none ↔
      (build .outline content).atlas.contains q = false := by
    intro q
    rw [Atlas.contains, Option.isSome_eq_false_iff, Option.isNone_iff_eq_none]
    rfl
  rw [find?_eq_none_iff, ← hresolve]
  constructor
  · intro hnone
    exact hnone 1 Nat.one_pos (Path.length_pos_iff.mpr h)
  · intro hfirst n hn hle
    rw [hresolve] at hfirst ⊢
    rw [← Bool.not_eq_true] at hfirst ⊢
    intro hcontains
    -- The entries form a tree, so with a longer front the first step is on record as well.
    apply hfirst
    rw [Outline.contains_iff_placed] at hcontains ⊢
    have hfront : (p.subPath 1).filed <+: (p.subPath n).filed := by
      rw [Path.filed, Path.filed, Path.segments_subPath, Path.segments_subPath]
      exact (List.take_prefix_take_left hn).map _
    have hroot : (p.subPath 1).isRoot = false := by
      rw [← Path.length_pos_iff, Path.length, Path.segments_subPath, List.length_take]
      exact lt_min Nat.one_pos (Path.length_pos_iff.mpr h)
    apply Path.Gapless.mem_of_prefix (Outline.gapless_findings _) hcontains hfront
    rwa [ne_eq, ← Path.isRoot_iff_filed, Bool.not_eq_true]

/-! ## What is found -/

/-- A path is answered by the longest of its prefixes that resolves, if any does, and a fallback
is told exactly when this is not the path itself. -/
theorem find?_is_nearest (d : Dialect) (content : String) (p : Path) :
    let s := build d content
    (s.find? p = none ↔ ∀ n, 0 < n → n ≤ p.length → s.resolve? (p.subPath n) = none) ∧
    (s.find? p ≠ none → ∃ n, s.AnsweredAt p n) ∧
    (∀ n, s.AnsweredAt p n → s.find? p = s.resolve? (p.subPath n) ∧
      s.findEvents p = if n < p.length then [.fellBack p (p.subPath n)] else []) ∧
    (s.find? p = none → s.findEvents p = []) ∧
    s.resolve? (p.subPath p.length) = s.resolve? p ∧
    (p.isRoot = true → s.find? p = none) ∧
    (∀ e : Path, p.segments <+: e.segments →
      (∀ n, p.length < n → n ≤ e.length → s.resolve? (e.subPath n) = none) →
      s.find? e = s.find? p) ∧
    (d = .outline → p.isRoot = false →
      (s.find? p = none ↔ s.atlas.contains (p.subPath 1) = false)) := by
  intro s
  refine ⟨find?_eq_none_iff d content p, exists_answeredAt_of_find? d content p, ?_, ?_, ?_, ?_,
    ?_, ?_⟩
  · exact fun n hn => ⟨hn.find?_eq, hn.findEvents_eq⟩
  · exact findEvents_eq_nil
  · exact resolve?_congr s (Path.segments_subPath_length p)
  · intro hroot
    rw [find?_eq_none_iff]
    intro n hn hle
    have hpos := Path.length_pos_iff.mp (Nat.lt_of_lt_of_le hn hle)
    rw [hroot] at hpos
    cases hpos
  · exact fun e hfront hbelow => find?_extend d content hfront hbelow
  · rintro rfl hroot
    exact find?_outline_eq_none_iff content hroot

theorem inline_item_answers_below_it :
    let s := build .flat "a = [x, y]"
    let p : Path := .ofSegments [.field "a", .index 1, .field "b", .index 0]
    let place : Place := ⟨1, "a = [x, y]", some ⟨"a", 0⟩, some ⟨"y", 8⟩⟩
    s.AnsweredAt p 2 ∧ s.find? p = some place ∧ s.findEvents p = [.fellBack p (p.subPath 2)] := by
  intro s p place
  have hitem : s.resolve? (p.subPath 2) = some place := by
    simp only [s, p, place]
    cbv
  have hname : s.resolve? (p.subPath 3) = none := by
    simp only [s, p]
    cbv
  have hpath : s.resolve? (p.subPath 4) = none := by
    simp only [s, p]
    cbv
  have hat : s.AnsweredAt p 2 := by
    refine ⟨by decide, by decide, by simp [hitem], ?_⟩
    intro m hlonger hm
    have hlength : p.length = 4 := by decide
    obtain rfl | rfl : m = 3 ∨ m = 4 := by omega
    · exact hname
    · exact hpath
  obtain ⟨hfind, hevents⟩ := (find?_is_nearest .flat "a = [x, y]" p).2.2.1 2 hat
  exact ⟨hat, hfind.trans hitem, hevents⟩

end Survey

end ConfigAtlas
