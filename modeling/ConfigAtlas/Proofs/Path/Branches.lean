import ConfigAtlas.Proofs.Atlas.Records
import ConfigAtlas.Proofs.Path.Address

/-!
# Paths that branch off a base

Branches that are no prefix of one another share no path. So the paths of a tree differ if at
each node the branches do.
-/

namespace ConfigAtlas.Path

/-- A path for which its address says all. -/
def NoKey (p : Path) : Prop := p.segments.map Segment.filed = p.segments

theorem noKey_root : root.NoKey := rfl

theorem NoKey.field {p : Path} (h : p.NoKey) (name : String) : (p.field name).NoKey := by
  unfold NoKey at h ⊢
  rw [Path.field, segments_push, List.map_append, h]
  rfl

theorem NoKey.element {p : Path} (h : p.NoKey) (n : Nat) : (p.element n).NoKey := by
  unfold NoKey at h ⊢
  rw [Path.element, segments_push, List.map_append, h]
  rfl

theorem address_inj_of_noKey {p q : Path} (hp : p.NoKey) (hq : q.NoKey)
    (h : p.address = q.address) : p.segments = q.segments := by
  rw [address_eq_iff, hp, hq] at h
  exact h

/-- The paths differ, have no keys, and each goes on from `base` by one of the `branches`. -/
structure Branching (branches : List Segment → Prop) (base : List Segment) (ps : List Path) :
    Prop where
  goes_on : ∀ p ∈ ps, ∃ branch, branches branch ∧ branch ≠ [] ∧ base ++ branch <+: p.segments
  nodup : (ps.map segments).Nodup
  no_key : ∀ p ∈ ps, p.NoKey

/-- Neither list of steps goes on with the other. -/
def Apart (u v : List Segment) : Prop := ¬ u <+: v ∧ ¬ v <+: u

theorem apart_cons {s t : Segment} (h : s ≠ t) (u v : List Segment) : Apart (s :: u) (t :: v) := by
  constructor
  · intro hprefix
    exact h (List.cons_prefix_cons.mp hprefix).1
  · intro hprefix
    exact h (List.cons_prefix_cons.mp hprefix).1.symm

theorem apart_append_left (base : List Segment) {u v : List Segment} (h : Apart u v) :
    Apart (base ++ u) (base ++ v) := by
  constructor
  · intro hprefix
    exact h.1 ((List.prefix_append_right_inj base).mp hprefix)
  · intro hprefix
    exact h.2 ((List.prefix_append_right_inj base).mp hprefix)

theorem Apart.not_both {u v p : List Segment} (h : Apart u v) (hu : u <+: p) : ¬ v <+: p := by
  intro hv
  rcases List.prefix_or_prefix_of_prefix hu hv with huv | hvu
  · exact h.1 huv
  · exact h.2 hvu

/-- The path goes on from the other one. -/
def Inside (p q : Path) : Prop := q.segments <+: p.segments ∧ q.segments ≠ p.segments

instance (p q : Path) : Decidable (p.Inside q) := inferInstanceAs (Decidable (_ ∧ _))

theorem Inside.length_lt {p q : Path} (h : p.Inside q) : q.segments.length < p.segments.length :=
  Nat.lt_of_le_of_ne h.1.length_le fun hlength => h.2 (h.1.eq_of_length hlength)

theorem inside_push (p : Path) (s : Segment) : (p.push s).Inside p := by
  rw [Inside, segments_push]
  exact ⟨List.prefix_append _ _, by simp⟩

namespace Branching

variable {branches others : List Segment → Prop} {base : List Segment} {ps qs : List Path}

theorem nil : Branching branches base [] := ⟨by simp, by simp, by simp⟩

theorem mono (h : Branching branches base ps) (hsub : ∀ branch, branches branch → others branch) :
    Branching others base ps where
  goes_on := by
    intro p hp
    obtain ⟨branch, hbranch, hrest⟩ := h.goes_on p hp
    exact ⟨branch, hsub branch hbranch, hrest⟩
  nodup := h.nodup
  no_key := h.no_key

theorem append (h : Branching branches base ps) (h' : Branching others base qs)
    (hapart : ∀ u v, branches u → others v → Apart u v) :
    Branching (fun u => branches u ∨ others u) base (ps ++ qs) where
  goes_on := by
    intro p hp
    rcases List.mem_append.mp hp with hp | hp
    · obtain ⟨u, hu, hrest⟩ := h.goes_on p hp
      exact ⟨u, Or.inl hu, hrest⟩
    · obtain ⟨v, hv, hrest⟩ := h'.goes_on p hp
      exact ⟨v, Or.inr hv, hrest⟩
  nodup := by
    rw [List.map_append, List.nodup_append]
    refine ⟨h.nodup, h'.nodup, ?_⟩
    intro s hs t ht hst
    obtain ⟨p, hp, rfl⟩ := List.mem_map.mp hs
    obtain ⟨q, hq, rfl⟩ := List.mem_map.mp ht
    obtain ⟨u, hu, -, hup⟩ := h.goes_on p hp
    obtain ⟨v, hv, -, hvq⟩ := h'.goes_on q hq
    rw [← hst] at hvq
    -- A path of both would go on with two branches that are apart.
    exact (apart_append_left base (hapart u v hu hv)).not_both hup hvq
  no_key := by
    intro p hp
    rcases List.mem_append.mp hp with hp | hp
    · exact h.no_key p hp
    · exact h'.no_key p hp

theorem cons {p : Path} {branch : List Segment} (hp : p.segments = base ++ branch)
    (hne : branch ≠ []) (hkey : p.NoKey)
    (h : Branching branches p.segments qs) : Branching (· = branch) base (p :: qs) where
  goes_on := by
    have hbelow : ∀ q ∈ p :: qs, base ++ branch <+: q.segments := by
      intro q hq
      rcases List.mem_cons.mp hq with rfl | hq
      · exact hp ▸ List.prefix_rfl
      · obtain ⟨u, -, -, hu⟩ := h.goes_on q hq
        rw [hp] at hu
        exact (List.prefix_append _ u).trans hu
    intro q hq
    exact ⟨branch, rfl, hne, hbelow q hq⟩
  nodup := by
    rw [List.map_cons, List.nodup_cons]
    refine ⟨?_, h.nodup⟩
    intro hmem
    obtain ⟨q, hq, hqp⟩ := List.mem_map.mp hmem
    obtain ⟨u, -, hu, hprefix⟩ := h.goes_on q hq
    -- The others go on from this path, so none of them is it.
    have hlength := hprefix.length_le
    rw [hqp, List.length_append] at hlength
    have := List.length_pos_iff.mpr hu
    omega
  no_key := by
    intro q hq
    rcases List.mem_cons.mp hq with rfl | hq
    · exact hkey
    · exact h.no_key q hq

theorem not_isRoot (h : Branching branches base ps) : ∀ p ∈ ps, p.isRoot = false := by
  intro p hp
  obtain ⟨branch, -, hne, hprefix⟩ := h.goes_on p hp
  rw [isRoot, List.isEmpty_eq_false_iff]
  intro hnil
  rw [hnil, List.prefix_nil, List.append_eq_nil_iff] at hprefix
  exact hne hprefix.2

theorem nodup_address (h : Branching branches base ps) : (ps.map address).Nodup := by
  have hnodup := h.nodup
  rw [List.Nodup, List.pairwise_map] at hnodup ⊢
  apply hnodup.imp_of_mem
  intro p q hp hq hne haddress
  exact hne (address_inj_of_noKey (h.no_key p hp) (h.no_key q hq) haddress)

end Branching

end ConfigAtlas.Path

namespace ConfigAtlas.Atlas

/-- Records whose paths branch off are all on record as they came. -/
theorem records_ofRecords_of_branching {branches : List Segment → Prop} {base : List Segment}
    {rs : List Record} (h : Path.Branching branches base (rs.map Record.path)) :
    (ofRecords rs).records = rs := by
  apply records_ofRecords_of_nodup
  · intro r hr
    exact h.not_isRoot r.path (List.mem_map_of_mem hr)
  · have haddress := h.nodup_address
    rw [List.map_map] at haddress
    exact haddress

end ConfigAtlas.Atlas
