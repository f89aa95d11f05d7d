import Mathlib
import ConfigAtlas.Proofs.Markup.Built
import ConfigAtlas.Proofs.Markup.Placed
import ConfigAtlas.Proofs.Path.Branches

/-!
# Elements before what is inside them

The steps to two siblings never go on from one another: they are the same, or they part. So where
no path is placed twice, nothing is placed behind what is inside it, labelled or not.
-/

namespace ConfigAtlas.Markup

/-! ## The steps to a sibling -/

/-- The steps by which siblings are told apart, by whether they are a list and by their names. -/
inductive SiblingSteps (isList : Bool) (names : List (List Char)) : List Segment → Prop
  | labelled (key : String) : SiblingSteps isList names [.key key]
  | item (hlist : isList = true) (i : Nat) : SiblingSteps isList names [.index i]
  | repeated {name : List Char} (hmany : 1 < names.count name) (i : Nat) :
      SiblingSteps isList names [.field (String.ofList name), .index i]
  | alone {name : List Char} (hone : names.count name ≤ 1) :
      SiblingSteps isList names [.field (String.ofList name)]

section

variable {isList : Bool} {names earlier : List (List Char)} {u v : List Segment}

theorem SiblingSteps.ne_nil (h : SiblingSteps isList names u) : u ≠ [] := by
  cases h <;> simp

theorem SiblingSteps.eq_of_prefix (hu : SiblingSteps isList names u)
    (hv : SiblingSteps isList names v) (h : u <+: v) : u = v := by
  cases hu with
  | labelled key =>
    cases hv with
    | labelled other => rw [(List.cons_prefix_cons.mp h).1]
    | _ => cases (List.cons_prefix_cons.mp h).1
  | item hlist i =>
    cases hv with
    | item _ j => rw [(List.cons_prefix_cons.mp h).1]
    | _ => cases (List.cons_prefix_cons.mp h).1
  | repeated hmany i =>
    cases hv with
    | repeated _ j =>
      obtain ⟨hname, hindex⟩ := List.cons_prefix_cons.mp h
      rw [hname, (List.cons_prefix_cons.mp hindex).1]
    | alone _ => exact absurd h.length_le (by simp)
    | _ => cases (List.cons_prefix_cons.mp h).1
  | alone hone =>
    cases hv with
    | alone _ => rw [(List.cons_prefix_cons.mp h).1]
    | repeated hmany i =>
      -- One name is not both alone and repeated.
      have hname := String.ofList_injective (Segment.field.inj (List.cons_prefix_cons.mp h).1)
      rw [hname] at hone
      exact absurd hmany (Nat.not_lt_of_le hone)
    | _ => cases (List.cons_prefix_cons.mp h).1

theorem exists_siblingSteps (parent : Path) (e : Element) :
    ∃ u, SiblingSteps isList names u ∧
      (childPath parent isList names earlier e).segments = parent.segments ++ u := by
  unfold childPath
  split
  · exact ⟨_, .labelled _, Path.segments_push _ _⟩
  · split
    · rename_i hlist
      exact ⟨_, .item hlist _, Path.segments_push _ _⟩
    · split
      · rename_i hmany
        refine ⟨_, .repeated hmany (earlier.count e.name), ?_⟩
        simp [Path.element, Path.field]
      · rename_i hone
        exact ⟨_, .alone (Nat.le_of_not_lt hone), Path.segments_push _ _⟩

theorem exists_steps_of_mem_siblingPaths {parent path : Path} {es : List Element}
    (h : some path ∈ siblingPaths parent isList names earlier es) :
    ∃ u, SiblingSteps isList names u ∧ path.segments = parent.segments ++ u := by
  induction es generalizing earlier with
  | nil => cases h
  | cons e rest ih =>
    rw [siblingPaths] at h
    split at h
    · rcases List.mem_cons.mp h with h | h
      · cases h
      · exact ih h
    · rcases List.mem_cons.mp h with h | h
      · rw [Option.some.inj h]
        exact exists_siblingSteps parent e
      · exact ih h

end

/-- Paths that all go on from one base, and of which none goes on from another one. -/
structure Parted (base : List Segment) (paths : List (Option Path)) : Prop where
  longer : ∀ p, some p ∈ paths → base <+: p.segments ∧ base.length < p.segments.length
  parted : ∀ p q, some p ∈ paths → some q ∈ paths → p.segments <+: q.segments →
    p.segments = q.segments

theorem parted_childPaths (parent : Path) (parentName : List Char) (children : List Element) :
    Parted parent.segments (childPaths parent parentName children) where
  longer := by
    intro p hp
    obtain ⟨u, hu, hsteps⟩ := exists_steps_of_mem_siblingPaths hp
    rw [hsteps, List.length_append]
    exact ⟨List.prefix_append _ _, Nat.lt_add_of_pos_right (List.length_pos_iff.mpr hu.ne_nil)⟩
  parted := by
    intro p q hp hq hfront
    obtain ⟨u, hu, hsteps⟩ := exists_steps_of_mem_siblingPaths hp
    obtain ⟨v, hv, hsteps'⟩ := exists_steps_of_mem_siblingPaths hq
    rw [hsteps, hsteps'] at hfront ⊢
    rw [hu.eq_of_prefix hv ((List.prefix_append_right_inj _).mp hfront)]

theorem Parted.tail {base : List Segment} {path? : Option Path} {paths : List (Option Path)}
    (h : Parted base (path? :: paths)) : Parted base paths where
  longer := fun p hp => h.longer p (List.mem_cons_of_mem _ hp)
  parted := fun p q hp hq => h.parted p q (List.mem_cons_of_mem _ hp) (List.mem_cons_of_mem _ hq)

/-! ## Placements -/

/-- A placement that goes on from no later one. -/
def NotInside (p q : Placement) : Prop := ¬ q.path.segments <+: p.path.segments

mutual

theorem prefix_placements (e : Element) (path : Path) :
    ∀ p ∈ e.placements path, path.segments <+: p.path.segments := by
  intro p hp
  cases e with
  | mk tag text? children =>
    rcases List.mem_cons.mp hp with rfl | hp
    · exact List.prefix_rfl
    · have hparted := parted_childPaths path tag.name.text children
      obtain ⟨q, -, hq, hfront⟩ := exists_top children _ p hp
      exact (hparted.longer q.path hq).1.trans hfront

theorem exists_top (es : List Element) (paths : List (Option Path)) :
    ∀ p ∈ placeAll paths es,
      ∃ q ∈ placeAll paths es, some q.path ∈ paths ∧ q.path.segments <+: p.path.segments := by
  intro p hp
  cases es with
  | nil =>
    rw [placeAll_nil] at hp
    cases hp
  | cons e rest =>
    cases paths with
    | nil => cases hp
    | cons path? paths =>
      cases path? with
      | none =>
        obtain ⟨q, hq, hpath, hfront⟩ := exists_top rest paths p hp
        exact ⟨q, hq, List.mem_cons_of_mem _ hpath, hfront⟩
      | some path =>
        rw [placeAll] at hp ⊢
        rcases List.mem_append.mp hp with hp | hp
        · refine ⟨⟨path, e⟩, ?_, List.mem_cons_self, prefix_placements e path p hp⟩
          rw [placements_eq_cons]
          simp
        · obtain ⟨q, hq, hpath, hfront⟩ := exists_top rest paths p hp
          exact ⟨q, List.mem_append_right _ hq, List.mem_cons_of_mem _ hpath, hfront⟩

end

mutual

theorem outerFirst_placements (e : Element) (path : Path)
    (hnodup : ((e.placements path).map (·.path.segments)).Nodup) :
    (e.placements path).Pairwise NotInside := by
  cases e with
  | mk tag text? children =>
    rw [Element.placements] at hnodup ⊢
    have hparted := parted_childPaths path tag.name.text children
    refine List.pairwise_cons.mpr ⟨?_, outerFirst_placeAll children _ hparted hnodup.tail⟩
    intro q hq hback
    obtain ⟨top, -, htop, hfront⟩ := exists_top children _ q hq
    have hlonger := (hparted.longer top.path htop).2
    exact absurd (hfront.trans hback).length_le (Nat.not_le_of_lt hlonger)

theorem outerFirst_placeAll (es : List Element) (paths : List (Option Path))
    {base : List Segment} (hparted : Parted base paths)
    (hnodup : ((placeAll paths es).map (·.path.segments)).Nodup) :
    (placeAll paths es).Pairwise NotInside := by
  cases es with
  | nil =>
    rw [placeAll_nil]
    exact List.Pairwise.nil
  | cons e rest =>
    cases paths with
    | nil => exact List.Pairwise.nil
    | cons path? paths =>
      cases path? with
      | none => exact outerFirst_placeAll rest paths hparted.tail hnodup
      | some path =>
        rw [placeAll, List.map_append, List.nodup_append] at hnodup
        obtain ⟨hown, hrest, hapart⟩ := hnodup
        refine List.pairwise_append.mpr ⟨outerFirst_placements e path hown,
          outerFirst_placeAll rest paths hparted.tail hrest, ?_⟩
        intro p hp q hq hback
        -- Both siblings lead to `p`, so they have one path, and that path was placed twice.
        obtain ⟨top, htop, hpath, hfront⟩ := exists_top rest paths q hq
        have hmem : ⟨path, e⟩ ∈ e.placements path := by
          rw [placements_eq_cons]
          exact List.mem_cons_self
        have hsame : path.segments = top.path.segments := by
          rcases List.prefix_or_prefix_of_prefix (prefix_placements e path p hp)
            (hfront.trans hback) with h | h
          · exact hparted.parted _ _ List.mem_cons_self (List.mem_cons_of_mem _ hpath) h
          · exact (hparted.parted _ _ (List.mem_cons_of_mem _ hpath) List.mem_cons_self h).symm
        exact hapart _ (List.mem_map_of_mem hmem) _ (List.mem_map_of_mem htop) hsame

end

/-! ## Records -/

section

variable {table : LineTable} {p : Placement}

theorem record_at {r : Record} (h : r ∈ p.records table) :
    p.path.segments <+: r.path.segments ∧
      r.path.segments.length ≤ p.path.segments.length + 1 := by
  rcases List.mem_cons.mp h with rfl | h
  · exact ⟨List.prefix_rfl, Nat.le_succ _⟩
  · obtain ⟨a, -, rfl⟩ := List.mem_map.mp h
    exact ⟨(p.path.inside_push _).1, by simp [Placement.attributeRecord, Path.field]⟩

theorem outerFirst_records (table : LineTable) (p : Placement) :
    (p.records table).Pairwise fun r q => ¬ r.path.Inside q.path := by
  refine List.pairwise_cons.mpr ⟨?_, ?_⟩
  · intro q hq hinside
    have hfront := (record_at (List.mem_cons_of_mem _ hq)).1
    exact Nat.not_lt_of_le hfront.length_le hinside.length_lt
  · rw [List.pairwise_map, List.pairwise_iff_forall_sublist]
    intro a b hsub hinside
    have hlength := hinside.length_lt
    simp [Placement.attributeRecord, Path.field] at hlength

theorem paths_placements_sublist (table : LineTable) (ps : List Placement) :
    (ps.map (·.path.segments)).Sublist ((ps.flatMap (·.records table)).map (·.path.segments)) := by
  induction ps with
  | nil => exact List.Sublist.refl _
  | cons p rest ih =>
    rw [List.flatMap_cons, List.map_append, List.map_cons, Placement.records, List.map_cons]
    exact (ih.trans (List.sublist_append_right _ _)).cons_cons _

theorem outerFirst_flatMap (table : LineTable) {ps : List Placement}
    (h : ps.Pairwise NotInside) :
    (ps.flatMap (·.records table)).Pairwise fun r q => ¬ r.path.Inside q.path := by
  rw [List.pairwise_flatMap]
  refine ⟨fun p _ => outerFirst_records table p, h.imp ?_⟩
  rintro p q hapart r hr s hs ⟨hfront, hne⟩
  obtain ⟨hp, hlength⟩ := record_at hr
  have hq := (record_at hs).1
  -- The later record is at most the path of `p`, so its element would hold `p`.
  have hshorter : s.path.segments.length < r.path.segments.length :=
    Path.Inside.length_lt ⟨hfront, hne⟩
  have houter : s.path.segments <+: p.path.segments :=
    List.prefix_of_prefix_length_le hfront hp (by omega)
  exact hapart (hq.trans houter)

end

theorem outerFirst_recordsOf {content : List Char}
    (h : ((recordsOf content).map (·.path.segments)).Nodup) :
    (recordsOf content).Pairwise fun r q => ¬ r.path.Inside q.path := by
  have hnodup := h.sublist (paths_placements_sublist _ _)
  exact outerFirst_flatMap _ (outerFirst_placeAll _ _ (parted_childPaths _ _ _) hnodup)

theorem not_isRoot_of_mem_recordsOf {content : List Char} :
    ∀ r ∈ recordsOf content, r.path.isRoot = false := by
  intro r hr
  obtain ⟨p, hp, hr⟩ := List.mem_flatMap.mp hr
  obtain ⟨q, -, hpath, hfront⟩ := exists_top _ _ p hp
  have hlonger := ((parted_childPaths _ _ _).longer q.path hpath).2
  have hbelow := (hfront.trans (record_at hr).1).length_le
  rw [Path.isRoot, List.isEmpty_eq_false_iff, ← List.length_pos_iff]
  exact Nat.lt_of_lt_of_le (Nat.zero_lt_of_lt hlonger) hbelow

end ConfigAtlas.Markup
