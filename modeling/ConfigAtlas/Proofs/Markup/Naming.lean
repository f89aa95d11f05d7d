import Mathlib
import ConfigAtlas.Proofs.Markup.OnlyChildren
import ConfigAtlas.Proofs.Path.Address

/-!
# How an index 0 is read as an only child

A path that is not on record is tried again with an index 0 given up for the only child of the
steps before it. The child is looked up with the path that it was placed at, so the steps before
it may come out as keys where they were fields, or the other way round. That changes no address,
and each try has one index 0 less than the path it came from.
-/

namespace ConfigAtlas

namespace Segment

theorem filed_eq_index_iff {s : Segment} {n : Nat} : s.filed = .index n ↔ s = .index n := by
  cases s <;> simp [filed]

theorem getElem?_map_filed_eq_index_iff (steps : List Segment) (depth n : Nat) :
    (steps.map filed)[depth]? = some (.index n) ↔ steps[depth]? = some (.index n) := by
  rw [List.getElem?_map, Option.map_eq_some_iff]
  simp only [filed_eq_index_iff, exists_eq_right]

theorem count_index_map_filed (n : Nat) (steps : List Segment) :
    (steps.map filed).count (.index n) = steps.count (.index n) := by
  rw [List.count_eq_countP, List.count_eq_countP, List.countP_map]
  apply List.countP_congr
  intro s _
  rw [Function.comp_apply, beq_iff_eq, beq_iff_eq, filed_eq_index_iff]

end Segment

namespace Markup

/-! ## The table -/

/-- An only child, by the path of what holds it and by its name. -/
structure OnlyChild where
  parent : Path
  name : String

def OnlyChild.path (c : OnlyChild) : Path := c.parent.field c.name

namespace Document

variable (d : Document)

/-- All only children. The latest comes first. -/
def onlyChildTable : List OnlyChild :=
  (d.containers.filterMap fun p =>
    (onlyChild? p.element.name p.element.children).map fun name =>
      ⟨p.path, String.ofList name⟩).reverse

/-- The only child of what was placed last under the address of the path. -/
def onlyChildAt? (p : Path) : Option OnlyChild :=
  d.onlyChildTable.find? (·.parent.address == p.address)

theorem onlyChildren_eq_map :
    d.onlyChildren = d.onlyChildTable.map fun c => (c.parent.address, c.name) := by
  have hrows : d.onlyChildren = (d.containers.filterMap fun p =>
      tableRow? p.path p.element.name p.element.children).reverse := by
    rw [onlyChildren, containers, List.filterMap_cons]
    cases hroot : tableRow? .root d.name d.children <;> simp [holder, Element.name, hroot]
  rw [hrows, onlyChildTable, List.map_reverse, List.map_filterMap]
  simp only [tableRow?, Option.map_map]
  rfl

theorem lookup_onlyChildTable (p : Path) :
    d.onlyChildren.lookup p.address = (d.onlyChildAt? p).map OnlyChild.name := by
  rw [onlyChildren_eq_map, onlyChildAt?]
  induction d.onlyChildTable with
  | nil => rfl
  | cons c rest ih =>
    rw [List.map_cons, List.lookup_cons, List.find?_cons, Bool.beq_comm]
    cases c.parent.address == p.address
    · exact ih
    · rfl

theorem sameSteps_of_onlyChildAt? {p : Path} {c : OnlyChild} (h : d.onlyChildAt? p = some c) :
    c.parent.SameSteps p := by
  have hfound := List.find?_some h
  rw [Path.sameSteps_iff_address]
  exact beq_iff_eq.mp hfound

/-! ## What is tried -/

/-- The path to try in place of `p`: the only child of its first `depth` steps, as that child is
placed, and the steps behind the index 0. -/
def attempt? (p : Path) (depth : Nat) : Option Path :=
  if p.segments[depth]? = some (.index 0) then
    (d.onlyChildAt? (p.subPath depth)).map fun c =>
      .ofSegments (c.path.segments ++ p.segments.drop (depth + 1))
  else none

/-- One index 0 gives way to the name of the only child of the steps before it. -/
def Names (steps named : List Segment) : Prop :=
  ∃ front rest c, steps = front ++ .index 0 :: rest ∧
    d.onlyChildAt? (.ofSegments front) = some c ∧ named = front ++ .field c.name :: rest

theorem split_at_index {steps : List Segment} {depth : Nat}
    (h : steps[depth]? = some (.index 0)) :
    steps = steps.take depth ++ .index 0 :: steps.drop (depth + 1) := by
  obtain ⟨hlt, hget⟩ := List.getElem?_eq_some_iff.mp h
  rw [← hget, List.getElem_cons_drop, List.take_append_drop]

end Document

/-! ## What is found -/

theorem nameChild?_eq (only : OnlyChildren) (steps : List Segment) (depth : Nat) :
    nameChild? only steps depth =
      if steps[depth]? = some (.index 0) then
        (only.lookup (Path.ofSegments (steps.take depth)).address).map fun child =>
          steps.take depth ++ .field child :: steps.drop (depth + 1)
      else none := by
  unfold nameChild?
  split
  · rename_i hzero
    obtain ⟨hlt, -⟩ := List.getElem?_eq_some_iff.mp hzero
    simp only [List.set_eq_take_append_cons_drop, hlt, if_true]
  · rfl

section

variable {only : OnlyChildren} {steps others : List Segment}

theorem nameChild?_congr (h : steps.map Segment.filed = others.map Segment.filed) (depth : Nat) :
    (nameChild? only steps depth).map (List.map Segment.filed) =
      (nameChild? only others depth).map (List.map Segment.filed) := by
  have hzero : steps[depth]? = some (.index 0) ↔ others[depth]? = some (.index 0) := by
    rw [← Segment.getElem?_map_filed_eq_index_iff, h, Segment.getElem?_map_filed_eq_index_iff]
  have haddress : (Path.ofSegments (steps.take depth)).address =
      (Path.ofSegments (others.take depth)).address := by
    rw [Path.address_eq_iff_filed, Path.filed_ofSegments, Path.filed_ofSegments, List.map_take, h,
      List.map_take]
  have hrest : (steps.drop (depth + 1)).map Segment.filed =
      (others.drop (depth + 1)).map Segment.filed := by
    rw [List.map_drop, h, List.map_drop]
  have hfront : (steps.take depth).map Segment.filed =
      (others.take depth).map Segment.filed := by
    rw [List.map_take, h, List.map_take]
  rw [nameChild?_eq, nameChild?_eq, haddress]
  by_cases hget : steps[depth]? = some (.index 0)
  · rw [if_pos hget, if_pos (hzero.mp hget), Option.map_map, Option.map_map]
    congr 1
    funext child
    simp only [Function.comp_apply, List.map_append, List.map_cons, hfront, hrest]
  · rw [if_neg hget, if_neg (mt hzero.mpr hget)]

theorem resolveSteps_congr {atlas : Atlas}
    (h : steps.map Segment.filed = others.map Segment.filed) :
    resolveSteps atlas only steps = resolveSteps atlas only others := by
  induction hn : steps.count (.index 0) using Nat.strongRecOn generalizing steps others with
  | _ n ih =>
    have hlength : steps.length = others.length := by
      simpa using congrArg List.length h
    have hget : atlas.get? (.ofSegments steps) = atlas.get? (.ofSegments others) :=
      atlas.get?_congr (by rw [Path.filed_ofSegments, Path.filed_ofSegments, h])
    rw [resolveSteps_eq, resolveSteps_eq, hget, hlength]
    congr 2
    funext depth
    have hnamed : (nameChild? only steps depth).map (List.map Segment.filed) = _ :=
      nameChild?_congr h depth
    cases hleft : nameChild? only steps depth with
    | none =>
      rw [hleft, Option.map_none, eq_comm, Option.map_eq_none_iff] at hnamed
      rw [hnamed]
    | some named =>
      rw [hleft, Option.map_some, eq_comm, Option.map_eq_some_iff] at hnamed
      obtain ⟨other, hright, hsame⟩ := hnamed
      rw [hright]
      exact ih _ (hn ▸ count_nameChild?_lt hleft) hsame.symm rfl

end

namespace Document

variable {d : Document}

theorem names_of_nameChild? {steps named : List Segment} {depth : Nat}
    (h : nameChild? d.onlyChildren steps depth = some named) : d.Names steps named := by
  rw [nameChild?_eq] at h
  split at h
  · rename_i hzero
    rw [lookup_onlyChildTable, Option.map_map] at h
    obtain ⟨c, hc, rfl⟩ := Option.map_eq_some_iff.mp h
    exact ⟨_, _, c, split_at_index hzero, hc, rfl⟩
  · cases h

theorem exists_named_of_resolveSteps {atlas : Atlas} {steps : List Segment} {place : Place}
    (h : resolveSteps atlas d.onlyChildren steps = some place) :
    ∃ named, Relation.ReflTransGen d.Names steps named ∧
      atlas.get? (.ofSegments named) = some place := by
  induction hn : steps.count (.index 0) using Nat.strongRecOn generalizing steps with
  | _ n ih =>
    rw [resolveSteps_eq, Option.or_eq_some_iff] at h
    rcases h with hget | ⟨-, hfound⟩
    · exact ⟨steps, .refl, hget⟩
    · obtain ⟨depth, -, hdepth⟩ := List.exists_of_findSome?_eq_some hfound
      obtain ⟨next, hnext, hplace⟩ := Option.bind_eq_some_iff.mp hdepth
      obtain ⟨named, hreach, hget⟩ := ih _ (hn ▸ count_nameChild?_lt hnext) hplace rfl
      exact ⟨named, .head (names_of_nameChild? hnext) hreach, hget⟩

end Document

/-- The steps of `named` are those of `steps`, but for names where `steps` has an index 0. -/
def NamesItems (steps named : List Segment) : Prop :=
  List.Forall₂ (fun s t => s = t ∨ s = .index 0 ∧ ∃ name, t = .field name) steps named

theorem namesItems_refl (steps : List Segment) : NamesItems steps steps :=
  List.forall₂_same.mpr fun _ _ => .inl rfl

theorem NamesItems.trans {steps next named : List Segment} (h : NamesItems steps next)
    (h' : NamesItems next named) : NamesItems steps named := by
  induction h generalizing named with
  | nil => exact h'
  | cons hst hrest ih =>
    obtain ⟨u, more, htu, hmore, rfl⟩ := List.forall₂_cons_left_iff.mp h'
    refine .cons ?_ (ih hmore)
    rcases hst with rfl | ⟨rfl, name, rfl⟩
    · exact htu
    · -- A name never gives way again.
      rcases htu with rfl | ⟨hindex, -⟩
      · exact .inr ⟨rfl, name, rfl⟩
      · cases hindex

theorem Document.Names.namesItems {d : Document} {steps named : List Segment}
    (h : d.Names steps named) : NamesItems steps named := by
  obtain ⟨front, rest, c, rfl, -, rfl⟩ := h
  exact List.rel_append (namesItems_refl front) (.cons (.inr ⟨rfl, c.name, rfl⟩)
    (namesItems_refl rest))

theorem namesItems_of_reach {d : Document} {steps named : List Segment}
    (h : Relation.ReflTransGen d.Names steps named) : NamesItems steps named := by
  induction h with
  | refl => exact namesItems_refl steps
  | tail _ hstep ih => exact ih.trans hstep.namesItems

section

variable {d : Document} {p q : Path} {depth : Nat}

theorem exists_child_of_attempt? (h : d.attempt? p depth = some q) :
    p.segments[depth]? = some (.index 0) ∧
      ∃ c : OnlyChild, c.parent.SameSteps (p.subPath depth) ∧
        q.segments = c.parent.segments ++ .field c.name :: p.segments.drop (depth + 1) := by
  unfold Document.attempt? at h
  split at h
  · rename_i hzero
    obtain ⟨c, hc, rfl⟩ := Option.map_eq_some_iff.mp h
    refine ⟨hzero, c, d.sameSteps_of_onlyChildAt? hc, ?_⟩
    simp [OnlyChild.path, Path.field]
  · cases h

theorem shorter_attempt? (h : d.attempt? p depth = some q) :
    q.length = p.length ∧ q.segments.count (.index 0) < p.segments.count (.index 0) := by
  obtain ⟨hzero, c, hsame, hq⟩ := exists_child_of_attempt? h
  have hp := Document.split_at_index hzero
  rw [Path.SameSteps, Path.forall₂_sameStep_iff, Path.segments_subPath] at hsame
  have hlength := congrArg List.length hsame
  have hcount := congrArg (List.count (.index 0)) hsame
  rw [Segment.count_index_map_filed, Segment.count_index_map_filed] at hcount
  rw [List.length_map, List.length_map] at hlength
  rw [Path.length, Path.length, hq]
  constructor
  · conv_rhs => rw [hp]
    simp only [List.length_append, List.length_cons, hlength]
  · conv_rhs => rw [hp]
    rw [List.count_append, List.count_append, hcount, List.count_cons_self,
      List.count_cons_of_ne (by simp)]
    omega

theorem bind_attempt? (atlas : Atlas) (p : Path) (depth : Nat) :
    (d.attempt? p depth).bind (resolve? atlas d.onlyChildren) =
      (nameChild? d.onlyChildren p.segments depth).bind (resolveSteps atlas d.onlyChildren) := by
  have hsub : (p.subPath depth).address = (Path.ofSegments (p.segments.take depth)).address := rfl
  rw [nameChild?_eq, Document.attempt?, ← hsub, Document.lookup_onlyChildTable]
  split
  · cases hc : d.onlyChildAt? (p.subPath depth) with
    | none => rfl
    | some c =>
      have hsame := d.sameSteps_of_onlyChildAt? hc
      rw [Path.SameSteps, Path.forall₂_sameStep_iff, Path.segments_subPath] at hsame
      apply resolveSteps_congr
      simp [OnlyChild.path, Path.field, hsame]
  · rfl

end

/-- A path that is not on record resolves as the first of its tries that does, and every try has
fewer items to name, so the search ends. What it finds is on record under the path itself or under
one that names only children where the path has index 0, and is the same elsewhere. -/
theorem resolve?_by_naming (content : String) (p : Path) :
    let d := Document.ofContent content.toList
    let s := Survey.build .markup content
    (s.resolve? p = (s.atlas.get? p).or
        ((List.range p.length).findSome? fun depth => (d.attempt? p depth).bind s.resolve?)) ∧
      (∀ depth q, d.attempt? p depth = some q →
        q.length = p.length ∧ q.segments.count (.index 0) < p.segments.count (.index 0)) ∧
      ∀ place, s.resolve? p = some place →
        ∃ q : Path, Relation.ReflTransGen d.Names p.segments q.segments ∧
          s.atlas.get? q = some place ∧ NamesItems p.segments q.segments ∧
          (s.atlas.contains p = true → q = p) := by
  intro d s
  have hget : s.atlas.get? (.ofSegments p.segments) = s.atlas.get? p :=
    s.atlas.get?_congr (Path.filed_ofSegments p.segments)
  refine ⟨?_, fun depth q => shorter_attempt?, ?_⟩
  · have hresolve := resolveSteps_eq s.atlas d.onlyChildren p.segments
    simp only [hget, ← bind_attempt?] at hresolve
    exact hresolve
  · intro place hplace
    -- On record the path answers itself; else a naming leads to one that is.
    by_cases hon : s.atlas.contains p = true
    · obtain ⟨found, hfound⟩ := Option.isSome_iff_exists.mp hon
      have hrecorded : resolveSteps s.atlas d.onlyChildren p.segments = some found := by
        rw [resolveSteps_eq, hget, hfound, Option.some_or]
      have heq : place = found := Option.some.inj (hplace.symm.trans hrecorded)
      exact ⟨p, .refl, heq ▸ hfound, namesItems_refl _, fun _ => rfl⟩
    · obtain ⟨named, hreach, hnamed⟩ := Document.exists_named_of_resolveSteps hplace
      refine ⟨.ofSegments named, ?_, hnamed, ?_, fun h => absurd h hon⟩
      · rwa [Path.segments_ofSegments]
      · rw [Path.segments_ofSegments]
        exact namesItems_of_reach hreach

/-- Both elements count as `p`, and the later one has the say on its only child. -/
theorem resolve?_of_entry_taken_over :
    let content := "<r><entry key=\"p\"><a/></entry><p><b>1</b></p></r>"
    let d := Document.ofContent content.toList
    let s := Survey.build .markup content
    let p := Path.ofSegments [.key "p", .index 0]
    (∃ q, d.attempt? p 1 = some q ∧ q.segments = [.field "p", .field "b"] ∧
        q.segments.count (.index 0) < p.segments.count (.index 0)) ∧
      ∃ place, s.resolve? p = some place ∧ ∃ q : Path, s.atlas.get? q = some place ∧
        Relation.ReflTransGen d.Names p.segments q.segments ∧
          NamesItems p.segments q.segments := by
  have hattempt : ((Document.ofContent
      "<r><entry key=\"p\"><a/></entry><p><b>1</b></p></r>".toList).attempt?
        (.ofSegments [.key "p", .index 0]) 1).map Path.segments =
      some [.field "p", .field "b"] := by cbv
  have hfound : ((Survey.build .markup
      "<r><entry key=\"p\"><a/></entry><p><b>1</b></p></r>").resolve?
        (.ofSegments [.key "p", .index 0])).isSome = true := by cbv
  intro content d s p
  obtain ⟨-, hattempts, hanswer⟩ := resolve?_by_naming content p
  constructor
  · obtain ⟨q, hq, hsteps⟩ := Option.map_eq_some_iff.mp hattempt
    exact ⟨q, hq, hsteps, (hattempts 1 q hq).2⟩
  · obtain ⟨place, hplace⟩ := Option.isSome_iff_exists.mp hfound
    obtain ⟨q, hreach, hget, hnames, -⟩ := hanswer place hplace
    exact ⟨place, hplace, q, hget, hreach, hnames⟩

end Markup

end ConfigAtlas
