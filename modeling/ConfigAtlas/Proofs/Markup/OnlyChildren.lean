import Mathlib
import ConfigAtlas.Proofs.Atlas.Lookup
import ConfigAtlas.Proofs.Markup.Placed
import ConfigAtlas.Proofs.Markup.TagParts

/-!
# An only child answers as the only item of a list

Nothing is placed below index 0 of an element with an only child, so a path that goes there has
one place where a name can be put in, and it is answered as the path with that name.
-/

namespace ConfigAtlas.Markup

/-! ## Names of only children -/

section

variable {parent : List Char} {children : List Element}

theorem formList_singleton {name : List Char} :
    formList parent [name] = false ↔ name ≠ itemName ∧ name ≠ parent := by
  simp [formList]

theorem onlyChild?_eq_some_iff {name : List Char} :
    onlyChild? parent children = some name ↔
      ∃ c, children.filter (!·.isNull) = [c] ∧ c.label? = none ∧
        (c.name ≠ itemName ∧ c.name ≠ parent) ∧ c.name = name := by
  unfold onlyChild?
  split
  · rename_i c hc
    rw [hc]
    simp only [Option.ite_none_right_eq_some, Bool.and_eq_true, Option.isNone_iff_eq_none,
      Bool.not_eq_true', formList_singleton, List.cons.injEq, and_true, exists_eq_left',
      Option.some.injEq, and_assoc]
  · rename_i hnone
    simp only [reduceCtorEq, false_iff]
    rintro ⟨c, hc, -⟩
    exact hnone c hc

theorem laterSteps_of_onlyChild? {name : List Char} {u : List Segment}
    (h : onlyChild? parent children = some name)
    (hu : LaterSteps parent (plainNames children) [] u) : u = [.field (String.ofList name)] := by
  obtain ⟨c, hc, hlabel, hname, rfl⟩ := onlyChild?_eq_some_iff.mp h
  have hnames : plainNames children = [c.name] := by
    have hsplit : (fun e : Element => !e.isNull && e.label?.isNone) =
        fun e => e.label?.isNone && !e.isNull := by
      funext e
      exact Bool.and_comm _ _
    rw [plainNames, hsplit, ← List.filter_filter, hc, List.filter_cons_of_pos (by simp [hlabel])]
    rfl
  have hlist : ¬ FormsList parent [c.name] := by
    rw [← formList_iff, formList_singleton.mpr hname]
    exact Bool.false_ne_true
  obtain ⟨between, other, later, hsplit, rfl⟩ := hu
  rw [hnames] at hsplit ⊢
  obtain ⟨rfl, hother⟩ : between = [] ∧ c.name = other := by
    cases between <;> simp_all
  simp [childSteps, hlist, ← hother]

end

/-! ## All that has children -/

/-- The document as an element that stands at the root. -/
def Document.holder (d : Document) : Element :=
  ⟨⟨⟨0, d.name⟩, [], false, ⟨0, []⟩⟩, none, d.children⟩

/-- All that can have an only child: the document, and whatever is placed. -/
def Document.containers (d : Document) : List Placement := ⟨.root, d.holder⟩ :: d.placements

theorem containers_eq_placements (d : Document) : d.containers = d.holder.placements .root := rfl

theorem mem_onlyChildren {d : Document} {row : String × String} :
    row ∈ d.onlyChildren ↔ ∃ p ∈ d.containers, ∃ name,
      onlyChild? p.element.name p.element.children = some name ∧
        row = (p.path.address, String.ofList name) := by
  have hrow : ∀ path name children, tableRow? path name children = some row ↔
      ∃ child, onlyChild? name children = some child ∧
        row = (path.address, String.ofList child) := by
    intro path name children
    rw [tableRow?, Option.map_eq_some_iff]
    simp only [eq_comm]
  simp only [Document.onlyChildren, List.mem_reverse, List.mem_append, Option.mem_toList,
    List.mem_filterMap, Document.containers, List.mem_cons, hrow,
    exists_eq_or_imp]
  rfl

section

variable {content : List Char}

/-- No entry is named by an attribute. -/
def NothingLabelled (content : List Char) : Prop :=
  ∀ tag, .opening tag ∈ tags (.whole content) → tag.NotLabelling

theorem builtFrom_holder (h : NothingLabelled content) :
    (Document.ofContent content).holder.BuiltFrom OpenTag.NotLabelling := by
  refine .mk ?_ (by simp) (builtFrom_children h)
  simp [OpenTag.NotLabelling]

variable {p q : Placement}

theorem builtFrom_container (h : NothingLabelled content)
    (hp : p ∈ (Document.ofContent content).containers) :
    p.element.BuiltFrom OpenTag.NotLabelling := by
  rw [containers_eq_placements] at hp
  exact builtFrom_placements _ (builtFrom_holder h) .root p hp

theorem noKey_container (h : NothingLabelled content)
    (hp : p ∈ (Document.ofContent content).containers) : p.path.NoKey := by
  rw [containers_eq_placements] at hp
  exact (covering_inner _ (builtFrom_holder h) Path.noKey_root).no_key_placements
    Path.noKey_root p hp

theorem name_ne_nil_of_child (hp : p ∈ (Document.ofContent content).containers) {c : Element}
    (hc : c ∈ p.element.children) : c.name ≠ [] := by
  let Named (tag : OpenTag) : Prop := tag.name.text ≠ []
  have htags : ∀ tag, .opening tag ∈ tags (.whole content) → Named tag :=
    fun tag htag => name_ne_nil_of_mem_tags htag
  rcases List.mem_cons.mp hp with rfl | hp
  · exact (builtFrom_children htags c hc).tag
  · exact ((builtFrom_ofContent htags p hp).children c hc).tag

theorem inside_of_prefix (h : NothingLabelled content)
    (hp : p ∈ (Document.ofContent content).containers)
    (hq : q ∈ (Document.ofContent content).containers)
    (hfront : p.path.segments <+: q.path.segments) :
    q = p ∨ q ∈ p.element.inner p.path := by
  rw [containers_eq_placements] at hp hq
  have hinside := (covering_inner _ (builtFrom_holder h) Path.noKey_root).covers_placements
    p hp q hq hfront
  rw [placements_eq_cons] at hinside
  exact List.mem_cons.mp hinside

theorem eq_of_segments_eq (h : NothingLabelled content)
    (hp : p ∈ (Document.ofContent content).containers)
    (hq : q ∈ (Document.ofContent content).containers)
    (hsegments : p.path.segments = q.path.segments) : q = p := by
  rcases inside_of_prefix h hp hq (hsegments ▸ List.prefix_rfl) with heq | hinner
  · exact heq
  · have hcovering := covering_inner p.element (builtFrom_container h hp) (noKey_container h hp)
    have hlonger := (hcovering.longer q hinner).2
    rw [hsegments] at hlonger
    exact absurd hlonger (Nat.lt_irrefl _)

theorem not_item_prefix (h : NothingLabelled content)
    (hp : p ∈ (Document.ofContent content).containers)
    (hq : q ∈ (Document.ofContent content).containers) {name : List Char}
    (honly : onlyChild? p.element.name p.element.children = some name) :
    ¬ p.path.segments ++ [.index 0] <+: q.path.segments := by
  intro hitem
  rcases inside_of_prefix h hp hq ((List.prefix_append _ _).trans hitem) with rfl | hinner
  · have hlength := hitem.length_le
    rw [List.length_append, List.length_singleton] at hlength
    omega
  · have hcovering := covering_inner p.element (builtFrom_container h hp) (noKey_container h hp)
    obtain ⟨branch, hbranch, -, hnamed⟩ := hcovering.goes_on q hinner
    rw [laterSteps_of_onlyChild? honly hbranch] at hnamed
    have hapart : Path.Apart [.index 0] [.field (String.ofList name)] :=
      Path.apart_cons (by simp) [] []
    exact (Path.apart_append_left p.path.segments hapart).not_both hitem hnamed

theorem lookup_onlyChildren (h : NothingLabelled content)
    (hp : p ∈ (Document.ofContent content).containers) {name : List Char}
    (honly : onlyChild? p.element.name p.element.children = some name) :
    (Document.ofContent content).onlyChildren.lookup p.path.address =
      some (String.ofList name) := by
  apply Lists.lookup_of_forall (mem_onlyChildren.mpr ⟨p, hp, name, honly, rfl⟩)
  intro other hother
  obtain ⟨q, hq, found, hfound, heq⟩ := mem_onlyChildren.mp hother
  obtain ⟨haddress, rfl⟩ := Prod.mk.inj heq
  have hsegments := Path.address_inj_of_noKey (noKey_container h hp) (noKey_container h hq)
    haddress
  obtain rfl := eq_of_segments_eq h hp hq hsegments
  rw [Option.some.inj (hfound.symm.trans honly)]

/-! ## Where a name can be put in -/

theorem container_of_nameChild? (h : NothingLabelled content) {steps named : List Segment}
    {depth : Nat}
    (hnamed : nameChild? (Document.ofContent content).onlyChildren steps depth = some named) :
    steps[depth]? = some (.index 0) ∧ ∃ p ∈ (Document.ofContent content).containers, ∃ name,
      onlyChild? p.element.name p.element.children = some name ∧
        p.path.segments = (steps.take depth).map Segment.filed := by
  unfold nameChild? at hnamed
  split at hnamed
  · rename_i hzero
    obtain ⟨child, hchild, -⟩ := Option.map_eq_some_iff.mp hnamed
    obtain ⟨before, after, hrows, -⟩ := List.lookup_eq_some_iff.mp hchild
    have hrow : ((Path.ofSegments (steps.take depth)).address, child) ∈
        (Document.ofContent content).onlyChildren := by
      rw [hrows]
      simp
    obtain ⟨p, hp, name, hname, heq⟩ := mem_onlyChildren.mp hrow
    have hfiled := (Path.address_eq_iff_filed _ _).mp (Prod.mk.inj heq).1
    rw [Path.filed_ofSegments] at hfiled
    exact ⟨hzero, p, hp, name, hname, ((noKey_container h hp).symm.trans hfiled.symm)⟩
  · cases hnamed

section

variable {name : List Char} (steps : List Segment)

theorem nameChild?_at (h : NothingLabelled content)
    (hp : p ∈ (Document.ofContent content).containers)
    (honly : onlyChild? p.element.name p.element.children = some name) :
    nameChild? (Document.ofContent content).onlyChildren
        (p.path.segments ++ .index 0 :: steps) p.path.length =
      some (p.path.segments ++ .field (String.ofList name) :: steps) := by
  have haddress : (Path.ofSegments p.path.segments).address = p.path.address := by
    rw [Path.address, Path.segments_ofSegments, Path.address]
  rw [nameChild?, Path.length, if_pos (by simp), List.take_left, haddress,
    lookup_onlyChildren h hp honly]
  simp

theorem nameChild?_of_ne (h : NothingLabelled content)
    (hp : p ∈ (Document.ofContent content).containers)
    (honly : onlyChild? p.element.name p.element.children = some name) {depth : Nat}
    (hne : depth ≠ p.path.length) :
    nameChild? (Document.ofContent content).onlyChildren
      (p.path.segments ++ .index 0 :: steps) depth = none := by
  have hkey : p.path.segments.map Segment.filed = p.path.segments := noKey_container h hp
  by_contra hsome
  obtain ⟨named, hnamed⟩ := Option.ne_none_iff_exists'.mp hsome
  obtain ⟨hzero, q, hq, other, hother, hsegments⟩ := container_of_nameChild? h hnamed
  rcases Nat.lt_or_gt_of_ne hne with hlt | hgt
  · -- The path of `p` itself goes through index 0 of `q`.
    have hitem : p.path.segments[depth]? = some (.index 0) := by
      rwa [List.getElem?_append_left hlt] at hzero
    rw [List.take_append_of_le_length (Nat.le_of_lt hlt), List.map_take, hkey] at hsegments
    apply not_item_prefix h hq hp hother
    have htake : q.path.segments ++ [.index 0] = p.path.segments.take (depth + 1) := by
      rw [List.take_add_one, hitem, hsegments]
      rfl
    rw [htake]
    exact List.take_prefix _ _
  · -- The path of `q` goes through index 0 of `p`.
    have hitem : p.path.segments ++ [.index 0] <+: (p.path.segments ++ .index 0 :: steps) := by
      simp
    have hlength : (p.path.segments ++ [Segment.index 0]).length ≤ depth := by
      rw [List.length_append]
      exact hgt
    have htake := List.prefix_take_iff.mpr ⟨hitem, hlength⟩
    apply not_item_prefix h hp hq honly
    have hfiled := htake.map Segment.filed
    rwa [← hsegments, List.map_append, hkey] at hfiled

theorem get?_below_item (h : NothingLabelled content)
    (hp : p ∈ (Document.ofContent content).containers)
    (honly : onlyChild? p.element.name p.element.children = some name) :
    (Atlas.ofRecords (recordsOf content)).get?
      (.ofSegments (p.path.segments ++ .index 0 :: steps)) = none := by
  have hkey : p.path.segments.map Segment.filed = p.path.segments := noKey_container h hp
  rw [← Option.not_isSome_iff_eq_none]
  intro hsome
  obtain ⟨r, hr, -, hfiled⟩ := Atlas.contains_ofRecords_iff.mp hsome
  have hitem : p.path.segments ++ [.index 0] <+: r.path.filed := by
    rw [hfiled, Path.filed_ofSegments, List.map_append, hkey]
    simp [Segment.filed]
  obtain ⟨q, hq, hrecord⟩ := List.mem_flatMap.mp hr
  have hcontainer : q ∈ (Document.ofContent content).containers := List.mem_cons_of_mem _ hq
  have hown : q.path.filed = q.path.segments := noKey_container h hcontainer
  apply not_item_prefix h hp hcontainer honly
  rcases List.mem_cons.mp hrecord with rfl | hattribute
  · rwa [hown] at hitem
  · obtain ⟨a, -, rfl⟩ := List.mem_map.mp hattribute
    have hfield : (q.path.field (String.ofList a.name.text)).filed =
        q.path.segments ++ [.field (String.ofList a.name.text)] := by
      rw [Path.field, Path.filed_push, hown]
      rfl
    rw [Placement.attributeRecord, hfield, List.prefix_concat_iff] at hitem
    rcases hitem with heq | hfront
    · -- An attribute adds a field, so the item is not the last step.
      have hlast := (List.append_inj' heq rfl).2
      simp at hlast
    · exact hfront

end

end

/-! ## Answers -/

theorem resolveSteps_eq (atlas : Atlas) (only : OnlyChildren) (steps : List Segment) :
    resolveSteps atlas only steps =
      (atlas.get? (.ofSegments steps)).or
        ((List.range steps.length).findSome? fun depth =>
          (nameChild? only steps depth).bind (resolveSteps atlas only)) := by
  rw [resolveSteps]
  cases hget : atlas.get? (.ofSegments steps) with
  | some place => rfl
  | none =>
    simp only [Option.none_or]
    congr 1
    funext depth
    split
    · rename_i hnone
      rw [hnone]
      rfl
    · rename_i named hnamed
      rw [hnamed]
      rfl

/-- A path with one place where a name can be put in is answered as the path with the name. -/
theorem resolveSteps_of_nameChild? {atlas : Atlas} {only : OnlyChildren}
    {steps named : List Segment} {depth : Nat} (hget : atlas.get? (.ofSegments steps) = none)
    (hnamed : nameChild? only steps depth = some named)
    (hother : ∀ d, d ≠ depth → nameChild? only steps d = none) :
    resolveSteps atlas only steps = resolveSteps atlas only named := by
  have hdepth : depth ∈ List.range steps.length := by
    unfold nameChild? at hnamed
    split at hnamed
    · rename_i hzero
      exact List.mem_range.mpr (List.getElem?_eq_some_iff.mp hzero).1
    · cases hnamed
  rw [resolveSteps_eq, hget, Option.none_or, Lists.findSome?_eq_of_unique hdepth]
  · rw [hnamed, Option.bind_some]
  · intro d hd
    rw [hother d hd, Option.bind_none]

/-- Below what has an only child, a path through index 0 is answered as the path that names the
child, whatever comes before and whatever follows. -/
theorem resolve?_only_child {content : String} (h : NothingLabelled content.toList)
    {p : Placement} (hp : p ∈ (Document.ofContent content.toList).containers) {c : Element}
    (hchild : p.element.children.filter (!·.isNull) = [c]) (hitem : c.name ≠ itemName)
    (hname : p.element.name ≠ [] → c.name ≠ p.element.name) (steps : List Segment) :
    (Survey.build .markup content).resolve?
        (.ofSegments (p.path.segments ++ .index 0 :: steps)) =
      (Survey.build .markup content).resolve?
        (.ofSegments (p.path.segments ++ .field (String.ofList c.name) :: steps)) := by
  have hc : c ∈ p.element.children := by
    have hmem : c ∈ p.element.children.filter (!·.isNull) := hchild ▸ List.mem_singleton_self c
    exact (List.mem_filter.mp hmem).1
  have hlabel := label?_eq_none ((builtFrom_container h hp).children c hc).tag
  -- The wrapper has no name, and an element under it has one.
  have hown : c.name ≠ p.element.name := by
    intro heq
    by_cases hnil : p.element.name = []
    · exact name_ne_nil_of_child hp hc (heq.trans hnil)
    · exact hname hnil heq
  have honly : onlyChild? p.element.name p.element.children = some c.name :=
    onlyChild?_eq_some_iff.mpr ⟨c, hchild, hlabel, ⟨hitem, hown⟩, rfl⟩
  have hatlas : Atlas.ofFindings (Survey.findings .markup content.toList) =
      .ofRecords (recordsOf content.toList) :=
    (Survey.atlas_build .markup content).symm.trans (atlas_build_markup content)
  simp only [Survey.build, Survey.resolve?, resolve?, Path.segments_ofSegments, hatlas]
  exact resolveSteps_of_nameChild? (get?_below_item steps h hp honly)
    (nameChild?_at steps h hp honly) fun d hd => nameChild?_of_ne steps h hp honly hd

theorem only_child_below_only_child :
    let s := Survey.build .markup "<r><a><b><c>x</c></b></a><d/></r>"
    s.resolve? (.ofSegments [.field "a", .index 0, .index 0]) =
        s.resolve? (.ofSegments [.field "a", .field "b", .index 0]) ∧
      (s.resolve? (.ofSegments [.field "a", .field "b", .index 0])).isSome = true := by
  intro s
  have hcontainer : ((Document.ofContent "<r><a><b><c>x</c></b></a><d/></r>".toList).containers.map
      fun p => (p.path.segments, p.element.name,
        (p.element.children.filter (!·.isNull)).map Element.name))[1]? =
      some ([.field "a"], ['a'], [['b']]) := by cbv
  have hentries : ((tags (.whole "<r><a><b><c>x</c></b></a><d/></r>".toList)).filterMap
      Tag.opening?).all (·.name.text != Element.entryName) = true := by cbv
  have hanswer : ((Survey.build .markup "<r><a><b><c>x</c></b></a><d/></r>").resolve?
      (.ofSegments [.field "a", .field "b", .index 0])).isSome = true := by cbv
  obtain ⟨p, hp, hfacts⟩ := List.mem_map.mp (List.mem_of_getElem? hcontainer)
  simp only [Prod.mk.injEq, List.map_eq_singleton_iff] at hfacts
  obtain ⟨hpath, hparent, c, hchild, hname⟩ := hfacts
  have hnothing : NothingLabelled "<r><a><b><c>x</c></b></a><d/></r>".toList := by
    intro tag htag hentry
    have hother := List.all_eq_true.mp hentries tag (List.mem_filterMap.mpr ⟨_, htag, rfl⟩)
    simp [hentry] at hother
  have hitem : c.name ≠ itemName := by rw [hname]; decide
  have hown : p.element.name ≠ [] → c.name ≠ p.element.name := by
    rw [hname, hparent]
    decide
  have hsame := resolve?_only_child hnothing hp hchild hitem hown [.index 0]
  rw [hpath, hname] at hsame
  exact ⟨hsame, hanswer⟩

end ConfigAtlas.Markup
