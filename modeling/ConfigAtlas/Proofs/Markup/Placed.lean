import ConfigAtlas.Proofs.Markup.Built
import ConfigAtlas.Proofs.Markup.TreePaths

/-!
# What lies below an element

Where no element is labelled, the paths of elements are a tree just as the elements are: what goes
on from the path of an element is placed inside it.
-/

namespace ConfigAtlas.Markup

/-- A tag by whose attributes no entry is named. -/
def OpenTag.NotLabelling (tag : OpenTag) : Prop :=
  tag.name.text = Element.entryName → ∀ a ∈ tag.attributes, a.name.text ≠ Element.keyName

theorem label?_eq_none {e : Element} (h : e.tag.NotLabelling) : e.label? = none := by
  unfold Element.label?
  split
  · rename_i hentry
    rw [List.find?_eq_none]
    intro a ha hkey
    exact h (beq_iff_eq.mp hentry) a ha (beq_iff_eq.mp hkey)
  · rfl

/-- What is placed inside an element that stands at the path. -/
def Element.inner (path : Path) (e : Element) : List Placement :=
  placeAll (childPaths path e.name e.children) e.children

theorem placements_eq_cons (path : Path) (e : Element) :
    e.placements path = ⟨path, e⟩ :: e.inner path := by
  cases e
  rfl

/-! ## Branches of placements -/

/-- Each placement goes on from `base` by one of the `branches`, and covers whatever goes on from
itself. -/
structure Covering (branches : List Segment → Prop) (base : List Segment) (ps : List Placement) :
    Prop where
  goes_on : ∀ p ∈ ps, ∃ branch, branches branch ∧ branch ≠ [] ∧ base ++ branch <+: p.path.segments
  no_key : ∀ p ∈ ps, p.path.NoKey
  covers : ∀ p ∈ ps, ∀ q ∈ ps, p.path.segments <+: q.path.segments →
    q ∈ p.element.placements p.path

namespace Covering

variable {branches others : List Segment → Prop} {base : List Segment} {ps qs : List Placement}

theorem nil : Covering branches base [] := ⟨by simp, by simp, by simp⟩

theorem mono (h : Covering branches base ps) (hsub : ∀ branch, branches branch → others branch) :
    Covering others base ps where
  goes_on := by
    intro p hp
    obtain ⟨branch, hbranch, hrest⟩ := h.goes_on p hp
    exact ⟨branch, hsub branch hbranch, hrest⟩
  no_key := h.no_key
  covers := h.covers

theorem not_prefix_of_apart (h : Covering branches base ps) (h' : Covering others base qs)
    (hapart : ∀ u v, branches u → others v → Path.Apart u v) {p q : Placement} (hp : p ∈ ps)
    (hq : q ∈ qs) : Path.Apart p.path.segments q.path.segments := by
  obtain ⟨u, hu, -, hup⟩ := h.goes_on p hp
  obtain ⟨v, hv, -, hvq⟩ := h'.goes_on q hq
  have hbranches := Path.apart_append_left base (hapart u v hu hv)
  exact ⟨fun hpq => hbranches.not_both (hup.trans hpq) hvq,
    fun hqp => hbranches.not_both hup (hvq.trans hqp)⟩

theorem append (h : Covering branches base ps) (h' : Covering others base qs)
    (hapart : ∀ u v, branches u → others v → Path.Apart u v) :
    Covering (fun u => branches u ∨ others u) base (ps ++ qs) where
  goes_on := by
    intro p hp
    rcases List.mem_append.mp hp with hp | hp
    · obtain ⟨u, hu, hrest⟩ := h.goes_on p hp
      exact ⟨u, .inl hu, hrest⟩
    · obtain ⟨v, hv, hrest⟩ := h'.goes_on p hp
      exact ⟨v, .inr hv, hrest⟩
  no_key := by
    intro p hp
    rcases List.mem_append.mp hp with hp | hp
    · exact h.no_key p hp
    · exact h'.no_key p hp
  covers := by
    intro p hp q hq hfront
    rcases List.mem_append.mp hp with hp | hp <;> rcases List.mem_append.mp hq with hq | hq
    · exact h.covers p hp q hq hfront
    · exact absurd hfront (h.not_prefix_of_apart h' hapart hp hq).1
    · exact absurd hfront (h.not_prefix_of_apart h' hapart hq hp).2
    · exact h'.covers p hp q hq hfront

theorem longer (h : Covering branches base ps) :
    ∀ p ∈ ps, base <+: p.path.segments ∧ base.length < p.path.segments.length := by
  intro p hp
  obtain ⟨branch, -, hne, hfront⟩ := h.goes_on p hp
  refine ⟨(List.prefix_append _ branch).trans hfront, ?_⟩
  have hlength := hfront.length_le
  have hpos := List.length_pos_iff.mpr hne
  rw [List.length_append] at hlength
  omega

section

variable {path : Path} {e : Element}

theorem no_key_placements (h : Covering branches base (e.inner path)) (hkey : path.NoKey) :
    ∀ p ∈ e.placements path, p.path.NoKey := by
  intro p hp
  rw [placements_eq_cons] at hp
  rcases List.mem_cons.mp hp with rfl | hp
  · exact hkey
  · exact h.no_key p hp

theorem covers_placements (h : Covering branches path.segments (e.inner path)) :
    ∀ p ∈ e.placements path, ∀ q ∈ e.placements path, p.path.segments <+: q.path.segments →
      q ∈ p.element.placements p.path := by
  intro p hp q hq hfront
  rw [placements_eq_cons] at hp
  rcases List.mem_cons.mp hp with rfl | hp
  · exact hq
  · rw [placements_eq_cons] at hq
    rcases List.mem_cons.mp hq with rfl | hq
    · exact absurd hfront.length_le (Nat.not_le_of_lt (h.longer p hp).2)
    · exact h.covers p hp q hq hfront

theorem placements {branch : List Segment} (hpath : path.segments = base ++ branch)
    (hne : branch ≠ []) (hkey : path.NoKey)
    (h : Covering branches path.segments (e.inner path)) :
    Covering (· = branch) base (e.placements path) where
  goes_on := by
    intro p hp
    refine ⟨branch, rfl, hne, ?_⟩
    rw [← hpath]
    rw [placements_eq_cons] at hp
    rcases List.mem_cons.mp hp with rfl | hp
    · exact List.prefix_rfl
    · exact (h.longer p hp).1
  no_key := h.no_key_placements hkey
  covers := h.covers_placements

end

end Covering

/-! ## The tree of elements -/

theorem plainNames_cons_of_isNull {e : Element} (h : e.isNull = true) (es : List Element) :
    plainNames (e :: es) = plainNames es := by
  simp [plainNames, h]

theorem plainNames_cons_of_not_labelled {e : Element} (hnull : e.isNull = false)
    (hlabel : e.label? = none) (es : List Element) :
    plainNames (e :: es) = e.name :: plainNames es := by
  simp [plainNames, hnull, hlabel]

mutual

theorem covering_inner (e : Element) (h : e.BuiltFrom OpenTag.NotLabelling) {path : Path}
    (hpath : path.NoKey) :
    Covering (LaterSteps e.name (plainNames e.children) []) path.segments (e.inner path) := by
  cases e with
  | mk tag text? children =>
    exact covering_placeAll children h.children hpath tag.name.text rfl

theorem covering_placeAll (es : List Element)
    (h : ∀ e ∈ es, e.BuiltFrom OpenTag.NotLabelling) {path : Path} (hpath : path.NoKey)
    (parent : List Char) {names earlier : List (List Char)}
    (hnames : names = earlier ++ plainNames es) :
    Covering (LaterSteps parent names earlier) path.segments
      (placeAll (siblingPaths path (formList parent names) names earlier.reverse es) es) := by
  cases es with
  | nil =>
    rw [placeAll_nil]
    exact .nil
  | cons e rest =>
    have hrest : ∀ e ∈ rest, e.BuiltFrom OpenTag.NotLabelling :=
      fun e he => h e (List.mem_cons_of_mem _ he)
    have he := h e List.mem_cons_self
    cases hnull : e.isNull with
    | true =>
      -- A null has no name and no path, so its siblings are told apart as if it were not there.
      rw [plainNames_cons_of_isNull hnull] at hnames
      rw [siblingPaths, if_pos hnull, placeAll]
      exact covering_placeAll rest hrest hpath parent hnames
    | false =>
      have hlabel := label?_eq_none he.tag
      rw [plainNames_cons_of_not_labelled hnull hlabel] at hnames
      rw [siblingPaths_of_not_labelled hnull hlabel hnames, placeAll]
      have hkey : (childPathOf path parent names earlier e.name).NoKey :=
        noKey_childPathOf hpath earlier e.name
      have hown := Covering.placements (segments_childPathOf path earlier e.name)
        (childSteps_ne_nil earlier e.name) hkey (covering_inner e he hkey)
      have hlater := covering_placeAll rest hrest hpath parent
        (hnames.trans (List.append_cons earlier e.name _))
      refine (hown.append hlater ?_).mono fun _ => laterSteps_cons hnames
      rintro _ _ rfl hsteps
      exact apart_laterSteps hsteps

end

end ConfigAtlas.Markup
