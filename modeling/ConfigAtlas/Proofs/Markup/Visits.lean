import Mathlib
import ConfigAtlas.Proofs.Markup.Ledger

/-!
# Following the links

Starting at the elements without a parent and going from each to its children, every element is
visited at most once, in the order of the source. The visits end, and they are exactly those at
which the elements of a document are placed.
-/

namespace ConfigAtlas.Markup

namespace Ledger

/-! ## Visits by number -/

variable (l : Ledger)

def tagAt? (number : Nat) : Option OpenTag := l.nodes[number]?.map Node.tag

def childrenOf (number : Nat) : List Nat := (l.nodes[number]?.map Node.children).getD []

/-- Explicit nulls are never visited. -/
def members (siblings : List Nat) : List Nat :=
  siblings.filter fun i => !l.isNamed Element.nullName i

/-- The element itself and then its children, as far as the fuel goes. -/
def visit : (fuel : Nat) → Nat → List Nat
  | 0, _ => []
  | fuel + 1, i => i :: (l.members (l.childrenOf i)).flatMap (visit fuel)

/-- The elements without a parent, explicit nulls apart. -/
def tops : List Nat :=
  l.members ((List.range l.nodes.length).filter fun i => l.nodes[i]?.any (·.parent?.isNone))

/-- A single root with children is passed over. -/
def starts : List Nat :=
  match l.tops with
  | [only] => if (l.childrenOf only).isEmpty then [only] else l.members (l.childrenOf only)
  | tops => tops

def visits (fuel : Nat) : List Nat := l.starts.flatMap (l.visit fuel)

end Ledger

theorem length_nodes (e : Element) (parent? : Option Nat) (first : Nat) :
    (e.nodes parent? first).length = e.size := by
  rw [← List.length_map, tags_nodes, Element.size]

theorem length_nodesAll (es : List Element) (parent? : Option Nat) (first : Nat) :
    (nodesAll parent? first es).length = (openTagsAll es).length := by
  rw [← List.length_map, tags_nodesAll]

theorem size_mk (tag : OpenTag) (text? : Option Piece) (children : List Element) :
    Element.size ⟨tag, text?, children⟩ = (openTagsAll children).length + 1 := by
  rw [Element.size, Element.openTags, List.length_cons]

theorem length_openTagsAll_cons (e : Element) (rest : List Element) :
    (openTagsAll (e :: rest)).length = e.size + (openTagsAll rest).length := by
  rw [openTagsAll, List.length_append, Element.size]

theorem nodesAll_first {l : Ledger} {e : Element} {rest : List Element} {parent? : Option Nat}
    {first : Nat} (h : nodesAll parent? first (e :: rest) <+: l.nodes.drop first) :
    e.nodes parent? first <+: l.nodes.drop first := by
  rw [nodesAll] at h
  exact (List.prefix_append _ _).trans h

theorem nodesAll_rest {l : Ledger} {e : Element} {rest : List Element} {parent? : Option Nat}
    {first : Nat} (h : nodesAll parent? first (e :: rest) <+: l.nodes.drop first) :
    nodesAll parent? (first + e.size) rest <+: l.nodes.drop (first + e.size) := by
  rw [nodesAll] at h
  have hrest := Lists.prefix_drop_add h
  rwa [length_nodes] at hrest

/-! ## Roots -/

mutual

theorem has_parent_nodes (e : Element) (parent first : Nat) :
    ∀ n ∈ e.nodes (some parent) first, n.parent?.isNone = false := by
  cases e with
  | mk tag text? children =>
    intro n hn
    rw [Element.nodes] at hn
    rcases List.mem_cons.mp hn with rfl | hn
    · rfl
    · exact has_parent_nodesAll children first (first + 1) n hn

theorem has_parent_nodesAll (es : List Element) (parent first : Nat) :
    ∀ n ∈ nodesAll (some parent) first es, n.parent?.isNone = false := by
  cases es with
  | nil => exact fun n hn => absurd hn List.not_mem_nil
  | cons e rest =>
    intro n hn
    rw [nodesAll] at hn
    rcases List.mem_append.mp hn with hn | hn
    · exact has_parent_nodes e parent first n hn
    · exact has_parent_nodesAll rest parent (first + e.size) n hn

end

section

variable {l : Ledger}

theorem filter_range'_eq_nil {first : Nat} {ns : List Node} (h : ns <+: l.nodes.drop first)
    (hns : ∀ n ∈ ns, n.parent?.isNone = false) :
    ((List.range' first ns.length).filter fun i => l.nodes[i]?.any (·.parent?.isNone)) = [] := by
  induction ns generalizing first with
  | nil => rfl
  | cons n rest ih =>
    have hn : (l.nodes[first]?.any (·.parent?.isNone)) = false := by
      rw [Lists.getElem?_of_prefix_drop h]
      exact hns n List.mem_cons_self
    rw [List.length_cons, List.range'_succ, List.filter_cons, hn]
    exact ih (Lists.prefix_drop_succ h) fun m hm => hns m (List.mem_cons_of_mem _ hm)

theorem numbers_eq_filter (es : List Element) {first : Nat}
    (h : nodesAll none first es <+: l.nodes.drop first) :
    numbers first es = (List.range' first (openTagsAll es).length).filter fun i =>
      l.nodes[i]?.any (·.parent?.isNone) := by
  induction es generalizing first with
  | nil => rfl
  | cons e rest ih =>
    have hrest := ih (nodesAll_rest h)
    obtain ⟨tag, text?, children⟩ := e
    have hown := nodesAll_first h
    rw [Element.nodes] at hown
    have hroot : (l.nodes[first]?.any (·.parent?.isNone)) = true := by
      rw [Lists.getElem?_of_prefix_drop hown]
      rfl
    have hinner := filter_range'_eq_nil (Lists.prefix_drop_succ hown)
      (has_parent_nodesAll children first (first + 1))
    rw [length_nodesAll] at hinner
    rw [numbers, hrest, length_openTagsAll_cons, ← List.range'_append_1, List.filter_append,
      size_mk, List.range'_succ, List.filter_cons, hroot, hinner]
    rfl

end

/-! ## The visits of a forest -/

section

variable {l : Ledger}

theorem members_cons (i : Nat) (rest : List Nat) : l.members (i :: rest) =
    if l.isNamed Element.nullName i then l.members rest else i :: l.members rest := by
  unfold Ledger.members
  rw [List.filter_cons]
  cases l.isNamed Element.nullName i <;> rfl

theorem isNamed_of_nodes {e : Element} {parent? : Option Nat} {first : Nat}
    (h : e.nodes parent? first <+: l.nodes.drop first) :
    l.isNamed Element.nullName first = e.isNull := by
  obtain ⟨tag, text?, children⟩ := e
  rw [Element.nodes] at h
  rw [Ledger.isNamed, Lists.getElem?_of_prefix_drop h]
  rfl

mutual

theorem visit_sublist (e : Element) {parent? : Option Nat} {first fuel : Nat}
    (h : e.nodes parent? first <+: l.nodes.drop first) (hfuel : e.size ≤ fuel) :
    (l.visit fuel first).Sublist (List.range' first e.size) := by
  cases e with
  | mk tag text? children =>
    rw [Element.nodes] at h
    rw [size_mk] at hfuel ⊢
    obtain ⟨fuel, rfl⟩ := Nat.exists_eq_succ_of_ne_zero (Nat.ne_of_gt (Nat.zero_lt_of_lt hfuel))
    have hinner := visits_sublist children (Lists.prefix_drop_succ h) (Nat.le_of_succ_le_succ hfuel)
    rw [Ledger.visit, Ledger.childrenOf, Lists.getElem?_of_prefix_drop h, List.range'_succ]
    exact hinner.cons_cons first

theorem visits_sublist (es : List Element) {parent? : Option Nat} {first fuel : Nat}
    (h : nodesAll parent? first es <+: l.nodes.drop first)
    (hfuel : (openTagsAll es).length ≤ fuel) :
    ((l.members (numbers first es)).flatMap (l.visit fuel)).Sublist
      (List.range' first (openTagsAll es).length) := by
  cases es with
  | nil => exact List.Sublist.refl _
  | cons e rest =>
    rw [length_openTagsAll_cons] at hfuel ⊢
    have hrest := visits_sublist rest (nodesAll_rest h) (Nat.le_of_add_left_le hfuel)
    have hown := visit_sublist e (nodesAll_first h) (Nat.le_of_add_right_le hfuel)
    rw [numbers, members_cons, ← List.range'_append_1]
    split
    · exact hrest.trans (List.sublist_append_right _ _)
    · exact hown.append hrest

end

mutual

theorem tags_visit (e : Element) {parent? : Option Nat} {first fuel : Nat}
    (h : e.nodes parent? first <+: l.nodes.drop first) (hfuel : e.size ≤ fuel) (path : Path) :
    (l.visit fuel first).map l.tagAt? = (e.placements path).map (some ·.element.tag) := by
  cases e with
  | mk tag text? children =>
    rw [Element.nodes] at h
    rw [size_mk] at hfuel
    obtain ⟨fuel, rfl⟩ := Nat.exists_eq_succ_of_ne_zero (Nat.ne_of_gt (Nat.zero_lt_of_lt hfuel))
    have hinner := tags_visits children (Lists.prefix_drop_succ h) (Nat.le_of_succ_le_succ hfuel)
    rw [Ledger.visit, Ledger.childrenOf, Lists.getElem?_of_prefix_drop h, List.map_cons,
      Ledger.tagAt?, Lists.getElem?_of_prefix_drop h, Element.placements, List.map_cons,
      childPaths, ← hinner]
    rfl

theorem tags_visits (es : List Element) {parent? : Option Nat} {first fuel : Nat}
    (h : nodesAll parent? first es <+: l.nodes.drop first)
    (hfuel : (openTagsAll es).length ≤ fuel) (parent : Path) (isList : Bool)
    (names earlier : List (List Char)) :
    ((l.members (numbers first es)).flatMap (l.visit fuel)).map l.tagAt? =
      (placeAll (siblingPaths parent isList names earlier es) es).map (some ·.element.tag) := by
  cases es with
  | nil => rfl
  | cons e rest =>
    rw [length_openTagsAll_cons] at hfuel
    have hrest := tags_visits rest (nodesAll_rest h) (Nat.le_of_add_left_le hfuel) parent isList
      names
    have hown := tags_visit e (nodesAll_first h) (Nat.le_of_add_right_le hfuel)
    rw [numbers, members_cons, isNamed_of_nodes (nodesAll_first h), siblingPaths]
    split
    · exact hrest earlier
    · simp only [placeAll, List.flatMap_cons, List.map_append]
      rw [hrest, hown]

end

/-! ## The visits of a document -/

theorem placeAll_filter_isNull (parent : Path) (isList : Bool) (names earlier : List (List Char))
    (es : List Element) :
    placeAll (siblingPaths parent isList names earlier (es.filter (!·.isNull)))
      (es.filter (!·.isNull)) = placeAll (siblingPaths parent isList names earlier es) es := by
  induction es generalizing earlier with
  | nil => rfl
  | cons e rest ih =>
    rw [List.filter_cons, siblingPaths]
    cases hnull : e.isNull with
    | true => exact ih earlier
    | false =>
      simp only [Bool.not_false, if_true, siblingPaths, hnull, Bool.false_eq_true, if_false,
        placeAll, ih]

theorem members_forall₂ (es : List Element) {first : Nat}
    (h : nodesAll none first es <+: l.nodes.drop first) :
    List.Forall₂ (fun i e => Element.nodes none i e <+: l.nodes.drop i)
      (l.members (numbers first es)) (es.filter (!·.isNull)) := by
  induction es generalizing first with
  | nil => exact List.Forall₂.nil
  | cons e rest ih =>
    have hrest := ih (nodesAll_rest h)
    have hown := nodesAll_first h
    rw [numbers, members_cons, isNamed_of_nodes hown, List.filter_cons]
    cases e.isNull with
    | true => exact hrest
    | false => exact List.Forall₂.cons hown hrest

theorem visits_forest {forest : List Element} (h : l.nodes = nodesAll none 0 forest) {fuel : Nat}
    (hfuel : l.nodes.length ≤ fuel) :
    (l.visits fuel).Pairwise (· < ·) ∧
      (l.visits fuel).map l.tagAt? =
        (Document.ofRoots forest).placements.map (some ·.element.tag) := by
  have hall : nodesAll none 0 forest <+: l.nodes.drop 0 := h ▸ List.prefix_refl _
  have hlength : l.nodes.length = (openTagsAll forest).length := by rw [h, length_nodesAll]
  have htops : l.tops = l.members (numbers 0 forest) := by
    rw [Ledger.tops, numbers_eq_filter forest hall, hlength, List.range_eq_range']
  have hroots : ((l.members (numbers 0 forest)).flatMap (l.visit fuel)).Pairwise (· < ·) ∧
      ((l.members (numbers 0 forest)).flatMap (l.visit fuel)).map l.tagAt? =
        (Document.placements ⟨[], forest.filter (!·.isNull)⟩).map (some ·.element.tag) := by
    refine ⟨(List.pairwise_lt_range').sublist (visits_sublist forest hall (hlength ▸ hfuel)), ?_⟩
    rw [Document.placements, childPaths, placeAll_filter_isNull]
    exact tags_visits forest hall (hlength ▸ hfuel) _ _ _ _
  have hmembers := members_forall₂ forest hall
  rw [Ledger.visits, Ledger.starts, htops, Document.ofRoots]
  generalize forest.filter (!·.isNull) = es at hmembers hroots ⊢
  generalize l.members (numbers 0 forest) = is at hmembers hroots ⊢
  cases hmembers with
  | nil => exact hroots
  | @cons i e is es hown hlater =>
    cases hlater with
    | cons => exact hroots
    | nil =>
      -- A single root with children is passed over: its children are visited and placed instead.
      obtain ⟨tag, text?, children⟩ := e
      have hsize := hown.length_le
      rw [length_nodes, size_mk, List.length_drop] at hsize
      rw [Element.nodes] at hown
      have hchildren : l.childrenOf i = numbers (i + 1) children := by
        rw [Ledger.childrenOf, Lists.getElem?_of_prefix_drop hown]
        rfl
      simp only [hchildren]
      cases children with
      | nil => exact hroots
      | cons c rest =>
        have hinner : (openTagsAll (c :: rest)).length ≤ fuel := by omega
        exact ⟨(List.pairwise_lt_range').sublist
          (visits_sublist (c :: rest) (Lists.prefix_drop_succ hown) hinner),
          tags_visits (c :: rest) (Lists.prefix_drop_succ hown) hinner _ _ _ _⟩

end

end ConfigAtlas.Markup
