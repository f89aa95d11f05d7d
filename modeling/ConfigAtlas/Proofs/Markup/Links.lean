import Mathlib
import ConfigAtlas.Proofs.Markup.Ledger

/-!
# Links between elements

Whatever tags are missing, stray or broken, the elements of a source form an ordered forest at
every moment of the scan: children and parents name each other, a parent comes first, and only a
childless element that ends on its line has a text.
-/

namespace ConfigAtlas.Markup

namespace Ledger

variable {l : Ledger}

def HasChild (l : Ledger) (i j : Nat) : Prop := ∃ n : Node, l.nodes[i]? = some n ∧ j ∈ n.children

def HasParent (l : Ledger) (j i : Nat) : Prop :=
  ∃ n : Node, l.nodes[j]? = some n ∧ n.parent? = some i

/-- Numbers follow the order of the tags. What is open lies one in the other, innermost first. -/
structure Linked (l : Ledger) : Prop where
  child_iff : ∀ i j, l.HasChild i j ↔ l.HasParent j i
  parent_lt : ∀ i j, l.HasParent j i → i < j
  children : ∀ n ∈ l.nodes, n.children.Pairwise (· < ·)
  selfClosing : ∀ n ∈ l.nodes, n.tag.selfClosing = true → n.children = [] ∧ n.text? = none
  text : ∀ n ∈ l.nodes, n.text? ≠ none → n.children = []
  opened : l.opened.Pairwise (· > ·)
  opened_parent : ∀ i outer, i :: outer <:+ l.opened →
    ∃ n : Node, l.nodes[i]? = some n ∧ n.parent? = outer.head?
  opened_plain : ∀ i ∈ l.opened, ∀ n : Node, l.nodes[i]? = some n →
    n.tag.selfClosing = false ∧ n.text? = none

theorem linked_empty : Linked {} where
  child_iff := by simp [HasChild, HasParent]
  parent_lt := by simp [HasParent]
  children := by simp
  selfClosing := by simp
  text := by simp
  opened := .nil
  opened_parent := by simp
  opened_plain := by simp

/-! ## Opening -/

theorem getElem?_linked (l : Ledger) (i : Nat) :
    l.linked[i]? = l.nodes[i]?.map fun n =>
      if l.opened.head? = some i then n.addChild l.nodes.length else n := by
  unfold linked
  split
  · rename_i hopened
    simp [hopened]
  · rename_i parent outer hopened
    rw [List.getElem?_modify, hopened]
    simp

theorem getElem?_openTag (l : Ledger) (tag : OpenTag) (i : Nat) :
    (l.openTag tag).nodes[i]? =
      if i = l.nodes.length then some ⟨tag, none, l.opened.head?, []⟩
      else l.nodes[i]?.map fun n =>
        if l.opened.head? = some i then n.addChild l.nodes.length else n := by
  have hlength := Builder.length_linked l
  change (l.linked ++ [⟨tag, none, l.opened.head?, []⟩])[i]? = _
  rw [← getElem?_linked, List.getElem?_append, hlength, List.getElem?_singleton]
  rcases Nat.lt_trichotomy i l.nodes.length with hlt | rfl | hgt
  · rw [if_pos hlt, if_neg (Nat.ne_of_lt hlt)]
  · simp
  · have hnone : l.linked[i]? = none := List.getElem?_eq_none (by omega)
    rw [if_neg (by omega), if_neg (by omega), if_neg (by omega), hnone]

/-- An opening tag adds an element, and changes one other at most. -/
theorem openTag_cases {tag : OpenTag} {i : Nat} {n : Node}
    (h : (l.openTag tag).nodes[i]? = some n) :
    (i = l.nodes.length ∧ n = ⟨tag, none, l.opened.head?, []⟩) ∨
      (l.opened.head? ≠ some i ∧ l.nodes[i]? = some n) ∨
      (l.opened.head? = some i ∧
        ∃ m : Node, l.nodes[i]? = some m ∧ n = m.addChild l.nodes.length) := by
  rw [getElem?_openTag] at h
  split at h
  · rename_i hi
    exact Or.inl ⟨hi, (Option.some.inj h).symm⟩
  · obtain ⟨m, hm, rfl⟩ := Option.map_eq_some_iff.mp h
    split
    · rename_i hhead
      exact Or.inr (Or.inr ⟨hhead, m, hm, rfl⟩)
    · rename_i hhead
      exact Or.inr (Or.inl ⟨hhead, hm⟩)

theorem mem_openTag_cases {tag : OpenTag} {n : Node} (h : n ∈ (l.openTag tag).nodes) :
    n = ⟨tag, none, l.opened.head?, []⟩ ∨ n ∈ l.nodes ∨
      ∃ i m, l.opened.head? = some i ∧ l.nodes[i]? = some m ∧ n = m.addChild l.nodes.length := by
  obtain ⟨i, hi⟩ := List.mem_iff_getElem?.mp h
  obtain ⟨-, hnew⟩ | ⟨-, hold⟩ | ⟨hhead, m, hm, hadded⟩ := openTag_cases hi
  · exact Or.inl hnew
  · exact Or.inr (Or.inl (List.mem_of_getElem? hold))
  · exact Or.inr (Or.inr ⟨i, m, hhead, hm, hadded⟩)

theorem lt_length_of_getElem? {i : Nat} {n : Node} (h : l.nodes[i]? = some n) :
    i < l.nodes.length := (List.getElem?_eq_some_iff.mp h).1

theorem exists_node_openTag {i : Nat} {n : Node} (h : l.nodes[i]? = some n) (tag : OpenTag) :
    ∃ m : Node, (l.openTag tag).nodes[i]? = some m ∧ m.parent? = n.parent? ∧
      ∀ j ∈ n.children, j ∈ m.children := by
  have hlt := lt_length_of_getElem? h
  refine ⟨_, by rw [getElem?_openTag, if_neg (Nat.ne_of_lt hlt), h, Option.map_some], ?_, ?_⟩
  · split <;> rfl
  · split
    · exact fun j hj => List.mem_append_left _ hj
    · exact fun j hj => hj

theorem getElem?_length_openTag (l : Ledger) (tag : OpenTag) :
    (l.openTag tag).nodes[l.nodes.length]? = some ⟨tag, none, l.opened.head?, []⟩ := by
  rw [getElem?_openTag, if_pos rfl]

theorem opened_openTag_cases (l : Ledger) (tag : OpenTag) : (l.openTag tag).opened = l.opened ∨
    (tag.selfClosing = false ∧ (l.openTag tag).opened = l.nodes.length :: l.opened) := by
  unfold openTag
  cases tag.selfClosing with
  | true => exact Or.inl rfl
  | false => exact Or.inr ⟨rfl, rfl⟩

theorem hasChild_openTag (tag : OpenTag) (i j : Nat) : (l.openTag tag).HasChild i j ↔
    l.HasChild i j ∨
      (j = l.nodes.length ∧ l.opened.head? = some i ∧ i < l.nodes.length) := by
  constructor
  · rintro ⟨n, hn, hj⟩
    obtain ⟨-, rfl⟩ | ⟨-, hold⟩ | ⟨hhead, m, hm, rfl⟩ := openTag_cases hn
    · cases hj
    · exact Or.inl ⟨n, hold, hj⟩
    · rcases List.mem_append.mp hj with hj | hj
      · exact Or.inl ⟨m, hm, hj⟩
      · exact Or.inr ⟨List.mem_singleton.mp hj, hhead, lt_length_of_getElem? hm⟩
  · rintro (⟨n, hn, hj⟩ | ⟨rfl, hhead, hlt⟩)
    · obtain ⟨m, hm, -, hchildren⟩ := exists_node_openTag hn tag
      exact ⟨m, hm, hchildren j hj⟩
    · refine ⟨l.nodes[i].addChild l.nodes.length, ?_, List.mem_append_right _ List.mem_cons_self⟩
      rw [getElem?_openTag, if_neg (Nat.ne_of_lt hlt), List.getElem?_eq_getElem hlt,
        Option.map_some, if_pos hhead]

theorem hasParent_openTag (tag : OpenTag) (i j : Nat) : (l.openTag tag).HasParent j i ↔
    l.HasParent j i ∨ (j = l.nodes.length ∧ l.opened.head? = some i) := by
  constructor
  · rintro ⟨n, hn, hparent⟩
    obtain ⟨hj, rfl⟩ | ⟨-, hold⟩ | ⟨-, m, hm, rfl⟩ := openTag_cases hn
    · exact Or.inr ⟨hj, hparent⟩
    · exact Or.inl ⟨n, hold, hparent⟩
    · exact Or.inl ⟨m, hm, hparent⟩
  · rintro (⟨n, hn, hparent⟩ | ⟨rfl, hhead⟩)
    · obtain ⟨m, hm, hkept, -⟩ := exists_node_openTag hn tag
      exact ⟨m, hm, hkept.trans hparent⟩
    · exact ⟨_, l.getElem?_length_openTag tag, hhead⟩

namespace Linked

theorem opened_lt (h : l.Linked) : ∀ i ∈ l.opened, i < l.nodes.length := by
  intro i hi
  obtain ⟨inner, outer, hsplit⟩ := List.append_of_mem hi
  obtain ⟨n, hn, -⟩ := h.opened_parent i outer (hsplit ▸ List.suffix_append _ _)
  exact lt_length_of_getElem? hn

theorem head_lt (h : l.Linked) {i : Nat} (hhead : l.opened.head? = some i) :
    i < l.nodes.length := h.opened_lt i (List.mem_of_head? hhead)

theorem child_lt (h : l.Linked) {i j : Nat} (hchild : l.HasChild i j) : j < l.nodes.length := by
  obtain ⟨n, hn, -⟩ := (h.child_iff i j).mp hchild
  exact lt_length_of_getElem? hn

theorem opened_parent_openTag (h : l.Linked) (tag : OpenTag) {i : Nat} {outer : List Nat}
    (hsuffix : i :: outer <:+ (l.openTag tag).opened) :
    ∃ n : Node, (l.openTag tag).nodes[i]? = some n ∧ n.parent? = outer.head? := by
  have hkept : i :: outer <:+ l.opened →
      ∃ n : Node, (l.openTag tag).nodes[i]? = some n ∧ n.parent? = outer.head? := by
    intro hold
    obtain ⟨n, hn, hparent⟩ := h.opened_parent i outer hold
    obtain ⟨m, hm, hsame, -⟩ := exists_node_openTag hn tag
    exact ⟨m, hm, hsame.trans hparent⟩
  obtain hsame | ⟨-, hpushed⟩ := l.opened_openTag_cases tag
  · exact hkept (hsame ▸ hsuffix)
  · rw [hpushed] at hsuffix
    rcases List.suffix_cons_iff.mp hsuffix with hnew | hold
    · obtain ⟨rfl, rfl⟩ := List.cons.inj hnew
      exact ⟨_, l.getElem?_length_openTag tag, rfl⟩
    · exact hkept hold

theorem opened_plain_openTag (h : l.Linked) (tag : OpenTag) {i : Nat}
    (hi : i ∈ (l.openTag tag).opened) {n : Node} (hn : (l.openTag tag).nodes[i]? = some n) :
    n.tag.selfClosing = false ∧ n.text? = none := by
  have hkept : i ∈ l.opened → n.tag.selfClosing = false ∧ n.text? = none := by
    intro hopen
    have hlt := h.opened_lt i hopen
    obtain ⟨heq, -⟩ | ⟨-, hsame⟩ | ⟨-, m, hm, rfl⟩ := openTag_cases hn
    · omega
    · exact h.opened_plain i hopen n hsame
    · exact h.opened_plain i hopen m hm
  obtain hsame | ⟨hself, hpushed⟩ := l.opened_openTag_cases tag
  · exact hkept (hsame ▸ hi)
  · rw [hpushed] at hi
    rcases List.mem_cons.mp hi with rfl | hold
    · rw [getElem?_length_openTag] at hn
      cases hn
      exact ⟨hself, rfl⟩
    · exact hkept hold

theorem openTag (h : l.Linked) (tag : OpenTag) : (l.openTag tag).Linked where
  child_iff := by
    intro i j
    rw [hasChild_openTag, hasParent_openTag, h.child_iff]
    constructor
    · rintro (hold | ⟨hj, hhead, -⟩)
      · exact Or.inl hold
      · exact Or.inr ⟨hj, hhead⟩
    · rintro (hold | ⟨hj, hhead⟩)
      · exact Or.inl hold
      · exact Or.inr ⟨hj, hhead, h.head_lt hhead⟩
  parent_lt := by
    intro i j hparent
    rcases (hasParent_openTag tag i j).mp hparent with hold | ⟨rfl, hhead⟩
    · exact h.parent_lt i j hold
    · exact h.head_lt hhead
  children := by
    intro n hn
    obtain rfl | hold | ⟨_, m, -, hm, rfl⟩ := mem_openTag_cases hn
    · exact .nil
    · exact h.children n hold
    · refine List.pairwise_append.mpr
        ⟨h.children m (List.mem_of_getElem? hm), List.pairwise_singleton _ _, ?_⟩
      intro j hj k hk
      rw [List.mem_singleton.mp hk]
      exact h.child_lt ⟨m, hm, hj⟩
  selfClosing := by
    intro n hn hself
    obtain rfl | hold | ⟨i, m, hhead, hm, rfl⟩ := mem_openTag_cases hn
    · exact ⟨rfl, rfl⟩
    · exact h.selfClosing n hold hself
    · -- An open node is the one that gains a child, and none of those closes itself.
      have hplain := (h.opened_plain i (List.mem_of_head? hhead) m hm).1
      exact absurd hself (Bool.not_eq_true _ ▸ hplain)
  text := by
    intro n hn htext
    obtain rfl | hold | ⟨i, m, hhead, hm, rfl⟩ := mem_openTag_cases hn
    · rfl
    · exact h.text n hold htext
    · exact absurd (h.opened_plain i (List.mem_of_head? hhead) m hm).2 htext
  opened := by
    obtain hsame | ⟨-, hpushed⟩ := l.opened_openTag_cases tag
    · rw [hsame]
      exact h.opened
    · rw [hpushed]
      exact List.pairwise_cons.mpr ⟨h.opened_lt, h.opened⟩
  opened_parent _ _ := h.opened_parent_openTag tag
  opened_plain _ hi _ := h.opened_plain_openTag tag hi

end Linked

/-! ## Closing -/

/-- A closing tag closes an element that is open, with all that lies in it, unless none is. -/
theorem closeTag_cases (l : Ledger) (name : List Char) (stop : Nat) :
    l.closeTag name stop = l ∨ ∃ inner number outer, l.opened = inner ++ number :: outer ∧
      l.closeTag name stop = ⟨l.nodes.modify number (Node.endAt stop), outer⟩ := by
  unfold closeTag
  generalize (l.opened.findIdx? (l.isNamed name)).getD 0 = depth
  split
  · exact Or.inl rfl
  · rename_i number outer hopened
    refine Or.inr ⟨l.opened.take depth, number, outer, ?_, rfl⟩
    rw [← hopened, List.take_append_drop]

theorem getElem?_modify_endAt (nodes : List Node) (number stop i : Nat) :
    (nodes.modify number (Node.endAt stop))[i]? =
      nodes[i]?.map fun n => if number = i then n.endAt stop else n := by
  rw [List.getElem?_modify]
  rfl

theorem endAt_cases {nodes : List Node} {number stop i : Nat} {n : Node}
    (h : (nodes.modify number (Node.endAt stop))[i]? = some n) :
    (number ≠ i ∧ nodes[i]? = some n) ∨
      (number = i ∧ ∃ m : Node, nodes[i]? = some m ∧ n = m.endAt stop) := by
  rw [getElem?_modify_endAt] at h
  obtain ⟨m, hm, rfl⟩ := Option.map_eq_some_iff.mp h
  split
  · rename_i hi
    exact Or.inr ⟨hi, m, hm, rfl⟩
  · rename_i hi
    exact Or.inl ⟨hi, hm⟩

theorem mem_endAt_cases {nodes : List Node} {number stop : Nat} {n : Node}
    (h : n ∈ nodes.modify number (Node.endAt stop)) :
    n ∈ nodes ∨ ∃ m : Node, nodes[number]? = some m ∧ n = m.endAt stop := by
  obtain ⟨i, hi⟩ := List.mem_iff_getElem?.mp h
  obtain ⟨-, hold⟩ | ⟨rfl, hended⟩ := endAt_cases hi
  · exact Or.inl (List.mem_of_getElem? hold)
  · exact Or.inr hended

theorem exists_node_endAt {nodes : List Node} {i : Nat} {n : Node} (h : nodes[i]? = some n)
    (number stop : Nat) : ∃ m : Node, (nodes.modify number (Node.endAt stop))[i]? = some m ∧
      m.parent? = n.parent? ∧ m.children = n.children := by
  refine ⟨_, by rw [getElem?_modify_endAt, h, Option.map_some], ?_, ?_⟩ <;> split <;> rfl

theorem hasChild_endAt (number stop : Nat) (outer : List Nat) (i j : Nat) :
    HasChild ⟨l.nodes.modify number (Node.endAt stop), outer⟩ i j ↔ l.HasChild i j := by
  constructor
  · rintro ⟨n, hn, hj⟩
    obtain ⟨-, hold⟩ | ⟨-, m, hm, rfl⟩ := endAt_cases hn
    · exact ⟨n, hold, hj⟩
    · exact ⟨m, hm, hj⟩
  · rintro ⟨n, hn, hj⟩
    obtain ⟨m, hm, -, hchildren⟩ := exists_node_endAt hn number stop
    exact ⟨m, hm, hchildren ▸ hj⟩

theorem hasParent_endAt (number stop : Nat) (outer : List Nat) (i j : Nat) :
    HasParent ⟨l.nodes.modify number (Node.endAt stop), outer⟩ j i ↔ l.HasParent j i := by
  constructor
  · rintro ⟨n, hn, hparent⟩
    obtain ⟨-, hold⟩ | ⟨-, m, hm, rfl⟩ := endAt_cases hn
    · exact ⟨n, hold, hparent⟩
    · exact ⟨m, hm, hparent⟩
  · rintro ⟨n, hn, hparent⟩
    obtain ⟨m, hm, hsame, -⟩ := exists_node_endAt hn number stop
    exact ⟨m, hm, hsame.trans hparent⟩

namespace Linked

theorem closeTag (h : l.Linked) (name : List Char) (stop : Nat) :
    (l.closeTag name stop).Linked := by
  obtain hsame | ⟨inner, number, outer, hopened, hclosed⟩ := l.closeTag_cases name stop
  · rwa [hsame]
  have hsuffix : outer <:+ l.opened :=
    (List.suffix_cons number outer).trans (hopened ▸ List.suffix_append inner _)
  have hnumber : number ∈ l.opened := by simp [hopened]
  have hpairwise : (number :: outer).Pairwise (· > ·) :=
    h.opened.sublist (hopened ▸ List.sublist_append_right inner _)
  -- What is closed lies in what is still open, and so has a number of its own.
  have hother : ∀ i ∈ outer, number ≠ i := by
    intro i hi
    have := (List.pairwise_cons.mp hpairwise).1 i hi
    omega
  rw [hclosed]
  exact {
    child_iff := by
      intro i j
      rw [hasChild_endAt, hasParent_endAt, h.child_iff]
    parent_lt := by
      intro i j hparent
      exact h.parent_lt i j ((hasParent_endAt number stop outer i j).mp hparent)
    children := by
      intro n hn
      obtain hold | ⟨m, hm, rfl⟩ := mem_endAt_cases hn
      · exact h.children n hold
      · exact h.children m (List.mem_of_getElem? hm)
    selfClosing := by
      intro n hn hself
      obtain hold | ⟨m, hm, rfl⟩ := mem_endAt_cases hn
      · exact h.selfClosing n hold hself
      · have hplain := (h.opened_plain number hnumber m hm).1
        exact absurd hself (Bool.not_eq_true _ ▸ hplain)
    text := by
      intro n hn htext
      obtain hold | ⟨m, hm, rfl⟩ := mem_endAt_cases hn
      · exact h.text n hold htext
      · by_contra hchildren
        apply htext
        have hempty : m.children.isEmpty = false := List.isEmpty_eq_false_iff.mpr hchildren
        simp [Node.endAt, Node.inlineText?, hempty]
    opened := (List.pairwise_cons.mp hpairwise).2
    opened_parent := by
      intro i rest hrest
      obtain ⟨n, hn, hparent⟩ := h.opened_parent i rest (hrest.trans hsuffix)
      obtain ⟨m, hm, hsame, -⟩ := exists_node_endAt hn number stop
      exact ⟨m, hm, hsame.trans hparent⟩
    opened_plain := by
      intro i hi n hn
      obtain ⟨-, hold⟩ | ⟨heq, -⟩ := endAt_cases hn
      · exact h.opened_plain i (hsuffix.subset hi) n hold
      · exact absurd heq (hother i hi) }

theorem step (h : l.Linked) (t : Tag) : (l.step t).Linked := by
  cases t with
  | opening tag => exact h.openTag tag
  | closing name start => exact h.closeTag name start

theorem run (h : l.Linked) (ts : List Tag) : (l.run ts).Linked := by
  induction ts generalizing l with
  | nil => exact h
  | cons t rest ih => exact ih (h.step t)

end Linked

end Ledger

end ConfigAtlas.Markup
