import Mathlib
import ConfigAtlas.Proofs.Markup.TagOrder

/-!
# Elements by number

The forest of a source can be kept as one list, in which elements stand in the order of their
opening tags and name their parents and children by number. A scan that links the elements of
such a list as the tags come by has at every moment the list of the forest that is built.
-/

namespace ConfigAtlas.Markup

/-- An element with its links to others. -/
structure Node where
  tag : OpenTag
  text? : Option Piece
  parent? : Option Nat
  children : List Nat

namespace Node

/-- The element of this number becomes the last child. -/
def addChild (number : Nat) (n : Node) : Node := { n with children := n.children ++ [number] }

def inlineText? (stop : Nat) (n : Node) : Option Piece :=
  if n.children.isEmpty then Builder.inlineText? stop ⟨n.tag, []⟩ else none

/-- The element is closed by the tag at this position. -/
def endAt (stop : Nat) (n : Node) : Node := { n with text? := n.inlineText? stop }

end Node

/-- The numbers of the elements that are open stand with the innermost in front. -/
@[ext]
structure Ledger where
  nodes : List Node := []
  opened : List Nat := []

namespace Ledger

/-! ## Linking elements as the tags come by -/

/-- The elements so far, the next of which is a child of the innermost that is open. -/
def linked (l : Ledger) : List Node :=
  match l.opened with
  | [] => l.nodes
  | parent :: _ => l.nodes.modify parent (Node.addChild l.nodes.length)

/-- The element gets the next number, and stays open if its tag does not close itself. -/
def openTag (l : Ledger) (tag : OpenTag) : Ledger where
  nodes := l.linked ++ [⟨tag, none, l.opened.head?, []⟩]
  opened := if tag.selfClosing then l.opened else l.nodes.length :: l.opened

def isNamed (l : Ledger) (name : List Char) (number : Nat) : Bool :=
  l.nodes[number]?.any (·.tag.name.text == name)

/-- Of all that is open the innermost of this name is closed, or the innermost of any name, and
whatever lies in it is left without a text. -/
def closeTag (l : Ledger) (name : List Char) (stop : Nat) : Ledger :=
  match l.opened.drop ((l.opened.findIdx? (l.isNamed name)).getD 0) with
  | [] => l
  | number :: outer => ⟨l.nodes.modify number (Node.endAt stop), outer⟩

def step (l : Ledger) : Tag → Ledger
  | .opening tag => l.openTag tag
  | .closing name start => l.closeTag name start

def run (l : Ledger) : List Tag → Ledger
  | [] => l
  | tag :: rest => (l.step tag).run rest

end Ledger

/-! ## The list of a forest -/

def Element.size (e : Element) : Nat := e.openTags.length

/-- The numbers of siblings when the first has this number. -/
def numbers (first : Nat) : List Element → List Nat
  | [] => []
  | e :: rest => first :: numbers (first + e.size) rest

mutual

/-- The element and all in it as a stretch of the list, from the number of the element on. -/
def Element.nodes (parent? : Option Nat) (first : Nat) : Element → List Node
  | ⟨tag, text?, children⟩ =>
    ⟨tag, text?, parent?, numbers (first + 1) children⟩ ::
      nodesAll (some first) (first + 1) children

def nodesAll (parent? : Option Nat) (first : Nat) : List Element → List Node
  | [] => []
  | e :: rest => e.nodes parent? first ++ nodesAll parent? (first + e.size) rest

end

theorem numbers_append (first : Nat) (es later : List Element) :
    numbers first (es ++ later) =
      numbers first es ++ numbers (first + (openTagsAll es).length) later := by
  induction es generalizing first with
  | nil => rfl
  | cons e rest ih =>
    rw [List.cons_append, numbers, ih, numbers, openTagsAll, List.length_append, List.cons_append,
      Element.size, Nat.add_assoc]

theorem nodesAll_append (parent? : Option Nat) (first : Nat) (es later : List Element) :
    nodesAll parent? first (es ++ later) =
      nodesAll parent? first es ++ nodesAll parent? (first + (openTagsAll es).length) later := by
  induction es generalizing first with
  | nil => rfl
  | cons e rest ih =>
    rw [List.cons_append, nodesAll, ih, nodesAll, openTagsAll, List.length_append,
      List.append_assoc, Element.size, Nat.add_assoc]

theorem nodesAll_singleton (parent? : Option Nat) (first : Nat) (e : Element) :
    nodesAll parent? first [e] = e.nodes parent? first := by
  rw [nodesAll, nodesAll, List.append_nil]

mutual

theorem tags_nodes (e : Element) (parent? : Option Nat) (first : Nat) :
    (e.nodes parent? first).map Node.tag = e.openTags := by
  cases e with
  | mk tag text? children =>
    rw [Element.nodes, List.map_cons, tags_nodesAll children, Element.openTags]

theorem tags_nodesAll (es : List Element) (parent? : Option Nat) (first : Nat) :
    (nodesAll parent? first es).map Node.tag = openTagsAll es := by
  cases es with
  | nil => rfl
  | cons e rest =>
    rw [nodesAll, List.map_append, tags_nodes e, tags_nodesAll rest, openTagsAll]

end

namespace Builder

/-- An element has for its number how many were opened before it. -/
def openNumbers (roots : List Element) : List Unclosed → List Nat
  | [] => []
  | _ :: outer => (Builder.mk roots outer).openTags.length :: openNumbers roots outer

/-- The list of what a builder has so far. -/
def ledger (b : Builder) : Ledger := ⟨nodesAll none 0 b.forest, openNumbers b.roots b.unclosed⟩

/-! ## Where an element is attached -/

variable (b : Builder)

theorem forest_cons (roots : List Element) (u : Unclosed) (outer : List Unclosed) :
    forest ⟨roots, u :: outer⟩ =
      ((Builder.mk roots outer).attach ⟨u.tag, none, u.children.reverse⟩).forest := by
  have hclose : abandon (outer.length + 1) ⟨roots, u :: outer⟩ =
      abandon outer.length ((Builder.mk roots outer).attach ⟨u.tag, none, u.children.reverse⟩) :=
    rfl
  have hlength : ((Builder.mk roots outer).attach
      ⟨u.tag, none, u.children.reverse⟩).unclosed.length = outer.length := by
    cases outer <;> rfl
  rw [forest, forest, hlength, List.length_cons, hclose]

theorem length_unclosed_close (text : Unclosed → Option Piece) :
    (b.close text).unclosed.length = b.unclosed.length - 1 := by
  obtain ⟨roots, unclosed⟩ := b
  cases unclosed with
  | nil => rfl
  | cons u outer => cases outer <;> rfl

theorem unclosed_abandon (n : Nat) (h : b.unclosed.length ≤ n) :
    (abandon n b).unclosed = [] := by
  induction n generalizing b with
  | zero => exact List.eq_nil_of_length_eq_zero (Nat.le_zero.mp h)
  | succ n ih =>
    rw [abandon]
    apply ih
    rw [length_unclosed_close]
    omega

theorem openTagsAll_forest : openTagsAll b.forest = b.openTags := by
  rw [← openTags_abandon b.unclosed.length b, openTags, unclosed_abandon b _ (Nat.le_refl _),
    forest]
  exact (List.append_nil _).symm

theorem length_nodes_ledger : b.ledger.nodes.length = b.openTags.length := by
  rw [← openTagsAll_forest, ← tags_nodesAll b.forest none 0, List.length_map, ledger]

theorem length_linked (l : Ledger) : l.linked.length = l.nodes.length := by
  unfold Ledger.linked
  split
  · rfl
  · exact List.length_modify _ _ _

theorem nodes_cons (roots : List Element) (u : Unclosed) (outer : List Unclosed) :
    (Builder.mk roots (u :: outer)).ledger.nodes =
      ((Builder.mk roots outer).attach ⟨u.tag, none, u.children.reverse⟩).ledger.nodes := by
  rw [ledger, ledger, forest_cons]

theorem length_openTags_cons (roots : List Element) (u : Unclosed) (outer : List Unclosed) :
    (Builder.mk roots (u :: outer)).openTags.length =
      (Builder.mk roots outer).openTags.length + 1 +
        (openTagsAll u.children.reverse).length := by
  simp only [openTags, List.reverse_cons, List.flatMap_append, List.flatMap_singleton,
    Unclosed.openTags, List.length_append, List.length_cons]
  omega

theorem nodes_attach (e : Element) :
    (b.attach e).ledger.nodes =
      b.ledger.linked ++ e.nodes b.ledger.opened.head? b.openTags.length := by
  obtain ⟨roots, unclosed⟩ := b
  induction unclosed generalizing e with
  | nil =>
    have hforest : ((Builder.mk roots []).attach e).forest = roots.reverse ++ [e] :=
      List.reverse_cons
    have hlength : (Builder.mk roots []).openTags.length = (openTagsAll roots.reverse).length := by
      simp [openTags]
    rw [ledger, hforest, nodesAll_append, nodesAll_singleton, hlength, Nat.zero_add]
    rfl
  | cons u outer ih =>
    have hattach : (Builder.mk roots (u :: outer)).attach e =
        ⟨roots, { u with children := e :: u.children } :: outer⟩ := rfl
    have hparent : (Builder.mk roots (u :: outer)).ledger.linked =
        (Builder.mk roots (u :: outer)).ledger.nodes.modify (Builder.mk roots outer).openTags.length
          (Node.addChild (Builder.mk roots (u :: outer)).ledger.nodes.length) := rfl
    have hopened : (Builder.mk roots (u :: outer)).ledger.opened.head? =
        some (Builder.mk roots outer).openTags.length := rfl
    have hlinked := length_linked (Builder.mk roots outer).ledger
    rw [length_nodes_ledger] at hlinked
    rw [hattach, nodes_cons, ih, hparent, hopened, length_nodes_ledger, length_openTags_cons,
      nodes_cons, ih, Element.nodes, Element.nodes]
    simp only
    rw [Lists.modify_append_cons hlinked, List.reverse_cons, numbers_append, nodesAll_append,
      nodesAll_singleton, List.append_assoc]
    rfl

/-! ## Closing -/

/-- Where the innermost open element stands, and what closing it changes. -/
theorem nodes_close (roots : List Element) (u : Unclosed) (outer : List Unclosed) :
    ∃ front parent? later, front.length = (Builder.mk roots outer).openTags.length ∧
      ∀ text : Unclosed → Option Piece,
        ((Builder.mk roots (u :: outer)).close text).ledger.nodes =
          front ++ ⟨u.tag, text u, parent?, numbers (front.length + 1) u.children.reverse⟩ ::
            later := by
  have hlinked := length_linked (Builder.mk roots outer).ledger
  rw [length_nodes_ledger] at hlinked
  refine ⟨(Builder.mk roots outer).ledger.linked, (Builder.mk roots outer).ledger.opened.head?,
    nodesAll (some (Builder.mk roots outer).openTags.length)
      ((Builder.mk roots outer).openTags.length + 1) u.children.reverse, hlinked, fun text => ?_⟩
  have hclose : (Builder.mk roots (u :: outer)).close text =
      (Builder.mk roots outer).attach ⟨u.tag, text u, u.children.reverse⟩ := rfl
  rw [hclose, nodes_attach, Element.nodes, hlinked]

theorem opened_close (text : Unclosed → Option Piece) :
    (b.close text).ledger.opened = b.ledger.opened.tail := by
  obtain ⟨roots, unclosed⟩ := b
  cases unclosed with
  | nil => rfl
  | cons u outer => cases outer <;> rfl

theorem forest_close_none : (b.close fun _ => none).forest = b.forest := by
  obtain ⟨roots, unclosed⟩ := b
  cases unclosed with
  | nil => rfl
  | cons u outer => exact (forest_cons roots u outer).symm

theorem nodes_close_none : (b.close fun _ => none).ledger.nodes = b.ledger.nodes := by
  rw [ledger, forest_close_none, ledger]

theorem ledger_abandon (n : Nat) :
    (abandon n b).ledger = ⟨b.ledger.nodes, b.ledger.opened.drop n⟩ := by
  induction n generalizing b with
  | zero => rfl
  | succ n ih => rw [abandon, ih, opened_close, nodes_close_none, List.drop_tail]

theorem endAt_numbered (stop first : Nat) (u : Unclosed) (parent? : Option Nat) :
    Node.endAt stop ⟨u.tag, none, parent?, numbers first u.children.reverse⟩ =
      ⟨u.tag, inlineText? stop u, parent?, numbers first u.children.reverse⟩ := by
  obtain ⟨tag, children⟩ := u
  cases hchildren : children.reverse with
  | nil =>
    rw [List.reverse_eq_nil_iff.mp hchildren]
    rfl
  | cons e rest =>
    have hempty : children.isEmpty = false := by
      rw [← List.isEmpty_reverse, hchildren]
      rfl
    simp [Node.endAt, Node.inlineText?, inlineText?, numbers, hempty]

/-! ## The same moment in both -/

theorem tag_at {inner : List Unclosed} {u : Unclosed} {outer : List Unclosed}
    (h : b.unclosed = inner ++ u :: outer) :
    b.ledger.nodes[(Builder.mk b.roots outer).openTags.length]?.map Node.tag = some u.tag := by
  have htags : b.openTags = (Builder.mk b.roots outer).openTags ++
      (u.openTags ++ inner.reverse.flatMap Unclosed.openTags) := by
    simp [openTags, h]
  rw [← List.getElem?_map, ledger, tags_nodesAll, openTagsAll_forest, htags,
    List.getElem?_append_right (Nat.le_refl _), Nat.sub_self]
  rfl

theorem findIdx?_opened (name : List Char) :
    b.ledger.opened.findIdx? (b.ledger.isNamed name) =
      b.unclosed.findIdx? (·.tag.name.text == name) := by
  suffices hsuffix : ∀ later inner, b.unclosed = inner ++ later →
      (openNumbers b.roots later).findIdx? (b.ledger.isNamed name) =
        later.findIdx? (·.tag.name.text == name) from hsuffix b.unclosed [] rfl
  intro later
  induction later with
  | nil => exact fun inner _ => rfl
  | cons u outer ih =>
    intro inner h
    have hnamed : b.ledger.isNamed name (Builder.mk b.roots outer).openTags.length =
        (u.tag.name.text == name) := by
      obtain ⟨n, hn, htag⟩ := Option.map_eq_some_iff.mp (b.tag_at h)
      rw [Ledger.isNamed, hn, ← htag]
      rfl
    rw [openNumbers, List.findIdx?_cons, List.findIdx?_cons, hnamed,
      ih (inner ++ [u]) (by simp [h])]

theorem ledger_openTag (tag : OpenTag) : (b.openTag tag).ledger = b.ledger.openTag tag := by
  have hnodes : (b.attach ⟨tag, none, []⟩).ledger.nodes =
      b.ledger.linked ++ [⟨tag, none, b.ledger.opened.head?, []⟩] :=
    b.nodes_attach ⟨tag, none, []⟩
  unfold openTag Ledger.openTag
  cases tag.selfClosing with
  | true =>
    have hopened : (b.attach ⟨tag, none, []⟩).ledger.opened = b.ledger.opened := by
      obtain ⟨roots, unclosed⟩ := b
      cases unclosed <;> rfl
    exact Ledger.ext hnodes hopened
  | false =>
    have hinner := nodes_cons b.roots ⟨tag, []⟩ b.unclosed
    rw [length_nodes_ledger]
    exact Ledger.ext (hinner.trans hnodes) rfl

theorem length_opened : b.ledger.opened.length = b.unclosed.length := by
  suffices hlength : ∀ unclosed, (openNumbers b.roots unclosed).length = unclosed.length from
    hlength b.unclosed
  intro unclosed
  induction unclosed with
  | nil => rfl
  | cons u outer ih => rw [openNumbers, List.length_cons, List.length_cons, ih]

theorem ledger_closeTag (name : List Char) (stop : Nat) :
    (b.closeTag name stop).ledger = b.ledger.closeTag name stop := by
  rw [closeTag, Ledger.closeTag, findIdx?_opened]
  generalize hdepth : (b.unclosed.findIdx? (·.tag.name.text == name)).getD 0 = depth
  have habandon := b.ledger_abandon depth
  generalize abandon depth b = inner at habandon ⊢
  obtain ⟨roots, unclosed⟩ := inner
  have hnodes : (Builder.mk roots unclosed).ledger.nodes = b.ledger.nodes := by rw [habandon]
  have hopened : openNumbers roots unclosed = b.ledger.opened.drop depth :=
    congrArg Ledger.opened habandon
  rw [← hopened]
  cases unclosed with
  | nil =>
    -- An element that is found is open, so there was none at all.
    have hle := List.drop_eq_nil_iff.mp hopened.symm
    rw [length_opened] at hle
    have hzero : b.unclosed.length = 0 := by
      cases hfound : b.unclosed.findIdx? (·.tag.name.text == name) with
      | none =>
        rw [hfound, Option.getD_none] at hdepth
        omega
      | some i =>
        rw [hfound, Option.getD_some] at hdepth
        have hlt := (List.findIdx?_eq_some_iff_findIdx_eq.mp hfound).1
        omega
    have hnone := List.eq_nil_of_length_eq_zero (b.length_opened.trans hzero)
    exact Ledger.ext hnodes hnone.symm
  | cons u outer =>
    obtain ⟨front, parent?, later, hlength, hclose⟩ := nodes_close roots u outer
    have hopen := hclose fun _ => none
    rw [nodes_close_none, hnodes] at hopen
    apply Ledger.ext
    · rw [hclose, openNumbers, hopen]
      simp only
      rw [Lists.modify_append_cons hlength, endAt_numbered]
    · exact opened_close _ _

theorem ledger_run (ts : List Tag) : (b.run ts).ledger = b.ledger.run ts := by
  induction ts generalizing b with
  | nil => rfl
  | cons t rest ih =>
    have hstep : (b.step t).ledger = b.ledger.step t := by
      cases t with
      | opening tag => exact b.ledger_openTag tag
      | closing name start => exact b.ledger_closeTag name start
    rw [run, ih, hstep, Ledger.run]

end Builder

end ConfigAtlas.Markup
