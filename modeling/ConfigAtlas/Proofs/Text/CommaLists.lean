import Mathlib.Data.List.Basic
import ConfigAtlas.Outline.Context
import ConfigAtlas.Proofs.Text.Commas
import ConfigAtlas.Proofs.Text.Trimmed

/-!
# Comma lists taken apart and put together

The elements of a list are its parts between commas without their outer blanks, each at its own
place, and nothing of the list is lost. Parts in which nothing is left open and no comma cuts come
out of their list as they went into it.
-/

namespace ConfigAtlas

namespace Text

/-! ## What is open -/

/-- What is open behind a text. -/
def openAfter (t : List Char) : Nesting := t.foldl Nesting.step {}

/-- Each comma of the text stands in brackets or quotes, and at its end all of them are closed. -/
structure Closed (t : List Char) : Prop where
  commas : ∀ i < t.length, t[i]? = some ',' →
    (openAfter (t.take i)).depth ≠ 0 ∨ (openAfter (t.take i)).quote ≠ none
  depth_eq : (openAfter t).depth = 0
  quote_eq : (openAfter t).quote = none

theorem Nesting.Sound.foldl {n : Nesting} (h : n.Sound) (t : List Char) :
    (t.foldl Nesting.step n).Sound := by
  induction t generalizing n with
  | nil => exact h
  | cons c t ih => exact ih (h.step c)

theorem commaParts_append {n : Nesting} {t : List Char}
    (h : ∀ i c, t[i]? = some c → ((t.take i).foldl Nesting.step n).cuts c = false)
    (rest : List Char) :
    commaParts n (t ++ rest) = (commaParts (t.foldl Nesting.step n) rest).modifyHead (t ++ ·) := by
  induction t generalizing n with
  | nil => exact (congrFun List.modifyHead_id (commaParts n rest)).symm
  | cons c t ih =>
    have hfirst : n.cuts c = false := h 0 c rfl
    have hlater := ih (n := n.step c) fun i d hd => h (i + 1) d hd
    rw [List.cons_append, commaParts, if_neg (by simp [hfirst]), hlater,
      List.modifyHead_modifyHead]
    rfl

namespace Closed

variable {t : List Char}

theorem openAfter_eq (h : Closed t) : openAfter t = {} := by
  have hsound : (openAfter t).Sound := Nesting.Sound.foldl (n := {}) (fun _ => rfl) t
  have hescaped := hsound h.quote_eq
  have hdepth := h.depth_eq
  have hquote := h.quote_eq
  cases hopen : openAfter t with
  | mk depth quote escaped =>
    rw [hopen] at hdepth hquote hescaped
    cases hdepth
    cases hquote
    cases hescaped
    rfl

theorem cuts_eq_false (h : Closed t) {i : Nat} {c : Char} (hc : t[i]? = some c) :
    (openAfter (t.take i)).cuts c = false := by
  rw [← Bool.not_eq_true]
  intro hcuts
  simp only [Nesting.cuts, Bool.and_eq_true, beq_iff_eq, Option.isNone_iff_eq_none] at hcuts
  obtain ⟨⟨rfl, hquote⟩, hdepth⟩ := hcuts
  obtain ⟨hi, -⟩ := List.getElem?_eq_some_iff.mp hc
  exact (h.commas i hi hc).elim (absurd hdepth) (absurd hquote)

theorem uncut (h : Closed t) : Uncut t := by
  intro rest
  rw [commaParts_append fun i c hc => h.cuts_eq_false hc]
  exact congrArg (fun n => (commaParts n rest).modifyHead (t ++ ·)) h.openAfter_eq

end Closed

/-! ## Parts in their list -/

/-- What stands in a list in front of one of its parts. -/
def beforePart (parts : List (List Char)) (i : Nat) : List Char :=
  (parts.take i).flatMap (· ++ [','])

theorem beforePart_append_prefix {parts : List (List Char)} {i : Nat} {part : List Char}
    (h : parts[i]? = some part) : beforePart parts i ++ part <+: [','].intercalate parts := by
  induction parts generalizing i with
  | nil => cases h
  | cons first rest ih =>
    cases i with
    | zero =>
      cases h
      cases rest with
      | nil => simp [beforePart]
      | cons next rest =>
        rw [List.intercalate_cons_cons, List.append_assoc]
        exact List.prefix_append _ _
    | succ i =>
      cases rest with
      | nil => cases h
      | cons next rest =>
        have hrest := ih (i := i) h
        rw [List.intercalate_cons_cons]
        simp only [beforePart, List.take_succ_cons, List.flatMap_cons, List.append_assoc]
          at hrest ⊢
        exact (List.prefix_append_right_inj _).mpr ((List.prefix_append_right_inj _).mpr hrest)

theorem exists_trimmed_off (t : List Char) :
    ∃ back, t = t.takeWhile isBlank ++ (trim t ++ back) ∧ (∀ c ∈ back, isBlank c = true) ∧
      (trim t = [] → back = []) := by
  have hstart : t = t.takeWhile isBlank ++ trimStart t := List.takeWhile_append_dropWhile.symm
  have hend : trimStart t =
      trim t ++ ((trimStart t).reverse.takeWhile isBlank).reverse := by
    have hboth := congrArg List.reverse
      (List.takeWhile_append_dropWhile (p := isBlank) (l := (trimStart t).reverse))
    rw [List.reverse_append, List.reverse_reverse] at hboth
    exact hboth.symm
  have hblank : ∀ c ∈ ((trimStart t).reverse.takeWhile isBlank).reverse, isBlank c = true :=
    fun c hc => List.all_eq_true.mp List.all_takeWhile c (List.mem_reverse.mp hc)
  refine ⟨_, ?_, hblank, ?_⟩
  · rw [← hend]
    exact hstart
  · intro hnil
    rw [hnil, List.nil_append] at hend
    rw [← hend] at hblank ⊢
    -- What is left at the front is no blank, so all of it is gone.
    cases hfirst : trimStart t with
    | nil => rfl
    | cons c rest =>
      have hc := hblank c (by rw [hfirst]; exact List.mem_cons_self)
      rw [Lists.not_of_dropWhile_eq_cons hfirst] at hc
      cases hc

end Text

namespace Piece

/-- How many bytes of a list stand before an element of it. -/
def bytesBefore (list e : Piece) : Nat := Text.byteSize (list.text.take (e.start - list.start))

/-- An element is a part without its outer blanks. It stands in its list behind what comes before
the part and behind the blanks in front, and behind all of them where there is nothing else. -/
def TrimmedFrom (list : Piece) (before part : List Char) (e : Piece) : Prop :=
  e.text = Text.trim part ∧ ∃ front back, part = front ++ (e.text ++ back) ∧
    (∀ c ∈ front ++ back, Text.isBlank c = true) ∧ (e.text = [] → back = []) ∧
    e.start = list.start + (before ++ front).length ∧
    list.bytesBefore e = Text.byteSize (before ++ front)

/-- One element for each part, in the same order and in its place. -/
def CutInto (list : Piece) (parts : List (List Char)) (elements : List Piece) : Prop :=
  elements.length = parts.length ∧ ∀ i part e, parts[i]? = some part → elements[i]? = some e →
    list.TrimmedFrom (Text.beforePart parts i) part e

theorem trimmedFrom_trim {list : Piece} {before part : List Char}
    (h : before ++ part <+: list.text) :
    list.TrimmedFrom before part (trim ⟨list.start + before.length, part⟩) := by
  have hfront : ∀ c ∈ part.takeWhile Text.isBlank, Text.isBlank c = true :=
    fun c hc => List.all_eq_true.mp List.all_takeWhile c hc
  obtain ⟨back, hpart, hback, hnothing⟩ := Text.exists_trimmed_off part
  have hprefix : before ++ part.takeWhile Text.isBlank <+: list.text :=
    ((List.prefix_append_right_inj before).mpr (List.takeWhile_prefix _)).trans h
  have hstart : (trim ⟨list.start + before.length, part⟩).start =
      list.start + (before ++ part.takeWhile Text.isBlank).length := by
    rw [List.length_append, ← Nat.add_assoc]
    rfl
  refine ⟨rfl, _, back, hpart, ?_, hnothing, hstart, ?_⟩
  · intro c hc
    exact (List.mem_append.mp hc).elim (hfront c) (hback c)
  · rw [bytesBefore, hstart, Nat.add_sub_cancel_left,
      ← List.prefix_iff_eq_take.mp hprefix]

theorem elements_eq_of_commaParts {list : Piece} {parts : List (List Char)}
    (h : Text.commaParts {} list.text = parts) : list.CutInto parts list.elements := by
  have hjoin := Text.intercalate_commaParts {} list.text
  rw [h] at hjoin
  rw [elements, h]
  refine ⟨?_, ?_⟩
  · rw [List.length_map, ← List.length_map (f := Piece.text), map_text_consecutive]
  · intro i part e hpart he
    rw [List.getElem?_map, getElem?_consecutive ',', hpart] at he
    cases he
    apply trimmedFrom_trim
    rw [← hjoin]
    exact Text.beforePart_append_prefix hpart

/-- Every list is cut into parts that give it back when they are joined by commas, and closed
parts that are joined by commas are what their list is cut into. -/
theorem elements_undo_joining :
    (∀ list : Piece, list.elements ≠ [] ∧
      ∃ parts, [','].intercalate parts = list.text ∧ list.CutInto parts list.elements) ∧
    ∀ (start : Nat) (parts : List (List Char)), parts ≠ [] → (∀ part ∈ parts, Text.Closed part) →
      CutInto ⟨start, [','].intercalate parts⟩ parts
        (elements ⟨start, [','].intercalate parts⟩) := by
  constructor
  · intro list
    have hcut : list.CutInto (Text.commaParts {} list.text) list.elements :=
      elements_eq_of_commaParts rfl
    refine ⟨?_, _, Text.intercalate_commaParts {} list.text, hcut⟩
    intro hnil
    have hlength := hcut.1
    rw [hnil] at hlength
    exact Text.commaParts_ne_nil {} list.text (List.length_eq_zero_iff.mp hlength.symm)
  · intro start parts hne hclosed
    exact elements_eq_of_commaParts
      (Text.commaParts_intercalate hne fun part hpart => (hclosed part hpart).uncut)

/-- Stray closing brackets are ignored, blanks may be wide, and a part may be blank or empty. -/
theorem elements_undo_joining_wide :
    let parts := ["é".toList, " \"a\\\",\" ".toList, "\u3000".toList, "[1,(2)] ) ".toList, []]
    let list : Piece := ⟨3, "é, \"a\\\",\" ,\u3000,[1,(2)] ) ,".toList⟩
    (parts ≠ [] ∧ (∀ part ∈ parts, Text.Closed part) ∧ [','].intercalate parts = list.text) ∧
      list.CutInto parts list.elements ∧
      list.elements.map (fun e => (e.text, e.start, list.bytesBefore e)) =
        [("é".toList, 3, 0), ("\"a\\\",\"".toList, 6, 4), ([], 15, 15),
          ("[1,(2)] )".toList, 16, 16), ([], 27, 27)] := by
  intro parts list
  have hclosed : ∀ part ∈ parts, Text.Closed part := by
    simp only [parts, List.forall_mem_cons, List.not_mem_nil, false_implies, implies_true, and_true]
    exact ⟨⟨by decide, by decide, by decide⟩, ⟨by decide, by decide, by decide⟩,
      ⟨by decide, by decide, by decide⟩, ⟨by decide, by decide, by decide⟩,
      ⟨by decide, by decide, by decide⟩⟩
  have hjoin : [','].intercalate parts = list.text := by decide
  have hcut := elements_undo_joining.2 3 parts (by simp [parts]) hclosed
  rw [hjoin] at hcut
  exact ⟨⟨by simp [parts], hclosed, hjoin⟩, hcut, by decide⟩

end Piece

end ConfigAtlas
