import Mathlib
import ConfigAtlas.Proofs.Survey.Texts
import ConfigAtlas.Proofs.Text.Commas
import ConfigAtlas.Proofs.Text.Trimmed

/-!
# Indices past the end of a list value

An entry answers for each index that its value has no element for. Brackets with nothing but
blanks between them are the exception: for index 0 they answer with an empty text.
-/

namespace ConfigAtlas

/-! ## How many elements a text has -/

namespace Text

/-- What stands in the brackets of a text that starts with one and ends with one. -/
def inBrackets? : List Char → Option (List Char)
  | '[' :: rest => if rest.getLast? = some ']' then some rest.dropLast else none
  | _ => none

/-- The elements of a list value. Without brackets it needs a comma to be one. -/
def listLength (t : List Char) : Nat :=
  match inBrackets? t with
  | some inner => if inner.all isBlank then 0 else cutCount inner + 1
  | none => if t.contains ',' then cutCount t + 1 else 0

/-- Brackets, with nothing but blanks in them. -/
def IsBlankBrackets (t : List Char) : Prop := ∃ inner ∈ inBrackets? t, inner.all isBlank = true

instance (t : List Char) : Decidable (IsBlankBrackets t) :=
  inferInstanceAs (Decidable (∃ inner ∈ inBrackets? t, inner.all isBlank = true))

theorem inBrackets?_eq_some {t inner : List Char} (h : inBrackets? t = some inner) :
    t = '[' :: (inner ++ [']']) := by
  unfold inBrackets? at h
  split at h
  · rename_i rest
    split at h
    · rename_i hlast
      cases h
      rw [List.dropLast_append_getLast? ']' hlast]
    · cases h
  · cases h

theorem cutCount_eq_zero {t : List Char} (h : ',' ∉ t) : cutCount t = 0 := by
  rw [cutCount, List.countP_eq_zero]
  intro i _ hcuts
  rw [cutsAt, Bool.and_eq_true, beq_iff_eq] at hcuts
  exact h (List.mem_of_getElem? hcuts.1)

end Text

namespace Piece

theorem between?_brackets (p : Piece) :
    p.between? ['['] [']'] = (Text.inBrackets? p.text).map (⟨p.start + 1, ·⟩) := by
  obtain ⟨start, text⟩ := p
  cases text with
  | nil => rfl
  | cons c rest =>
    by_cases hc : c = '['
    · subst hc
      have hdrop : drop ⟨start, '[' :: rest⟩ ['['].length = ⟨start + 1, rest⟩ :=
        drop_length_append start ['['] rest
      have hclose : [']'].isSuffixOf rest = true ↔ rest.getLast? = some ']' := by
        rw [List.isSuffixOf_iff_suffix, List.singleton_suffix_iff_getLast?_eq_some]
      simp only [between?, startsWith, List.isPrefixOf, beq_self_eq_true, Bool.and_self, if_true,
        hdrop, hclose, Text.inBrackets?]
      split
      · simp [take, length, List.dropLast_eq_take]
      · rfl
    · have hopen : startsWith ⟨start, c :: rest⟩ ['['] = false := by
        simp [startsWith, List.isPrefixOf, Ne.symm hc]
      have hnone : Text.inBrackets? (c :: rest) = none := by
        simp [Text.inBrackets?, hc]
      simp only [between?, hopen, hnone, Bool.false_eq_true, if_false, Option.map_none]

theorem length_elements (p : Piece) : p.elements.length = Text.cutCount p.text + 1 := by
  have hsound : Text.Nesting.Sound {} := fun _ => rfl
  have hparts := congrArg List.length (map_text_consecutive p.start (Text.commaParts {} p.text))
  rw [List.length_map] at hparts
  rw [elements, List.length_map, hparts, Text.length_commaParts hsound, Text.cutCount]

theorem elements_of_blank {p : Piece} (h : p.text.all Text.isBlank = true) :
    p.elements = [⟨p.stop, []⟩] := by
  have hblank : ∀ c ∈ p.text, Text.isBlank c = true := List.all_eq_true.mp h
  have hcomma : ',' ∉ p.text := fun hmem => absurd (hblank ',' hmem) (by decide)
  have hsound : Text.Nesting.Sound {} := fun _ => rfl
  have hlength : (Text.commaParts {} p.text).length = 1 := by
    rw [Text.length_commaParts hsound, ← Text.cutCount, Text.cutCount_eq_zero hcomma]
  obtain ⟨part, hpart⟩ := List.length_eq_one_iff.mp hlength
  have htext : part = p.text := by
    have hjoined := Text.intercalate_commaParts {} p.text
    rwa [hpart, List.intercalate_singleton] at hjoined
  have hnil : ∀ c ∈ ([] : List Char), Text.isBlank c = true := by simp
  have htrim := trim_between hblank (rfl : Text.trim [] = []) hnil p.start
  rw [elements, hpart, htext]
  simpa [consecutive, stop] using htrim

end Piece

/-! ## What answers for an index past the end -/

namespace Place

/-- How many elements the value has. -/
def listLength (place : Place) : Nat :=
  match place.value? with
  | none => 0
  | some value => Text.listLength value.text.toList

def HasBlankBrackets (place : Place) : Prop :=
  ∃ value ∈ place.value?, Text.IsBlankBrackets value.text.toList

instance (place : Place) : Decidable place.HasBlankBrackets :=
  inferInstanceAs (Decidable (∃ value ∈ place.value?, Text.IsBlankBrackets value.text.toList))

/-- The place with an empty value, just before the last character of its value. -/
def atClosing (place : Place) : Place :=
  { place with value? := place.value?.map fun value => ⟨"", value.stop - 1⟩ }

end Place

namespace Flat

theorem inlineList?_eq (value : Piece) :
    inlineList? value =
      match Text.inBrackets? value.text with
      | some inner => some ⟨value.start + 1, inner⟩
      | none => if value.text.contains ',' then some value else none := by
  rw [inlineList?, Piece.between?_brackets]
  cases Text.inBrackets? value.text <;> rfl

theorem elements_past_end {value : Piece} {i : Nat} (h : Text.listLength value.text ≤ i) :
    ((inlineList? value).bind fun list => list.elements[i]?) =
      if Text.IsBlankBrackets value.text ∧ i = 0 then some ⟨value.stop - 1, []⟩ else none := by
  have hpast : ∀ list : Piece, Text.cutCount list.text + 1 ≤ i → list.elements[i]? = none := by
    intro list hlist
    rwa [List.getElem?_eq_none_iff, Piece.length_elements]
  unfold Text.listLength at h
  rw [inlineList?_eq]
  cases hinner : Text.inBrackets? value.text with
  | none =>
    have hnot : ¬ Text.IsBlankBrackets value.text := by simp [Text.IsBlankBrackets, hinner]
    have hand : ¬ (Text.IsBlankBrackets value.text ∧ i = 0) := fun h => hnot h.1
    simp only [hinner, if_neg hand] at h ⊢
    split at h
    · rename_i hcomma
      rw [if_pos hcomma, Option.bind_some, hpast value h]
    · rename_i hcomma
      rw [if_neg hcomma, Option.bind_none]
  | some inner =>
    have hblank : Text.IsBlankBrackets value.text ↔ inner.all Text.isBlank = true := by
      simp [Text.IsBlankBrackets, hinner]
    simp only [hinner, Option.bind_some, hblank] at h ⊢
    split at h
    · rename_i hall
      have hstop : value.start + 1 + inner.length = value.stop - 1 := by
        rw [Piece.stop, Text.inBrackets?_eq_some hinner]
        simp
        omega
      -- Blank brackets are cut into one empty element, right at the closing bracket.
      rw [Piece.elements_of_blank (p := ⟨value.start + 1, inner⟩) hall, Piece.stop, hstop]
      cases i <;> simp [hall]
    · rename_i hsolid
      rw [if_neg fun hand => hsolid hand.1]
      exact hpast ⟨value.start + 1, inner⟩ h

theorem listElement?_past_end {place : Place} {i : Nat} (h : place.listLength ≤ i) :
    listElement? i place =
      if place.HasBlankBrackets ∧ i = 0 then some place.atClosing else none := by
  obtain ⟨line, raw, key?, value?⟩ := place
  cases value? with
  | none => simp [listElement?, Place.HasBlankBrackets]
  | some value =>
    let piece : Piece := ⟨value.column, value.text.toList⟩
    have hpiece : Text.listLength piece.text ≤ i := h
    have helements := elements_past_end hpiece
    have hstop : piece.stop = value.stop := by
      rw [Piece.stop, Span.stop, Span.width, String.length_toList]
    have hlist : listElement? i ⟨line, raw, key?, some value⟩ =
        ((inlineList? piece).bind fun list => list.elements[i]?).map
          fun e => ⟨line, raw, key?, some e.span⟩ := by
      simp only [listElement?]
      cases inlineList? piece <;> rfl
    rw [hlist, helements, hstop]
    simp only [Place.HasBlankBrackets, Place.atClosing, Option.mem_some_iff, exists_eq_left',
      Option.map_some]
    split <;> rfl

theorem resolve?_element {atlas : Atlas} {p : Path} {i : Nat} {place : Place}
    (hroot : p.isRoot = false) (hp : atlas.get? p = some place)
    (hnew : atlas.contains (p.element i) = false) :
    resolve? atlas (p.element i) = listElement? i place := by
  obtain ⟨n, hn⟩ := Nat.exists_eq_succ_of_ne_zero (Path.length_pos_iff.mpr hroot).ne'
  have hlength : (p.element i).length = n + 2 := by
    rw [← Nat.succ_eq_add_one, ← Nat.succ_eq_add_one, ← hn]
    simp [Path.length, Path.element]
  have hself : atlas.get? ((p.element i).subPath (n + 2)) = none := by
    have hsteps : ((p.element i).subPath (n + 2)).filed = (p.element i).filed := by
      rw [← hlength, Path.filed, Path.segments_subPath_length, Path.filed]
    rw [Atlas.get?_congr atlas hsteps]
    rwa [Atlas.contains, Option.isSome_eq_false_iff, Option.isNone_iff_eq_none] at hnew
  have hparent : atlas.get? ((p.element i).subPath (n + 1)) = some place := by
    have hfront : p.segments <+: (p.element i).segments := List.prefix_append _ _
    have hsteps : (p.subPath (n + 1)).filed = p.filed := by
      rw [← Nat.succ_eq_add_one, ← hn, Path.filed, Path.segments_subPath_length, Path.filed]
    rw [Path.subPath_of_prefix hfront hn.ge, Atlas.get?_congr atlas hsteps, hp]
  have hlast : (p.element i).segments[n + 1]? = some (.index i) := by
    have hsegments : n + 1 = p.segments.length := hn.symm
    rw [hsegments, Path.element, Path.segments_push, List.getElem?_concat_length]
  rw [resolve?, hlength, resolveSteps, hself, hlast]
  simp only
  rw [resolveSteps, hparent]
  rfl

/-- An index that no element stands for is answered with the list itself, unless it is on
record. -/
theorem find?_past_end {content : String} {p : Path} {place : Place} {i : Nat}
    (hp : (Survey.build .flat content).atlas.get? p = some place)
    (hi : place.listLength ≤ i)
    (hnew : (Survey.build .flat content).atlas.contains (p.element i) = false) :
    (Survey.build .flat content).find? (p.element i) =
      some (if place.HasBlankBrackets ∧ i = 0 then place.atClosing else place) := by
  let survey := Survey.build .flat content
  have hroot : p.isRoot = false := by
    rw [Survey.atlas_build, Atlas.ofFindings] at hp
    rw [← Bool.not_eq_true]
    intro hroot
    rw [Atlas.get?_of_isRoot _ hroot] at hp
    cases hp
  have hanswer : survey.resolve? (p.element i) =
      if place.HasBlankBrackets ∧ i = 0 then some place.atClosing else none :=
    (resolve?_element hroot hp hnew).trans (listElement?_past_end hi)
  by_cases hblank : place.HasBlankBrackets ∧ i = 0
  · rw [if_pos hblank] at hanswer ⊢
    rw [Survey.find?, hanswer]
  · rw [if_neg hblank] at hanswer ⊢
    have hfront : p.segments <+: (p.element i).segments := List.prefix_append _ _
    have hbelow : ∀ n, p.length < n → n ≤ (p.element i).length →
        survey.resolve? ((p.element i).subPath n) = none := by
      intro n hlonger hn
      have hlength : (p.element i).length = p.length + 1 := by simp [Path.length, Path.element]
      -- There is only the path itself between the list and the path.
      obtain rfl : n = (p.element i).length := by omega
      rw [Survey.resolve?_congr survey (Path.segments_subPath_length _), hanswer]
    rw [Survey.find?_extend .flat content hfront hbelow, Survey.find?,
      Survey.resolve?_of_get? hroot hp]

theorem find?_past_trailing_comma :
    let survey := Survey.build .flat "[t]\na = [\"x, y\", z,]"
    let p : Path := .ofSegments [.field "t", .field "a"]
    let place : Place := ⟨2, "a = [\"x, y\", z,]", some ⟨"a", 0⟩, some ⟨"[\"x, y\", z,]", 4⟩⟩
    survey.atlas.get? p = some place ∧ place.listLength = 3 ∧
      survey.atlas.contains (p.element 3) = false ∧
      survey.find? (p.element 3) = some place := by
  intro survey p place
  have hget : survey.atlas.get? p = some place := by cbv
  have hlength : place.listLength = 3 := by decide
  have hnew : survey.atlas.contains (p.element 3) = false := by cbv
  have hfind : survey.find? (p.element 3) = some place := by
    rw [find?_past_end hget hlength.le hnew, if_neg (by decide)]
  exact ⟨hget, hlength, hnew, hfind⟩

/-- Brackets with nothing in them have no element, and yet they answer for index 0 with one. -/
theorem empty_list_answers_for_element :
    ¬ ∀ (content : String) (p : Path) (place : Place) (i : Nat),
      (Survey.build .flat content).atlas.get? p = some place → place.listLength ≤ i →
      (Survey.build .flat content).atlas.contains (p.element i) = false →
      (Survey.build .flat content).find? (p.element i) = some place := by
  intro h
  let place : Place := ⟨1, "k = []", some ⟨"k", 0⟩, some ⟨"[]", 4⟩⟩
  have hget : (Survey.build .flat "k = []").atlas.get? (Path.root.field "k") = some place := by cbv
  have hnew : (Survey.build .flat "k = []").atlas.contains ((Path.root.field "k").element 0) =
      false := by cbv
  have hanswer : (Survey.build .flat "k = []").find? ((Path.root.field "k").element 0) =
      some ⟨1, "k = []", some ⟨"k", 0⟩, some ⟨"", 5⟩⟩ := by cbv
  have hplace := h "k = []" (Path.root.field "k") place 0 hget (by decide) hnew
  rw [hanswer] at hplace
  exact absurd hplace (by decide)

end Flat

end ConfigAtlas
