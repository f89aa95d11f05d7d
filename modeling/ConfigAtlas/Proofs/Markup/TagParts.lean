import ConfigAtlas.Markup.Element
import ConfigAtlas.Proofs.Text.Part

/-!
# The pieces of a tag

Names and values stand in the source where they are said to stand, one behind the other. None of
them ends in a carriage return, so none of them is cut short with its line.
-/

namespace ConfigAtlas

namespace Text

/-- No carriage return at the end, so nothing that goes with a line feed. -/
def EndsSolid (t : List Char) : Prop := t.getLast? ≠ some '\r'

theorem endsSolid_of_not_isBlank {t : List Char}
    (h : ∀ c ∈ t.getLast?, isBlank c = false) : EndsSolid t := by
  intro hreturn
  exact absurd (h '\r' hreturn) (by decide)

theorem endsSolid_takeWhile {test : Char → Bool} (t : List Char)
    (h : ∀ c, test c = true → isBlank c = false) : EndsSolid (t.takeWhile test) := by
  apply endsSolid_of_not_isBlank
  intro c hc
  have hall := List.all_takeWhile (p := test) (l := t)
  exact h c (List.all_eq_true.mp hall c (List.mem_of_getLast? hc))

theorem endsSolid_trim (t : List Char) : EndsSolid (trim t) := by
  apply endsSolid_of_not_isBlank
  intro c hc
  have hhead := List.head?_dropWhile_not isBlank (trimStart t).reverse
  rw [trim, trimEnd, List.getLast?_reverse, Option.mem_def] at hc
  rw [hc] at hhead
  simpa using hhead

theorem getLast?_take_untilClosed {quote : Char} {escaped : Bool} {t : List Char} {n : Nat}
    (h : untilClosed quote escaped t = some n) : (t.take n).getLast? = some quote := by
  induction t generalizing escaped n with
  | nil => simp [untilClosed] at h
  | cons c t ih =>
    have later : ∀ m escaped', untilClosed quote escaped' t = some m →
        ((c :: t).take (m + 1)).getLast? = some quote := by
      intro m escaped' hm
      have hlast := ih hm
      rw [List.take_succ_cons, List.getLast?_cons, hlast]
      rfl
    cases escaped with
    | true =>
      obtain ⟨m, hm, rfl⟩ := Option.map_eq_some_iff.mp h
      exact later m false hm
    | false =>
      rw [untilClosed] at h
      split at h
      · rename_i hquote
        cases h
        simp [hquote]
      · obtain ⟨m, hm, rfl⟩ := Option.map_eq_some_iff.mp h
        exact later m _ hm

theorem endsSolid_quotedRun {t : List Char} {n : Nat} (h : quotedRun? t = some n) :
    EndsSolid (t.take n) := by
  cases t with
  | nil => simp [quotedRun?] at h
  | cons c t =>
    rw [quotedRun?] at h
    split at h
    · rename_i hquote
      obtain ⟨m, hm, rfl⟩ := Option.map_eq_some_iff.mp h
      have hlast := getLast?_take_untilClosed hm
      rw [EndsSolid, List.take_succ_cons, List.getLast?_cons, hlast]
      intro hreturn
      have hc : c = '\r' := Option.some.inj hreturn
      rw [hc] at hquote
      exact absurd hquote (by decide)
    · cases h

end Text

namespace Markup

open Piece (PartOf)

/-! ## Attributes -/

namespace Attribute

/-- The attribute is cut out of the piece, its name in front of its value. -/
structure PartsOf (a : Attribute) (p : Piece) : Prop where
  name_part : a.name.PartOf p
  value_part : a.value.PartOf p
  ordered : a.name.stop ≤ a.value.start
  name_solid : Text.EndsSolid a.name.text
  value_solid : Text.EndsSolid a.value.text

theorem PartsOf.trans {a : Attribute} {p q : Piece} (h : a.PartsOf p) (hpq : p.PartOf q) :
    a.PartsOf q :=
  ⟨h.name_part.trans hpq, h.value_part.trans hpq, h.ordered, h.name_solid, h.value_solid⟩

theorem valueAt_part (p : Piece) : (valueAt p).PartOf p := by
  unfold valueAt
  split
  · exact PartOf.take p _
  · exact PartOf.takeWhile p _

theorem valueAt_solid (p : Piece) : Text.EndsSolid (valueAt p).text := by
  unfold valueAt
  split
  · rename_i n hrun
    exact Text.endsSolid_quotedRun hrun
  · exact Text.endsSolid_takeWhile p.text fun c hc => by simpa using hc

theorem read_part (p : Piece) : (read p).2.PartOf p := by
  unfold read
  simp only
  split
  · exact (PartOf.drop _ _).trans ((PartOf.trimStart _).trans
      ((PartOf.drop _ _).trans ((PartOf.trimStart _).trans (PartOf.drop _ _))))
  · exact PartOf.drop _ _

theorem partsOf_of_read {p : Piece} {a : Attribute} (h : (read p).1 = some a) : a.PartsOf p := by
  unfold read at h
  simp only at h
  split at h
  · split at h
    · cases h
    · cases h
      have hrest := (PartOf.trimStart (p.drop (p.takeWhile isNameChar).length))
      have hfront := (PartOf.trimStart
        ((p.drop (p.takeWhile isNameChar).length).trimStart.drop 1)).trans (PartOf.drop _ 1)
      have hvalue := (valueAt_part _).trans hfront
      refine ⟨PartOf.takeWhile p _, hvalue.trans (hrest.trans (PartOf.drop p _)), ?_, ?_, ?_⟩
      · exact Nat.le_trans (Piece.stop_takeWhile_le p isNameChar)
          (Nat.le_trans hrest.start_le hvalue.start_le)
      · exact Text.endsSolid_takeWhile p.text fun c hc => by
          simp only [isNameChar, Bool.and_eq_true, Bool.not_eq_true'] at hc
          exact hc.1
      · exact valueAt_solid _
  · cases h

theorem partsOf_of_mem_readAll {p : Piece} {a : Attribute} (h : a ∈ readAll p) : a.PartsOf p := by
  fun_induction readAll p with
  | case1 p front hempty => cases h
  | case2 p front hempty hlt ih =>
    have hfront : front.PartOf p := PartOf.trimStart p
    rcases List.mem_append.mp h with h | h
    · exact (partsOf_of_read (Option.mem_toList.mp h)).trans hfront
    · exact (ih h).trans ((read_part front).trans hfront)

end Attribute

/-! ## Tags -/

/-- The tag is cut out of the piece, its attributes between its name and its end. -/
structure OpenTag.PartsOf (tag : OpenTag) (p : Piece) : Prop where
  name_part : tag.name.PartOf p
  after_part : tag.after.PartOf p
  name_solid : Text.EndsSolid tag.name.text
  name_before : tag.name.stop ≤ tag.after.start
  attributes : ∀ a ∈ tag.attributes,
    a.PartsOf p ∧ tag.name.stop ≤ a.name.start ∧ a.value.stop ≤ tag.after.start

theorem OpenTag.PartsOf.trans {tag : OpenTag} {p q : Piece} (h : tag.PartsOf p)
    (hpq : p.PartOf q) : tag.PartsOf q where
  name_part := h.name_part.trans hpq
  after_part := h.after_part.trans hpq
  name_solid := h.name_solid
  name_before := h.name_before
  attributes := by
    intro a ha
    obtain ⟨hparts, horder⟩ := h.attributes a ha
    exact ⟨hparts.trans hpq, horder⟩

theorem withoutSlashes_part (p : Piece) : (withoutSlashes p).PartOf p := by
  apply PartOf.of_prefix
  have hsuffix := List.dropWhile_suffix (· == '/') (l := p.text.reverse)
  simpa using List.reverse_prefix.mpr hsuffix

theorem partsOf_of_read? {p : Piece} {tag : OpenTag} (h : OpenTag.read? p = some tag) :
    tag.PartsOf p := by
  unfold OpenTag.read? at h
  simp only at h
  split at h
  · cases h
  · split at h
    · cases h
    · rename_i n hn
      cases h
      have hfront := PartOf.drop p 1
      have hname := PartOf.takeWhile (p.drop 1) isTagNameChar
      have hbody := PartOf.drop (p.drop 1) ((p.drop 1).takeWhile isTagNameChar).length
      have horder := Piece.stop_takeWhile_le (p.drop 1) isTagNameChar
      -- The inside of the tag ends before the sign that ends the tag.
      have hinside := (withoutSlashes_part
        (((p.drop 1).drop ((p.drop 1).takeWhile isTagNameChar).length).take n)).trans
          (PartOf.take _ n)
      have hstop := (withoutSlashes_part
        (((p.drop 1).drop ((p.drop 1).takeWhile isTagNameChar).length).take n)).stop_le
      have hafter := PartOf.drop
        ((p.drop 1).drop ((p.drop 1).takeWhile isTagNameChar).length) (n + 1)
      have hend := Piece.stop_take_le
        ((p.drop 1).drop ((p.drop 1).takeWhile isTagNameChar).length) n
      refine ⟨hname.trans hfront, hafter.trans (hbody.trans hfront), ?_, ?_, ?_⟩
      · exact Text.endsSolid_takeWhile (p.drop 1).text fun c hc => by
          simp only [isTagNameChar, Bool.and_eq_true, Bool.not_eq_true'] at hc
          exact hc.1.1
      · exact Nat.le_trans horder hafter.start_le
      · intro a ha
        have hparts := Attribute.partsOf_of_mem_readAll ha
        refine ⟨hparts.trans (hinside.trans (hbody.trans hfront)), ?_, ?_⟩
        · exact Nat.le_trans horder (Nat.le_trans hinside.start_le hparts.name_part.start_le)
        · exact Nat.le_trans hparts.value_part.stop_le (Nat.le_trans hstop hend)

theorem Tag.read_part (p : Piece) : (Tag.read p).2.PartOf p := by
  unfold Tag.read
  split
  · exact PartOf.past p _
  · split
    · exact PartOf.past p _
    · split
      · rename_i tag htag
        exact (partsOf_of_read? htag).after_part
      · exact PartOf.drop p 1

theorem OpenTag.stop_after {p : Piece} {tag : OpenTag} (h : OpenTag.read? p = some tag) :
    tag.after.stop = p.stop := by
  unfold OpenTag.read? at h
  simp only at h
  split at h
  · cases h
  · split at h
    · cases h
    · cases h
      rw [Piece.stop_drop, Piece.stop_drop, Piece.stop_drop]

theorem Tag.stop_read (p : Piece) : (Tag.read p).2.stop = p.stop := by
  unfold Tag.read
  split
  · exact p.stop_past _
  · split
    · exact p.stop_past _
    · split
      · rename_i tag htag
        exact OpenTag.stop_after htag
      · exact p.stop_drop 1

def Tag.opening? : Tag → Option OpenTag
  | .opening tag => some tag
  | .closing _ _ => none

theorem read?_of_read_opening {p : Piece} {tag : OpenTag}
    (h : (Tag.read p).1 = some (.opening tag)) : OpenTag.read? p = some tag := by
  unfold Tag.read at h
  split at h
  · cases h
  · split at h
    · cases h
    · split at h
      · rename_i found hfound
        cases h
        exact hfound
      · cases h

theorem read_eq_after {p : Piece} {tag : OpenTag} (h : (Tag.read p).1 = some (.opening tag)) :
    (Tag.read p).2 = tag.after := by
  unfold Tag.read at h ⊢
  split at h
  · cases h
  · split at h
    · cases h
    · rename_i hslash
      rw [if_neg hslash]
      split at h
      · cases h
        rfl
      · cases h

theorem exists_read?_of_mem_tags {p : Piece} {tag : OpenTag} (h : .opening tag ∈ tags p) :
    ∃ q : Piece, q.PartOf p ∧ q.stop = p.stop ∧ OpenTag.read? q = some tag := by
  fun_induction tags p with
  | case1 p front hempty => cases h
  | case2 p front hempty hlt ih =>
    have hfront : front.PartOf p := PartOf.dropWhile p _
    have hstop : front.stop = p.stop := p.stop_dropWhile _
    rcases List.mem_append.mp h with h | h
    · exact ⟨front, hfront, hstop, read?_of_read_opening (Option.mem_toList.mp h)⟩
    · obtain ⟨q, hq, hqstop, hread⟩ := ih h
      exact ⟨q, hq.trans ((Tag.read_part front).trans hfront),
        hqstop.trans ((Tag.stop_read front).trans hstop), hread⟩

theorem partsOf_of_mem_tags {p : Piece} {tag : OpenTag} (h : .opening tag ∈ tags p) :
    tag.PartsOf p := by
  obtain ⟨q, hq, -, hread⟩ := exists_read?_of_mem_tags h
  exact (partsOf_of_read? hread).trans hq

theorem name_ne_nil_of_mem_tags {p : Piece} {tag : OpenTag} (h : .opening tag ∈ tags p) :
    tag.name.text ≠ [] := by
  obtain ⟨q, -, -, hread⟩ := exists_read?_of_mem_tags h
  unfold OpenTag.read? at hread
  simp only at hread
  split at hread
  · cases hread
  · rename_i hname
    split at hread
    · cases hread
    · cases hread
      rwa [Piece.isEmpty, Bool.not_eq_true, List.isEmpty_eq_false_iff] at hname

end Markup

end ConfigAtlas
