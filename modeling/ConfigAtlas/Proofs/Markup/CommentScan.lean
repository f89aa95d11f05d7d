import ConfigAtlas.Proofs.Markup.Relocated
import ConfigAtlas.Proofs.Markup.Stops

/-!
# The scan around a comment

When a comment gets another body of the same length, the tags in front of it and behind it stay as
they are and where they are, as long as all tags in front of it end there.
-/

namespace ConfigAtlas.Markup

open Piece (PartOf)

/-- Looked for from the opening on, the first end is the one behind the body. -/
structure Comment where
  body : List Char
  first : ¬ ['-', '-', '>'] <:+: ['<', '!', '-', '-'] ++ (body ++ ['-', '-'])

namespace Comment

def text (k : Comment) : List Char := ['<', '!', '-', '-'] ++ (k.body ++ ['-', '-', '>'])

/-- A content in which the comment stands. -/
def between (front after : List Char) (k : Comment) : List Char := front ++ (k.text ++ after)

/-- What stands between the signs at both ends. -/
def inner (k : Comment) : List Char := ['!', '-', '-'] ++ (k.body ++ ['-', '-'])

theorem text_append (k : Comment) (after : List Char) :
    k.text ++ after = '<' :: (k.inner ++ '>' :: after) := by
  simp [text, inner]

theorem length_text (k : Comment) : k.text.length = k.body.length + 7 := by
  simp [text]

theorem past_text (k : Comment) (start : Nat) (after : List Char) :
    Piece.past ⟨start, k.text ++ after⟩ ['-', '-', '>'] = ⟨start + k.text.length, after⟩ := by
  have hfirst : ¬ ['-', '-', '>'] <:+:
      (['<', '!', '-', '-'] ++ k.body) ++ ['-', '-', '>'].dropLast := by
    rw [List.append_assoc]
    exact k.first
  have hskip := Piece.skipPast_first (by simp) hfirst start after
  simpa [Piece.past, text] using hskip

theorem read_text (k : Comment) (start : Nat) (after : List Char) :
    Tag.read ⟨start, k.text ++ after⟩ = (none, ⟨start + k.text.length, after⟩) := by
  have hhidden : hiddenEnd? ⟨start, k.text ++ after⟩ = some ['-', '-', '>'] := rfl
  unfold Tag.read
  simp only [hhidden, past_text]

theorem tags_text (k : Comment) (start : Nat) (after : List Char) :
    tags ⟨start, k.text ++ after⟩ = tags ⟨start + k.text.length, after⟩ := by
  have hread := k.read_text start after
  rw [k.text_append] at hread ⊢
  rw [tags_cons, hread]
  rfl

end Comment

/-! ## Tags in another content -/

/-- Words stay in their places, and what follows a tag is what stands in `t` from there on. -/
def onto (t : List Char) : Relocation where
  position := id
  after q := ⟨q.start, t.drop q.start⟩
  text q := ⟨q.start, (t.drop q.start).take q.text.length⟩

theorem after_onto (t : List Char) (q : Piece) :
    (onto t).after q = ⟨q.start, t.drop q.start⟩ := rfl

theorem text_onto (t : List Char) (q : Piece) :
    (onto t).text q = ⟨q.start, (t.drop q.start).take q.text.length⟩ := rfl

theorem relocate_onto (t : List Char) (tag : OpenTag) :
    tag.relocate (onto t) = { tag with after := (onto t).after tag.after } := by
  have hattribute : Attribute.relocate (onto t) = id := rfl
  rw [OpenTag.relocate, hattribute, List.map_id]
  rfl

theorem relocate_onto_eq_self {t : List Char} {p : Piece} (hp : p.PartOf (.whole t))
    (hstop : p.stop = t.length) {tag : Tag} (h : tag ∈ tags p) : tag.relocate (onto t) = tag := by
  cases tag with
  | closing name start => rfl
  | opening tag =>
    obtain ⟨q, hq, hqstop, hread⟩ := exists_read?_of_mem_tags h
    have hafter : tag.after.PartOf (.whole t) :=
      (partsOf_of_read? hread).after_part.trans (hq.trans hp)
    have hend : tag.after.stop = t.length := (OpenTag.stop_after hread).trans (hqstop.trans hstop)
    have hsame : (onto t).after tag.after = tag.after := by
      rw [after_onto, ← hafter.text_eq_drop hend]
    rw [Tag.relocate, relocate_onto, hsame]

theorem followedBy_eq_relocate {q : Piece} {t rest : List Char} {start : Nat}
    (hstart : (Tag.read q).2.start = start) (hrest : t.drop start = rest) :
    (Tag.read q).1.map (Tag.followedBy ⟨start, rest⟩) =
      (Tag.read q).1.map (Tag.relocate (onto t)) := by
  cases htag : (Tag.read q).1 with
  | none => rfl
  | some tag =>
    cases tag with
    | closing name start => rfl
    | opening tag =>
      have hafter : (onto t).after tag.after = ⟨start, rest⟩ := by
        rw [after_onto, ← read_eq_after htag, hstart, hrest]
      rw [Option.map_some, Option.map_some, Tag.relocate, relocate_onto, hafter]
      rfl

/-! ## The scan up to a stop -/

section

variable {start : Nat} {gap s : List Char} (hgap : '<' ∉ gap) (x : List Char)
include hgap

theorem stops_front : stops ⟨start, gap ++ '<' :: s ++ x⟩ =
    ⟨start + gap.length, '<' :: (s ++ x)⟩ ::
      stops (Tag.read ⟨start + gap.length, '<' :: (s ++ x)⟩).2 := by
  rw [List.append_assoc, stops_gap hgap, List.cons_append, stops_cons]

theorem tags_front : tags ⟨start, gap ++ '<' :: s ++ x⟩ =
    (Tag.read ⟨start + gap.length, '<' :: (s ++ x)⟩).1.toList ++
      tags (Tag.read ⟨start + gap.length, '<' :: (s ++ x)⟩).2 := by
  rw [List.append_assoc, tags_gap hgap, List.cons_append, tags_cons]

end

/-- When the same tags are read from a stop on, the same are read from before it. By induction on
what stands before the stop, which gets shorter with each stop on the way. -/
theorem tags_onto {t x y : List Char} {stop : Nat}
    (hbehind : tags ⟨stop, '<' :: y⟩ = (tags ⟨stop, '<' :: x⟩).map (Tag.relocate (onto t)))
    {start : Nat} {s : List Char} (hs : start + s.length = stop)
    (ht : t.drop start = s ++ '<' :: y)
    (hstop : ⟨stop, '<' :: x⟩ ∈ stops ⟨start, s ++ '<' :: x⟩)
    (hends : ∀ q ∈ stops ⟨start, s ++ '<' :: x⟩, q.start < stop → EndsBefore stop q) :
    tags ⟨start, s ++ '<' :: y⟩ =
      (tags ⟨start, s ++ '<' :: x⟩).map (Tag.relocate (onto t)) := by
  induction hn : s.length using Nat.strong_induction_on generalizing start s with
  | _ n ih =>
    by_cases hsign : '<' ∈ s
    · obtain ⟨gap, s, rfl, hgap⟩ := List.eq_append_cons_of_mem hsign
      have hfront : start + gap.length + 1 + s.length = stop := by
        rw [← hs]
        simp only [List.length_append, List.length_cons]
        omega
      rw [stops_front hgap, List.mem_cons] at hstop
      rw [stops_front hgap, List.forall_mem_cons] at hends
      obtain ⟨hfirst, hlater⟩ := hends
      have hstop := hstop.resolve_left fun heq => by
        have hstart : stop = start + gap.length := congrArg Piece.start heq
        omega
      have hnext := (partOf_of_mem_stops hstop).start_le
      subst hfront
      -- What is read at the first `<` ends before the stop, whatever stands behind the stop.
      obtain ⟨used, rest, rfl, hread⟩ := Tag.read_append (hfirst (by simp only; omega)) hnext
      have hfound : (Tag.read ⟨start + gap.length, '<' :: (used ++ rest ++ '<' :: x)⟩).2 =
          ⟨start + gap.length + 1 + used.length, rest ++ '<' :: x⟩ :=
        congrArg Prod.snd (hread x)
      have hdrop : t.drop (start + gap.length + 1 + used.length) = rest ++ '<' :: y := by
        have hlength : start + gap.length + 1 + used.length =
            start + (gap ++ '<' :: used).length := by
          simp only [List.length_append, List.length_cons]
          omega
        have hsplit : gap ++ '<' :: (used ++ rest) ++ '<' :: y =
            (gap ++ '<' :: used) ++ (rest ++ '<' :: y) := by simp
        rw [hlength, ← List.drop_drop, ht, hsplit, List.drop_left]
      have hshort : rest.length < n := by
        rw [← hn]
        simp only [List.length_append, List.length_cons]
        omega
      rw [hfound] at hstop hlater
      -- Behind what is read there, the stop is still in front.
      have hrest := ih rest.length hshort (by rw [List.length_append]; omega) hdrop hstop hlater rfl
      rw [tags_front hgap, tags_front hgap, hread,
        followedBy_eq_relocate (congrArg Piece.start hfound) hdrop, hrest, hfound,
        List.map_append, Option.toList_map]
    · rw [tags_gap hsign, tags_gap hsign, hs, hbehind]

/-! ## Before the comment and behind it -/

section

variable {front after : List Char} {k k' : Comment}

/-- Not within the comment. -/
def Comment.Clear (front : List Char) (k : Comment) (position : Nat) : Prop :=
  position ≤ front.length ∨ front.length + k.text.length ≤ position

/-- The tag ends before the comment or begins behind it, and all that follows it is kept. -/
structure Comment.Apart (front after : List Char) (k : Comment) (tag : OpenTag) : Prop where
  parts : tag.PartsOf (.whole (k.between front after))
  after_text : tag.after.text = (k.between front after).drop tag.after.start
  apart : tag.after.start ≤ front.length ∨ front.length + k.text.length ≤ tag.name.start

theorem behind_part (k : Comment) :
    Piece.PartOf ⟨front.length + k.text.length, after⟩ (.whole (k.between front after)) := by
  refine ⟨front ++ k.text, [], ?_, ?_⟩ <;> simp [Piece.whole, Comment.between]

theorem stop_behind (k : Comment) :
    Piece.stop ⟨front.length + k.text.length, after⟩ = (k.between front after).length := by
  simp [Piece.stop, Comment.between, Nat.add_assoc]

section

variable (hcomment : ⟨front.length, k.text ++ after⟩ ∈ stops (.whole (k.between front after)))
include hcomment

theorem mem_tags_between {tag : Tag} (h : tag ∈ tags (.whole (k.between front after))) :
    (∃ q, (Tag.read q).1 = some tag ∧ (Tag.read q).2.start ≤ front.length) ∨
      tag ∈ tags ⟨front.length + k.text.length, after⟩ := by
  have hread := k.read_text front.length after
  obtain ⟨earlier, hsplit, hearlier⟩ := stops_split hcomment
  rw [tags_eq_filterMap_stops, hsplit, List.filterMap_append, List.mem_append,
    List.filterMap_cons] at h
  simp only [hread] at h
  rw [← tags_eq_filterMap_stops] at h
  refine h.imp_left fun hmem => ?_
  obtain ⟨q, hq, hread⟩ := List.mem_filterMap.mp hmem
  exact ⟨q, hread, hearlier q hq⟩

theorem apart_of_mem_tags {tag : OpenTag}
    (h : .opening tag ∈ tags (.whole (k.between front after))) : k.Apart front after tag := by
  obtain ⟨q, hq, hqstop, hread⟩ := exists_read?_of_mem_tags h
  have hafter := (partsOf_of_read? hread).after_part.trans hq
  refine ⟨partsOf_of_mem_tags h, hafter.text_eq_drop ?_, ?_⟩
  · rw [OpenTag.stop_after hread, hqstop]
    simp [Piece.stop, Piece.whole]
  · rcases mem_tags_between hcomment h with ⟨r, hread, hnext⟩ | hbehind
    · rw [read_eq_after hread] at hnext
      exact .inl hnext
    · exact .inr (partsOf_of_mem_tags hbehind).name_part.start_le

theorem clear_of_mem_tags {name : List Char} {start : Nat}
    (h : .closing name start ∈ tags (.whole (k.between front after))) :
    k.Clear front start := by
  rcases mem_tags_between hcomment h with ⟨r, hread, hnext⟩ | hbehind
  · rw [start_of_read_closing hread]
    exact .inl (Nat.le_trans (Tag.read_part r).start_le hnext)
  · exact .inr (start_le_of_closing_mem_tags hbehind)

end

end

end ConfigAtlas.Markup
