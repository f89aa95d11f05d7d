import Mathlib.Data.List.Find
import ConfigAtlas.Proofs.Markup.TagParts
import ConfigAtlas.Proofs.Markup.TagReading
import ConfigAtlas.Proofs.Markup.Tags
import ConfigAtlas.Proofs.Text.Fronts

/-!
# Where the scan of a source stops

The scan stops at a `<`, reads what begins there, and goes on behind it. What is read up to
another `<` does not depend on what follows that one.
-/

namespace ConfigAtlas.Markup

open Piece (PartOf)

/-! ## Stops -/

/-- Each `<` at which the scan stops, with all that follows. -/
def stops (p : Piece) : List Piece :=
  let front := p.dropWhile (· != '<')
  if h : front.text = [] then []
  else
    have : (Tag.read front).2.length < p.length :=
      Nat.lt_of_lt_of_le (Tag.length_read_lt h) (p.length_dropWhile_le _)
    front :: stops (Tag.read front).2
termination_by p.length

theorem stops_of_nil {p : Piece} (h : (p.dropWhile (· != '<')).text = []) : stops p = [] := by
  rw [stops, dif_pos h]

theorem stops_of_ne_nil {p : Piece} (h : (p.dropWhile (· != '<')).text ≠ []) :
    stops p = p.dropWhile (· != '<') :: stops (Tag.read (p.dropWhile (· != '<'))).2 := by
  rw [stops, dif_neg h]

theorem tags_eq_filterMap_stops (p : Piece) :
    tags p = (stops p).filterMap fun q => (Tag.read q).1 := by
  induction p using stops.induct with
  | case1 p front hempty => rw [tags_of_nil hempty, stops_of_nil hempty, List.filterMap_nil]
  | case2 p front hempty hlt ih =>
    rw [tags_of_ne_nil hempty, stops_of_ne_nil hempty, List.filterMap_cons, ih]
    cases (Tag.read (p.dropWhile (· != '<'))).1 <;> rfl

theorem stops_gap {t : List Char} (h : '<' ∉ t) (start : Nat) (rest : List Char) :
    stops ⟨start, t ++ rest⟩ = stops ⟨start + t.length, rest⟩ := by
  rw [stops.eq_def ⟨start, t ++ rest⟩, stops.eq_def ⟨start + t.length, rest⟩]
  simp only [dropWhile_gap h]

theorem stops_cons (start : Nat) (rest : List Char) :
    stops ⟨start, '<' :: rest⟩ =
      ⟨start, '<' :: rest⟩ :: stops (Tag.read ⟨start, '<' :: rest⟩).2 :=
  stops_of_ne_nil (List.cons_ne_nil _ _)

theorem partOf_of_mem_stops {p q : Piece} (h : q ∈ stops p) : q.PartOf p := by
  induction p using stops.induct with
  | case1 p front hempty =>
    rw [stops_of_nil hempty] at h
    cases h
  | case2 p front hempty hlt ih =>
    have hfront : front.PartOf p := PartOf.dropWhile p _
    rw [stops_of_ne_nil hempty] at h
    rcases List.mem_cons.mp h with rfl | h
    · exact hfront
    · exact (ih h).trans ((Tag.read_part front).trans hfront)

theorem stops_split {p q : Piece} (h : q ∈ stops p) :
    ∃ earlier, stops p = earlier ++ q :: stops (Tag.read q).2 ∧
      ∀ r ∈ earlier, (Tag.read r).2.start ≤ q.start := by
  induction p using stops.induct with
  | case1 p front hempty =>
    rw [stops_of_nil hempty] at h
    cases h
  | case2 p front hempty hlt ih =>
    rw [stops_of_ne_nil hempty] at h ⊢
    rcases List.mem_cons.mp h with rfl | h
    · exact ⟨[], rfl, by simp⟩
    · obtain ⟨earlier, hsplit, hearlier⟩ := ih h
      refine ⟨front :: earlier, by rw [hsplit]; rfl, List.forall_mem_cons.mpr ⟨?_, hearlier⟩⟩
      exact (partOf_of_mem_stops h).start_le

theorem start_of_read_closing {q : Piece} {name : List Char} {start : Nat}
    (h : (Tag.read q).1 = some (.closing name start)) : start = q.start := by
  unfold Tag.read at h
  split at h
  · cases h
  · split at h
    · cases h
      rfl
    · split at h <;> cases h

theorem start_le_of_closing_mem_tags {p : Piece} {name : List Char} {start : Nat}
    (h : .closing name start ∈ tags p) : p.start ≤ start := by
  rw [tags_eq_filterMap_stops] at h
  obtain ⟨q, hq, hread⟩ := List.mem_filterMap.mp h
  rw [start_of_read_closing hread]
  exact (partOf_of_mem_stops hq).start_le

/-! ## Reading in a front -/

/-- If a named tag begins with `q`, it ends before this position. -/
def EndsBefore (position : Nat) (q : Piece) : Prop :=
  hiddenEnd? q = none → ((q.drop 1).takeWhile isTagNameChar).text ≠ [] →
    ∃ tag, OpenTag.read? q = some tag ∧ tag.after.start ≤ position

def Tag.followedBy (rest : Piece) : Tag → Tag
  | .opening tag => .opening { tag with after := rest }
  | .closing name start => .closing name start

theorem tagStop?_append {quote? : Option Char} {s x : List Char} {n : Nat}
    (h : tagStop? quote? (s ++ x) = some n) (hn : n < s.length) (y : List Char) :
    tagStop? quote? (s ++ y) = some n := by
  induction s generalizing quote? n with
  | nil => exact absurd hn (Nat.not_lt_zero n)
  | cons c s ih =>
    cases quote? with
    | none =>
      simp only [List.cons_append, tagStop?] at h ⊢
      split at h
      · rename_i hc
        rw [if_pos hc, h]
      · rename_i hc
        obtain ⟨m, hm, rfl⟩ := Option.map_eq_some_iff.mp h
        rw [if_neg hc, ih hm (Nat.lt_of_succ_lt_succ hn), Option.map_some]
    | some quote =>
      simp only [List.cons_append, tagStop?] at h ⊢
      obtain ⟨m, hm, rfl⟩ := Option.map_eq_some_iff.mp h
      rw [ih hm (Nat.lt_of_succ_lt_succ hn), Option.map_some]

section

variable (start : Nat) (s x y : List Char)

theorem startsWith_append {mark : List Char} (h : '<' ∉ mark) :
    Piece.startsWith ⟨start, '<' :: (s ++ '<' :: y)⟩ ('<' :: mark) =
      Piece.startsWith ⟨start, '<' :: (s ++ '<' :: x)⟩ ('<' :: mark) := by
  simp [Piece.startsWith, List.isPrefixOf, Lists.isPrefixOf_append_cons h]

theorem hiddenEnd?_append :
    hiddenEnd? ⟨start, '<' :: (s ++ '<' :: y)⟩ = hiddenEnd? ⟨start, '<' :: (s ++ '<' :: x)⟩ := by
  have hmarks : ∀ mark ∈ hiddenMarks, ∃ rest, mark.1 = '<' :: rest ∧ '<' ∉ rest := by
    simp [hiddenMarks]
  rw [hiddenEnd?, hiddenEnd?, List.find?_congr]
  intro mark hmark
  obtain ⟨rest, hrest, hsign⟩ := hmarks mark hmark
  rw [hrest, startsWith_append start s x y hsign]

end

variable {start : Nat} {s x : List Char}

theorem past_append {mark : List Char} (hmark : mark ≠ [])
    (h : (Piece.past ⟨start, '<' :: (s ++ '<' :: x)⟩ mark).start ≤ start + 1 + s.length) :
    ∃ used rest, s = used ++ rest ∧ mark <:+ '<' :: used ∧ ∀ y,
      Piece.past ⟨start, '<' :: (s ++ '<' :: y)⟩ mark =
        ⟨start + 1 + used.length, rest ++ '<' :: y⟩ := by
  have hlength : start + 1 + s.length = start + ('<' :: s).length := by
    rw [List.length_cons]
    omega
  obtain ⟨before, rest, hs, hskip⟩ :=
    Piece.skipPast_append (s := '<' :: s) hmark (List.cons_ne_nil '<' x) (hlength ▸ h)
  obtain ⟨sign, used, hused⟩ := List.exists_cons_of_ne_nil
    (List.append_ne_nil_of_right_ne_nil before hmark)
  rw [← List.append_assoc, hused, List.cons_append, List.cons.injEq] at hs
  obtain ⟨rfl, rfl⟩ := hs
  refine ⟨used, rest, rfl, ⟨before, hused⟩, fun y => ?_⟩
  have hy := hskip ('<' :: y)
  rw [hused, List.length_cons, ← Nat.add_assoc, Nat.add_right_comm] at hy
  exact hy

theorem OpenTag.ofBody_append (name : Piece) {body : List Char} {n : Nat} (hn : n < body.length)
    (z : List Char) : ofBody name ⟨start, body ++ z⟩ n =
      { ofBody name ⟨start, body⟩ n with after := ⟨start + (n + 1), body.drop (n + 1) ++ z⟩ } := by
  have htake : Piece.take ⟨start, body ++ z⟩ n = Piece.take ⟨start, body⟩ n := by
    rw [Piece.take, Piece.take, List.take_append_of_le_length (Nat.le_of_lt hn)]
  have hdrop : Piece.drop ⟨start, body ++ z⟩ (n + 1) =
      ⟨start + (n + 1), body.drop (n + 1) ++ z⟩ := by
    have hlength : n + 1 ≤ (body ++ z).length := by
      rw [List.length_append]
      omega
    rw [Piece.drop_eq, Nat.min_eq_left hlength, List.drop_append_of_le_length hn]
  rw [ofBody, htake, hdrop, ofBody]

theorem OpenTag.read?_append {tag : OpenTag}
    (h : read? ⟨start, '<' :: (s ++ '<' :: x)⟩ = some tag)
    (hstop : tag.after.start ≤ start + 1 + s.length) :
    ∃ used rest, s = used ++ rest ∧ ∀ y, read? ⟨start, '<' :: (s ++ '<' :: y)⟩ =
      some { tag with after := ⟨start + 1 + used.length, rest ++ '<' :: y⟩ } := by
  have hfront : ∀ y, Piece.drop ⟨start, '<' :: (s ++ '<' :: y)⟩ 1 = ⟨start + 1, s ++ '<' :: y⟩ :=
    fun y => rfl
  rw [read?_eq, Option.ite_none_left_eq_some, hfront] at h
  obtain ⟨hname, h⟩ := h
  obtain ⟨n, hn, rfl⟩ := Option.map_eq_some_iff.mp h
  have hlt := tagStop?_lt hn
  have hafter : start + 1 + ((s ++ '<' :: x).takeWhile isTagNameChar).length + (n + 1) ≤
      start + 1 + s.length := by
    rw [ofBody, Piece.drop_eq, Nat.min_eq_left hlt] at hstop
    exact hstop
  -- The name ends in the front, and so does what follows it up to the end of the tag.
  have hshort : ((s ++ '<' :: x).takeWhile isTagNameChar).length < s.length := by omega
  have hsplit := Lists.takeWhile_append_of_lt hshort
  have hlengths := congrArg List.length
    (List.takeWhile_append_dropWhile (p := isTagNameChar) (l := s))
  rw [List.length_append] at hlengths
  simp only [Piece.takeWhile, Piece.dropWhile, (hsplit _).1, (hsplit _).2] at hn hname hafter ⊢
  have hbody : n < (s.dropWhile isTagNameChar).length := by omega
  refine ⟨s.takeWhile isTagNameChar ++ (s.dropWhile isTagNameChar).take (n + 1),
    (s.dropWhile isTagNameChar).drop (n + 1), ?_, fun y => ?_⟩
  · rw [List.append_assoc, List.take_append_drop, List.takeWhile_append_dropWhile]
  · rw [read?_eq, hfront]
    simp only [Piece.takeWhile, Piece.dropWhile, (hsplit _).1, (hsplit _).2]
    rw [if_neg hname, tagStop?_append hn hbody, Option.map_some, ofBody_append _ hbody,
      ofBody_append _ hbody, List.length_append, List.length_take, Nat.min_eq_left hbody,
      ← Nat.add_assoc (start + 1)]

theorem OpenTag.read?_append_of_no_name (h : (s ++ '<' :: x).takeWhile isTagNameChar = [])
    (y : List Char) : read? ⟨start, '<' :: (s ++ '<' :: y)⟩ = none := by
  have hname : (s ++ '<' :: y).takeWhile isTagNameChar = [] := by
    cases s with
    | nil => cases h
    | cons c s =>
      cases hc : isTagNameChar c with
      | true =>
        rw [List.cons_append, List.takeWhile_cons_of_pos hc] at h
        cases h
      | false => rw [List.cons_append, List.takeWhile_cons_of_neg (by simp [hc])]
  have hempty : ((Piece.drop ⟨start, '<' :: (s ++ '<' :: y)⟩ 1).takeWhile
      isTagNameChar).isEmpty = true := List.isEmpty_iff.mpr hname
  rw [read?_eq, if_pos hempty]

theorem closingName_append
    (hclosing : Piece.startsWith ⟨start, '<' :: (s ++ '<' :: x)⟩ ['<', '/'] = true)
    {used rest : List Char} (hs : s = used ++ rest) (hend : ['>'] <:+ '<' :: used)
    (y : List Char) :
    ((Piece.drop ⟨start, '<' :: (s ++ '<' :: y)⟩ 2).takeWhile isTagNameChar).text =
      ((Piece.drop ⟨start, '<' :: (s ++ '<' :: x)⟩ 2).takeWhile isTagNameChar).text := by
  have hslash : ['/'] <+: s ++ '<' :: x := by
    rw [Piece.startsWith, List.isPrefixOf_iff_prefix] at hclosing
    exact (List.cons_prefix_cons.mp hclosing).2
  obtain ⟨before, hbefore⟩ := hend
  cases before with
  | nil => cases hbefore
  | cons sign before =>
    rw [List.cons_append, List.cons.injEq] at hbefore
    subst hs
    rw [← hbefore.2] at hslash ⊢
    cases before with
    | nil =>
      rw [List.nil_append, List.append_assoc, List.singleton_append] at hslash
      exact absurd (List.cons_prefix_cons.mp hslash).1 (by decide)
    | cons slash name =>
      have htake : ∀ z, ((Piece.drop ⟨start, '<' :: (slash :: name ++ ['>'] ++ rest ++ z)⟩
          2).takeWhile isTagNameChar).text = name.takeWhile isTagNameChar := by
        intro z
        have hdrop : (Piece.drop ⟨start, '<' :: (slash :: name ++ ['>'] ++ rest ++ z)⟩ 2).text =
            name ++ '>' :: (rest ++ z) := by
          simp
        rw [Piece.takeWhile, hdrop]
        exact (Lists.takeWhile_append_cons (by decide) name (rest ++ z)).1
      rw [htake, htake]

/-- A reading that ends in front of the other `<` is the same whatever follows that. -/
theorem Tag.read_append
    (hends : EndsBefore (start + 1 + s.length) ⟨start, '<' :: (s ++ '<' :: x)⟩)
    (hnext : (Tag.read ⟨start, '<' :: (s ++ '<' :: x)⟩).2.start ≤ start + 1 + s.length) :
    ∃ used rest, s = used ++ rest ∧ ∀ y, Tag.read ⟨start, '<' :: (s ++ '<' :: y)⟩ =
      ((Tag.read ⟨start, '<' :: (s ++ '<' :: x)⟩).1.map
        (Tag.followedBy ⟨start + 1 + used.length, rest ++ '<' :: y⟩),
        ⟨start + 1 + used.length, rest ++ '<' :: y⟩) := by
  have hhidden := hiddenEnd?_append start s x
  have hsign : '<' ∉ ['/'] := by decide
  have hclosing := fun y => startsWith_append start s x y hsign
  unfold Tag.read at hnext ⊢
  cases hmark : hiddenEnd? ⟨start, '<' :: (s ++ '<' :: x)⟩ with
  | some mark =>
    simp only [hmark] at hnext ⊢
    obtain ⟨used, rest, hs, -, hpast⟩ := past_append (hiddenEnd?_ne_nil hmark) hnext
    refine ⟨used, rest, hs, fun y => ?_⟩
    simp only [hhidden y, hmark, hpast y, Option.map_none]
  | none =>
    simp only [hmark] at hnext ⊢
    simp only [hhidden, hmark, hclosing]
    cases hslash : Piece.startsWith ⟨start, '<' :: (s ++ '<' :: x)⟩ ['<', '/'] with
    | true =>
      simp only [hslash, if_true] at hnext ⊢
      obtain ⟨used, rest, hs, hend, hpast⟩ := past_append (by simp) hnext
      refine ⟨used, rest, hs, fun y => ?_⟩
      rw [hpast y, closingName_append hslash hs hend y]
      rfl
    | false =>
      simp only [hslash, Bool.false_eq_true, if_false] at hnext ⊢
      cases htag : OpenTag.read? ⟨start, '<' :: (s ++ '<' :: x)⟩ with
      | some tag =>
        simp only [htag] at hnext ⊢
        obtain ⟨used, rest, hs, hread⟩ := OpenTag.read?_append htag hnext
        refine ⟨used, rest, hs, fun y => ?_⟩
        simp only [hread y]
        rfl
      | none =>
        -- With a name, a tag would end before the other `<`; none is read, so there is no name.
        have hname : (s ++ '<' :: x).takeWhile isTagNameChar = [] := by
          by_contra hname
          obtain ⟨tag, hread, -⟩ := hends hmark hname
          rw [htag] at hread
          cases hread
        refine ⟨[], s, rfl, fun y => ?_⟩
        simp only [OpenTag.read?_append_of_no_name hname y, Option.map_none]
        rfl

end ConfigAtlas.Markup
