import ConfigAtlas.Place
import ConfigAtlas.Text.Elements
import ConfigAtlas.Proofs.Lists

/-! # Parts of pieces: what a piece is cut down to keeps its position -/

namespace ConfigAtlas.Text

theorem length_commaParts_le (n : Nesting) (t : List Char) :
    (commaParts n t).length ≤ t.length + 1 := by
  induction t generalizing n with
  | nil => simp [commaParts]
  | cons c t ih =>
    rw [commaParts]
    split
    · exact Nat.succ_le_succ (ih {})
    · rw [List.length_modifyHead]
      exact Nat.le_trans (ih _) (Nat.le_succ _)

theorem isQuoted_eq {t : List Char} (h : isQuoted t = true) :
    ∃ quote middle, isQuote quote = true ∧ t = quote :: (middle ++ [quote]) := by
  cases t with
  | nil => cases h
  | cons quote rest =>
    rw [isQuoted, Bool.and_eq_true, beq_iff_eq] at h
    obtain ⟨middle, hmiddle⟩ := List.getLast?_eq_some_iff.mp h.2
    exact ⟨quote, middle, h.1, by rw [hmiddle]⟩

end ConfigAtlas.Text

namespace ConfigAtlas.Piece

theorem unquote_of_isQuoted {p : Piece} (h : Text.isQuoted p.text = true) :
    p.unquote = ⟨p.start + 1, p.text.tail.dropLast⟩ := by
  obtain ⟨quote, middle, -, htext⟩ := Text.isQuoted_eq h
  rw [Piece.unquote, if_pos h, Piece.take, Piece.drop_eq, Piece.length, htext]
  simp

theorem skipPast_of_isPrefixOf {mark u : List Char} (h : mark.isPrefixOf u = true) (hu : u ≠ [])
    (start : Nat) : skipPast mark start u = ⟨start + mark.length, u.drop mark.length⟩ := by
  cases u with
  | nil => exact absurd rfl hu
  | cons c u => rw [skipPast, if_pos h]

theorem skipPast_of_not_isPrefixOf {mark u : List Char} {c : Char}
    (h : mark.isPrefixOf (c :: u) = false) (start : Nat) :
    skipPast mark start (c :: u) = skipPast mark (start + 1) u := by
  rw [skipPast, if_neg (by simp [h])]

/-- The first piece is found in the second, at its own position. -/
def PartOf (p q : Piece) : Prop :=
  ∃ before after, q.text = before ++ (p.text ++ after) ∧ p.start = q.start + before.length

namespace PartOf

variable {p q r : Piece}

theorem refl (p : Piece) : p.PartOf p := ⟨[], [], by simp, rfl⟩

theorem trans (h : p.PartOf q) (h' : q.PartOf r) : p.PartOf r := by
  obtain ⟨before, after, htext, hstart⟩ := h
  obtain ⟨before', after', htext', hstart'⟩ := h'
  refine ⟨before' ++ before, after ++ after', ?_, ?_⟩
  · rw [htext', htext]
    simp
  · rw [hstart, hstart', List.length_append, Nat.add_assoc]

theorem start_le (h : p.PartOf q) : q.start ≤ p.start := by
  obtain ⟨before, after, -, hstart⟩ := h
  omega

theorem stop_le (h : p.PartOf q) : p.stop ≤ q.stop := by
  obtain ⟨before, after, htext, hstart⟩ := h
  simp only [stop, htext, hstart, List.length_append]
  omega

theorem length_le (h : p.PartOf q) : p.text.length ≤ q.text.length := by
  obtain ⟨before, after, htext, -⟩ := h
  rw [htext]
  simp only [List.length_append]
  omega

theorem drop (p : Piece) (n : Nat) : (p.drop n).PartOf p := by
  refine ⟨p.text.take n, [], ?_, ?_⟩
  · simp
  · rw [drop_eq, List.length_take]

theorem take (p : Piece) (n : Nat) : (p.take n).PartOf p :=
  ⟨[], p.text.drop n, by simp [Piece.take], rfl⟩

theorem takeWhile (p : Piece) (test : Char → Bool) : (p.takeWhile test).PartOf p :=
  ⟨[], p.text.dropWhile test, by simp [Piece.takeWhile], rfl⟩

theorem dropWhile (p : Piece) (test : Char → Bool) : (p.dropWhile test).PartOf p :=
  ⟨p.text.takeWhile test, [], by simp [Piece.dropWhile], rfl⟩

theorem trimStart (p : Piece) : p.trimStart.PartOf p := dropWhile p Text.isBlank

theorem of_prefix {t : List Char} (h : t <+: p.text) : PartOf ⟨p.start, t⟩ p := by
  obtain ⟨after, hafter⟩ := h
  exact ⟨[], after, hafter.symm, rfl⟩

theorem trimEnd (p : Piece) : p.trimEnd.PartOf p := of_prefix (Text.trimEnd_isPrefix p.text)

theorem trim (p : Piece) : p.trim.PartOf p := (trimEnd p.trimStart).trans (trimStart p)

theorem unquote (p : Piece) : p.unquote.PartOf p := by
  unfold Piece.unquote
  split
  · exact (take _ _).trans (drop p 1)
  · exact refl p

theorem between? {opening closing : List Char} {p inner : Piece}
    (h : p.between? opening closing = some inner) : inner.PartOf p := by
  unfold Piece.between? at h
  split at h
  · simp only [Option.ite_none_right_eq_some, Option.some.injEq] at h
    rw [← h.2]
    exact (take _ _).trans (drop p _)
  · cases h

theorem skipPast {mark : List Char} (start : Nat) (t : List Char) :
    (Piece.skipPast mark start t).PartOf ⟨start, t⟩ := by
  induction t generalizing start with
  | nil => exact refl _
  | cons c t ih =>
    rw [Piece.skipPast]
    split
    · rename_i hmark
      obtain ⟨after, hafter⟩ := List.isPrefixOf_iff_prefix.mp hmark
      refine ⟨mark, [], ?_, rfl⟩
      rw [← hafter, List.drop_left, List.append_nil]
    · exact (ih (start + 1)).trans (drop ⟨start, c :: t⟩ 1)

theorem past (p : Piece) (mark : List Char) : (p.past mark).PartOf p := skipPast p.start p.text

theorem consecutive {start : Nat} {c : Char} {ts : List (List Char)} {p : Piece}
    (h : p ∈ Piece.consecutive start ts) : p.PartOf ⟨start, [c].intercalate ts⟩ := by
  induction ts generalizing start with
  | nil => cases h
  | cons t rest ih =>
    cases rest with
    | nil =>
      rw [List.mem_singleton.mp h]
      simpa using refl ⟨start, t⟩
    | cons u rest =>
      rw [List.intercalate_cons_cons]
      rcases List.mem_cons.mp h with rfl | h
      · exact of_prefix (by simp)
      · refine (ih h).trans ⟨t ++ [c], [], by simp, ?_⟩
        simp [Nat.add_assoc]

theorem elements {p e : Piece} (h : e ∈ p.elements) : e.PartOf p := by
  obtain ⟨part, hpart, rfl⟩ := List.mem_map.mp h
  have hlist := consecutive (c := ',') hpart
  rw [Text.intercalate_commaParts] at hlist
  exact (trim part).trans hlist

end PartOf

/-! ## Parts of a whole text -/

/-- The piece is found in `t` at its own position. -/
def Within (p : Piece) (t : List Char) : Prop :=
  p.stop ≤ t.length ∧ p.text <+: t.drop p.start

theorem within_iff_partOf {p : Piece} {t : List Char} : p.Within t ↔ p.PartOf (whole t) := by
  constructor
  · rintro ⟨hstop, after, hafter⟩
    refine ⟨t.take p.start, after, ?_, ?_⟩
    · rw [hafter, List.take_append_drop, whole]
    · rw [stop] at hstop
      rw [List.length_take_of_le (by omega), whole, Nat.zero_add]
  · intro h
    have hstop := h.stop_le
    obtain ⟨before, after, htext, hstart⟩ := h
    have ht : t = before ++ (p.text ++ after) := htext
    have hbefore : p.start = before.length := by simpa [whole] using hstart
    refine ⟨by simpa [stop, whole] using hstop, after, ?_⟩
    rw [ht, hbefore, List.drop_left]

theorem PartOf.within {p : Piece} {t : List Char} (h : p.PartOf (whole t)) : p.Within t :=
  within_iff_partOf.mpr h

namespace Within

variable {p q : Piece} {t : List Char}

theorem part (h : q.Within t) (hp : p.PartOf q) : p.Within t :=
  (hp.trans (within_iff_partOf.mp h)).within

theorem start_le (h : p.Within t) : p.start ≤ t.length :=
  Nat.le_trans (Nat.le_add_right p.start p.text.length) h.1

theorem span_on (h : p.Within t) : p.span.On t := by
  simp only [Span.On, Piece.span, Span.width, String.length_ofList, String.toList_ofList]
  exact (List.prefix_iff_eq_take.mp h.2).symm

end Within

theorem within_drop {t : List Char} {n : Nat} (h : n ≤ t.length) :
    Within ⟨n, t.drop n⟩ t := by
  refine ⟨?_, List.prefix_refl _⟩
  simp only [stop, List.length_drop]
  omega

/-! ## What is left goes on to the same end -/

theorem stop_drop (p : Piece) (n : Nat) : (p.drop n).stop = p.stop := by
  simp only [drop_eq, stop, List.length_drop]
  omega

theorem dropWhile_eq_drop (p : Piece) (test : Char → Bool) :
    p.dropWhile test = p.drop (p.text.takeWhile test).length := by
  have hle : (p.text.takeWhile test).length ≤ p.text.length :=
    (List.takeWhile_sublist _).length_le
  simp [dropWhile, drop_eq, Lists.drop_length_takeWhile, Nat.min_eq_left hle]

theorem stop_dropWhile (p : Piece) (test : Char → Bool) : (p.dropWhile test).stop = p.stop := by
  rw [dropWhile_eq_drop, stop_drop]

theorem stop_past (p : Piece) (mark : List Char) : (p.past mark).stop = p.stop := by
  have hskip : ∀ start t, (skipPast mark start t).stop = start + t.length := by
    intro start t
    induction t generalizing start with
    | nil => rfl
    | cons c t ih =>
      rw [skipPast]
      split
      · rename_i hmark
        have hlength := (List.isPrefixOf_iff_prefix.mp hmark).length_le
        simp only [stop, List.length_drop]
        omega
      · rw [ih, List.length_cons]
        omega
  exact hskip p.start p.text

theorem PartOf.text_eq_drop {p : Piece} {t : List Char} (h : p.PartOf (whole t))
    (hstop : p.stop = t.length) : p.text = t.drop p.start := by
  obtain ⟨before, after, htext, hstart⟩ := h
  have ht : t = before ++ (p.text ++ after) := htext
  have hbefore : p.start = before.length := by simpa [whole] using hstart
  have hafter : after = [] := by
    apply List.eq_nil_of_length_eq_zero
    rw [stop, ht, hbefore] at hstop
    simp only [List.length_append] at hstop
    omega
  rw [ht, hbefore, List.drop_left, hafter, List.append_nil]

theorem length_elements_le (p : Piece) : p.elements.length ≤ p.text.length + 1 := by
  have hparts := congrArg List.length (map_text_consecutive p.start (Text.commaParts {} p.text))
  rw [List.length_map] at hparts
  rw [elements, List.length_map, hparts]
  exact Text.length_commaParts_le {} p.text

theorem stop_takeWhile_le (p : Piece) (test : Char → Bool) :
    (p.takeWhile test).stop ≤ (p.drop (p.takeWhile test).length).start := by
  have hle : (p.text.takeWhile test).length ≤ p.text.length :=
    (List.takeWhile_sublist test).length_le
  simp only [drop_eq, stop, takeWhile, length]
  omega

theorem stop_take (p : Piece) (n : Nat) : (p.take n).stop = (p.drop n).start := by
  rw [drop_eq, stop, take, List.length_take]

theorem start_lt_drop_one {p : Piece} (h : p.text ≠ []) : p.start < (p.drop 1).start := by
  have := List.length_pos_iff.mpr h
  rw [drop_eq]
  simp only
  omega

theorem stop_take_lt {p : Piece} {n : Nat} (h : n < p.text.length) :
    (p.take n).stop < (p.drop (n + 1)).start := by
  simp only [drop_eq, stop, take, List.length_take]
  omega

theorem stop_take_le (p : Piece) (n : Nat) : (p.take n).stop ≤ (p.drop (n + 1)).start := by
  simp only [drop_eq, stop, take, List.length_take]
  omega

end ConfigAtlas.Piece
