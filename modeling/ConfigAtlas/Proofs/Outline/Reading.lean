import ConfigAtlas.Outline.Context
import ConfigAtlas.Proofs.Outline.Block

/-! # What is read where a word, a literal, a pair or a marker stands -/

namespace ConfigAtlas.Outline

theorem ne_of_isWordChar {c d : Char} (hc : isWordChar c = true) (hd : isWordChar d = false) :
    c ≠ d := by
  rintro rfl
  rw [hc] at hd
  cases hd

theorem isBlank_of_isAlphanum {c : Char} (h : c.isAlphanum = true) : Text.isBlank c = false := by
  change ((decide (65 ≤ c.toNat ∧ c.toNat ≤ 90) ||
    (decide (97 ≤ c.toNat) && decide (c.toNat ≤ 122))) ||
      (decide (48 ≤ c.toNat) && decide (c.toNat ≤ 57))) = true at h
  simp only [Bool.or_eq_true, Bool.and_eq_true, decide_eq_true_eq] at h
  rw [Text.isBlank, List.any_eq_false]
  intro range hrange
  rw [Bool.and_eq_true, decide_eq_true_eq, decide_eq_true_eq]
  have hends : ∀ r ∈ Text.blankRanges, r.2 ≤ 32 ∨ 128 ≤ r.1 ∧ 128 ≤ r.2 := by decide
  have := hends range hrange
  omega

theorem isBlank_of_isWordChar {c : Char} (h : isWordChar c = true) : Text.isBlank c = false := by
  rw [isWordChar, Bool.or_eq_true, Bool.and_eq_true, Bool.not_eq_true'] at h
  rcases h with halnum | ⟨-, hblank⟩
  · exact isBlank_of_isAlphanum halnum
  · exact hblank

theorem isQuote_of_isWordChar {c : Char} (h : isWordChar c = true) : Text.isQuote c = false := by
  rw [Text.isQuote, Bool.or_eq_false_iff, beq_eq_false_iff_ne, beq_eq_false_iff_ne]
  exact ⟨ne_of_isWordChar h (by decide), ne_of_isWordChar h (by decide)⟩

theorem isBlank_of_mem_spaces {n : Nat} : ∀ c ∈ spaces n, Text.isBlank c = true := by
  intro c hc
  rw [List.eq_of_mem_replicate hc]
  decide

/-! ## Words -/

namespace Word

theorem text_eq_cons (w : Word) : ∃ c rest, w.text = c :: rest ∧ isWordChar c = true := by
  cases hw : w.text with
  | nil => exact absurd hw w.ne_nil
  | cons c rest => exact ⟨c, rest, rfl, w.chars c (by simp [hw])⟩

theorem not_mem (w : Word) {d : Char} (hd : isWordChar d = false) : d ∉ w.text := by
  intro hmem
  exact ne_of_isWordChar (w.chars d hmem) hd rfl

theorem trimStart_append (w : Word) (rest : List Char) :
    Text.trimStart (w.text ++ rest) = w.text ++ rest := by
  obtain ⟨c, tail, hw, hc⟩ := w.text_eq_cons
  rw [hw, List.cons_append, Text.trimStart_cons (isBlank_of_isWordChar hc)]

theorem trimEnd_text (w : Word) : Text.trimEnd w.text = w.text := by
  have hlast : w.text.dropLast ++ [w.text.getLast w.ne_nil] = w.text :=
    List.dropLast_concat_getLast w.ne_nil
  have hsolid : Text.isBlank (w.text.getLast w.ne_nil) = false :=
    isBlank_of_isWordChar (w.chars _ (List.getLast_mem w.ne_nil))
  have htrim := Text.trimEnd_concat hsolid w.text.dropLast
  rwa [hlast] at htrim

theorem quotedRun?_append (w : Word) (rest : List Char) :
    Text.quotedRun? (w.text ++ rest) = none := by
  obtain ⟨c, tail, hw, hc⟩ := w.text_eq_cons
  rw [hw, List.cons_append, Text.quotedRun?, isQuote_of_isWordChar hc]
  rfl

theorem unquote_text (w : Word) : Text.unquote w.text = w.text := by
  obtain ⟨c, tail, hw, hc⟩ := w.text_eq_cons
  rw [hw, Text.unquote, Text.isQuoted, isQuote_of_isWordChar hc]
  rfl

end Word

theorem beforeComment_eq_self (afterGap : Bool) {t : List Char} (h : '#' ∉ t) :
    beforeComment afterGap t = t := by
  induction t generalizing afterGap with
  | nil => rfl
  | cons c rest ih =>
    rw [List.mem_cons, not_or] at h
    have hc : (c == '#') = false := beq_eq_false_iff_ne.mpr (Ne.symm h.1)
    rw [beforeComment, hc, Bool.false_and, ih _ h.2]
    rfl

/-! ## Scalars -/

namespace Scalar

theorem written_eq_cons (v : Scalar) :
    ∃ c rest, v.written = c :: rest ∧ Text.isBlank c = false ∧
      c ∉ ['#', '-', '[', '|', '>'] := by
  cases v with
  | word w =>
    obtain ⟨c, rest, hw, hc⟩ := w.text_eq_cons
    refine ⟨c, rest, hw, isBlank_of_isWordChar hc, ?_⟩
    intro hmem
    have hsigns : ['#', '-', '[', '|', '>'].all (!isWordChar ·) = true := by decide
    have hsign := List.all_eq_true.mp hsigns c hmem
    rw [hc] at hsign
    cases hsign
  | literal text feed_not_mem => exact ⟨'"', _, rfl, by decide, by decide⟩

theorem trimStart_written (v : Scalar) : Text.trimStart v.written = v.written := by
  obtain ⟨c, rest, hv, hc, -⟩ := v.written_eq_cons
  rw [hv, Text.trimStart_cons hc]

theorem scalarAt_written (v : Scalar) (start : Nat) :
    scalarAt ⟨start, v.written⟩ = ⟨start, v.written⟩ := by
  cases v with
  | word w =>
    have hrun := w.quotedRun?_append []
    rw [List.append_nil] at hrun
    have hcomment := beforeComment_eq_self true (w.not_mem (d := '#') (by decide))
    rw [scalarAt, written, hrun]
    simp only [hcomment, Piece.trimEnd, w.trimEnd_text]
  | literal text feed_not_mem =>
    have hrun := Text.quotedRun?_literal text []
    rw [List.append_nil] at hrun
    rw [scalarAt, written, hrun]
    simp [Piece.take]

end Scalar

theorem isBlockHeader_cons {c : Char} (h : c ∉ ['|', '>']) (rest : List Char) :
    isBlockHeader (c :: rest) = false := by
  simp only [List.mem_cons, List.not_mem_nil, or_false, not_or] at h
  simp [isBlockHeader, h]

theorem inlineItems_cons {c : Char} (h : c ≠ '[') (line : Line) (path : Path) (start : Nat)
    (rest : List Char) : inlineItems line path ⟨start, c :: rest⟩ = [] := by
  have hbracket : Piece.startsWith ⟨start, c :: rest⟩ ['['] = false := by
    simp [Piece.startsWith, List.isPrefixOf, Ne.symm h]
  simp only [inlineItems, Piece.between?, hbracket, Bool.false_eq_true, if_false]

/-! ## Statements -/

/-- What ends a key or a marker: the end of the line, or a space and more. -/
def Ends (after : List Char) : Prop := after.head?.all isGap = true

theorem ends_nil : Ends [] := rfl

theorem ends_space (t : List Char) : Ends (' ' :: t) := rfl

theorem colon?_append {t : List Char} (h : ':' ∉ t) (rest : List Char) :
    Pair.colon? (t ++ rest) = (Pair.colon? rest).map (· + t.length) := by
  induction t with
  | nil => simp
  | cons c t ih =>
    rw [List.mem_cons, not_or] at h
    have hc : (c == ':') = false := beq_eq_false_iff_ne.mpr (Ne.symm h.1)
    rw [List.cons_append, Pair.colon?, hc, Bool.false_and, ih h.2]
    simp [Function.comp_def, Nat.add_assoc]

theorem colon?_word (w : Word) {after : List Char} (h : Ends after) :
    Pair.colon? (w.text ++ ':' :: after) = some w.text.length := by
  have hafter : after.head?.all isGap = true := h
  rw [colon?_append (w.not_mem (by decide)), Pair.colon?, hafter]
  simp

theorem isKeyBarrier_of_isWordChar {c : Char} (hc : isWordChar c = true) :
    Pair.isKeyBarrier c = false := by
  rw [Pair.isKeyBarrier, ← Bool.not_eq_true, List.contains_iff_mem]
  intro hmem
  have hsigns : ['{', '[', '?', '|', '>', '&', '!', '%', '@', '\x60'].all
      (!isWordChar ·) = true := by decide
  have hsign := List.all_eq_true.mp hsigns c hmem
  rw [hc] at hsign
  cases hsign

theorem head?_isKeyBarrier_word (w : Word) : w.text.head?.all Pair.isKeyBarrier = false := by
  obtain ⟨c, rest, hw, hc⟩ := w.text_eq_cons
  rw [hw, List.head?_cons, Option.all_some, isKeyBarrier_of_isWordChar hc]

theorem pair_read?_key {key after : List Char}
    (hcolon : (Text.quotedRun? (key ++ ':' :: after)).or (Pair.colon? (key ++ ':' :: after)) =
      some key.length)
    (htrim : Text.trimEnd key = key) (hbarrier : key.head?.all Pair.isKeyBarrier = false)
    (start : Nat) (h : Ends after) :
    Pair.read? ⟨start, key ++ ':' :: after⟩ =
      (let value := scalarAt (Piece.trimStart ⟨start + key.length + 1, after⟩)
      some ⟨⟨start, key⟩, if value.isEmpty then none else some value⟩) := by
  have hkey : Piece.trimEnd (Piece.take ⟨start, key ++ ':' :: after⟩ key.length) =
      ⟨start, key⟩ := by
    rw [Piece.take_length_append, Piece.trimEnd, htrim]
  have hrest : Piece.trimStart (Piece.drop ⟨start, key ++ ':' :: after⟩ key.length) =
      ⟨start + key.length, ':' :: after⟩ := by
    rw [Piece.drop_length_append, Piece.trimStart_cons (by decide)]
  have hdrop : Piece.drop ⟨start + key.length, ':' :: after⟩ 1 =
      ⟨start + key.length + 1, after⟩ := Piece.drop_length_append _ [':'] after
  have hafter : after.head?.all isGap = true := h
  simp only [Pair.read?, hcolon, hkey, hrest, hdrop, hbarrier, hafter, Bool.false_eq_true,
    if_false, if_true]

theorem pair_read?_word (w : Word) (start : Nat) {after : List Char} (h : Ends after) :
    Pair.read? ⟨start, w.text ++ ':' :: after⟩ =
      (let value := scalarAt (Piece.trimStart ⟨start + w.text.length + 1, after⟩)
      some ⟨⟨start, w.text⟩, if value.isEmpty then none else some value⟩) := by
  apply pair_read?_key _ w.trimEnd_text (head?_isKeyBarrier_word w) start h
  rw [w.quotedRun?_append, Option.none_or, colon?_word w h]

theorem isMarker_eq_false {c : Char} (h : c ≠ '-') (rest : List Char) :
    Statement.isMarker (c :: rest) = false := by
  unfold Statement.isMarker
  split
  · rename_i heq
    exact absurd (List.cons.inj heq).1 h
  · rfl

theorem read_cons {c : Char} (hblank : Text.isBlank c = false) (hhash : c ≠ '#') (hhyphen : c ≠ '-')
    (start : Nat) (rest : List Char) :
    Statement.read ⟨start, c :: rest⟩ =
      match Pair.read? ⟨start, c :: rest⟩ with
      | some found => .pair found
      | none => .scalar (scalarAt ⟨start, c :: rest⟩) := by
  have hcomment : (c == '#') = false := beq_eq_false_iff_ne.mpr hhash
  have hmarker := isMarker_eq_false hhyphen rest
  cases hpair : Pair.read? ⟨start, c :: rest⟩ <;>
    simp only [Statement.read, Text.trimStart_cons hblank, List.head?_cons, Option.all_some,
      hcomment, hmarker, hpair, Bool.false_eq_true, if_false]

theorem read_word (w : Word) (start : Nat) {after : List Char} (h : Ends after) :
    Statement.read ⟨start, w.text ++ ':' :: after⟩ =
      .pair ⟨⟨start, w.text⟩,
        (let value := scalarAt (Piece.trimStart ⟨start + w.text.length + 1, after⟩)
        if value.isEmpty then none else some value)⟩ := by
  obtain ⟨c, rest, hw, hc⟩ := w.text_eq_cons
  have hpair := pair_read?_word w start h
  have hread := read_cons (isBlank_of_isWordChar hc) (ne_of_isWordChar hc (by decide))
    (ne_of_isWordChar hc (by decide)) start (rest ++ ':' :: after)
  rw [← List.cons_append, ← hw] at hread
  rw [hread, hpair]

theorem read_key (w : Word) (start : Nat) :
    Statement.read ⟨start, w.text ++ [':']⟩ = .pair ⟨⟨start, w.text⟩, none⟩ := by
  rw [read_word w start ends_nil]
  rfl

theorem Scalar.scalarAt_behind_space (v : Scalar) (start : Nat) :
    scalarAt (Piece.trimStart ⟨start, ' ' :: v.written⟩) = ⟨start + 1, v.written⟩ := by
  obtain ⟨c, rest, hv, hc, -⟩ := v.written_eq_cons
  have hgap := Piece.trimStart_append (isBlank_of_mem_spaces (n := 1)) start v.written
  have htrim : Piece.trimStart ⟨start, ' ' :: v.written⟩ = ⟨start + 1, v.written⟩ := by
    rw [hv, Piece.trimStart_cons hc] at hgap
    rw [hv]
    exact hgap
  rw [htrim, v.scalarAt_written]

theorem Scalar.isEmpty_written (v : Scalar) (start : Nat) :
    Piece.isEmpty ⟨start, v.written⟩ = false := by
  obtain ⟨c, rest, hv, -⟩ := v.written_eq_cons
  rw [Piece.isEmpty, hv]
  rfl

theorem read_pair (w : Word) (v : Scalar) (start : Nat) :
    Statement.read ⟨start, w.text ++ ':' :: ' ' :: v.written⟩ =
      .pair ⟨⟨start, w.text⟩, some ⟨start + w.text.length + 2, v.written⟩⟩ := by
  rw [read_word w start (ends_space _)]
  simp only [v.scalarAt_behind_space, v.isEmpty_written, Bool.false_eq_true, if_false]

theorem read_scalar (v : Scalar) (start : Nat) :
    Statement.read ⟨start, v.written⟩ = .scalar ⟨start, v.written⟩ := by
  obtain ⟨c, rest, hv, hc, hsigns⟩ := v.written_eq_cons
  simp only [List.mem_cons, not_or] at hsigns
  have hpair : Pair.read? ⟨start, v.written⟩ = none := by
    cases v with
    | word w =>
      have hrun := w.quotedRun?_append []
      rw [List.append_nil] at hrun
      have hcolon := colon?_append (w.not_mem (d := ':') (by decide)) []
      rw [List.append_nil] at hcolon
      simp only [Pair.read?, Scalar.written, hrun, Option.none_or, hcolon, Pair.colon?,
        Option.map_none]
    | literal text feed_not_mem =>
      have hrun := Text.quotedRun?_literal text []
      have hrest := Piece.drop_length_append start (Text.literal text) []
      rw [List.append_nil] at hrun hrest
      simp only [Pair.read?, Scalar.written, hrun, Option.some_or, hrest]
      split <;> rfl
  have hread := read_cons hc hsigns.1 hsigns.2.1 start rest
  rw [← hv] at hread
  rw [hread, hpair, v.scalarAt_written]

theorem read_marker (start : Nat) {after : List Char} (h : Ends after) :
    Statement.read ⟨start, '-' :: after⟩ = .item := by
  have hmarker : Statement.isMarker ('-' :: after) = true := h
  have hcomment : ('-' == '#') = false := by decide
  simp only [Statement.read, Text.trimStart_cons (by decide : Text.isBlank '-' = false), hmarker,
    List.head?_cons, Option.all_some, hcomment, Bool.false_eq_true, if_false, if_true]

theorem read_nothing (start : Nat) : Statement.read ⟨start, []⟩ = .blank := rfl

/-! ## Behind a marker -/

theorem afterMarker_spaces (start n : Nat) (t : List Char) :
    Context.afterMarker ⟨start, '-' :: (spaces n ++ t)⟩ = Piece.trimStart ⟨start + n + 1, t⟩ := by
  have hdrop : Piece.drop ⟨start, '-' :: (spaces n ++ t)⟩ 1 = ⟨start + 1, spaces n ++ t⟩ :=
    Piece.drop_length_append start ['-'] (spaces n ++ t)
  have htake : Piece.take ⟨start + 1, spaces n ++ t⟩
      (Piece.length ⟨start, '-' :: (spaces n ++ t)⟩) = ⟨start + 1, spaces n ++ t⟩ := by
    simp [Piece.take, Piece.length, List.take_of_length_le]
  have hsize : Char.utf8Size '-' = 1 := by decide
  simp only [Context.afterMarker, hdrop, hsize, if_true, htake]
  rw [Piece.trimStart_append isBlank_of_mem_spaces]
  simp [spaces, Nat.add_right_comm]

theorem afterMarker_written (v : Scalar) (start : Nat) :
    Context.afterMarker ⟨start, '-' :: ' ' :: v.written⟩ = ⟨start + 2, v.written⟩ := by
  obtain ⟨c, rest, hv, hc, -⟩ := v.written_eq_cons
  have h := afterMarker_spaces start 1 v.written
  rw [hv, Piece.trimStart_cons hc] at h
  rw [hv]
  exact h

theorem afterMarker_bare (start : Nat) :
    Context.afterMarker ⟨start, ['-']⟩ = ⟨start + 1, []⟩ := afterMarker_spaces start 0 []

/-! ## The front of a row -/

/-- The nodes of a block start with a key and a colon, or with a marker. -/
inductive Front : List Char → Prop where
  | key (w : Word) {after : List Char} (h : Ends after) : Front (w.text ++ ':' :: after)
  | marker {after : List Char} (h : Ends after) : Front ('-' :: after)

namespace Front

theorem eq_cons {head : List Char} (h : Front head) :
    ∃ c rest, head = c :: rest ∧ Text.isBlank c = false := by
  cases h with
  | key w h =>
    obtain ⟨c, rest, hw, hc⟩ := w.text_eq_cons
    exact ⟨c, _, by rw [hw]; rfl, isBlank_of_isWordChar hc⟩
  | marker h => exact ⟨'-', _, rfl, by decide⟩

theorem trimStart_eq {head : List Char} (h : Front head) : Text.trimStart head = head := by
  obtain ⟨c, rest, rfl, hc⟩ := h.eq_cons
  exact Text.trimStart_cons hc rest

theorem isDirective_eq_false {head : List Char} (h : Front head) :
    Statement.isDirective head = false := by
  cases h with
  | key w h =>
    obtain ⟨c, rest, hw, hc⟩ := w.text_eq_cons
    have hpercent : c ≠ '%' := ne_of_isWordChar hc (by decide)
    have hhyphen : c ≠ '-' := ne_of_isWordChar hc (by decide)
    have hdot : c ≠ '.' := ne_of_isWordChar hc (by decide)
    simp [Statement.isDirective, hw, List.isPrefixOf, hpercent, hhyphen, Ne.symm hhyphen, hdot]
  | @marker after h =>
    cases after with
    | nil => decide
    | cons c rest =>
      have hgap : isGap c = true := h
      have hhyphen : c ≠ '-' := by
        rintro rfl
        exact absurd hgap (by decide)
      simp [Statement.isDirective, List.isPrefixOf, hhyphen, Ne.symm hhyphen]

theorem takeWhile_isGap {head : List Char} (h : Front head) (n : Nat) :
    (spaces n ++ head).takeWhile isGap = spaces n := by
  obtain ⟨c, rest, rfl, hc⟩ := h.eq_cons
  have hgap : isGap c = false := by
    rw [isGap, Bool.or_eq_false_iff, beq_eq_false_iff_ne, beq_eq_false_iff_ne]
    constructor <;> rintro rfl <;> exact absurd hc (by decide)
  have hspaces : ∀ d ∈ spaces n, isGap d = true := by
    intro d hd
    rw [List.eq_of_mem_replicate hd]
    decide
  rw [List.takeWhile_append_of_pos hspaces, List.takeWhile_cons_of_neg (by simp [hgap]),
    List.append_nil]

end Front

end ConfigAtlas.Outline
