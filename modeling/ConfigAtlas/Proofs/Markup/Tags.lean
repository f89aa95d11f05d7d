import ConfigAtlas.Markup.Element
import ConfigAtlas.Proofs.Markup.Tree
import ConfigAtlas.Proofs.Text.Fronts
import ConfigAtlas.Proofs.Text.Trimmed

/-! # The tags of a text, read one by one -/

namespace ConfigAtlas.Markup

/-! ## Names -/

namespace Name

variable (n : Name)

theorem text_eq_cons : ∃ c rest, n.text = c :: rest ∧
    Text.isBlank c = false ∧ c ∉ ['<', '>', '/'] ∧ c ∉ ['!', '?'] := by
  cases hn : n.text with
  | nil => exact absurd hn n.ne_nil
  | cons c rest =>
    have hchar := n.chars c (by simp [hn])
    exact ⟨c, rest, rfl, hchar.1, hchar.2, n.no_mark c (by simp [hn])⟩

theorem not_mem {d : Char} (hd : d ∈ ['<', '>', '/']) : d ∉ n.text := by
  intro hmem
  exact (n.chars d hmem).2 hd

theorem isTagNameChar_of_mem {c : Char} (hc : c ∈ n.text) : isTagNameChar c = true := by
  obtain ⟨hblank, hsign⟩ := n.chars c hc
  simp only [List.mem_cons, not_or] at hsign
  simp [isTagNameChar, hblank, hsign]

theorem takeWhile_append_stop (rest : List Char) :
    (n.text ++ '>' :: rest).takeWhile isTagNameChar = n.text := by
  rw [List.takeWhile_append_of_pos fun c hc => n.isTagNameChar_of_mem hc,
    List.takeWhile_cons_of_neg (by decide), List.append_nil]

end Name

/-! ## Between tags -/

theorem dropWhile_gap {t : List Char} (h : '<' ∉ t) (start : Nat) (rest : List Char) :
    Piece.dropWhile ⟨start, t ++ rest⟩ (· != '<') =
      Piece.dropWhile ⟨start + t.length, rest⟩ (· != '<') := by
  have hall : ∀ c ∈ t, (c != '<') = true := by
    intro c hc
    rw [bne_iff_ne]
    rintro rfl
    exact h hc
  simp only [Piece.dropWhile, List.takeWhile_append_of_pos hall,
    List.dropWhile_append_of_pos hall, List.length_append, Nat.add_assoc]

theorem tags_gap {t : List Char} (h : '<' ∉ t) (start : Nat) (rest : List Char) :
    tags ⟨start, t ++ rest⟩ = tags ⟨start + t.length, rest⟩ := by
  rw [tags.eq_def ⟨start, t ++ rest⟩, tags.eq_def ⟨start + t.length, rest⟩]
  simp only [dropWhile_gap h]

theorem tags_cons (start : Nat) (rest : List Char) :
    tags ⟨start, '<' :: rest⟩ =
      (Tag.read ⟨start, '<' :: rest⟩).1.toList ++ tags (Tag.read ⟨start, '<' :: rest⟩).2 := by
  have hfront : Piece.dropWhile ⟨start, '<' :: rest⟩ (· != '<') = ⟨start, '<' :: rest⟩ := rfl
  rw [tags]
  simp only [hfront]
  rw [dif_neg (by simp)]

theorem hiddenEnd?_eq_none {c : Char} (hc : c ∉ ['!', '?']) (start : Nat) (rest : List Char) :
    hiddenEnd? ⟨start, '<' :: c :: rest⟩ = none := by
  simp only [List.mem_cons, not_or] at hc
  simp [hiddenEnd?, hiddenMarks, Piece.startsWith, List.isPrefixOf, Ne.symm hc.1,
    Ne.symm hc.2.1]

/-! ## Tags -/

/-- The tag that is read of a name in angles at this position. -/
def Name.tagAt (n : Name) (start : Nat) (after : List Char) : OpenTag where
  name := ⟨start + 1, n.text⟩
  attributes := []
  selfClosing := false
  after := ⟨start + n.opening.length, after⟩

theorem read?_opening (n : Name) (start : Nat) (after : List Char) :
    OpenTag.read? ⟨start, n.opening ++ after⟩ = some (n.tagAt start after) := by
  have hdrop : Piece.drop ⟨start, n.opening ++ after⟩ 1 =
      ⟨start + 1, n.text ++ '>' :: after⟩ := by
    have h := Piece.drop_length_append start ['<'] (n.text ++ '>' :: after)
    simpa [Name.opening] using h
  have hname : Piece.takeWhile ⟨start + 1, n.text ++ '>' :: after⟩ isTagNameChar =
      ⟨start + 1, n.text⟩ := by
    rw [Piece.takeWhile, n.takeWhile_append_stop]
  have hbody : Piece.drop ⟨start + 1, n.text ++ '>' :: after⟩ n.text.length =
      ⟨start + 1 + n.text.length, '>' :: after⟩ := Piece.drop_length_append _ _ _
  have hafter : Piece.drop ⟨start + 1 + n.text.length, '>' :: after⟩ 1 =
      ⟨start + 1 + n.text.length + 1, after⟩ := Piece.drop_length_append _ ['>'] after
  have hne : Piece.isEmpty ⟨start + 1, n.text⟩ = false := by
    rw [Piece.isEmpty, List.isEmpty_eq_false_iff]
    exact n.ne_nil
  have hattributes : Attribute.readAll (withoutSlashes
      (Piece.take ⟨start + 1 + n.text.length, '>' :: after⟩ 0)) = [] := by
    rw [Attribute.readAll]
    rfl
  simp only [OpenTag.read?, hdrop, hname, Piece.length, hbody, hne, hafter, tagStop?,
    hattributes, Bool.false_eq_true, if_false, if_true, Nat.zero_add]
  simp [Name.tagAt, Name.opening, Piece.take, Piece.trimEnd, Text.trimEnd, Nat.add_comm,
    Nat.add_left_comm]

theorem tags_opening (n : Name) (start : Nat) (after : List Char) :
    tags ⟨start, n.opening ++ after⟩ =
      .opening (n.tagAt start after) :: tags ⟨start + n.opening.length, after⟩ := by
  obtain ⟨c, rest, hn, -, hsign, hmark⟩ := n.text_eq_cons
  simp only [List.mem_cons, not_or] at hsign
  have hread : Tag.read ⟨start, n.opening ++ after⟩ =
      (some (.opening (n.tagAt start after)), ⟨start + n.opening.length, after⟩) := by
    have hopen := read?_opening n start after
    have hhidden : hiddenEnd? ⟨start, n.opening ++ after⟩ = none := by
      rw [Name.opening, hn]
      exact hiddenEnd?_eq_none hmark start _
    have hslash : Piece.startsWith ⟨start, n.opening ++ after⟩ ['<', '/'] = false := by
      simp [Piece.startsWith, Name.opening, hn, List.isPrefixOf, Ne.symm hsign.2.2.1]
    simp only [Tag.read, hhidden, hslash, hopen, Bool.false_eq_true, if_false]
    rfl
  have htags := tags_cons start (n.text ++ ['>'] ++ after)
  rw [show '<' :: (n.text ++ ['>'] ++ after) = n.opening ++ after from rfl, hread] at htags
  exact htags

theorem past_stop {t : List Char} (h : '>' ∉ t) (start : Nat) (after : List Char) :
    Piece.past ⟨start, t ++ '>' :: after⟩ ['>'] = ⟨start + t.length + 1, after⟩ := by
  have hfirst : ¬ ['>'] <:+: t ++ ['>'].dropLast := by
    rw [List.dropLast_singleton, List.append_nil]
    exact fun hin => h (hin.mem List.mem_cons_self)
  have hskip := Piece.skipPast_first (by simp) hfirst start after
  rw [List.length_append, ← Nat.add_assoc] at hskip
  exact hskip

theorem tags_closing (n : Name) (start : Nat) (after : List Char) :
    tags ⟨start, n.closing ++ after⟩ =
      .closing n.text start :: tags ⟨start + n.closing.length, after⟩ := by
  have hread : Tag.read ⟨start, n.closing ++ after⟩ =
      (some (.closing n.text start), ⟨start + n.closing.length, after⟩) := by
    have hwritten : n.closing ++ after = ('<' :: '/' :: n.text) ++ '>' :: after := by
      simp [Name.closing]
    have hhidden : hiddenEnd? ⟨start, n.closing ++ after⟩ = none :=
      hiddenEnd?_eq_none (by decide) start _
    have hslash : Piece.startsWith ⟨start, n.closing ++ after⟩ ['<', '/'] = true := by
      simp [Piece.startsWith, Name.closing, List.isPrefixOf]
    have hdrop : Piece.drop ⟨start, n.closing ++ after⟩ 2 =
        ⟨start + 2, n.text ++ '>' :: after⟩ := by
      have h := Piece.drop_length_append start ['<', '/'] (n.text ++ '>' :: after)
      simpa [Name.closing] using h
    have hpast : Piece.past ⟨start, n.closing ++ after⟩ ['>'] =
        ⟨start + n.closing.length, after⟩ := by
      have hstop : '>' ∉ '<' :: '/' :: n.text := by
        have := n.not_mem (d := '>') (by simp)
        simp [this]
      rw [hwritten, past_stop hstop]
      simp [Name.closing, Nat.add_assoc]
    simp only [Tag.read, hhidden, hslash, hdrop, hpast, Piece.takeWhile, n.takeWhile_append_stop,
      if_true]
  have htags := tags_cons start ('/' :: (n.text ++ ['>']) ++ after)
  rw [show '<' :: ('/' :: (n.text ++ ['>']) ++ after) = n.closing ++ after from rfl,
    hread] at htags
  exact htags

end ConfigAtlas.Markup
