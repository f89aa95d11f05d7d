import ConfigAtlas.Text.Piece
import ConfigAtlas.Proofs.Lists

/-! # Texts with no blanks at their ends -/

namespace ConfigAtlas

namespace Text

theorem trimStart_cons {c : Char} (h : isBlank c = false) (t : List Char) :
    trimStart (c :: t) = c :: t := by
  simp [trimStart, h]

theorem trimEnd_concat {c : Char} (h : isBlank c = false) (t : List Char) :
    trimEnd (t ++ [c]) = t ++ [c] := by
  simp [trimEnd, h]

theorem trim_concat {b c : Char} (hb : isBlank b = false) (hc : isBlank c = false)
    (t : List Char) : trim (b :: (t ++ [c])) = b :: (t ++ [c]) := by
  rw [trim, trimStart_cons hb, ← List.cons_append, trimEnd_concat hc]

theorem trimStart_append {g : List Char} (hg : ∀ c ∈ g, isBlank c = true) (t : List Char) :
    trimStart (g ++ t) = trimStart t := by
  unfold trimStart
  rw [List.dropWhile_append_of_pos hg]

theorem trimEnd_append {g : List Char} (hg : ∀ c ∈ g, isBlank c = true) (t : List Char) :
    trimEnd (t ++ g) = trimEnd t := by
  have hg' : ∀ c ∈ g.reverse, isBlank c = true := fun c hc => hg c (List.mem_reverse.mp hc)
  rw [trimEnd, List.reverse_append, List.dropWhile_append_of_pos hg', trimEnd]

theorem trim_cons {c : Char} (h : isBlank c = false) (t : List Char) :
    ∃ rest, trim (c :: t) = c :: rest := by
  rw [trim, trimStart_cons h, trimEnd, List.reverse_cons, List.dropWhile_append]
  split
  · exact ⟨[], by simp [h]⟩
  · exact ⟨(t.reverse.dropWhile isBlank).reverse, by simp⟩

theorem trimStart_eq_self_of_trim {t : List Char} (h : trim t = t) : trimStart t = t := by
  have hlen : t.length ≤ (trimStart t).length := by
    have := (trimEnd_isPrefix (trimStart t)).length_le
    rwa [← trim, h] at this
  exact (trimStart_isSuffix t).eq_of_length_le hlen

theorem trimEnd_eq_self_of_trim {t : List Char} (h : trim t = t) : trimEnd t = t := by
  rw [trim, trimStart_eq_self_of_trim h] at h
  exact h

theorem not_isBlank_head_of_trim {c : Char} {t : List Char} (h : trim (c :: t) = c :: t) :
    isBlank c = false :=
  Lists.not_of_dropWhile_eq_cons (trimStart_eq_self_of_trim h)

theorem not_isBlank_getLast_of_trim {t : List Char} (h : trim t = t) {c : Char}
    (hc : t.getLast? = some c) : isBlank c = false := by
  have hend : t.reverse.dropWhile isBlank = t.reverse := by
    rw [← List.reverse_inj, List.reverse_reverse]
    exact trimEnd_eq_self_of_trim h
  cases hr : t.reverse with
  | nil =>
    rw [List.reverse_eq_nil_iff.mp hr] at hc
    cases hc
  | cons d rest =>
    have hd : d = c := by
      rw [← List.head?_reverse, hr] at hc
      exact Option.some.inj hc
    rw [hr, hd] at hend
    exact Lists.not_of_dropWhile_eq_cons hend

end Text

namespace Piece

theorem trimStart_cons {c : Char} (h : Text.isBlank c = false) (start : Nat) (t : List Char) :
    trimStart ⟨start, c :: t⟩ = ⟨start, c :: t⟩ := by
  simp [trimStart, dropWhile, h]

theorem trimStart_append {g : List Char} (hg : ∀ c ∈ g, Text.isBlank c = true) (start : Nat)
    (t : List Char) : trimStart ⟨start, g ++ t⟩ = trimStart ⟨start + g.length, t⟩ := by
  simp only [trimStart, dropWhile]
  rw [List.takeWhile_append_of_pos hg, List.dropWhile_append_of_pos hg, List.length_append,
    Nat.add_assoc]

@[simp] theorem text_trim (p : Piece) : p.trim.text = Text.trim p.text := rfl

theorem trim_eq_self {p : Piece} (h : Text.trim p.text = p.text) : p.trim = p := by
  have hstart : p.text.dropWhile Text.isBlank = p.text := Text.trimStart_eq_self_of_trim h
  have happ := congrArg List.length
    (List.takeWhile_append_dropWhile (p := Text.isBlank) (l := p.text))
  have hfront : (p.text.takeWhile Text.isBlank).length = 0 := by
    rw [List.length_append, hstart] at happ
    omega
  simp only [trim, trimStart, dropWhile, trimEnd, hstart, hfront, Nat.add_zero,
    Text.trimEnd_eq_self_of_trim h]

theorem trim_between {before t after : List Char} (hbefore : ∀ c ∈ before, Text.isBlank c = true)
    (ht : Text.trim t = t) (hafter : ∀ c ∈ after, Text.isBlank c = true) (start : Nat) :
    trim ⟨start, before ++ (t ++ after)⟩ =
      ⟨start + (before ++ if t = [] then after else []).length, t⟩ := by
  cases t with
  | nil =>
    have hblank : ∀ c ∈ before ++ after, Text.isBlank c = true := by
      intro c hc
      exact (List.mem_append.mp hc).elim (hbefore c) (hafter c)
    have htrim := trimStart_append hblank start []
    rw [List.append_nil] at htrim
    rw [List.nil_append, if_pos rfl, trim, htrim]
    rfl
  | cons c t =>
    have hc := Text.not_isBlank_head_of_trim ht
    rw [trim, trimStart_append hbefore, List.cons_append, trimStart_cons hc, trimEnd,
      ← List.cons_append, Text.trimEnd_append hafter, Text.trimEnd_eq_self_of_trim ht]
    simp

theorem take_length_append (start : Nat) (s t : List Char) :
    take ⟨start, s ++ t⟩ s.length = ⟨start, s⟩ := by
  simp [take]

theorem drop_length_append (start : Nat) (s t : List Char) :
    drop ⟨start, s ++ t⟩ s.length = ⟨start + s.length, t⟩ := by
  rw [drop_eq, List.drop_left]
  simp

theorem between?_enclosed (opening closing t : List Char) (start : Nat) :
    between? opening closing ⟨start, opening ++ (t ++ closing)⟩ =
      some ⟨start + opening.length, t⟩ := by
  have hopen : startsWith ⟨start, opening ++ (t ++ closing)⟩ opening = true :=
    List.isPrefixOf_iff_prefix.mpr (List.prefix_append _ _)
  have hclose : closing.isSuffixOf (t ++ closing) = true :=
    List.isSuffixOf_iff_suffix.mpr (List.suffix_append _ _)
  have hlength : length ⟨start + opening.length, t ++ closing⟩ - closing.length = t.length := by
    simp [length]
  simp only [between?, hopen, if_true, drop_length_append, hclose, hlength, take_length_append]

end Piece

end ConfigAtlas
