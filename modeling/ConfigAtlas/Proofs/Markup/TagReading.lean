import ConfigAtlas.Markup.Tag
import ConfigAtlas.Proofs.Text.Part

/-! # How tags are read: an equation for each case of their readers -/

namespace ConfigAtlas.Markup

/-! ## Attributes -/

namespace Attribute

variable {p : Piece}

/-- What is left behind the name at the front. -/
def afterName (p : Piece) : Piece := (p.drop (p.takeWhile isNameChar).length).trimStart

/-- What is left behind the equals sign then. -/
def afterSign (p : Piece) : Piece := ((afterName p).drop 1).trimStart

theorem read_of_sign {rest : List Char} (h : (afterName p).text = '=' :: rest) :
    read p = (if (p.takeWhile isNameChar).isEmpty then none
      else some ⟨p.takeWhile isNameChar, valueAt (afterSign p)⟩,
      (afterSign p).drop (valueAt (afterSign p)).length) := by
  have htext : ((p.drop (p.takeWhile isNameChar).length).trimStart).text = '=' :: rest := h
  unfold read
  simp only [htext]
  rfl

theorem read_of_no_sign (h : (afterName p).text.head? ≠ some '=') :
    read p = (none, p.drop (max 1 (p.takeWhile isNameChar).length)) := by
  have hno : ∀ rest, ((p.drop (p.takeWhile isNameChar).length).trimStart).text ≠ '=' :: rest :=
    fun rest hrest => h (congrArg List.head? hrest)
  -- `hno` rules out the other case of the match.
  unfold read
  simp only

theorem name_ne_nil {c : Char} {rest : List Char} (htext : p.text = c :: rest)
    (hc : Text.isBlank c = false) (h : (afterName p).text.head? ≠ some '=') :
    (p.takeWhile isNameChar).text ≠ [] := by
  intro hname
  have hnot : isNameChar c = false := by
    rw [Piece.takeWhile, htext, List.takeWhile_cons] at hname
    split at hname
    · cases hname
    · simpa using ‹¬ isNameChar c = true›
  have hsign : c = '=' := by simpa [isNameChar, hc] using hnot
  apply h
  rw [afterName, Piece.length, hname, List.length_nil, Piece.drop, Piece.trimStart,
    Piece.dropWhile, htext, List.dropWhile_cons_of_neg (by simp [hc]), hsign]
  rfl

theorem valueAt_isPrefix (p : Piece) : (valueAt p).text <+: p.text := by
  unfold valueAt
  split
  · exact List.take_prefix _ p.text
  · exact List.takeWhile_prefix _

theorem start_valueAt (p : Piece) : (valueAt p).start = p.start := by
  unfold valueAt
  split <;> rfl

theorem readAll_of_nil (h : p.trimStart.text = []) : readAll p = [] := by
  rw [readAll, dif_pos h]

theorem readAll_of_ne_nil (h : p.trimStart.text ≠ []) :
    readAll p = (read p.trimStart).1.toList ++ readAll (read p.trimStart).2 := by
  rw [readAll, dif_neg h]

end Attribute

/-! ## Tags -/

theorem drop_tagStop? {quote? : Option Char} {u : List Char} {n : Nat}
    (h : tagStop? quote? u = some n) : ∃ rest, u.drop n = '>' :: rest := by
  induction u generalizing quote? n with
  | nil => cases quote? <;> cases h
  | cons c u ih =>
    cases quote? with
    | none =>
      rw [tagStop?] at h
      split at h
      · rename_i hc
        cases h
        exact ⟨u, by rw [hc]; rfl⟩
      · obtain ⟨m, hm, rfl⟩ := Option.map_eq_some_iff.mp h
        exact ih hm
    | some quote =>
      rw [tagStop?] at h
      obtain ⟨m, hm, rfl⟩ := Option.map_eq_some_iff.mp h
      exact ih hm

namespace OpenTag

/-- The tag that ends after `n` characters of what stands behind its name. -/
def ofBody (name body : Piece) (n : Nat) : OpenTag where
  name := name
  attributes := Attribute.readAll (withoutSlashes (body.take n))
  selfClosing := (body.take n).trimEnd.text.getLast? == some '/'
  after := body.drop (n + 1)

theorem read?_eq (p : Piece) : read? p =
    if ((p.drop 1).takeWhile isTagNameChar).isEmpty then none
    else (tagStop? none ((p.drop 1).dropWhile isTagNameChar).text).map
      (ofBody ((p.drop 1).takeWhile isTagNameChar) ((p.drop 1).dropWhile isTagNameChar)) := by
  have hbody : (p.drop 1).drop ((p.drop 1).takeWhile isTagNameChar).length =
      (p.drop 1).dropWhile isTagNameChar := (Piece.dropWhile_eq_drop _ _).symm
  unfold read?
  simp only [hbody]
  split
  · rfl
  · split <;> rename_i hstop <;> rw [hstop] <;> rfl

theorem start_name {p : Piece} {tag : OpenTag} (h : read? p = some tag) :
    tag.name.start = p.start + 1 := by
  rw [read?_eq, Option.ite_none_left_eq_some] at h
  obtain ⟨hname, h⟩ := h
  obtain ⟨n, -, rfl⟩ := Option.map_eq_some_iff.mp h
  obtain ⟨start, t⟩ := p
  cases t with
  | nil => exact absurd rfl hname
  | cons c rest => rfl

end OpenTag

variable {p : Piece}

theorem tags_of_nil (h : (p.dropWhile (· != '<')).text = []) : tags p = [] := by
  rw [tags, dif_pos h]

theorem tags_of_ne_nil (h : (p.dropWhile (· != '<')).text ≠ []) :
    tags p = (Tag.read (p.dropWhile (· != '<'))).1.toList ++
      tags (Tag.read (p.dropWhile (· != '<'))).2 := by
  rw [tags, dif_neg h]

end ConfigAtlas.Markup
