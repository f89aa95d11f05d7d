import ConfigAtlas.Diagnostic
import ConfigAtlas.Proofs.Place.Shown

/-!
# Carets under the text they mean

A diagnostic without a highlight is four lines, and its carets stand in the same columns as the
characters of the span that the place is about.
-/

namespace ConfigAtlas

/-- The span that a place is about: its value, or else its key, or else its whole line without
the blanks around it. -/
def Place.target (place : Place) : Span :=
  match place.value?, place.key? with
  | some value, _ => value
  | none, some key => key
  | none, none => (Piece.whole place.raw.toList).trim.span

theorem Place.target_on {place : Place}
    (h : ∀ s, place.key? = some s ∨ place.value? = some s → s.On place.raw.toList) :
    place.target.On place.raw.toList := by
  unfold target
  split
  · rename_i value hvalue
    exact h value (.inr hvalue)
  · rename_i key _ hkey
    exact h key (.inl hkey)
  · exact (Piece.PartOf.trim _).within.span_on

namespace Diagnostic

/-- The header ends with the numbers of the line and of the target's column, both counted from
one. Each character of the target has a caret right under it, and a target without characters has
one caret in its column. -/
structure PointsAt (place : Place) (header excerpt carets : List Char) : Prop where
  header_end : ∃ label, (label.getLast? = some ' ' ∨ label.getLast? = some ':') ∧
    header = label ++ (toString place.line ++ ":" ++ toString (place.target.column + 1)).toList
  carets_under : ∃ margin front behind,
    excerpt = margin ++ place.raw.toList ∧
    carets = front ++ List.replicate (max place.target.width 1) '^' ++ behind ∧
    front.length = margin.length + place.target.column ∧
    '^' ∉ front ∧ behind.head? ≠ some '^' ∧
    (excerpt.drop front.length).take place.target.width = place.target.text.toList

variable {d : Diagnostic}

theorem underline_eq_target (h : d.highlight? = none) :
    d.underline = .ok ⟨d.place.target.column, d.place.target.width⟩ := by
  cases hvalue : d.place.value? with
  | some value => simp only [underline, Place.target, hvalue, underlineValue, h]
  | none =>
    cases hkey : d.place.key? with
    | some key => simp only [underline, Place.target, hvalue, hkey]
    | none =>
      have hcolumn : (Piece.whole d.place.raw.toList).trim.span.column =
          (d.place.raw.toList.takeWhile Text.isBlank).length := Nat.zero_add _
      have hwidth : (Piece.whole d.place.raw.toList).trim.span.width =
          (Text.trim d.place.raw.toList).length := String.length_ofList
      simp only [underline, Place.target, hvalue, hkey, hcolumn, hwidth]

/-! ## The four lines -/

def labelText : Option String → List Char
  | some source => " --> ".toList ++ source.toList ++ [':']
  | none => " --> ".toList

def hintText : Option String → List Char
  | some hint => ' ' :: hint.toList
  | none => []

/-- As wide as the number of the line, so that what follows it stands in the same column. -/
def gutterText (d : Diagnostic) : List Char := List.replicate (toString d.place.line).length ' '

/-- The four lines around an underline. -/
def linesAround (d : Diagnostic) (u : Underline) : List (List Char) :=
  [labelText d.source? ++ (toString d.place.line ++ ":" ++ toString (u.start + 1)).toList,
    d.gutterText ++ [' ', '|'],
    (toString d.place.line ++ " | ").toList ++ d.place.raw.toList,
    d.gutterText ++ " | ".toList ++ List.replicate u.start ' ' ++
      List.replicate (max u.width 1) '^' ++ hintText d.hint?]

theorem exists_of_lines {ls : List String} (h : d.lines = .ok ls) :
    ∃ u, d.underline = .ok u ∧ ls.map String.toList = d.linesAround u := by
  obtain ⟨u, hunderline, h⟩ := exists_of_bind h
  obtain ⟨gutter, hgutter, h⟩ := exists_of_bind h
  obtain ⟨column, hcolumn, h⟩ := exists_of_bind h
  obtain ⟨margin, hmargin, h⟩ := exists_of_bind h
  obtain ⟨carets, hcarets, h⟩ := exists_of_bind h
  cases h
  refine ⟨u, hunderline, ?_⟩
  simp only [linesAround, gutterText, ← toList_of_repeated hgutter, ← toList_of_repeated hmargin,
    ← toList_of_repeated hcarets, sum_eq_ok hcolumn]
  obtain ⟨place, source?, hint?, highlight?⟩ := d
  cases source? <;> cases hint? <;> simp [labelText, hintText]

theorem exists_of_render {text : String} (h : d.render = .ok text) :
    ∃ ls, d.lines = .ok ls ∧ text = "\n".intercalate ls := by
  rw [render] at h
  cases hlines : d.lines with
  | error e =>
    rw [hlines] at h
    cases h
  | ok ls =>
    rw [hlines] at h
    exact ⟨ls, rfl, (Except.ok.inj h).symm⟩

theorem not_mem_toString {c : Char} (h : c.isDigit = false) (n : Nat) :
    c ∉ (toString n).toList := by
  rw [Nat.toString_eq_repr, Nat.toList_repr]
  intro hmem
  rw [Nat.isDigit_of_mem_toDigits (by decide) (by decide) hmem] at h
  cases h

/-- Without a line feed in what goes into it, each line of a diagnostic is a line of its text. -/
theorem splitOn_render {text : String} (h : d.render = .ok text) (hraw : '\n' ∉ d.place.raw.toList)
    (hsource : ∀ s ∈ d.source?, '\n' ∉ s.toList) (hhint : ∀ s ∈ d.hint?, '\n' ∉ s.toList) :
    ∃ u, d.underline = .ok u ∧ text.toList.splitOn '\n' = d.linesAround u := by
  obtain ⟨ls, hls, rfl⟩ := exists_of_render h
  obtain ⟨u, hunderline, hlines⟩ := exists_of_lines hls
  refine ⟨u, hunderline, ?_⟩
  have hnumber : ∀ n : Nat, '\n' ∉ (toString n).toList := not_mem_toString (by decide)
  have hlabel : '\n' ∉ labelText d.source? := by
    cases hs : d.source? with
    | none => decide
    | some source =>
      have := hsource source hs
      simp [labelText, this]
  have hbehind : '\n' ∉ hintText d.hint? := by
    cases hh : d.hint? with
    | none => simp [hintText]
    | some hint =>
      have := hhint hint hh
      simp [hintText, this]
  have hspaces : ∀ n, '\n' ∉ List.replicate n ' ' := by simp [List.mem_replicate]
  have hcarets : ∀ n, '\n' ∉ List.replicate n '^' := by simp [List.mem_replicate]
  have hfeeds : ∀ l ∈ d.linesAround u, '\n' ∉ l := by
    rw [linesAround]
    simp only [List.forall_mem_cons, List.mem_append, String.toList_append, gutterText, not_or]
    exact ⟨⟨hlabel, ⟨hnumber _, by decide⟩, hnumber _⟩, ⟨hspaces _, by decide⟩,
      ⟨⟨hnumber _, by decide⟩, hraw⟩,
      ⟨⟨⟨⟨hspaces _, by decide⟩, hspaces _⟩, hcarets _⟩, hbehind⟩, by simp⟩
  rw [String.toList_intercalate, hlines]
  exact List.splitOn_intercalate '\n' hfeeds (by simp [linesAround])

theorem pointsAt_linesAround (hon : d.place.target.On d.place.raw.toList) :
    ∃ header spacer excerpt carets,
      d.linesAround ⟨d.place.target.column, d.place.target.width⟩ =
        [header, spacer, excerpt, carets] ∧ PointsAt d.place header excerpt carets := by
  refine ⟨_, _, _, _, rfl, ?_, ?_⟩
  · refine ⟨labelText d.source?, ?_, rfl⟩
    cases d.source? with
    | none => exact .inl (by decide)
    | some source => exact .inr (by rw [labelText, List.getLast?_concat])
  · have hlength : (d.gutterText ++ " | ".toList ++
          List.replicate d.place.target.column ' ').length =
        (toString d.place.line ++ " | ").toList.length + d.place.target.column := by
      simp only [gutterText, List.length_append, List.length_replicate, String.toList_append,
        String.length_toList]
    refine ⟨(toString d.place.line ++ " | ").toList,
      d.gutterText ++ " | ".toList ++ List.replicate d.place.target.column ' ',
      hintText d.hint?, rfl, rfl, hlength, ?_, ?_, ?_⟩
    · simp only [List.mem_append, gutterText, not_or]
      exact ⟨⟨by simp [List.mem_replicate], by decide⟩, by simp [List.mem_replicate]⟩
    · cases d.hint? <;> simp [hintText]
    · rw [hlength, List.drop_length_add_append]
      exact hon

end Diagnostic

end ConfigAtlas
