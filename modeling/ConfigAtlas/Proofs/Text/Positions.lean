import ConfigAtlas.Place

/-!
# Lines and columns of positions

What the line of a position is, told from what stands before and after it, and that a line table
finds it.
-/

namespace ConfigAtlas

namespace Text

def lastLine (t : List Char) : List Char := (t.reverse.takeWhile (· != '\n')).reverse

def firstLine (t : List Char) : List Char := t.takeWhile (· != '\n')

/-- The line that a position lies on. -/
def lineAt (t : List Char) (position : Nat) : Line where
  number := (t.take position).count '\n' + 1
  text := dropReturn (lastLine (t.take position) ++ firstLine (t.drop position))

def columnAt (t : List Char) (position : Nat) : Nat := (lastLine (t.take position)).length

theorem lastLine_append (a : List Char) {b : List Char} (h : '\n' ∉ b) :
    lastLine (a ++ b) = lastLine a ++ b := by
  have hall : ∀ c ∈ b.reverse, (c != '\n') = true := by
    intro c hc
    rw [bne_iff_ne]
    rintro rfl
    exact h (List.mem_reverse.mp hc)
  rw [lastLine, List.reverse_append, List.takeWhile_append_of_pos hall, List.reverse_append,
    List.reverse_reverse]
  rfl

theorem lastLine_eq_self {t : List Char} (h : '\n' ∉ t) : lastLine t = t := lastLine_append [] h

theorem lastLine_append_feed (a b : List Char) : lastLine (a ++ '\n' :: b) = lastLine b := by
  have hstop : ∀ t : List Char,
      (t ++ '\n' :: a.reverse).takeWhile (· != '\n') = t.takeWhile (· != '\n') := by
    intro t
    induction t with
    | nil => rfl
    | cons c t ih => rw [List.cons_append, List.takeWhile_cons, List.takeWhile_cons, ih]
  simp [lastLine, hstop]

theorem firstLine_append {a : List Char} (h : '\n' ∉ a) (b : List Char) :
    firstLine (a ++ b) = a ++ firstLine b := by
  apply List.takeWhile_append_of_pos
  intro c hc
  rw [bne_iff_ne]
  rintro rfl
  exact h hc

theorem firstLine_nil : firstLine [] = [] := rfl

theorem firstLine_feed (t : List Char) : firstLine ('\n' :: t) = [] := rfl

theorem length_le_length_dropReturn (t : List Char) : t.length ≤ (dropReturn t).length + 1 := by
  rw [dropReturn]
  split
  · rw [List.length_dropLast]
    omega
  · omega

theorem columnAt_le (t : List Char) (position : Nat) : columnAt t position ≤ position := by
  have hlast := (List.takeWhile_sublist (· != '\n') (l := (t.take position).reverse)).length_le
  rw [List.length_reverse, List.length_take] at hlast
  rw [columnAt, lastLine, List.length_reverse]
  omega

section

variable {row : List Char} (hrow : '\n' ∉ row)
include hrow

theorem count_feed (rest : List Char) :
    (row ++ '\n' :: rest).count '\n' = rest.count '\n' + 1 := by
  rw [List.count_append, List.count_cons_self, List.count_eq_zero.mpr hrow, Nat.zero_add]

theorem count_take_of_le {p : Nat} (hp : p ≤ row.length) (tail : List Char) :
    ((row ++ tail).take p).count '\n' = 0 := by
  rw [List.take_append_of_le_length hp, List.count_eq_zero]
  exact fun hmem => hrow (List.mem_of_mem_take hmem)

theorem number_lineAt_append {p : Nat} (hp : p ≤ row.length) (tail : List Char) :
    (lineAt (row ++ tail) p).number = 1 := by
  rw [lineAt, count_take_of_le hrow hp]

theorem columnAt_append {p : Nat} (hp : p ≤ row.length) (tail : List Char) :
    columnAt (row ++ tail) p = p := by
  rw [columnAt, List.take_append_of_le_length hp,
    lastLine_eq_self fun hmem => hrow (List.mem_of_mem_take hmem), List.length_take,
    Nat.min_eq_left hp]

theorem text_lineAt_append {p : Nat} (hp : p ≤ row.length) {tail : List Char}
    (htail : firstLine tail = []) : (lineAt (row ++ tail) p).text = dropReturn row := by
  rw [lineAt, List.take_append_of_le_length hp, List.drop_append_of_le_length hp,
    lastLine_eq_self fun hmem => hrow (List.mem_of_mem_take hmem),
    firstLine_append fun hmem => hrow (List.mem_of_mem_drop hmem), htail, List.append_nil,
    List.take_append_drop]

end

section

variable (row rest : List Char) (p : Nat)

theorem take_append_feed : (row ++ '\n' :: rest).take (row.length + (p + 1)) =
    row ++ '\n' :: rest.take p := by
  rw [List.take_length_add_append]
  rfl

theorem columnAt_append_feed :
    columnAt (row ++ '\n' :: rest) (row.length + (p + 1)) = columnAt rest p := by
  rw [columnAt, take_append_feed, lastLine_append_feed, columnAt]

theorem text_lineAt_append_feed :
    (lineAt (row ++ '\n' :: rest) (row.length + (p + 1))).text = (lineAt rest p).text := by
  have hdrop : (row ++ '\n' :: rest).drop (row.length + (p + 1)) = rest.drop p := by
    rw [List.drop_length_add_append]
    rfl
  rw [lineAt, take_append_feed, lastLine_append_feed, hdrop, lineAt]

theorem number_lineAt_append_feed (hrow : '\n' ∉ row) :
    (lineAt (row ++ '\n' :: rest) (row.length + (p + 1))).number = (lineAt rest p).number + 1 := by
  rw [lineAt, take_append_feed, count_feed hrow, lineAt]

end

theorem position_cases {row rest : List Char} {p : Nat}
    (hp : p ≤ (row ++ '\n' :: rest).length) :
    p ≤ row.length ∨ ∃ q, q ≤ rest.length ∧ p = row.length + (q + 1) := by
  rw [List.length_append, List.length_cons] at hp
  by_cases hfirst : p ≤ row.length
  · exact .inl hfirst
  · exact .inr ⟨p - row.length - 1, by omega, by omega⟩

theorem line_induction {motive : List Char → Prop} (last : ∀ row, '\n' ∉ row → motive row)
    (feed : ∀ row rest, '\n' ∉ row → motive rest → motive (row ++ '\n' :: rest))
    (t : List Char) : motive t := by
  by_cases h : '\n' ∈ t
  · obtain ⟨row, rest, rfl, hrow⟩ := List.eq_append_cons_of_mem h
    exact feed row rest hrow (line_induction last feed rest)
  · exact last t h
termination_by t.length

end Text

/-! ## The rows of a text -/

namespace LineTable

def rowsFrom (start : Nat) (t : List Char) : List Piece :=
  (Piece.consecutive start (t.splitOn '\n')).map fun row =>
    { row with text := Text.dropReturn row.text }

theorem rowsFrom_last (start : Nat) {row : List Char} (h : '\n' ∉ row) :
    rowsFrom start row = [⟨start, Text.dropReturn row⟩] := by
  rw [rowsFrom, List.splitOn_eq_singleton h]
  rfl

theorem rowsFrom_feed (start : Nat) {row : List Char} (h : '\n' ∉ row) (rest : List Char) :
    rowsFrom start (row ++ '\n' :: rest) =
      ⟨start, Text.dropReturn row⟩ :: rowsFrom (start + row.length + 1) rest := by
  rw [rowsFrom, List.splitOn_append_cons_self_of_not_mem h]
  rfl

theorem le_start_of_mem_rowsFrom {start : Nat} {t : List Char} {row : Piece}
    (h : row ∈ rowsFrom start t) : start ≤ row.start := by
  induction t using Text.line_induction generalizing start with
  | last q hq =>
    rw [rowsFrom_last start hq, List.mem_singleton] at h
    exact Nat.le_of_eq (congrArg Piece.start h).symm
  | feed q rest hq ih =>
    rw [rowsFrom_feed start hq, List.mem_cons] at h
    rcases h with rfl | h
    · exact Nat.le_refl _
    · have := ih h
      omega

theorem countP_rowsFrom (start : Nat) {t : List Char} {p : Nat} (hp : p ≤ t.length) :
    (rowsFrom start t).countP (·.start ≤ start + p) = (Text.lineAt t p).number := by
  induction t using Text.line_induction generalizing start p with
  | last row hrow =>
    have hnumber := Text.number_lineAt_append hrow hp []
    rw [List.append_nil] at hnumber
    rw [rowsFrom_last start hrow, hnumber]
    simp
  | feed row rest hrow ih =>
    rw [rowsFrom_feed start hrow, List.countP_cons_of_pos (by simp)]
    rcases Text.position_cases hp with hfirst | ⟨q, hq, rfl⟩
    · have hlater : ∀ r ∈ rowsFrom (start + row.length + 1) rest,
          ¬ decide (r.start ≤ start + p) = true := by
        intro r hr
        have := le_start_of_mem_rowsFrom hr
        rw [decide_eq_true_eq]
        omega
      rw [List.countP_eq_zero.mpr hlater, Text.number_lineAt_append hrow hfirst]
    · have hrest := ih (start + row.length + 1) hq
      rw [Nat.add_assoc, Nat.add_assoc, Nat.add_comm 1 q] at hrest
      rw [Text.number_lineAt_append_feed row rest q hrow, ← hrest, Nat.add_assoc]

theorem getElem?_rowsFrom (start : Nat) {t : List Char} {p : Nat} (hp : p ≤ t.length) :
    (rowsFrom start t)[(Text.lineAt t p).number - 1]? =
      some ⟨start + (p - Text.columnAt t p), (Text.lineAt t p).text⟩ := by
  induction t using Text.line_induction generalizing start p with
  | last row hrow =>
    have hnumber := Text.number_lineAt_append hrow hp []
    have hcolumn := Text.columnAt_append hrow hp []
    have htext := Text.text_lineAt_append hrow hp Text.firstLine_nil
    rw [List.append_nil] at hnumber hcolumn htext
    rw [rowsFrom_last start hrow, hnumber, hcolumn, htext]
    simp
  | feed row rest hrow ih =>
    rw [rowsFrom_feed start hrow]
    rcases Text.position_cases hp with hfirst | ⟨q, hq, rfl⟩
    · rw [Text.number_lineAt_append hrow hfirst, Text.columnAt_append hrow hfirst,
        Text.text_lineAt_append hrow hfirst (Text.firstLine_feed rest)]
      simp
    · have hrest := ih (start + row.length + 1) hq
      have hpos : (Text.lineAt rest q).number = ((Text.lineAt rest q).number - 1) + 1 := rfl
      have hcolumn := Text.columnAt_le rest q
      have hstart : start + (row.length + (q + 1) - Text.columnAt rest q) =
          start + row.length + 1 + (q - Text.columnAt rest q) := by omega
      rw [Text.number_lineAt_append_feed row rest q hrow, Text.columnAt_append_feed,
        Text.text_lineAt_append_feed, Nat.add_sub_cancel, hpos, List.getElem?_cons_succ, hrest,
        hstart]

section

variable {t : List Char} {p : Nat} (hp : p ≤ t.length)
include hp

theorem rowIndex_ofContent : (ofContent t).rowIndex p = (Text.lineAt t p).number - 1 := by
  have hcount := countP_rowsFrom 0 hp
  rw [Nat.zero_add] at hcount
  rw [← hcount]
  rfl

theorem row_rowIndex_ofContent : (ofContent t).row ((ofContent t).rowIndex p) =
    ⟨p - Text.columnAt t p, (Text.lineAt t p).text⟩ := by
  have hrow := getElem?_rowsFrom 0 hp
  rw [Nat.zero_add] at hrow
  have hrows : (ofContent t).rows = rowsFrom 0 t := rfl
  rw [rowIndex_ofContent hp, row, hrows, List.getD_eq_getElem?_getD, hrow]
  simp

theorem column_ofContent :
    (ofContent t).column p = min (Text.columnAt t p) (Text.lineAt t p).text.length := by
  have hle := Text.columnAt_le t p
  rw [column, offset, row_rowIndex_ofContent hp, List.length_take]
  congr 1
  exact Nat.sub_sub_self hle

theorem column_ofContent_of_ne {c : Char} {rest : List Char} (hnext : t.drop p = c :: rest)
    (hc : c ≠ '\n') : (ofContent t).column p = Text.columnAt t p := by
  have hline : Text.columnAt t p ≤ (Text.lineAt t p).text.length := by
    have hrest : Text.firstLine (c :: rest) = c :: Text.firstLine rest :=
      Text.firstLine_append (a := [c]) (by simpa using Ne.symm hc) rest
    have hlength := Text.length_le_length_dropReturn
      (Text.lastLine (t.take p) ++ c :: Text.firstLine rest)
    rw [List.length_append, List.length_cons] at hlength
    simp only [Text.lineAt, Text.columnAt, hnext, hrest]
    omega
  rw [column_ofContent hp, Nat.min_eq_left hline]

theorem place_ofContent (key? value? : Option Span) :
    (ofContent t).place p key? value? =
      ⟨(Text.lineAt t p).number, String.ofList (Text.lineAt t p).text, key?, value?⟩ := by
  rw [place, row_rowIndex_ofContent hp, rowIndex_ofContent hp]
  rfl

end

theorem rowIndex_mono (table : LineTable) {m n : Nat} (h : m ≤ n) :
    table.rowIndex m ≤ table.rowIndex n := by
  have hcount : table.rows.countP (·.start ≤ m) ≤ table.rows.countP (·.start ≤ n) := by
    apply List.countP_mono_left
    intro row _ hrow
    rw [decide_eq_true_eq] at hrow ⊢
    exact Nat.le_trans hrow h
  exact Nat.sub_le_sub_right hcount 1

end LineTable

end ConfigAtlas
