import ConfigAtlas.Place

/-! # Lines put together and read again -/

namespace ConfigAtlas

namespace Text

/-- Lines as one text. The last one may go without its line feed. -/
def unlines (lastOpen : Bool) : List (List Char) → List Char
  | [] => []
  | [row] => if lastOpen then row else row ++ ['\n']
  | row :: rest => row ++ '\n' :: unlines lastOpen rest

/-- What a line must be to come out of a text as it went in. -/
structure IsLine (row : List Char) : Prop where
  ne_nil : row ≠ []
  feed_not_mem : '\n' ∉ row
  no_return : row.getLast? ≠ some '\r'

theorem IsLine.prepend {row front : List Char} (h : IsLine row) (hfront : '\n' ∉ front) :
    IsLine (front ++ row) where
  ne_nil := by simp [h.ne_nil]
  feed_not_mem := by simp [hfront, h.feed_not_mem]
  no_return := by
    have hlast := List.getLast?_eq_some_getLast h.ne_nil
    rw [List.getLast?_append, hlast, Option.some_or, ← hlast]
    exact h.no_return

theorem dropReturn_eq_self {row : List Char} (h : row.getLast? ≠ some '\r') :
    dropReturn row = row := by
  rw [dropReturn, if_neg h]

theorem dropReturn_of_not_mem {row : List Char} (h : '\r' ∉ row) : dropReturn row = row :=
  dropReturn_eq_self fun hlast => h (List.mem_of_getLast? hlast)

theorem lines_nil : lines [] = [] := by
  simp [lines]

theorem lines_append_feed {row : List Char} (h : '\n' ∉ row) (t : List Char) :
    lines (row ++ '\n' :: t) = dropReturn row :: lines t := by
  obtain ⟨part, parts, hparts⟩ := List.exists_cons_of_ne_nil (List.splitOn_ne_nil '\n' t)
  simp [lines, List.splitOn_append_cons_self_of_not_mem h, hparts]

theorem lines_of_feed_not_mem {row : List Char} (h : '\n' ∉ row) (hne : row ≠ []) :
    lines row = [row] := by
  simp [lines, List.splitOn_eq_singleton h, hne]

theorem lines_unlines (lastOpen : Bool) {rows : List (List Char)} (h : ∀ row ∈ rows, IsLine row) :
    lines (unlines lastOpen rows) = rows := by
  fun_induction unlines lastOpen rows with
  | case1 => exact lines_nil
  | case2 row hopen =>
    have hrow := h row (by simp)
    exact lines_of_feed_not_mem hrow.feed_not_mem hrow.ne_nil
  | case3 row hopen =>
    have hrow := h row (by simp)
    rw [lines_append_feed hrow.feed_not_mem, lines_nil, dropReturn_eq_self hrow.no_return]
  | case4 row rest hrest ih =>
    have hrow := h row (by simp)
    rw [lines_append_feed hrow.feed_not_mem, dropReturn_eq_self hrow.no_return,
      ih fun r hr => h r (List.mem_cons_of_mem _ hr)]

theorem dropReturn_isPrefix (t : List Char) : dropReturn t <+: t := by
  rw [dropReturn]
  split
  · exact List.dropLast_prefix t
  · exact List.prefix_rfl

theorem length_dropReturn_le (t : List Char) : (dropReturn t).length ≤ t.length :=
  (dropReturn_isPrefix t).length_le

theorem length_flatten_rows_le (parts : List (List Char)) :
    (parts.dropLast.map dropReturn ++
        parts.getLast?.toList.filter (!·.isEmpty)).flatten.length ≤
      (['\n'].intercalate parts).length := by
  induction parts with
  | nil => simp
  | cons part rest ih =>
    cases rest with
    | nil => cases part <;> simp
    | cons next rest =>
      have hpart := length_dropReturn_le part
      rw [List.dropLast_cons_cons, List.getLast?_cons_cons, List.map_cons, List.cons_append,
        List.flatten_cons, List.length_append, List.intercalate_cons_cons, List.length_append,
        List.length_append]
      omega

theorem length_flatten_lines_le (t : List Char) : (lines t).flatten.length ≤ t.length := by
  have hrows := length_flatten_rows_le (t.splitOn '\n')
  rwa [List.intercalate_splitOn] at hrows

end Text

/-! ## Numbers -/

namespace Line

def numbered (n : Nat) : List (List Char) → List Line
  | [] => []
  | text :: rest => ⟨n, text⟩ :: numbered (n + 1) rest

@[simp] theorem numbered_append (n : Nat) (a b : List (List Char)) :
    numbered n (a ++ b) = numbered n a ++ numbered (n + a.length) b := by
  induction a generalizing n with
  | nil => rfl
  | cons t rest ih => simp [numbered, ih, Nat.add_comm, Nat.add_left_comm]

theorem mapIdx_eq_numbered (n : Nat) (rows : List (List Char)) :
    rows.mapIdx (fun i text => (⟨n + i, text⟩ : Line)) = numbered n rows := by
  induction rows generalizing n with
  | nil => rfl
  | cons t rest ih =>
    rw [List.mapIdx_cons, numbered, ← ih (n + 1)]
    simp [Nat.add_assoc, Nat.add_comm 1]

theorem ofContent_eq (content : List Char) :
    ofContent content = numbered 1 (Text.lines content) := by
  rw [ofContent, ← mapIdx_eq_numbered]
  simp [Nat.add_comm 1]

theorem ofContent_unlines (lastOpen : Bool) {rows : List (List Char)}
    (h : ∀ row ∈ rows, Text.IsLine row) :
    ofContent (Text.unlines lastOpen rows) = numbered 1 rows := by
  rw [ofContent_eq, Text.lines_unlines lastOpen h]

theorem number_of_mem_numbered {n : Nat} {rows : List (List Char)} {l : Line}
    (h : l ∈ numbered n rows) : n ≤ l.number ∧ l.number < n + rows.length := by
  induction rows generalizing n with
  | nil => cases h
  | cons t rest ih =>
    rw [List.length_cons]
    rcases List.mem_cons.mp h with rfl | h
    · simp only
      omega
    · have := ih h
      omega

theorem map_text_numbered (n : Nat) (rows : List (List Char)) :
    (numbered n rows).map text = rows := by
  induction rows generalizing n with
  | nil => rfl
  | cons t rest ih => rw [numbered, List.map_cons, ih]

theorem length_flatMap_ofContent_le (content : List Char) :
    ((ofContent content).flatMap text).length ≤ content.length := by
  rw [List.flatMap_def, ofContent_eq, map_text_numbered]
  exact Text.length_flatten_lines_le content

end Line

end ConfigAtlas
