import Mathlib
import ConfigAtlas.Proofs.Text.Bytes
import ConfigAtlas.Proofs.Text.Lines
import ConfigAtlas.Proofs.Text.Positions

/-!
# Rows found from positions

A table of rows undoes the splitting of a text at its line feeds: for each position it knows the
row, how far into the row it is, and the column. So does a table that counts in bytes, keeps no more
than where the rows start, and finds a row by halving.
-/

namespace ConfigAtlas

namespace Text

/-! ## Halving -/

/-- Of `size` places from `base` on, the last whose entry is not above `x`, or else the first. -/
def bisect (xs : List Nat) (x base size : Nat) : Nat :=
  if size ≤ 1 then base
  else
    let middle := base + size / 2
    bisect xs x (if xs.getD middle 0 ≤ x then middle else base) (size - size / 2)
termination_by size

/-- Where `x` is in an increasing list, or where it would have to be put in. -/
def search (xs : List Nat) (x : Nat) : Except Nat Nat :=
  match xs[bisect xs x 0 xs.length]? with
  | none => .error 0
  | some y =>
    let place := bisect xs x 0 xs.length
    if y = x then .ok place else .error (if y < x then place + 1 else place)

section

variable {xs : List Nat} (h : xs.Pairwise (· < ·))
include h

theorem bisect_eq (x : Nat) {base size : Nat} (hfit : base + size ≤ xs.length)
    (hlow : base ≤ xs.countP (· ≤ x) - 1) (hhigh : xs.countP (· ≤ x) - 1 < base + size) :
    bisect xs x base size = xs.countP (· ≤ x) - 1 := by
  fun_induction bisect xs x base size with
  | case1 base size hsize => omega
  | case2 base size hsize middle ih =>
    have hmiddle : middle < xs.length := by omega
    have hle := Lists.getElem_le_iff h x hmiddle
    rw [← List.getD_eq_getElem _ 0 hmiddle] at hle
    apply ih <;> split <;> omega

/-- Whether the entry is there or not, the search tells how many entries are not above it. -/
theorem search_eq (x : Nat) :
    (match search xs x with
      | .ok place => place
      | .error next => next - 1) = xs.countP (· ≤ x) - 1 := by
  have hcount : xs.countP (· ≤ x) ≤ xs.length := List.countP_le_length
  cases xs with
  | nil => rfl
  | cons y ys =>
    have hlt : (y :: ys).countP (· ≤ x) - 1 < (y :: ys).length := by
      rw [List.length_cons] at hcount ⊢
      omega
    have hplace : bisect (y :: ys) x 0 (y :: ys).length = (y :: ys).countP (· ≤ x) - 1 :=
      bisect_eq h x (by omega) (by omega) (by omega)
    have hle := Lists.getElem_le_iff h x hlt
    rw [search, hplace, List.getElem?_eq_getElem hlt]
    generalize (y :: ys)[(y :: ys).countP (· ≤ x) - 1] = z at hle
    rcases Nat.lt_trichotomy z x with hz | rfl | hz
    · simp [hz, Nat.ne_of_lt hz]
    · simp
    · have hzero : (y :: ys).countP (· ≤ x) = 0 := by omega
      simp [hzero, Nat.ne_of_gt hz, Nat.not_lt_of_gt hz]

end

/-! ## What is split at line feeds -/

/-- How many characters there are up to a line feed that is given by its number. -/
def behindFeed : List Char → Nat → Nat
  | _, 0 => 0
  | [], _ + 1 => 0
  | c :: t, k + 1 => (if c = '\n' then behindFeed t k else behindFeed t (k + 1)) + 1

theorem behindFeed_zero (t : List Char) : behindFeed t 0 = 0 := by
  cases t <;> rfl

theorem behindFeed_feed {row : List Char} (h : '\n' ∉ row) (rest : List Char) (k : Nat) :
    behindFeed (row ++ '\n' :: rest) (k + 1) = row.length + 1 + behindFeed rest k := by
  induction row with
  | nil =>
    rw [List.nil_append, behindFeed, if_pos rfl, List.length_nil]
    omega
  | cons c row ih =>
    rw [List.mem_cons, not_or] at h
    rw [List.cons_append, behindFeed, if_neg (Ne.symm h.1), ih h.2, List.length_cons]
    omega

theorem behindFeed_add_columnAt {t : List Char} {p : Nat} (hp : p ≤ t.length) :
    behindFeed t ((t.take p).count '\n') + columnAt t p = p := by
  induction t using line_induction generalizing p with
  | last row hrow =>
    have hcolumn := columnAt_append hrow hp []
    have hcount := count_take_of_le hrow hp []
    rw [List.append_nil] at hcolumn hcount
    rw [hcount, hcolumn, behindFeed_zero, Nat.zero_add]
  | feed row rest hrow ih =>
    rcases position_cases hp with hfirst | ⟨q, hq, rfl⟩
    · rw [count_take_of_le hrow hfirst, columnAt_append hrow hfirst, behindFeed_zero, Nat.zero_add]
    · have hrest := ih hq
      rw [take_append_feed, count_feed hrow, behindFeed_feed hrow, columnAt_append_feed]
      omega

theorem take_behindFeed_append {t : List Char} {p : Nat} (hp : p ≤ t.length) :
    t.take (behindFeed t ((t.take p).count '\n')) ++ lastLine (t.take p) = t.take p := by
  have hsum := behindFeed_add_columnAt hp
  have hsuffix : lastLine (t.take p) <:+ t.take p :=
    List.reverse_prefix.mp (by simpa [lastLine] using List.takeWhile_prefix _)
  have happ := List.suffix_iff_eq_append.mp hsuffix
  rwa [List.length_take, Nat.min_eq_left hp, ← columnAt, List.take_take,
    Nat.min_eq_left (Nat.sub_le p _), Nat.sub_eq_of_eq_add hsum.symm] at happ

theorem length_splitOn_feed (t : List Char) : (t.splitOn '\n').length = t.count '\n' + 1 := by
  induction t using line_induction with
  | last row hrow => rw [List.splitOn_eq_singleton hrow, List.count_eq_zero.mpr hrow]; rfl
  | feed row rest hrow ih =>
    rw [List.splitOn_append_cons_self_of_not_mem hrow, List.length_cons, ih, count_feed hrow]

theorem dropReturn_getD_past {t : List Char} {k : Nat} (h : t.count '\n' + 1 ≤ k) :
    dropReturn ((t.splitOn '\n').getD k []) = [] := by
  rw [← length_splitOn_feed] at h
  rw [List.getD_eq_default _ _ h]
  rfl

/-! ## Byte offsets in a row -/

/-- How many characters of a row stand before an offset that is counted in bytes. One at which the
row cannot be cut is taken for its end. -/
def charsBefore (row : List Char) (bytes : Nat) : Nat :=
  match takeBytes? bytes row with
  | some front => front.length
  | none => row.length

theorem charsBefore_byteSize {row front : List Char} (h : front <+: row ∨ row <+: front) :
    charsBefore row (byteSize front) = min front.length row.length := by
  rcases h with ⟨rest, rfl⟩ | ⟨rest, rfl⟩
  · have hcut := takeBytes?_byteAt (front ++ rest) front.length
    rw [byteAt, List.take_left] at hcut
    rw [charsBefore, hcut, Nat.min_eq_left (by simp)]
  · cases rest with
    | nil =>
      have hcut := takeBytes?_byteAt row row.length
      rw [byteAt, List.take_length] at hcut
      rw [List.append_nil, charsBefore, hcut, Nat.min_self]
    | cons c rest =>
      have hrest := byteSize_pos (List.cons_ne_nil c rest)
      have hlt : byteSize row < byteSize (row ++ c :: rest) := by
        rw [byteSize_append]
        omega
      rw [charsBefore, takeBytes?_of_byteSize_lt hlt, Nat.min_eq_right (by simp)]

theorem length_le_of_byteSize_le {row front : List Char} (h : front <+: row ∨ row <+: front)
    (hbytes : byteSize front ≤ byteSize row) : front.length ≤ row.length := by
  rcases h with h | ⟨rest, rfl⟩
  · exact h.length_le
  · have hrest := length_le_byteSize rest
    rw [byteSize_append] at hbytes
    rw [List.length_append]
    omega

theorem slice?_append (a b c : List Char) :
    slice? (byteSize a) (byteSize a + byteSize b) (a ++ (b ++ c)) = some b := by
  have hcut := slice?_byteAt (Nat.le_add_right a.length b.length) (a ++ (b ++ c))
  rw [byteAt, byteAt, List.take_left, List.take_length_add_append, List.take_left,
    byteSize_append, List.drop_left, Nat.add_sub_cancel_left, List.take_left] at hcut
  exact hcut

theorem rest_of_line_or_longer (t : List Char) (p : Nat) :
    lastLine (t.take p) <+: (lineAt t p).text ∨ (lineAt t p).text <+: lastLine (t.take p) :=
  List.prefix_or_prefix_of_prefix (List.prefix_append _ _) (dropReturn_isPrefix _)

end Text

/-! ## What a table answers -/

/-- What a table of rows answers, in characters or in bytes. -/
structure RowAnswers where
  rowIndex : Nat → Nat
  offset : Nat → Nat
  column : Nat → Nat
  row : Nat → List Char
  count : Nat

/-- The answers undo the splitting of a text at its line feeds, with positions measured by what
stands before them. -/
structure RowAnswers.Inverts (a : RowAnswers) (measure : List Char → Nat) (t : List Char) :
    Prop where
  rowIndex_eq : ∀ p ≤ t.length, a.rowIndex (measure (t.take p)) = (t.take p).count '\n'
  offset_eq : ∀ p ≤ t.length, a.offset (measure (t.take p)) =
    measure (t.take p) - measure (t.take (Text.behindFeed t ((t.take p).count '\n')))
  column_eq : ∀ p ≤ t.length,
    a.offset (measure (t.take p)) ≤ measure (a.row (a.rowIndex (measure (t.take p)))) →
      a.column (measure (t.take p)) = p - Text.behindFeed t ((t.take p).count '\n')
  row_eq : ∀ k piece, (t.splitOn '\n')[k]? = some piece → a.row k = Text.dropReturn piece
  count_eq : a.count = t.count '\n' + 1
  row_past : ∀ k, a.count ≤ k → a.row k = []

namespace LineTable

def answers (table : LineTable) : RowAnswers where
  rowIndex := table.rowIndex
  offset := table.offset
  column := table.column
  row k := (table.row k).text
  count := table.count

theorem count_ofContent (t : List Char) : (ofContent t).count = t.count '\n' + 1 := by
  have htexts := congrArg List.length (Piece.map_text_consecutive 0 (t.splitOn '\n'))
  rw [List.length_map, Text.length_splitOn_feed] at htexts
  rw [count, ofContent, List.length_map, htexts]

theorem text_row_ofContent (t : List Char) (k : Nat) :
    ((ofContent t).row k).text = Text.dropReturn ((t.splitOn '\n').getD k []) := by
  have htexts := congrArg (·[k]?) (Piece.map_text_consecutive 0 (t.splitOn '\n'))
  simp only [List.getElem?_map] at htexts
  rw [List.getD_eq_getElem?_getD, ← htexts, row, ofContent, List.getD_eq_getElem?_getD,
    List.getElem?_map]
  cases (Piece.consecutive 0 (t.splitOn '\n'))[k]? <;> rfl

theorem offset_ofContent {t : List Char} {p : Nat} (hp : p ≤ t.length) :
    (ofContent t).offset p = Text.columnAt t p := by
  have hle := Text.columnAt_le t p
  rw [offset, row_rowIndex_ofContent hp, Nat.sub_sub_self hle]

theorem answers_inverts (t : List Char) : (ofContent t).answers.Inverts List.length t where
  rowIndex_eq p hp := by
    rw [List.length_take, Nat.min_eq_left hp]
    exact rowIndex_ofContent hp
  offset_eq p hp := by
    have hsum := Text.behindFeed_add_columnAt hp
    have hoffset := offset_ofContent hp
    rw [List.length_take, List.length_take, Nat.min_eq_left hp, Nat.min_eq_left (by omega)]
    exact hoffset.trans (Nat.eq_sub_of_add_eq' hsum)
  column_eq p hp := by
    have hsum := Text.behindFeed_add_columnAt hp
    have hrow := congrArg Piece.text (row_rowIndex_ofContent hp)
    have hcolumn := column_ofContent hp
    simp only [answers, List.length_take, Nat.min_eq_left hp, hrow, offset_ofContent hp]
    omega
  row_eq k piece hk := by
    have hrow := text_row_ofContent t k
    rwa [List.getD_eq_getElem?_getD, hk, Option.getD_some] at hrow
  count_eq := count_ofContent t
  row_past k hk := (text_row_ofContent t k).trans
    (Text.dropReturn_getD_past ((count_ofContent t).ge.trans hk))

end LineTable

/-! ## Rows by bytes -/

/-- A text and where its rows start, counted in bytes. -/
structure ByteTable where
  content : List Char
  starts : List Nat

namespace ByteTable

open Text (byteSize byteAt behindFeed)

/-- The bytes behind the line feeds of a text that starts at this byte. -/
def feedEnds (offset : Nat) : List Char → List Nat
  | [] => []
  | c :: t => (if c = '\n' then [offset + 1] else []) ++ feedEnds (offset + c.utf8Size) t

def ofContent (content : List Char) : ByteTable := ⟨content, 0 :: feedEnds 0 content⟩

def count (table : ByteTable) : Nat := table.starts.length

/-- By halving. A byte that starts no row is in the row before. -/
def rowIndex (table : ByteTable) (position : Nat) : Nat :=
  match Text.search table.starts position with
  | .ok row => row
  | .error next => next - 1

/-- A row ends before the line feed in front of the next one. -/
def row (table : ByteTable) (index : Nat) : List Char :=
  match table.starts[index]? with
  | none => []
  | some start =>
    let stop := match table.starts[index + 1]? with
      | some next => next - 1
      | none => byteSize table.content
    Text.dropReturn ((Text.slice? start stop table.content).getD [])

def offset (table : ByteTable) (position : Nat) : Nat :=
  position - (table.starts[table.rowIndex position]?).getD 0

def column (table : ByteTable) (position : Nat) : Nat :=
  Text.charsBefore (table.row (table.rowIndex position)) (table.offset position)

/-! ## Where the rows start -/

theorem feedEnds_append (offset : Nat) (s t : List Char) :
    feedEnds offset (s ++ t) = feedEnds offset s ++ feedEnds (offset + byteSize s) t := by
  induction s generalizing offset with
  | nil => rfl
  | cons c s ih =>
    rw [List.cons_append, feedEnds, feedEnds, ih, byteSize, List.append_assoc, Nat.add_assoc]

theorem feedEnds_row (offset : Nat) {row : List Char} (h : '\n' ∉ row) :
    feedEnds offset row = [] := by
  induction row generalizing offset with
  | nil => rfl
  | cons c row ih =>
    rw [List.mem_cons, not_or] at h
    rw [feedEnds, if_neg (Ne.symm h.1), ih _ h.2]
    rfl

theorem feedEnds_feed (offset : Nat) {row : List Char} (h : '\n' ∉ row) (rest : List Char) :
    feedEnds offset (row ++ '\n' :: rest) =
      (offset + byteSize row + 1) :: feedEnds (offset + byteSize row + 1) rest := by
  rw [feedEnds_append, feedEnds_row offset h, feedEnds, if_pos rfl]
  rfl

theorem lt_of_mem_feedEnds {offset : Nat} {t : List Char} {n : Nat} (h : n ∈ feedEnds offset t) :
    offset < n := by
  induction t generalizing offset with
  | nil => cases h
  | cons c t ih =>
    rw [feedEnds, List.mem_append] at h
    rcases h with h | h
    · rw [List.mem_ite_nil_right, List.mem_singleton] at h
      omega
    · have := ih h
      omega

theorem pairwise_starts (offset : Nat) (t : List Char) :
    (offset :: feedEnds offset t).Pairwise (· < ·) := by
  induction t using Text.line_induction generalizing offset with
  | last row hrow =>
    rw [feedEnds_row offset hrow]
    exact List.pairwise_singleton _ _
  | feed row rest hrow ih =>
    refine List.pairwise_cons.mpr ⟨fun n hn => lt_of_mem_feedEnds hn, ?_⟩
    rw [feedEnds_feed offset hrow]
    exact ih _

theorem byteAt_behind_row (row rest : List Char) (n : Nat) :
    byteAt (row ++ '\n' :: rest) (row.length + (n + 1)) = byteSize row + 1 + byteAt rest n := by
  rw [byteAt, Text.take_append_feed, Text.byteSize_append, byteSize, ← byteAt, ← Nat.add_assoc]
  rfl

theorem countP_starts (offset : Nat) {t : List Char} {p : Nat} (hp : p ≤ t.length) :
    (offset :: feedEnds offset t).countP (· ≤ offset + byteAt t p) =
      (t.take p).count '\n' + 1 := by
  rw [List.countP_cons_of_pos (by simp)]
  induction t using Text.line_induction generalizing offset p with
  | last row hrow =>
    have hcount := Text.count_take_of_le hrow hp []
    rw [List.append_nil] at hcount
    rw [feedEnds_row offset hrow, hcount]
    rfl
  | feed row rest hrow ih =>
    rw [feedEnds_feed offset hrow]
    rcases Text.position_cases hp with hfirst | ⟨q, hq, rfl⟩
    · -- In the first row no later start is reached.
      have hfront : byteAt (row ++ '\n' :: rest) p ≤ byteSize row := by
        rw [byteAt, List.take_append_of_le_length hfirst]
        exact Text.byteAt_le row p
      rw [Text.count_take_of_le hrow hfirst, List.countP_eq_zero.mpr]
      intro n hn
      have hlater : offset + byteSize row + 1 ≤ n := by
        rcases List.mem_cons.mp hn with rfl | hn
        · exact Nat.le_refl _
        · exact Nat.le_of_lt (lt_of_mem_feedEnds hn)
      rw [decide_eq_true_eq]
      omega
    · have hrest := ih (offset + byteSize row + 1) hq
      have hat : offset + (byteSize row + 1 + byteAt rest q) =
          offset + byteSize row + 1 + byteAt rest q := by omega
      rw [byteAt_behind_row, hat, List.countP_cons_of_pos (by simp), hrest, Text.take_append_feed,
        Text.count_feed hrow]

theorem getElem?_starts (offset : Nat) (t : List Char) (k : Nat) :
    (offset :: feedEnds offset t)[k]? =
      if k ≤ t.count '\n' then some (offset + byteAt t (behindFeed t k)) else none := by
  induction t using Text.line_induction generalizing offset k with
  | last row hrow =>
    rw [feedEnds_row offset hrow, List.count_eq_zero.mpr hrow]
    cases k with
    | zero => rw [Text.behindFeed_zero]; rfl
    | succ k => simp
  | feed row rest hrow ih =>
    cases k with
    | zero => rw [Text.behindFeed_zero]; rfl
    | succ k =>
      rw [feedEnds_feed offset hrow, List.getElem?_cons_succ, ih, Text.count_feed hrow,
        Text.behindFeed_feed hrow, Nat.add_assoc row.length, Nat.add_comm 1, byteAt_behind_row]
      simp [Nat.add_assoc]

theorem length_feedEnds (offset : Nat) (t : List Char) :
    (feedEnds offset t).length = t.count '\n' := by
  induction t using Text.line_induction generalizing offset with
  | last row hrow => rw [feedEnds_row offset hrow, List.count_eq_zero.mpr hrow]; rfl
  | feed row rest hrow ih =>
    rw [feedEnds_feed offset hrow, List.length_cons, ih, Text.count_feed hrow]

theorem count_ofContent (t : List Char) : (ofContent t).count = t.count '\n' + 1 := by
  rw [count, ofContent, List.length_cons, length_feedEnds]

/-! ## The rows -/

theorem row_behind (before t : List Char) (k : Nat) :
    (ByteTable.mk (before ++ t) (byteSize before :: feedEnds (byteSize before) t)).row k =
      Text.dropReturn ((t.splitOn '\n').getD k []) := by
  induction t using Text.line_induction generalizing before k with
  | last row hrow =>
    have hslice := Text.slice?_append before row []
    rw [List.append_nil] at hslice
    rw [feedEnds_row _ hrow, List.splitOn_eq_singleton hrow]
    cases k with
    | zero => simp [ByteTable.row, Text.byteSize_append, hslice]
    | succ k => simp [ByteTable.row, Text.dropReturn]
  | feed row rest hrow ih =>
    rw [feedEnds_feed _ hrow, List.splitOn_append_cons_self_of_not_mem hrow]
    cases k with
    | zero => simp [ByteTable.row, Text.slice?_append]
    | succ k =>
      have hbefore : byteSize (before ++ (row ++ ['\n'])) = byteSize before + byteSize row + 1 := by
        rw [Text.byteSize_append, Text.byteSize_append, ← Nat.add_assoc]
        rfl
      have hrest := ih (before ++ (row ++ ['\n'])) k
      rw [hbefore, List.append_assoc, List.append_assoc, List.singleton_append] at hrest
      rw [List.getD_cons_succ, ← hrest, ByteTable.row, ByteTable.row, List.getElem?_cons_succ,
        List.getElem?_cons_succ]

theorem row_ofContent (t : List Char) (k : Nat) :
    (ofContent t).row k = Text.dropReturn ((t.splitOn '\n').getD k []) :=
  row_behind [] t k

/-! ## What is found -/

section

variable {t : List Char} {p : Nat} (hp : p ≤ t.length)
include hp

theorem rowIndex_ofContent :
    (ofContent t).rowIndex (byteAt t p) = (t.take p).count '\n' := by
  have hcount := countP_starts 0 hp
  rw [Nat.zero_add] at hcount
  rw [rowIndex, ofContent, Text.search_eq (pairwise_starts 0 t), hcount, Nat.add_sub_cancel]

theorem offset_ofContent : (ofContent t).offset (byteAt t p) =
    byteAt t p - byteAt t (behindFeed t ((t.take p).count '\n')) := by
  have hfeeds : (t.take p).count '\n' ≤ t.count '\n' := (List.take_sublist p t).count_le '\n'
  rw [offset, rowIndex_ofContent hp, ofContent, getElem?_starts, if_pos hfeeds, Nat.zero_add,
    Option.getD_some]

theorem offset_eq_byteSize_lastLine :
    (ofContent t).offset (byteAt t p) = byteSize (Text.lastLine (t.take p)) := by
  have hfront := congrArg byteSize (Text.take_behindFeed_append hp)
  rw [Text.byteSize_append, ← byteAt, ← byteAt] at hfront
  rw [offset_ofContent hp]
  omega

theorem row_rowIndex_ofContent :
    (ofContent t).row ((ofContent t).rowIndex (byteAt t p)) = (Text.lineAt t p).text := by
  have hrow := congrArg Piece.text (LineTable.row_rowIndex_ofContent hp)
  rw [LineTable.text_row_ofContent, LineTable.rowIndex_ofContent hp] at hrow
  rw [row_ofContent, rowIndex_ofContent hp]
  exact hrow

theorem column_ofContent : (ofContent t).column (byteAt t p) =
    min (Text.columnAt t p) (Text.lineAt t p).text.length := by
  rw [column, row_rowIndex_ofContent hp, offset_eq_byteSize_lastLine hp,
    Text.charsBefore_byteSize (Text.rest_of_line_or_longer t p), Text.columnAt]

end

def answers (table : ByteTable) : RowAnswers where
  rowIndex := table.rowIndex
  offset := table.offset
  column := table.column
  row := table.row
  count := table.count

theorem answers_inverts (t : List Char) : (ofContent t).answers.Inverts byteSize t where
  rowIndex_eq p hp := rowIndex_ofContent hp
  offset_eq p hp := offset_ofContent hp
  column_eq p hp hfits := by
    have hsum := Text.behindFeed_add_columnAt hp
    have hbytes : byteSize (Text.lastLine (t.take p)) ≤ byteSize (Text.lineAt t p).text := by
      rw [← offset_eq_byteSize_lastLine hp, ← row_rowIndex_ofContent hp]
      exact hfits
    have hshort : Text.columnAt t p ≤ (Text.lineAt t p).text.length :=
      Text.length_le_of_byteSize_le (Text.rest_of_line_or_longer t p) hbytes
    have hcolumn := column_ofContent hp
    rw [Nat.min_eq_left hshort] at hcolumn
    exact hcolumn.trans (Nat.eq_sub_of_add_eq' hsum)
  row_eq k piece hk := by
    have hrow := row_ofContent t k
    rwa [List.getD_eq_getElem?_getD, hk, Option.getD_some] at hrow
  count_eq := count_ofContent t
  row_past k hk := (row_ofContent t k).trans
    (Text.dropReturn_getD_past ((count_ofContent t).ge.trans hk))

end ByteTable

/-- Both tables undo the splitting of a text, and agree on the column of every position. -/
theorem rows_found_from_positions (t : List Char) :
    (LineTable.ofContent t).answers.Inverts List.length t ∧
      (ByteTable.ofContent t).answers.Inverts Text.byteSize t ∧
        ∀ p ≤ t.length, (ByteTable.ofContent t).column (Text.byteAt t p) =
          (LineTable.ofContent t).column p :=
  ⟨LineTable.answers_inverts t, ByteTable.answers_inverts t, fun _ hp =>
    (ByteTable.column_ofContent hp).trans (LineTable.column_ofContent hp).symm⟩

/-- The `=` stands behind a character of two bytes, in a row behind an empty one. -/
theorem row_found_behind_empty_row :
    let table := ByteTable.ofContent ['é', '\r', '\n', '\n', 'ü', '=', '1']
    table.rowIndex 7 = 2 ∧ table.offset 7 = 2 ∧ table.column 7 = 1 ∧ table.row 0 = ['é'] ∧
      table.row 3 = [] := by
  obtain ⟨-, hbytes, hsame⟩ := rows_found_from_positions ['é', '\r', '\n', '\n', 'ü', '=', '1']
  have hrow := hbytes.rowIndex_eq 5 (by decide)
  have hoffset := hbytes.offset_eq 5 (by decide)
  have hcolumn := hsame 5 (by decide)
  have hfirst := hbytes.row_eq 0 ['é', '\r'] (by decide)
  have hpast := hbytes.row_past 3 (by rw [hbytes.count_eq]; decide)
  exact ⟨hrow, hoffset, hcolumn, hfirst, hpast⟩

end ConfigAtlas
