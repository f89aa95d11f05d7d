import ConfigAtlas.Proofs.Outline.Reading
import ConfigAtlas.Proofs.Path.Branches
import ConfigAtlas.Proofs.Text.Lines

/-! # The rows of a block are lines, and its entries have paths of their own -/

namespace ConfigAtlas.Outline

/-! ## Lines -/

theorem Word.isLine (w : Word) : Text.IsLine w.text where
  ne_nil := w.ne_nil
  feed_not_mem := w.not_mem (by decide)
  no_return := by
    intro hlast
    exact w.not_mem (by decide) (List.mem_of_getLast? hlast)

theorem Scalar.isLine (v : Scalar) : Text.IsLine v.written := by
  cases v with
  | word w => exact w.isLine
  | literal text feed_not_mem =>
    refine ⟨by simp [written, Text.literal], Text.feed_not_mem_literal feed_not_mem, ?_⟩
    simp [written, Text.literal, List.getLast?_cons]

theorem feed_not_mem_spaces (n : Nat) : '\n' ∉ spaces n := by
  intro hmem
  exact absurd (List.eq_of_mem_replicate hmem) (by decide)

structure Print.IsLines (p : Print) : Prop where
  head : Text.IsLine p.head
  tail : ∀ row ∈ p.tail, Text.IsLine row.text

theorem Print.IsLines.rows {p : Print} (h : p.IsLines) (column : Nat) :
    ∀ row ∈ p.rows column, Text.IsLine row.text := by
  intro row hrow
  rcases List.mem_cons.mp hrow with rfl | hrow
  · exact h.head.prepend (feed_not_mem_spaces column)
  · exact h.tail row hrow

theorem isLine_colon (key : Word) : Text.IsLine (key.text ++ [':']) := by
  refine Text.IsLine.prepend ⟨by simp, by decide, by decide⟩ key.isLine.feed_not_mem

mutual

theorem Block.isLines (b : Block) (base : Path) (column : Nat) :
    (b.print base column).IsLines := by
  cases b with
  | mapping first rest =>
    have hfirst := first.isLines base column
    refine ⟨hfirst.head, ?_⟩
    intro row hrow
    rcases List.mem_append.mp hrow with hrow | hrow
    · exact hfirst.tail row hrow
    · exact fieldRows_isLine rest base column row hrow
  | list first rest =>
    have hfirst := first.isLines base column 0
    refine ⟨hfirst.head, ?_⟩
    intro row hrow
    rcases List.mem_append.mp hrow with hrow | hrow
    · exact hfirst.tail row hrow
    · exact itemRows_isLine rest base column 1 row hrow

theorem Field.isLines (f : Field) (base : Path) (column : Nat) :
    (f.print base column).IsLines := by
  cases f with
  | scalar key value =>
    refine ⟨?_, by simp [Field.print]⟩
    have hvalue : Text.IsLine ([':', ' '] ++ value.written) := value.isLine.prepend (by decide)
    exact hvalue.prepend key.isLine.feed_not_mem
  | nested key extra child =>
    exact ⟨isLine_colon key, (child.isLines _ _).rows _⟩
  | level key first rest =>
    refine ⟨isLine_colon key, ?_⟩
    intro row hrow
    rcases List.mem_append.mp hrow with hrow | hrow
    · exact (first.isLines _ _ _).rows _ row hrow
    · exact itemRows_isLine rest _ _ _ row hrow

theorem Item.isLines (i : Item) (base : Path) (column n : Nat) :
    (i.print base column n).IsLines := by
  cases i with
  | scalar value =>
    have hvalue : Text.IsLine (['-', ' '] ++ value.written) := value.isLine.prepend (by decide)
    exact ⟨hvalue, by simp [Item.print]⟩
  | nested extra child =>
    exact ⟨⟨by simp [Item.print], by simp [Item.print], by simp [Item.print]⟩,
      (child.isLines _ _).rows _⟩
  | inline gap child =>
    have hchild := child.isLines (base.element n) (column + gap + 2)
    refine ⟨?_, hchild.tail⟩
    have hmarker : '\n' ∉ '-' :: spaces (gap + 1) := by
      simp [feed_not_mem_spaces]
    exact hchild.head.prepend hmarker

theorem fieldRows_isLine (fs : List Field) (base : Path) (column : Nat) :
    ∀ row ∈ fieldRows base column fs, Text.IsLine row.text := by
  cases fs with
  | nil => simp [fieldRows]
  | cons f rest =>
    intro row hrow
    rcases List.mem_append.mp hrow with hrow | hrow
    · exact (f.isLines base column).rows column row hrow
    · exact fieldRows_isLine rest base column row hrow

theorem itemRows_isLine (is : List Item) (base : Path) (column n : Nat) :
    ∀ row ∈ itemRows base column n is, Text.IsLine row.text := by
  cases is with
  | nil => simp [itemRows]
  | cons i rest =>
    intro row hrow
    rcases List.mem_append.mp hrow with hrow | hrow
    · exact (i.isLines base column n).rows column row hrow
    · exact itemRows_isLine rest base column (n + 1) row hrow

end

/-! ## Paths -/

def rowPaths (rows : List Row) : List Path := rows.flatMap fun row => row.marks.map Mark.path

def Print.paths (p : Print) : List Path := p.marks.map Mark.path ++ rowPaths p.tail

theorem rowPaths_append (rows more : List Row) :
    rowPaths (rows ++ more) = rowPaths rows ++ rowPaths more := List.flatMap_append

theorem rowPaths_rows (p : Print) (column : Nat) : rowPaths (p.rows column) = p.paths := rfl

theorem map_path_rowRecords (n : Nat) (rows : List Row) :
    (rowRecords n rows).map Record.path = rowPaths rows := by
  induction rows generalizing n with
  | nil => rfl
  | cons row rest ih =>
    rw [rowRecords, List.map_append, ih, List.map_map]
    rfl

section

open ConfigAtlas.Path (Branching NoKey)

variable {base : Path} {qs : List Path} {branches : List Segment → Prop}

theorem branching_field (hbase : NoKey base) (key : Word)
    (h : Branching branches (base.field (String.ofList key.text)).segments qs) :
    Branching (· = [.field (String.ofList key.text)]) base.segments
      (base.field (String.ofList key.text) :: qs) :=
  .cons rfl (by simp) (hbase.field _) h

theorem branching_element (hbase : NoKey base) (n : Nat)
    (h : Branching branches (base.element n).segments qs) :
    Branching (· = [.index n]) base.segments (base.element n :: qs) :=
  .cons rfl (by simp) (hbase.element n) h

theorem apart_index {n j : Nat} (h : n < j) : Path.Apart [.index n] [.index j] := by
  apply Path.apart_cons
  intro heq
  have := Segment.index.inj heq
  omega

theorem apart_field {key other : Word} (h : key.text ≠ other.text) :
    Path.Apart [.field (String.ofList key.text)] [.field (String.ofList other.text)] := by
  apply Path.apart_cons
  intro heq
  exact h (String.ofList_inj.mp (Segment.field.inj heq))

end

mutual

theorem Block.branching (b : Block) (h : b.DistinctKeys) {base : Path} (hbase : base.NoKey)
    (column : Nat) :
    Path.Branching (fun _ => True) base.segments (b.print base column).paths := by
  cases b with
  | mapping first rest =>
    obtain ⟨hkeys, hfirst, hrest⟩ := h
    rw [List.map_cons, List.nodup_cons] at hkeys
    have hjoined := (first.branching hfirst hbase column).append
      (fieldRows_branching rest hkeys.2 hrest hbase column) ?_
    · rw [Print.paths, Block.print, rowPaths_append, ← List.append_assoc]
      exact hjoined.mono fun _ _ => trivial
    · rintro - - rfl ⟨f, hf, rfl⟩
      apply apart_field
      intro heq
      apply hkeys.1
      rw [heq]
      exact List.mem_map_of_mem hf
  | list first rest =>
    have hjoined := (first.branching h.1 hbase column 0).append
      (itemRows_branching rest h.2 hbase column 1) ?_
    · rw [Print.paths, Block.print, rowPaths_append, ← List.append_assoc]
      exact hjoined.mono fun _ _ => trivial
    · rintro - - rfl ⟨j, hj, rfl⟩
      exact apart_index (by omega)

theorem Field.branching (f : Field) (h : f.DistinctKeys) {base : Path} (hbase : base.NoKey)
    (column : Nat) :
    Path.Branching (· = [.field (String.ofList f.key.text)]) base.segments
      (f.print base column).paths := by
  cases f with
  | scalar key value =>
    have hnone : Path.Branching (fun _ => True) (base.field (String.ofList key.text)).segments [] :=
      .nil
    exact branching_field hbase key hnone
  | nested key extra child =>
    exact branching_field hbase key (child.branching h (hbase.field _) _)
  | level key first rest =>
    have hkey := hbase.field (String.ofList key.text)
    have hjoined := (first.branching h.1 hkey column 0).append
      (itemRows_branching rest h.2 hkey column 1) ?_
    · have hlist := branching_field hbase key hjoined
      rw [← rowPaths_rows _ column, ← rowPaths_append] at hlist
      exact hlist
    · rintro - - rfl ⟨j, hj, rfl⟩
      exact apart_index (by omega)

theorem Item.branching (i : Item) (h : i.DistinctKeys) {base : Path} (hbase : base.NoKey)
    (column n : Nat) :
    Path.Branching (· = [.index n]) base.segments (i.print base column n).paths := by
  cases i with
  | scalar value =>
    have hnone : Path.Branching (fun _ => True) (base.element n).segments [] := .nil
    exact branching_element hbase n hnone
  | nested extra child =>
    exact branching_element hbase n (child.branching h (hbase.element n) _)
  | inline gap child =>
    exact branching_element hbase n (child.branching h (hbase.element n) _)

theorem fieldRows_branching (fs : List Field) (hkeys : (fs.map fun f => f.key.text).Nodup)
    (h : fieldsDistinct fs) {base : Path} (hbase : base.NoKey) (column : Nat) :
    Path.Branching (fun branch => ∃ f ∈ fs, branch = [.field (String.ofList f.key.text)])
      base.segments (rowPaths (fieldRows base column fs)) := by
  cases fs with
  | nil => exact .nil
  | cons f rest =>
    rw [List.map_cons, List.nodup_cons] at hkeys
    have hjoined := (f.branching h.1 hbase column).append
      (fieldRows_branching rest hkeys.2 h.2 hbase column) ?_
    · rw [fieldRows, rowPaths_append, rowPaths_rows]
      apply hjoined.mono
      rintro branch (rfl | ⟨g, hg, rfl⟩)
      · exact ⟨f, by simp, rfl⟩
      · exact ⟨g, List.mem_cons_of_mem _ hg, rfl⟩
    · rintro - - rfl ⟨g, hg, rfl⟩
      apply apart_field
      intro heq
      apply hkeys.1
      rw [heq]
      exact List.mem_map_of_mem hg

theorem itemRows_branching (is : List Item) (h : itemsDistinct is) {base : Path}
    (hbase : base.NoKey) (column n : Nat) :
    Path.Branching (fun branch => ∃ j, n ≤ j ∧ branch = [.index j]) base.segments
      (rowPaths (itemRows base column n is)) := by
  cases is with
  | nil => exact .nil
  | cons i rest =>
    have hjoined := (i.branching h.1 hbase column n).append
      (itemRows_branching rest h.2 hbase column (n + 1)) ?_
    · rw [itemRows, rowPaths_append, rowPaths_rows]
      apply hjoined.mono
      rintro branch (rfl | ⟨j, hj, rfl⟩)
      · exact ⟨n, Nat.le_refl n, rfl⟩
      · exact ⟨j, by omega, rfl⟩
    · rintro - - rfl ⟨j, hj, rfl⟩
      exact apart_index (by omega)

end

end ConfigAtlas.Outline
