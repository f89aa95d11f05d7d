import ConfigAtlas.Survey
import ConfigAtlas.Proofs.Outline.BlockShape
import ConfigAtlas.Proofs.Outline.Rows

/-! # A block is read as it was written -/

namespace ConfigAtlas.Outline

/-! ## One node -/

def Print.records (p : Print) (n : Nat) (lead : List Char) : List Record :=
  p.marks.map (·.record ⟨n, lead ++ p.head⟩) ++ rowRecords (n + 1) p.tail

theorem rowRecords_append (n : Nat) (rows more : List Row) :
    rowRecords n (rows ++ more) = rowRecords n rows ++ rowRecords (n + rows.length) more := by
  induction rows generalizing n with
  | nil => rfl
  | cons row rest ih => simp [rowRecords, ih, Nat.add_comm, Nat.add_left_comm]

theorem numbered_rows_append (n : Nat) (rows more : List Row) :
    Line.numbered n ((rows ++ more).map Row.text) =
      Line.numbered n (rows.map Row.text) ++
        Line.numbered (n + rows.length) (more.map Row.text) := by
  rw [List.map_append, Line.numbered_append, List.length_map]

namespace Context

/-- What a context finds in a print that starts at this column of a line. -/
def scan (ctx : Context) (n column : Nat) (lead : List Char) (p : Print) :
    Context × List Finding :=
  let entered := ctx.enter ⟨n, lead ++ p.head⟩ ⟨column, p.head⟩
  let later := entered.1.run (Line.numbered (n + 1) (p.tail.map Row.text))
  (later.1, entered.2 ++ later.2)

/-- The records are found, and what is left behind is `before` once `close` has closed it. -/
structure Yields (result : Context × List Finding) (close : Context → Context)
    (before : Context) (rs : List Record) : Prop where
  found : result.2 = rs.map .placed
  closed : close result.1 = before

theorem run_rows {ctx entered : Context} {n column : Nat} {p : Print}
    (hstep : ctx.step ⟨n, spaces column ++ p.head⟩ =
      entered.enter ⟨n, spaces column ++ p.head⟩ ⟨column, p.head⟩) :
    ctx.run (Line.numbered n ((p.rows column).map Row.text)) =
      entered.scan n column (spaces column) p := by
  rw [Print.rows, List.map_cons, Line.numbered, run, hstep]
  rfl

theorem Yields.run_append {ctx mid before : Context} {close close' : Context → Context} {n : Nat}
    {rows more : List Row}
    (h : Yields (ctx.run (Line.numbered n (rows.map Row.text))) close mid (rowRecords n rows))
    (h' : Yields ((ctx.run (Line.numbered n (rows.map Row.text))).1.run
      (Line.numbered (n + rows.length) (more.map Row.text))) close' before
      (rowRecords (n + rows.length) more)) :
    Yields (ctx.run (Line.numbered n ((rows ++ more).map Row.text))) close' before
      (rowRecords n (rows ++ more)) := by
  rw [numbered_rows_append, Context.run_append]
  refine ⟨?_, h'.closed⟩
  rw [rowRecords_append, List.map_append, ← h.found, ← h'.found]

theorem Yields.scan_append {ctx mid before : Context} {close close' : Context → Context}
    {n column : Nat} {lead : List Char} {p : Print} {more : List Row}
    (h : Yields (ctx.scan n column lead p) close mid (p.records n lead))
    (h' : Yields ((ctx.scan n column lead p).1.run
      (Line.numbered (n + 1 + p.tail.length) (more.map Row.text))) close' before
      (rowRecords (n + 1 + p.tail.length) more)) :
    Yields (ctx.scan n column lead ⟨p.head, p.marks, p.tail ++ more⟩) close' before
      (Print.records ⟨p.head, p.marks, p.tail ++ more⟩ n lead) := by
  unfold scan at h h' ⊢
  simp only [numbered_rows_append, Context.run_append]
  refine ⟨?_, h'.closed⟩
  have hfound := h.found
  have hlater := h'.found
  simp only at hfound hlater
  rw [← List.append_assoc, hfound, hlater, Print.records, Print.records, rowRecords_append]
  simp

end Context

/-! ## Trees of nodes -/

section

open Context

variable {ctx before : Context} {column k : Nat} {lead : List Char}

theorem run_block {b : Block} (hblock : ctx.block? = none) (hctx : Shallow column ctx) (n : Nat)
    {base : Path} (hscan : Yields (ctx.scan n column (spaces column) (b.print base column))
      (·.closeForPair column) ctx ((b.print base column).records n (spaces column))) :
    Yields (ctx.run (Line.numbered n (((b.print base column).rows column).map Row.text)))
      (·.closeForPair column) ctx (rowRecords n ((b.print base column).rows column)) := by
  rw [run_rows (step_front hblock hctx (b.front base column) n)]
  exact hscan

theorem run_field (f : Field) (hblock : ctx.block? = none) (n column : Nat) (base : Path) :
    ctx.run (Line.numbered n (((f.print base column).rows column).map Row.text)) =
      (ctx.closeForPair column).scan n column (spaces column) (f.print base column) := by
  obtain ⟨after, hhead, hafter⟩ := f.front base column
  apply run_rows
  rw [hhead]
  exact step_key hblock f.key hafter n column

theorem run_item {i : Item} (hblock : ctx.block? = none) (n : Nat) {base : Path} :
    ctx.run (Line.numbered n (((i.print base column k).rows column).map Row.text)) =
      ctx.scan n column (spaces column) (i.print base column k) := by
  obtain ⟨after, hhead, hafter⟩ := i.front base column k
  apply run_rows
  rw [hhead]
  exact step_marker hblock hafter n column

end

mutual

theorem Block.yields (b : Block) {ctx : Context} {column : Nat} {lead : List Char}
    (hblock : ctx.block? = none) (hctx : ctx.Shallow column) (hlead : Lead column lead) (n : Nat) :
    Context.Yields (ctx.scan n column lead (b.print ctx.base column)) (·.closeForPair column) ctx
      ((b.print ctx.base column).records n lead) := by
  cases b with
  | mapping first rest =>
    have hfirst := first.yields hblock hctx hlead n
    exact hfirst.scan_append (fieldRows_yields rest hblock hctx hfirst.closed _)
  | list first rest =>
    obtain ⟨hfirst, hindex⟩ :=
      first.yields hblock hctx.listShallow hctx.listShallow hctx.nextIndex_eq_zero hlead n
    have hrest := itemRows_yields rest hblock hctx.listShallow hfirst.closed hindex
      (n + 1 + (first.print ctx.base column 0).tail.length)
    obtain ⟨hfound, hclosed⟩ := hfirst.scan_append hrest
    exact ⟨hfound, (Context.closeForPair_of_closeForItem hclosed).trans hctx⟩

theorem Field.yields (f : Field) {ctx : Context} {column : Nat} {lead : List Char}
    (hblock : ctx.block? = none) (hctx : ctx.Shallow column) (hlead : Lead column lead) (n : Nat) :
    Context.Yields (ctx.scan n column lead (f.print ctx.base column)) (·.closeForPair column) ctx
      ((f.print ctx.base column).records n lead) := by
  cases f with
  | scalar key value =>
    have henter := Context.enter_scalar_pair hlead ctx n key value
    unfold Context.scan
    simp only [Field.print, henter]
    exact ⟨rfl, (Context.closeForPair_openPair _ ctx).trans hctx⟩
  | nested key extra child =>
    have henter := Context.enter_key hlead ctx n key
    -- The child stands deeper, so what it opens is closed with the pair.
    have hdeep : column < column + extra + 1 := by omega
    have hopen := hctx.openPair (key.mark ctx.base column none).path hdeep
    have hnone : (ctx.openPair (key.mark ctx.base column none).path column).block? = none := hblock
    have hchild := run_block hnone hopen (n + 1) (child.yields hnone hopen (lead_spaces _) _)
    unfold Context.scan
    simp only [Field.print, henter]
    exact ⟨congrArg (_ :: ·) hchild.found,
      Context.closeForPair_of_openPair hctx hdeep hchild.closed⟩
  | level key first rest =>
    have henter := Context.enter_key hlead ctx n key
    have hopen := hctx.listShallow_openPair (key.mark ctx.base column none).path
    have hnone : (ctx.openPair (key.mark ctx.base column none).path column).block? = none := hblock
    have hindex := hctx.nextIndex_openPair (key.mark ctx.base column none).path
    obtain ⟨hfirst, hnext⟩ :=
      first.yields hnone hopen hopen hindex (lead_spaces column) (n + 1)
    rw [← run_item hnone] at hfirst hnext
    have hlist := hfirst.run_append (itemRows_yields rest hnone hopen hfirst.closed hnext _)
    unfold Context.scan
    simp only [Field.print, henter]
    exact ⟨congrArg (_ :: ·) hlist.found,
      (Context.closeForPair_of_closeForItem hlist.closed).trans
        ((Context.closeForPair_openPair _ ctx).trans hctx)⟩

theorem Item.yields (i : Item) {ctx before : Context} {column k : Nat} {lead : List Char}
    (hblock : before.block? = none) (hbefore : before.ListShallow column)
    (hctx : ctx.closeForItem column = before) (hk : ctx.nextIndex column = k)
    (hlead : Lead column lead) (n : Nat) :
    Context.Yields (ctx.scan n column lead (i.print before.base column k))
        (·.closeForItem column) before ((i.print before.base column k).records n lead) ∧
      (ctx.scan n column lead (i.print before.base column k)).1.nextIndex column = k + 1 := by
  cases i with
  | scalar value =>
    have hread := read_marker column (ends_space value.written)
    have hplace := Context.placeItem_written hctx hk hlead n value
    unfold Context.scan
    simp only [Item.print, Context.enter_item hread, hplace]
    exact ⟨⟨rfl, (Context.closeForItem_openElement k before).trans hbefore⟩,
      Context.nextIndex_openElement k before⟩
  | nested extra child =>
    have hread := read_marker column ends_nil
    have hplace := Context.placeItem_bare hctx hk hlead n
    have hdeep : column < column + extra + 1 := by omega
    have hopen := hbefore.openElement k hdeep
    have hnone : (before.openElement column k).block? = none := hblock
    have hchild := run_block hnone hopen (n + 1) (child.yields hnone hopen (lead_spaces _) _)
    unfold Context.scan
    simp only [Item.print, Context.enter_item hread, hplace]
    exact ⟨⟨congrArg (_ :: ·) hchild.found,
      Context.closeForItem_of_openElement hbefore hdeep hchild.closed⟩,
      Context.nextIndex_of_openElement hdeep hchild.closed⟩
  | inline gap child =>
    have hdeep : column < column + gap + 2 := by omega
    have hopen := hbefore.openElement k hdeep
    have hnone : (before.openElement column k).block? = none := hblock
    have hchild := child.yields hnone hopen (hlead.marker gap) n
    have hfront := child.front (before.base.element k) (column + gap + 2)
    have hread : Statement.read ⟨column, '-' :: (spaces (gap + 1) ++
        (child.print (before.base.element k) (column + gap + 2)).head)⟩ = .item :=
      read_marker column (ends_space _)
    have hplace := Context.placeItem_inline hctx hk hlead n hfront gap
    -- The row of the marker is the row of the child, split behind the marker.
    have hrow : (lead ++ '-' :: spaces (gap + 1)) ++
        (child.print (before.base.element k) (column + gap + 2)).head =
          lead ++ '-' :: (spaces (gap + 1) ++
            (child.print (before.base.element k) (column + gap + 2)).head) := by
      simp
    unfold Context.scan Print.records at hchild
    simp only [Context.base_openElement, hrow] at hchild
    unfold Context.scan
    simp only [Item.print, Context.enter_item hread, hplace]
    exact ⟨⟨congrArg (_ :: ·) hchild.found,
      Context.closeForItem_of_openElement hbefore hdeep hchild.closed⟩,
      Context.nextIndex_of_openElement hdeep hchild.closed⟩

theorem fieldRows_yields (fs : List Field) {ctx before : Context} {column : Nat}
    (hblock : before.block? = none) (hbefore : before.Shallow column)
    (hctx : ctx.closeForPair column = before) (n : Nat) :
    Context.Yields (ctx.run (Line.numbered n ((fieldRows before.base column fs).map Row.text)))
      (·.closeForPair column) before (rowRecords n (fieldRows before.base column fs)) := by
  cases fs with
  | nil => exact ⟨rfl, hctx⟩
  | cons f rest =>
    have hopen : ctx.block? = none := by
      rw [← hblock, ← hctx]
      rfl
    have hfirst := f.yields hblock hbefore (lead_spaces column) n
    have hrun := run_field f hopen n column before.base
    rw [hctx] at hrun
    rw [← hrun] at hfirst
    have hrest := fieldRows_yields rest hblock hbefore hfirst.closed
      (n + ((f.print before.base column).rows column).length)
    exact hfirst.run_append hrest

theorem itemRows_yields (is : List Item) {ctx before : Context} {column k : Nat}
    (hblock : before.block? = none) (hbefore : before.ListShallow column)
    (hctx : ctx.closeForItem column = before) (hk : ctx.nextIndex column = k) (n : Nat) :
    Context.Yields (ctx.run (Line.numbered n ((itemRows before.base column k is).map Row.text)))
      (·.closeForItem column) before (rowRecords n (itemRows before.base column k is)) := by
  cases is with
  | nil => exact ⟨rfl, hctx⟩
  | cons i rest =>
    have hopen : ctx.block? = none := by
      rw [← hblock, ← hctx]
      rfl
    obtain ⟨hfirst, hnext⟩ := i.yields hblock hbefore hctx hk (lead_spaces column) n
    rw [← run_item hopen] at hfirst hnext
    have hrest := itemRows_yields rest hblock hbefore hfirst.closed hnext
      (n + ((i.print before.base column k).rows column).length)
    exact hfirst.run_append hrest

end

/-! ## The whole source -/

theorem findings_block (b : Block) (column : Nat) (lastOpen : Bool) :
    findings (Text.unlines lastOpen ((b.rows column).map Row.text)) =
      (rowRecords 1 (b.rows column)).map .placed := by
  have hlines : ∀ text ∈ (b.rows column).map Row.text, Text.IsLine text := by
    intro text htext
    obtain ⟨row, hrow, rfl⟩ := List.mem_map.mp htext
    exact (b.isLines .root column).rows column row hrow
  have hempty : Context.Shallow column {} := Context.shallow_empty column
  have hscan := b.yields rfl hempty (lead_spaces column) 1
  rw [findings, Line.ofContent_unlines lastOpen hlines]
  exact (run_block rfl hempty 1 hscan).found

/-- A block with distinct keys is on record exactly as it was written, in whatever layout. -/
theorem records_build_block (b : Block) (h : b.DistinctKeys) (column : Nat) (lastOpen : Bool) :
    (Survey.build .outline
        (String.ofList (Text.unlines lastOpen ((b.rows column).map Row.text)))).atlas.records =
      rowRecords 1 (b.rows column) := by
  have hfindings : Survey.findings .outline
      (Text.unlines lastOpen ((b.rows column).map Row.text)) =
        (rowRecords 1 (b.rows column)).map .placed := findings_block b column lastOpen
  have hbranching := b.branching h Path.noKey_root column
  rw [← rowPaths_rows _ column, ← map_path_rowRecords 1] at hbranching
  rw [Survey.atlas_build, String.toList_ofList, hfindings, Atlas.ofFindings_placed]
  exact Atlas.records_ofRecords_of_branching hbranching

def levelBlock : Block :=
  .mapping
    (.level (.ofChars ['h'] (by decide))
      (.inline 0 (.list (.scalar (.word (.ofChars ['a'] (by decide))))
        [.scalar (.literal [' '] (by decide))]))
      [.scalar (.word (.ofChars ['b'] (by decide)))])
    [.nested (.ofChars ['k'] (by decide)) 1
      (.mapping
        (.scalar (.ofChars ['h'] (by decide)) (.word (.ofChars ['c'] (by decide)))) [])]

theorem records_build_levelBlock :
    levelBlock.DistinctKeys ∧
      (Survey.build .outline "h:\n- - a\n  - \" \"\n- b\nk:\n  h: c\n").atlas.records =
        rowRecords 1 (levelBlock.rows 0) := by
  have hkeys : levelBlock.DistinctKeys := by
    simp [levelBlock, Block.DistinctKeys, Field.DistinctKeys, Item.DistinctKeys, fieldsDistinct,
      itemsDistinct, Field.key, Word.ofChars]
  exact ⟨hkeys, records_build_block levelBlock hkeys 0 false⟩

end ConfigAtlas.Outline
