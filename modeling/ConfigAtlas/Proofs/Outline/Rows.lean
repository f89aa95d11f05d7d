import ConfigAtlas.Proofs.Outline.Nesting
import ConfigAtlas.Proofs.Outline.Reading
import ConfigAtlas.Proofs.Text.Lines

/-! # What one row of a block does to a context -/

namespace ConfigAtlas.Outline

/-! ## The front of each node -/

theorem Field.front (f : Field) (base : Path) (column : Nat) :
    ∃ after, (f.print base column).head = f.key.text ++ ':' :: after ∧ Ends after := by
  cases f with
  | scalar key value => exact ⟨_, rfl, ends_space _⟩
  | nested key extra child => exact ⟨[], rfl, ends_nil⟩
  | level key first rest => exact ⟨[], rfl, ends_nil⟩

theorem Item.front (i : Item) (base : Path) (column n : Nat) :
    ∃ after, (i.print base column n).head = '-' :: after ∧ Ends after := by
  cases i with
  | scalar value => exact ⟨_, rfl, ends_space _⟩
  | nested extra child => exact ⟨[], rfl, ends_nil⟩
  | inline gap child => exact ⟨_, rfl, ends_space _⟩

theorem Block.front (b : Block) (base : Path) (column : Nat) :
    Front (b.print base column).head := by
  cases b with
  | mapping first rest =>
    obtain ⟨after, hhead, hafter⟩ := first.front base column
    have hfront := Front.key first.key hafter
    rwa [← hhead] at hfront
  | list first rest =>
    obtain ⟨after, hhead, hafter⟩ := first.front base column 0
    have hfront := Front.marker hafter
    rwa [← hhead] at hfront

/-! ## Columns -/

/-- What stands before a node on its row takes one byte a character, so it is as deep as wide. -/
structure Lead (column : Nat) (lead : List Char) : Prop where
  length_eq : lead.length = column
  narrow : ∀ c ∈ lead, c.utf8Size = 1

theorem lead_spaces (n : Nat) : Lead n (spaces n) where
  length_eq := List.length_replicate
  narrow := by
    intro c hc
    rw [List.eq_of_mem_replicate hc]
    decide

theorem Lead.marker {column : Nat} {lead : List Char} (h : Lead column lead) (gap : Nat) :
    Lead (column + gap + 2) (lead ++ '-' :: spaces (gap + 1)) where
  length_eq := by
    have hgap := (lead_spaces (gap + 1)).length_eq
    simp only [List.length_append, List.length_cons, h.length_eq, hgap]
    omega
  narrow := by
    intro c hc
    rw [List.mem_append, List.mem_cons] at hc
    rcases hc with hc | rfl | hc
    · exact h.narrow c hc
    · decide
    · exact (lead_spaces (gap + 1)).narrow c hc

theorem byteSize_eq_length {t : List Char} (h : ∀ c ∈ t, c.utf8Size = 1) :
    Text.byteSize t = t.length := by
  induction t with
  | nil => rfl
  | cons c rest ih =>
    rw [Text.byteSize, h c (by simp), ih fun d hd => h d (List.mem_cons_of_mem _ hd),
      List.length_cons, Nat.add_comm]

theorem Lead.depth_eq {column : Nat} {lead : List Char} (h : Lead column lead) (n : Nat)
    (head : List Char) : Line.depth ⟨n, lead ++ head⟩ column = column := by
  rw [← h.length_eq, Line.depth, List.take_left, byteSize_eq_length h.narrow]

/-! ## Rows -/

namespace Context

theorem run_append (ctx : Context) (a b : List Line) :
    ctx.run (a ++ b) = (((ctx.run a).1.run b).1, (ctx.run a).2 ++ ((ctx.run a).1.run b).2) := by
  induction a generalizing ctx with
  | nil => rfl
  | cons line rest ih => simp [run, ih]

/-- What a node does at its own column. All that may be closed is closed already. -/
def enter (ctx : Context) (line : Line) (front : Piece) : Context × List Finding :=
  match Statement.read front with
  | .item => ctx.placeItem line front
  | .pair pair => ctx.placePair line pair ctx.base
  | _ => (ctx, [])

theorem enter_pair {front : Piece} {pair : Pair} (h : Statement.read front = .pair pair)
    (ctx : Context) (line : Line) : ctx.enter line front = ctx.placePair line pair ctx.base := by
  simp only [enter, h]

theorem enter_item {front : Piece} (h : Statement.read front = .item) (ctx : Context)
    (line : Line) : ctx.enter line front = ctx.placeItem line front := by
  simp only [enter, h]

/-- What a line does to a context, by what stands behind its spaces. -/
def respond (ctx : Context) (line : Line) (front : Piece) : Context × List Finding :=
  match Statement.read front with
  | .blank => (ctx, [])
  | .item => ctx.placeItem line front
  | .pair pair =>
    (ctx.closeForPair front.start).placePair line pair (ctx.closeForPair front.start).base
  | .scalar _ => (ctx, [.skippedLine line.number])

theorem step_row {ctx : Context} (hblock : ctx.block? = none) {head : List Char}
    (hhead : Front head) (n column : Nat) :
    ctx.step ⟨n, spaces column ++ head⟩ =
      ctx.respond ⟨n, spaces column ++ head⟩ ⟨column, head⟩ := by
  have hctx : { ctx with block? := none } = ctx := by
    rw [← hblock]
  have hlead := lead_spaces column
  have hpasses : ctx.passesOver (spaces column ++ head) = false := by
    simp only [passesOver, hblock]
  have hfront : (Piece.whole (spaces column ++ head)).drop column = ⟨column, head⟩ := by
    have hdrop := Piece.drop_length_append 0 (spaces column) head
    rwa [hlead.length_eq, Nat.zero_add] at hdrop
  have htrim : Text.trimStart (spaces column ++ head) = head := by
    rw [Text.trimStart_append isBlank_of_mem_spaces, hhead.trimStart_eq]
  simp only [step, hpasses, Bool.false_eq_true, if_false, hctx, hhead.takeWhile_isGap,
    hlead.length_eq, hfront, htrim, hhead.isDirective_eq_false, hlead.depth_eq]
  unfold respond
  cases Statement.read ⟨column, head⟩ <;> rfl

theorem step_key {ctx : Context} (hblock : ctx.block? = none) (key : Word) {after : List Char}
    (hafter : Ends after) (n column : Nat) :
    ctx.step ⟨n, spaces column ++ (key.text ++ ':' :: after)⟩ =
      (ctx.closeForPair column).enter ⟨n, spaces column ++ (key.text ++ ':' :: after)⟩
        ⟨column, key.text ++ ':' :: after⟩ := by
  have hread := read_word key column hafter
  rw [step_row hblock (.key key hafter), enter_pair hread]
  simp only [respond, hread]

theorem step_marker {ctx : Context} (hblock : ctx.block? = none) {after : List Char}
    (hafter : Ends after) (n column : Nat) :
    ctx.step ⟨n, spaces column ++ '-' :: after⟩ =
      ctx.enter ⟨n, spaces column ++ '-' :: after⟩ ⟨column, '-' :: after⟩ := by
  have hread := read_marker column hafter
  rw [step_row hblock (.marker hafter), enter_item hread]
  simp only [respond, hread]

theorem step_front {ctx : Context} (hblock : ctx.block? = none) {column : Nat}
    (hctx : Shallow column ctx) {head : List Char} (hhead : Front head) (n : Nat) :
    ctx.step ⟨n, spaces column ++ head⟩ =
      ctx.enter ⟨n, spaces column ++ head⟩ ⟨column, head⟩ := by
  cases hhead with
  | key w h =>
    have hclosed : ctx.closeForPair column = ctx := hctx
    rw [step_key hblock w h, hclosed]
  | marker h => exact step_marker hblock h n column

/-! ## Entering a node -/

theorem enter_key {lead : List Char} {column : Nat} (hlead : Lead column lead) (ctx : Context)
    (n : Nat) (key : Word) :
    ctx.enter ⟨n, lead ++ (key.text ++ [':'])⟩ ⟨column, key.text ++ [':']⟩ =
      (ctx.openPair (key.mark ctx.base column none).path column,
        [.placed ((key.mark ctx.base column none).record ⟨n, lead ++ (key.text ++ [':'])⟩)]) := by
  rw [enter_pair (read_key key column), placePair]
  simp only [key.unquote_text, hlead.depth_eq]
  rfl

theorem placeValue_cons {c : Char} (h : c ∉ ['[', '|', '>']) (ctx : Context) (line : Line)
    (path : Path) (depth : Nat) (key? : Option Piece) (start : Nat) (rest : List Char) :
    ctx.placeValue line path depth key? ⟨start, c :: rest⟩ =
      (ctx, [.placed ⟨path, line.place key? (some ⟨start, c :: rest⟩)⟩]) := by
  rw [List.mem_cons, not_or] at h
  simp only [placeValue, isBlockHeader_cons h.2, inlineItems_cons h.1, Bool.false_eq_true,
    if_false, List.nil_append]

theorem placeValue_written (ctx : Context) (line : Line) (path : Path) (depth : Nat)
    (key? : Option Piece) (v : Scalar) (start : Nat) :
    ctx.placeValue line path depth key? ⟨start, v.written⟩ =
      (ctx, [.placed ⟨path, line.place key? (some ⟨start, v.written⟩)⟩]) := by
  obtain ⟨c, rest, hv, -, hsigns⟩ := v.written_eq_cons
  rw [hv]
  exact placeValue_cons (fun hmem => hsigns (.tail _ (.tail _ hmem))) ctx line path depth key? start
    rest

theorem enter_scalar_pair {lead : List Char} {column : Nat} (hlead : Lead column lead)
    (ctx : Context) (n : Nat) (key : Word) (v : Scalar) :
    ctx.enter ⟨n, lead ++ (key.text ++ ':' :: ' ' :: v.written)⟩
        ⟨column, key.text ++ ':' :: ' ' :: v.written⟩ =
      (ctx.openPair (ctx.base.field (String.ofList key.text)) column,
        [.placed ((key.mark ctx.base column
          (some ⟨column + key.text.length + 2, v.written⟩)).record
            ⟨n, lead ++ (key.text ++ ':' :: ' ' :: v.written)⟩)]) := by
  rw [enter_pair (read_pair key v column), placePair]
  simp only [key.unquote_text, hlead.depth_eq, placeValue_written]
  rfl

theorem placeItem_eq (ctx : Context) (line : Line) (marker : Piece) :
    ctx.placeItem line marker =
      (let opened := ctx.openItem (line.depth marker.start)
      let bare := .placed ⟨opened.base, line.place none none⟩
      match Statement.read (afterMarker marker) with
      | .blank => (opened, [bare])
      | .scalar value => opened.placeValue line opened.base (line.depth marker.start) none value
      | _ =>
        let entered := opened.enter line (afterMarker marker)
        (entered.1, bare :: entered.2)) := by
  rw [placeItem]
  split <;> rename_i hread <;> simp only [hread, enter]

section placeItem

variable {ctx before : Context} {lead : List Char} {column k : Nat}

theorem openItem_of_closed (hctx : ctx.closeForItem column = before)
    (hk : ctx.nextIndex column = k) : ctx.openItem column = before.openElement column k := by
  rw [openItem_eq, hctx, hk]

variable (hctx : ctx.closeForItem column = before) (hk : ctx.nextIndex column = k)
  (hlead : Lead column lead) (n : Nat)
include hctx hk hlead

theorem placeItem_bare :
    ctx.placeItem ⟨n, lead ++ ['-']⟩ ⟨column, ['-']⟩ =
      (before.openElement column k,
        [.placed ⟨before.base.element k, Line.place ⟨n, lead ++ ['-']⟩ none none⟩]) := by
  have hread : Statement.read (afterMarker ⟨column, ['-']⟩) = .blank := by
    rw [afterMarker_bare, read_nothing]
  simp only [placeItem_eq, hread, hlead.depth_eq, openItem_of_closed hctx hk]
  rfl

theorem placeItem_written (v : Scalar) :
    ctx.placeItem ⟨n, lead ++ '-' :: ' ' :: v.written⟩ ⟨column, '-' :: ' ' :: v.written⟩ =
      (before.openElement column k,
        [.placed ⟨before.base.element k, Line.place ⟨n, lead ++ '-' :: ' ' :: v.written⟩ none
          (some ⟨column + 2, v.written⟩)⟩]) := by
  have hread : Statement.read (afterMarker ⟨column, '-' :: ' ' :: v.written⟩) =
      .scalar ⟨column + 2, v.written⟩ := by
    rw [afterMarker_written, read_scalar]
  simp only [placeItem_eq, hread, hlead.depth_eq, openItem_of_closed hctx hk, placeValue_written]
  rfl

theorem placeItem_inline {head : List Char} (hhead : Front head) (gap : Nat) :
    ctx.placeItem ⟨n, lead ++ '-' :: (spaces (gap + 1) ++ head)⟩
        ⟨column, '-' :: (spaces (gap + 1) ++ head)⟩ =
      (let entered := (before.openElement column k).enter
        ⟨n, lead ++ '-' :: (spaces (gap + 1) ++ head)⟩ ⟨column + gap + 2, head⟩
      (entered.1, .placed ⟨before.base.element k,
        Line.place ⟨n, lead ++ '-' :: (spaces (gap + 1) ++ head)⟩ none none⟩ :: entered.2)) := by
  have hafter : afterMarker ⟨column, '-' :: (spaces (gap + 1) ++ head)⟩ =
      ⟨column + gap + 2, head⟩ := by
    obtain ⟨c, rest, rfl, hc⟩ := hhead.eq_cons
    rw [afterMarker_spaces, Piece.trimStart_cons hc]
    rfl
  simp only [placeItem_eq, hlead.depth_eq, openItem_of_closed hctx hk, hafter]
  cases hhead with
  | key w h =>
    simp only [read_word w _ h]
    rfl
  | marker h =>
    simp only [read_marker _ h]
    rfl

end placeItem

end Context

theorem findings_of_line {line : List Char} (hfeed : '\n' ∉ line) (hne : line ≠ []) :
    findings line = (Context.step {} ⟨1, line⟩).2 := by
  have hrun : (Context.run {} [⟨1, line⟩]).2 = (Context.step {} ⟨1, line⟩).2 ++ [] := rfl
  rw [findings, Line.ofContent_eq, Text.lines_of_feed_not_mem hfeed hne, Line.numbered,
    Line.numbered, hrun, List.append_nil]

end ConfigAtlas.Outline
