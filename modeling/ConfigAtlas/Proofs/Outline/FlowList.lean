import Mathlib
import ConfigAtlas.Survey
import ConfigAtlas.Proofs.Atlas.Lookup
import ConfigAtlas.Proofs.Outline.BlockShape
import ConfigAtlas.Proofs.Outline.Comments
import ConfigAtlas.Proofs.Outline.Rows

/-!
# Lists in brackets behind a key

Each element of such a list is on record with the text it is written as. The comments of a line
are cut off before its lists are read, and without regard to quotes in them.
-/

namespace ConfigAtlas.Outline

/-! ## How a list is written -/

/-- The text of a scalar, without the quotes and backslashes of a literal. -/
def Scalar.text : Scalar → List Char
  | .word w => w.text
  | .literal text _ => text

/-- No list is empty. -/
structure FlowList where
  key : Word
  first : Scalar
  rest : List Scalar

def laterWritten : List Scalar → List Char
  | [] => []
  | e :: rest => ',' :: ' ' :: (e.written ++ laterWritten rest)

namespace FlowList

def elements (l : FlowList) : List Scalar := l.first :: l.rest

def inner (l : FlowList) : List Char := l.first.written ++ laterWritten l.rest

def written (l : FlowList) : List Char := '[' :: (l.inner ++ [']'])

def line (l : FlowList) : List Char := l.key.text ++ ':' :: ' ' :: l.written

end FlowList

/-! ## What should be on record -/

/-- The elements as they stand one behind the other, with a comma and a space between two. -/
def flowPieces (start : Nat) : List Scalar → List Piece
  | [] => []
  | e :: rest => ⟨start, e.written⟩ :: flowPieces (start + e.written.length + 2) rest

def itemRecords (line : Line) (path : Path) (pieces : List Piece) : List Record :=
  pieces.mapIdx fun i e => ⟨path.element i, line.place none (some e)⟩

namespace FlowList

def path (l : FlowList) : Path := Path.root.field (String.ofList l.key.text)

/-- The record of the key, with some value. -/
def keyRecord (l : FlowList) (value : Piece) : Record :=
  ⟨l.path, Line.place ⟨1, l.line⟩ (some ⟨0, l.key.text⟩) (some value)⟩

/-- The elements come before the key, which has the whole list for its value. -/
def records (l : FlowList) : List Record :=
  itemRecords ⟨1, l.line⟩ l.path (flowPieces (l.key.text.length + 3) l.elements) ++
    [l.keyRecord ⟨l.key.text.length + 2, l.written⟩]

end FlowList

/-! ## Commas -/

theorem passes_of_isWordChar {c : Char} (h : isWordChar c = true) : Text.Passes 0 [c] := by
  apply Text.Passes.of_step
  intro depth _
  have hne : ∀ d, isWordChar d = false → c ≠ d := fun d => ne_of_isWordChar h
  simp [Text.Nesting.cuts, Text.Nesting.step, isQuote_of_isWordChar h, Text.Nesting.opensBracket,
    Text.Nesting.closesBracket, hne ',' (by decide), hne '[' (by decide), hne '{' (by decide),
    hne '(' (by decide), hne ']' (by decide), hne '}' (by decide), hne ')' (by decide)]

theorem passes_space : Text.Passes 0 [' '] := Text.Passes.of_step fun _ _ => ⟨rfl, rfl⟩

namespace Scalar

theorem passes (v : Scalar) : Text.Passes 0 v.written :=
  match v with
  | .word w => .of_chars fun c hc => passes_of_isWordChar (w.chars c hc)
  | .literal text _ => Text.passes_literal text

theorem trim_written (v : Scalar) : Text.trim v.written = v.written := by
  rw [Text.trim, v.trimStart_written]
  cases v with
  | word w => exact w.trimEnd_text
  | literal text feed_not_mem =>
    exact Text.trimEnd_concat (by decide) ('"' :: Text.escape Segment.quotedSpecial text)

end Scalar

theorem commaParts_later {t : List Char} (h : Text.Passes 0 t) (rest : List Scalar) :
    Text.commaParts {} (t ++ laterWritten rest) = t :: rest.map fun e => ' ' :: e.written := by
  induction rest generalizing t with
  | nil => rw [laterWritten, List.append_nil, Text.commaParts_singleton h.uncut, List.map_nil]
  | cons e rest ih =>
    have hnext := ih (passes_space.append e.passes)
    rw [List.singleton_append, List.cons_append] at hnext
    rw [laterWritten, Text.commaParts_append_comma h.uncut, hnext, List.map_cons]

theorem trim_later (start : Nat) (rest : List Scalar) :
    (Piece.consecutive start (rest.map fun e => ' ' :: e.written)).map Piece.trim =
      flowPieces (start + 1) rest := by
  induction rest generalizing start with
  | nil => rfl
  | cons e rest ih =>
    have hfirst : Piece.trim ⟨start, ' ' :: e.written⟩ = ⟨start + 1, e.written⟩ := by
      have hnil : ∀ c ∈ ([] : List Char), Text.isBlank c = true := by simp
      have htrim := Piece.trim_between (isBlank_of_mem_spaces (n := 1)) e.trim_written hnil start
      simpa [spaces] using htrim
    have hnext : start + (' ' :: e.written).length + 1 + 1 = start + 1 + e.written.length + 2 := by
      rw [List.length_cons]
      omega
    rw [List.map_cons, Piece.consecutive, List.map_cons, hfirst, ih, hnext, flowPieces]

theorem FlowList.elements_inner (l : FlowList) (start : Nat) :
    Piece.elements ⟨start, l.inner⟩ = flowPieces start l.elements := by
  rw [Piece.elements, inner, commaParts_later l.first.passes, Piece.consecutive, List.map_cons,
    trim_later, Piece.trim_eq_self l.first.trim_written, elements, flowPieces]

/-! ## Comments -/

theorem Scalar.head?_written (v : Scalar) (rest : List Char) :
    (v.written ++ rest).head? ≠ some '#' := by
  obtain ⟨c, tail, hv, -, hsigns⟩ := v.written_eq_cons
  rw [hv]
  rintro ⟨⟩
  exact hsigns (by simp)

theorem Scalar.holdsComment_written (v : Scalar) :
    HoldsComment v.written ↔ HoldsComment v.text := by
  cases v with
  | word w => rfl
  | literal text feed_not_mem => exact holdsComment_literal text

theorem holdsComment_later (e : Scalar) (rest : List Scalar) :
    HoldsComment (e.written ++ laterWritten rest) ↔ ∃ v ∈ e :: rest, HoldsComment v.text := by
  induction rest generalizing e with
  | nil => simp [laterWritten, e.holdsComment_written]
  | cons next rest ih =>
    have hspace : HoldsComment (' ' :: (next.written ++ laterWritten rest)) ↔
        HoldsComment (next.written ++ laterWritten rest) := by
      rw [holdsComment_cons, or_iff_right fun h => next.head?_written _ h.2]
    rw [laterWritten, holdsComment_append_cons (by decide) (by decide), hspace, ih,
      e.holdsComment_written]
    simp

theorem FlowList.holdsComment_written (l : FlowList) :
    HoldsComment l.written ↔ ∃ v ∈ l.elements, HoldsComment v.text := by
  have hopen : HoldsComment l.written ↔ _ :=
    holdsComment_append_cons (by decide) (by decide) [] (l.inner ++ [']'])
  rw [hopen, holdsComment_append_cons (by decide) (by decide), inner, holdsComment_later, elements]
  simp [not_holdsComment_nil]

/-! ## What is read -/

namespace FlowList

/-- What is read as the value: the list up to a comment. -/
def value (l : FlowList) : Piece :=
  ⟨l.key.text.length + 2, Text.trimEnd (beforeComment true l.written)⟩

theorem scalarAt_written (l : FlowList) :
    scalarAt ⟨l.key.text.length + 2, l.written⟩ = l.value := rfl

theorem value_eq_cons (l : FlowList) : ∃ rest, l.value.text = '[' :: rest := by
  have htrim := Text.trim_cons (by decide : Text.isBlank '[' = false)
    (beforeComment false (l.inner ++ [']']))
  rwa [Text.trim, Text.trimStart_cons (by decide)] at htrim

/-- The value is the whole list just when no element is taken to hold a comment. -/
theorem value_text_eq_iff (l : FlowList) :
    l.value.text = l.written ↔ ∀ v ∈ l.elements, ¬ HoldsComment v.text := by
  have hnone : (∀ v ∈ l.elements, ¬ HoldsComment v.text) ↔
      beforeComment true l.written = l.written := by
    rw [beforeComment_eq_self_iff, l.holdsComment_written]
    simp [written]
  rw [hnone]
  constructor
  · intro h
    have htrim := (Text.trimEnd_isPrefix (beforeComment true l.written)).length_le
    have hcut := beforeComment_isPrefix true l.written
    have hvalue : (Text.trimEnd (beforeComment true l.written)).length = l.written.length :=
      congrArg List.length h
    exact hcut.eq_of_length_le (by omega)
  · intro h
    rw [value, h]
    exact Text.trimEnd_concat (by decide) ('[' :: l.inner)

end FlowList

/-- The elements of a value in brackets. A blank list has none. -/
def inlinePieces (value : Piece) : List Piece :=
  match value.between? ['['] [']'] with
  | none => []
  | some list => if list.trim.isEmpty then [] else list.elements

theorem inlineItems_eq (line : Line) (path : Path) (value : Piece) :
    inlineItems line path value = (itemRecords line path (inlinePieces value)).map .placed := by
  cases hlist : value.between? ['['] [']'] with
  | none => simp only [inlineItems, inlinePieces, hlist, itemRecords, List.mapIdx_nil, List.map_nil]
  | some list =>
    simp only [inlineItems, inlinePieces, hlist, itemRecords]
    split
    · rfl
    · rw [List.mapIdx_eq_zipIdx_map, List.mapIdx_eq_zipIdx_map, List.map_map]
      rfl

namespace FlowList

theorem inlinePieces_written (l : FlowList) (start : Nat) :
    inlinePieces ⟨start, l.written⟩ = flowPieces (start + 1) l.elements := by
  have hinner : Piece.between? ['['] [']'] ⟨start, l.written⟩ = some ⟨start + 1, l.inner⟩ :=
    Piece.between?_enclosed ['['] [']'] l.inner start
  have hsolid : Piece.isEmpty (Piece.trim ⟨start + 1, l.inner⟩) = false := by
    obtain ⟨c, tail, hc, hblank, -⟩ := l.first.written_eq_cons
    obtain ⟨rest, htrim⟩ := Text.trim_cons hblank (tail ++ laterWritten l.rest)
    rw [Piece.isEmpty, Piece.text_trim, inner, hc, List.cons_append, htrim]
    rfl
  simp only [inlinePieces, hinner, hsolid, elements_inner, Bool.false_eq_true, if_false]

theorem read_line (l : FlowList) :
    Statement.read ⟨0, l.line⟩ = .pair ⟨⟨0, l.key.text⟩, some l.value⟩ := by
  have hgap : Piece.trimStart ⟨0 + l.key.text.length + 1, ' ' :: l.written⟩ =
      ⟨l.key.text.length + 2, l.written⟩ := by
    have htrim := Piece.trimStart_append (isBlank_of_mem_spaces (n := 1))
      (l.key.text.length + 1) l.written
    rw [written, Piece.trimStart_cons (by decide)] at htrim
    rw [Nat.zero_add]
    exact htrim
  have hvalue : l.value.isEmpty = false := by
    obtain ⟨rest, hrest⟩ := l.value_eq_cons
    rw [Piece.isEmpty, hrest]
    rfl
  rw [line, read_word l.key 0 (ends_space _), hgap, scalarAt_written]
  simp only [hvalue, Bool.false_eq_true, if_false]

theorem step_line (l : FlowList) :
    (Context.step {} ⟨1, l.line⟩).2 =
      (itemRecords ⟨1, l.line⟩ l.path (inlinePieces l.value) ++ [l.keyRecord l.value]).map
        .placed := by
  have hheader : isBlockHeader l.value.text = false := by
    obtain ⟨rest, hrest⟩ := l.value_eq_cons
    rw [hrest]
    rfl
  have hkey : Context.step {} ⟨1, l.line⟩ =
      (Context.closeForPair {} 0).enter ⟨1, l.line⟩ ⟨0, l.line⟩ :=
    Context.step_key rfl l.key (ends_space l.written) 1 0
  rw [hkey, Context.enter_pair l.read_line, Context.placePair]
  simp only [Context.placeValue, hheader, Bool.false_eq_true, if_false, l.key.unquote_text,
    inlineItems_eq, List.map_append]
  rfl

theorem feed_not_mem (l : FlowList) : '\n' ∉ l.line := by
  have hlater : ∀ es : List Scalar, '\n' ∉ laterWritten es := by
    intro es
    induction es with
    | nil => exact List.not_mem_nil
    | cons e es ih => simp [laterWritten, e.isLine.feed_not_mem, ih]
  simp [line, written, inner, l.key.isLine.feed_not_mem, l.first.isLine.feed_not_mem, hlater]

theorem findings_line (l : FlowList) :
    findings l.line =
      (itemRecords ⟨1, l.line⟩ l.path (inlinePieces l.value) ++ [l.keyRecord l.value]).map
        .placed := by
  have hne : l.line ≠ [] := by simp [line]
  rw [findings_of_line l.feed_not_mem hne, l.step_line]

/-! ## What is on record -/

theorem map_path_itemRecords (line : Line) (path : Path) (pieces : List Piece) :
    (itemRecords line path pieces).map Record.path =
      (List.range pieces.length).map path.element := by
  apply List.ext_getElem <;> simp [itemRecords]

theorem records_ofRecords_items (l : FlowList) (pieces : List Piece) (value : Piece) :
    (Atlas.ofRecords (itemRecords ⟨1, l.line⟩ l.path pieces ++ [l.keyRecord value])).records =
      itemRecords ⟨1, l.line⟩ l.path pieces ++ [l.keyRecord value] := by
  have hpaths : (itemRecords ⟨1, l.line⟩ l.path pieces ++ [l.keyRecord value]).map Record.path =
      (List.range pieces.length).map l.path.element ++ [l.path] := by
    rw [List.map_append, map_path_itemRecords]
    rfl
  apply Atlas.records_ofRecords_of_nodup
  · intro r hr
    have hpath := List.mem_map_of_mem (f := Record.path) hr
    rw [hpaths, List.mem_append, List.mem_map, List.mem_singleton] at hpath
    rcases hpath with ⟨i, -, hi⟩ | hi
    · rw [← hi]
      simp [Path.isRoot, Path.element]
    · rw [hi]
      rfl
  · have hnodup : (((List.range pieces.length).map l.path.element ++ [l.path]).map
        Path.filed).Nodup := by
      rw [List.map_append, List.map_map, List.nodup_append]
      refine ⟨List.nodup_range.map ?_, List.nodup_singleton _, ?_⟩
      · intro i j hij
        simpa [Path.element, Segment.filed] using hij
      · intro steps hsteps other hother hsame
        obtain ⟨i, -, rfl⟩ := List.mem_map.mp hsteps
        rw [List.map_singleton, List.mem_singleton] at hother
        rw [hother] at hsame
        simp [Path.element] at hsame
    rw [← hpaths, List.map_map, List.Nodup, List.pairwise_map] at hnodup
    rw [List.Nodup, List.pairwise_map]
    exact hnodup.imp fun hfiled haddress =>
      hfiled ((Path.address_eq_iff_filed _ _).mp haddress)

/-- The list is on record as it is written just when no element of it has a hash behind a space
or a tab, in quotes or not. -/
theorem records_build_flowList (l : FlowList) :
    (Survey.build .outline (String.ofList l.line)).atlas.records = l.records ↔
      ∀ v ∈ l.elements, ¬ HoldsComment v.text := by
  have hfindings : Survey.findings .outline l.line = _ := l.findings_line
  rw [Survey.atlas_build, String.toList_ofList, hfindings, Atlas.ofFindings_placed,
    records_ofRecords_items, ← l.value_text_eq_iff]
  constructor
  · intro h
    have hlast := congrArg List.getLast? h
    rw [records, List.getLast?_concat, List.getLast?_concat, Option.some.injEq, keyRecord,
      keyRecord, Record.mk.injEq] at hlast
    have hspan := congrArg Place.value? hlast.2
    simp only [Line.place, Option.map_some, Option.some.injEq, Piece.span, Span.mk.injEq] at hspan
    exact String.ofList_injective hspan.1
  · intro h
    have hvalue : l.value = ⟨l.key.text.length + 2, l.written⟩ := by
      rw [← h]
      rfl
    rw [hvalue, inlinePieces_written, records]

end FlowList

def hashedList : FlowList where
  key := .ofChars ['t', 'a', 'g', 's'] (by decide)
  first := .literal ['a', ' ', '#', 'b'] (by decide)
  rest := [.word (.ofChars ['d'] (by decide))]

/-- A hash in quotes cuts the list off, and then nothing in it is found. -/
theorem hash_in_quotes_ends_list :
    ¬ ∀ l : FlowList, (Survey.build .outline (String.ofList l.line)).atlas.records = l.records := by
  intro h
  have hline : String.ofList hashedList.line = "tags: [\"a #b\", d]" := by decide
  have hrecords : (Survey.build .outline "tags: [\"a #b\", d]").atlas.records =
      [⟨Path.root.field "tags",
        ⟨1, "tags: [\"a #b\", d]", some ⟨"tags", 0⟩, some ⟨"[\"a", 6⟩⟩⟩] := by cbv
  have hlength := congrArg List.length (h hashedList)
  rw [hline, hrecords] at hlength
  exact absurd hlength (by decide)

end ConfigAtlas.Outline
