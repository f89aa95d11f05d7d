import Mathlib
import ConfigAtlas.Proofs.Outline.Comments
import ConfigAtlas.Proofs.Outline.Spans
import ConfigAtlas.Proofs.Survey.InertLines

/-!
# A comment behind an item

The comment is no part of what the item says, so what is on record stays as it is. But a colon in
it that could end a key makes a key of all before the colon.
-/

namespace ConfigAtlas

/-! ## Words in an item -/

namespace Outline

/-- Words with one space between two. -/
structure Phrase where
  first : Word
  rest : List Word

namespace Phrase

def text (w : Phrase) : List Char := w.first.text ++ w.rest.flatMap (' ' :: ·.text)

/-- An item that has the words for its value. -/
def item (column : Nat) (w : Phrase) : List Char := spaces column ++ '-' :: ' ' :: w.text

theorem item_append (column : Nat) (w : Phrase) (after : List Char) :
    w.item column ++ after = spaces column ++ '-' :: ' ' :: (w.text ++ after) := by
  simp [item]

end Phrase

/-- A comment behind what stands on a line. -/
def trailing (comment : List Char) : List Char := ' ' :: '#' :: ' ' :: comment

/-- A colon at the end or before a space or a tab. -/
def SeparatesKey (t : List Char) : Prop := ∃ key after, t = key ++ ':' :: after ∧ Ends after

theorem separatesKey_cons (c : Char) (t : List Char) :
    SeparatesKey (c :: t) ↔ (c = ':' ∧ Ends t) ∨ SeparatesKey t := by
  constructor
  · rintro ⟨key, after, heq, hafter⟩
    cases key with
    | nil =>
      obtain ⟨rfl, rfl⟩ := List.cons.inj heq
      exact .inl ⟨rfl, hafter⟩
    | cons d key => exact .inr ⟨key, after, (List.cons.inj heq).2, hafter⟩
  · rintro (⟨rfl, hafter⟩ | ⟨key, after, rfl, hafter⟩)
    · exact ⟨[], t, rfl, hafter⟩
    · exact ⟨c :: key, after, rfl, hafter⟩

theorem colon?_eq_none_iff (t : List Char) : Pair.colon? t = none ↔ ¬ SeparatesKey t := by
  induction t with
  | nil => simp [Pair.colon?, SeparatesKey]
  | cons c t ih =>
    rw [separatesKey_cons, Pair.colon?, Ends]
    split
    · rename_i hcolon
      simp_all
    · rename_i hcolon
      rw [Option.map_eq_none_iff, ih]
      simp_all

theorem drop_colon? {t : List Char} {n : Nat} (h : Pair.colon? t = some n) :
    ∃ after, t.drop n = ':' :: after ∧ Ends after := by
  induction t generalizing n with
  | nil => cases h
  | cons c t ih =>
    rw [Pair.colon?] at h
    split at h
    · rename_i hcolon
      rw [Bool.and_eq_true, beq_iff_eq] at hcolon
      cases h
      exact ⟨t, by rw [hcolon.1, List.drop_zero], hcolon.2⟩
    · obtain ⟨m, hm, rfl⟩ := Option.map_eq_some_iff.mp h
      exact ih hm

theorem exists_read?_of_colon? {c : Char} (hc : isWordChar c = true) (start : Nat)
    {rest : List Char} {n : Nat} (h : Pair.colon? (c :: rest) = some n) :
    ∃ pair, Pair.read? ⟨start, c :: rest⟩ = some pair := by
  have hrun : Text.quotedRun? (c :: rest) = none := by
    rw [Text.quotedRun?, isQuote_of_isWordChar hc]
    rfl
  obtain ⟨after, hdrop, hafter⟩ := drop_colon? h
  have hends : after.head?.all isGap = true := hafter
  have hrest : (Piece.trimStart (Piece.drop ⟨start, c :: rest⟩ n)).text = ':' :: after := by
    change Text.trimStart (Piece.drop ⟨start, c :: rest⟩ n).text = _
    rw [Piece.text_drop, hdrop, Text.trimStart_cons (by decide)]
  obtain ⟨key, hkey⟩ : ∃ key, Text.trimEnd ((c :: rest).take n) = c :: key := by
    cases n with
    | zero => exact absurd (List.cons.inj hdrop).1 (ne_of_isWordChar hc (by decide))
    | succ n =>
      have hsolid := isBlank_of_isWordChar hc
      have htrim := Text.trim_cons hsolid (rest.take n)
      rw [Text.trim, Text.trimStart_cons hsolid] at htrim
      exact htrim
  simp only [Pair.read?, hrun, h, Option.none_or, Piece.trimEnd, Piece.take, hkey, List.head?_cons,
    Option.all_some, isKeyBarrier_of_isWordChar hc, hrest, hends, Bool.false_eq_true, if_false,
    if_true]
  exact ⟨_, rfl⟩

theorem colon?_trailing (c : List Char) : Pair.colon? (trailing c) = none ↔ ¬ SeparatesKey c := by
  have hsigns : ':' ∉ [' ', '#', ' '] := by decide
  have hcolon : Pair.colon? (trailing c) = (Pair.colon? c).map (· + 3) := colon?_append hsigns c
  rw [hcolon, Option.map_eq_none_iff, colon?_eq_none_iff]

namespace Phrase

variable (w : Phrase)

theorem mem_text {c : Char} (h : c ∈ w.text) : isWordChar c = true ∨ c = ' ' := by
  rw [text, List.mem_append, List.mem_flatMap] at h
  rcases h with h | ⟨word, -, h⟩
  · exact .inl (w.first.chars c h)
  · rcases List.mem_cons.mp h with rfl | h
    · exact .inr rfl
    · exact .inl (word.chars c h)

theorem not_mem_text {d : Char} (hd : isWordChar d = false) (hspace : d ≠ ' ') : d ∉ w.text := by
  intro h
  rcases w.mem_text h with hword | rfl
  · exact ne_of_isWordChar hword hd rfl
  · exact hspace rfl

theorem text_eq_cons : ∃ c rest, w.text = c :: rest ∧ isWordChar c = true := by
  obtain ⟨c, rest, hfirst, hc⟩ := w.first.text_eq_cons
  exact ⟨c, rest ++ w.rest.flatMap (' ' :: ·.text), by rw [text, hfirst]; rfl, hc⟩

theorem quotedRun?_append (after : List Char) : Text.quotedRun? (w.text ++ after) = none := by
  rw [text, List.append_assoc, w.first.quotedRun?_append]

theorem trimEnd_text : Text.trimEnd w.text = w.text := by
  obtain ⟨front, last, hlast⟩ : ∃ front, ∃ last : Word, w.text = front ++ last.text := by
    rcases List.eq_nil_or_concat w.rest with hrest | ⟨rest, last, hrest⟩
    · exact ⟨[], w.first, by simp [text, hrest]⟩
    · exact ⟨w.first.text ++ rest.flatMap (' ' :: ·.text) ++ [' '], last, by simp [text, hrest]⟩
  have hword : last.text.dropLast ++ [last.text.getLast last.ne_nil] = last.text :=
    List.dropLast_concat_getLast last.ne_nil
  have hsolid : Text.isBlank (last.text.getLast last.ne_nil) = false :=
    isBlank_of_isWordChar (last.chars _ (List.getLast_mem last.ne_nil))
  rw [hlast, ← hword, ← List.append_assoc]
  exact Text.trimEnd_concat hsolid _

/-! ## What is read -/

/-- What may stand behind the words for them to be a scalar. -/
inductive Follows : List Char → Prop where
  | nothing : Follows []
  | comment {c : List Char} (h : ¬ SeparatesKey c) : Follows (trailing c)

theorem scalarAt_follows (start : Nat) {after : List Char} (h : Follows after) :
    scalarAt ⟨start, w.text ++ after⟩ = ⟨start, w.text⟩ := by
  have hhash : '#' ∉ w.text := w.not_mem_text (by decide) (by decide)
  have hbefore : Text.trimEnd (beforeComment true (w.text ++ after)) = w.text := by
    cases h with
    | nothing => rw [List.append_nil, beforeComment_eq_self true hhash, w.trimEnd_text]
    | comment h =>
      have hspace : Text.trimEnd (w.text ++ [' ']) = Text.trimEnd w.text :=
        Text.trimEnd_append (isBlank_of_mem_spaces (n := 1)) w.text
      rw [trailing, beforeComment_append hhash, hspace, w.trimEnd_text]
  simp only [scalarAt, w.quotedRun?_append, Piece.trimEnd, hbefore]

theorem read_append (start : Nat) (after : List Char) :
    Statement.read ⟨start, w.text ++ after⟩ =
      match Pair.read? ⟨start, w.text ++ after⟩ with
      | some found => .pair found
      | none => .scalar (scalarAt ⟨start, w.text ++ after⟩) := by
  obtain ⟨c, rest, htext, hc⟩ := w.text_eq_cons
  rw [htext, List.cons_append]
  exact read_cons (isBlank_of_isWordChar hc) (ne_of_isWordChar hc (by decide))
    (ne_of_isWordChar hc (by decide)) start (rest ++ after)

theorem colon?_append (after : List Char) :
    Pair.colon? (w.text ++ after) = (Pair.colon? after).map (· + w.text.length) :=
  Outline.colon?_append (w.not_mem_text (by decide) (by decide)) after

theorem read_follows (start : Nat) {after : List Char} (h : Follows after) :
    Statement.read ⟨start, w.text ++ after⟩ = .scalar ⟨start, w.text⟩ := by
  have hcolon : Pair.colon? (w.text ++ after) = none := by
    rw [w.colon?_append, Option.map_eq_none_iff]
    cases h with
    | nothing => rfl
    | comment h => exact (colon?_trailing _).mpr h
  have hpair : Pair.read? ⟨start, w.text ++ after⟩ = none := by
    simp only [Pair.read?, w.quotedRun?_append, hcolon, Option.none_or]
  rw [w.read_append, hpair, w.scalarAt_follows start h]

theorem read_separatesKey (start : Nat) {c : List Char} (h : SeparatesKey c) :
    ∃ pair, Statement.read ⟨start, w.text ++ trailing c⟩ = .pair pair := by
  obtain ⟨n, hn⟩ : ∃ n, Pair.colon? (trailing c) = some n := by
    rw [← Option.ne_none_iff_exists', ne_eq, colon?_trailing, not_not]
    exact h
  have hcolon : Pair.colon? (w.text ++ trailing c) = some (n + w.text.length) := by
    rw [w.colon?_append, hn]
    rfl
  obtain ⟨pair, hpair⟩ : ∃ pair, Pair.read? ⟨start, w.text ++ trailing c⟩ = some pair := by
    obtain ⟨first, rest, htext, hfirst⟩ := w.text_eq_cons
    rw [htext, List.cons_append] at hcolon ⊢
    exact exists_read?_of_colon? hfirst start hcolon
  exact ⟨pair, by rw [w.read_append, hpair]⟩

end Phrase

/-! ## What the line places -/

namespace Context

theorem step_withoutBlock {ctx : Context} {line : Line} (h : ctx.passesOver line.text = false) :
    ctx.step line = Context.step { ctx with block? := none } line := by
  have hopen : Context.passesOver { ctx with block? := none } line.text = false := rfl
  simp only [step, h, hopen, Bool.false_eq_true, if_false]

theorem passesOver_item {ctx : Context} {column : Nat} (w : Phrase) (after : List Char)
    (h : ∀ depth ∈ ctx.block?, column ≤ depth) :
    ctx.passesOver (w.item column ++ after) = false := by
  have hfront : Front ('-' :: ' ' :: (w.text ++ after)) := .marker (ends_space _)
  have htrim : Text.trimStart (w.item column ++ after) = '-' :: ' ' :: (w.text ++ after) := by
    rw [w.item_append, Text.trimStart_append isBlank_of_mem_spaces, hfront.trimStart_eq]
  have hindent : ((w.item column ++ after).takeWhile isGap).length = column := by
    rw [w.item_append, hfront.takeWhile_isGap, (lead_spaces column).length_eq]
  unfold passesOver
  cases hblock : ctx.block? with
  | none => rfl
  | some depth => simp [htrim, hindent, h depth hblock]

theorem step_item {ctx : Context} {column : Nat} (w : Phrase) (after : List Char)
    (h : ∀ depth ∈ ctx.block?, column ≤ depth) (n : Nat) :
    ctx.step ⟨n, w.item column ++ after⟩ =
      Context.placeItem { ctx with block? := none } ⟨n, w.item column ++ after⟩
        ⟨column, '-' :: ' ' :: (w.text ++ after)⟩ := by
  rw [step_withoutBlock (passesOver_item w after h), w.item_append,
    step_marker rfl (ends_space (w.text ++ after)), enter_item (read_marker _ (ends_space _))]

theorem afterMarker_item (column : Nat) (w : Phrase) (after : List Char) :
    afterMarker ⟨column, '-' :: ' ' :: (w.text ++ after)⟩ = ⟨column + 2, w.text ++ after⟩ := by
  obtain ⟨c, rest, htext, hc⟩ := w.text_eq_cons
  have hspace := afterMarker_spaces column 1 (w.text ++ after)
  rw [htext, List.cons_append, Piece.trimStart_cons (isBlank_of_isWordChar hc)] at hspace
  rw [htext]
  exact hspace

theorem depth_item (column n : Nat) (w : Phrase) (after : List Char) :
    Line.depth ⟨n, w.item column ++ after⟩ column = column := by
  rw [w.item_append, (lead_spaces column).depth_eq]

section

variable {ctx : Context} {column : Nat} (w : Phrase)
variable (h : ∀ depth ∈ ctx.block?, column ≤ depth) (n : Nat)
include h

theorem step_words {after : List Char} (hafter : Phrase.Follows after) :
    ctx.step ⟨n, w.item column ++ after⟩ =
      (let opened := Context.openItem { ctx with block? := none } column
      (opened, [.placed ⟨opened.base, Line.place ⟨n, w.item column ++ after⟩ none
        (some ⟨column + 2, w.text⟩)⟩])) := by
  obtain ⟨c, rest, htext, hc⟩ := w.text_eq_cons
  have hsigns : c ∉ ['[', '|', '>'] := by
    simp [ne_of_isWordChar hc (by decide : isWordChar '[' = false),
      ne_of_isWordChar hc (by decide : isWordChar '|' = false),
      ne_of_isWordChar hc (by decide : isWordChar '>' = false)]
  rw [step_item w after h, placeItem_eq]
  simp only [afterMarker_item, w.read_follows _ hafter, depth_item]
  rw [htext, placeValue_cons hsigns]

theorem step_key_in_comment {c : List Char} (hc : SeparatesKey c) :
    ∃ found, (ctx.step ⟨n, w.item column ++ trailing c⟩).2 =
      .placed ⟨(Context.openItem { ctx with block? := none } column).base,
        Line.place ⟨n, w.item column ++ trailing c⟩ none none⟩ :: found := by
  obtain ⟨pair, hpair⟩ := w.read_separatesKey (column + 2) hc
  rw [step_item w (trailing c) h, placeItem_eq]
  simp only [afterMarker_item, hpair, depth_item]
  exact ⟨_, rfl⟩

/-- The words behind the marker are the value just when the comment has no colon to end a key. -/
theorem step_trailing_iff (c : List Char) :
    (ctx.step ⟨n, w.item column ++ trailing c⟩).2 =
        [.placed ⟨(Context.openItem { ctx with block? := none } column).base,
          Line.place ⟨n, w.item column ++ trailing c⟩ none (some ⟨column + 2, w.text⟩)⟩] ↔
      ¬ SeparatesKey c := by
  constructor
  · intro halone hc
    obtain ⟨found, hfound⟩ := step_key_in_comment w h n hc
    rw [hfound, List.cons_eq_cons, Finding.placed.injEq, Record.mk.injEq] at halone
    have hvalue := congrArg Place.value? halone.1.2
    cases hvalue
  · intro hc
    rw [step_words w h n (.comment hc)]

end

theorem line_of_placed {ctx : Context} {n : Nat} {rows : List (List Char)} {r : Record}
    (h : .placed r ∈ (ctx.run (Line.numbered n rows)).2) :
    n ≤ r.place.line ∧ r.place.line < n + rows.length := by
  obtain ⟨l, hl, hshows⟩ := shows_run h
  rw [hshows.line_eq]
  exact Line.number_of_mem_numbered hl

end Context

end Outline

/-! ## What is on record -/

/-- A place on this line shows the line as this text. -/
def Place.withRaw (line : Nat) (raw : String) (place : Place) : Place :=
  if place.line = line then { place with raw := raw } else place

theorem Record.mapPlace_withRaw {r : Record} {line : Nat} (h : r.place.line ≠ line)
    (raw : String) : r.mapPlace (·.withRaw line raw) = r := by
  simp only [Record.mapPlace, Place.withRaw, if_neg h]

namespace Outline

theorem placed_withRaw {ctx : Context} {n line : Nat} {rows : List (List Char)}
    (h : line < n ∨ n + rows.length ≤ line) (raw : String) :
    (Scan.placed (ctx.run (Line.numbered n rows)).2).map (·.mapPlace (·.withRaw line raw)) =
      Scan.placed (ctx.run (Line.numbered n rows)).2 := by
  refine (List.map_congr_left fun r hr => ?_).trans (List.map_id _)
  have hline := Context.line_of_placed (Finding.mem_filterMap_record?.mp hr)
  exact Record.mapPlace_withRaw (by omega) raw

theorem placed_run_trailing {before after : List (List Char)} {column : Nat} (w : Phrase)
    {c : List Char} (hc : ¬ SeparatesKey c)
    (houtside : ∀ depth ∈ (Context.run {} (Line.numbered 1 before)).1.block?, column ≤ depth) :
    Scan.placed (Context.run {}
        (Line.numbered 1 (before ++ (w.item column ++ trailing c) :: after))).2 =
      (Scan.placed (Context.run {} (Line.numbered 1 (before ++ w.item column :: after))).2).map
        (·.mapPlace (·.withRaw (before.length + 1)
          (String.ofList (w.item column ++ trailing c)))) := by
  have hplain := Context.step_words w houtside (1 + before.length) .nothing
  have hcommented := Context.step_words w houtside (1 + before.length) (.comment hc)
  rw [List.append_nil] at hplain
  simp only [Line.numbered_append, Line.numbered, Context.run_append, Context.run, hplain,
    hcommented, Scan.placed_append, List.map_append]
  rw [placed_withRaw (.inr (by omega)), placed_withRaw (.inl (by omega))]
  simp [Scan.placed, Finding.record?, Record.mapPlace, Place.withRaw, Line.place,
    Nat.add_comm 1]

theorem atlas_build_rows (lastOpen : Bool) {rows : List (List Char)}
    (h : ∀ row ∈ rows, '\n' ∉ row ∧ '\r' ∉ row) :
    (Survey.build .outline (String.ofList (Text.unlines lastOpen rows))).atlas =
      .ofRecords (Scan.placed (Context.run {} (Line.numbered 1 rows)).2) := by
  have hscan : ∀ content, Survey.findings .outline content =
      (Scan.run Context.step {} (Line.ofContent content)).2 := Context.findings_eq_scan
  rw [Survey.atlas_build_of_scan (fun ctx => (Context.inert_nil ctx).silent) hscan lastOpen h,
    Context.run_eq_scan]

/-- A comment behind a scalar item leaves everything on record as it is, but for the text of the
line, unless it has a colon that can end a key. The item is placed alone, with its words, exactly
then. -/
theorem atlas_of_trailing_comment (lastOpen : Bool) {before after : List (List Char)}
    {column : Nat} (w : Phrase) {c : List Char}
    (hrows : ∀ r ∈ before ++ (w.item column ++ trailing c) :: after, '\n' ∉ r ∧ '\r' ∉ r)
    (houtside : ∀ depth ∈ (Context.run {} (Line.numbered 1 before)).1.block?, column ≤ depth) :
    let number := before.length + 1
    let atlas (row : List Char) :=
      (Survey.build .outline (String.ofList (Text.unlines lastOpen (before ++ row :: after)))).atlas
    let found (row : List Char) :=
      ((Context.run {} (Line.numbered 1 before)).1.step ⟨number, row⟩).2
    let commented := w.item column ++ trailing c
    (¬ SeparatesKey c → atlas commented =
        (atlas (w.item column)).mapPlaces (·.withRaw number (String.ofList commented))) ∧
      ∃ path,
        let alone (row : List Char) : List Finding :=
          [.placed ⟨path, Line.place ⟨number, row⟩ none (some ⟨column + 2, w.text⟩)⟩]
        found (w.item column) = alone (w.item column) ∧
          (found commented = alone commented ↔ ¬ SeparatesKey c) := by
  intro number atlas found commented
  have hplain : ∀ r ∈ before ++ w.item column :: after, '\n' ∉ r ∧ '\r' ∉ r := by
    intro r hr
    rcases List.mem_append.mp hr with hr | hr
    · exact hrows r (List.mem_append_left _ hr)
    rcases List.mem_cons.mp hr with rfl | hr
    · obtain ⟨hfeed, hreturn⟩ := hrows _ (List.mem_append_right _ List.mem_cons_self)
      exact ⟨fun h => hfeed (List.mem_append_left _ h), fun h => hreturn (List.mem_append_left _ h)⟩
    · exact hrows r (List.mem_append_right _ (List.mem_cons_of_mem _ hr))
  constructor
  · intro hc
    -- The line is read alike with and without the comment, so only its text differs.
    simp only [atlas, commented, number]
    rw [atlas_build_rows lastOpen hrows, atlas_build_rows lastOpen hplain,
      placed_run_trailing w hc houtside, Atlas.ofRecords_mapPlace]
  · refine ⟨(Context.openItem
      { (Context.run {} (Line.numbered 1 before)).1 with block? := none } column).base, ?_,
      Context.step_trailing_iff w houtside number c⟩
    have hitem := Context.step_words w houtside number .nothing
    rw [List.append_nil] at hitem
    simp only [found, hitem]

def twoWords : Phrase := ⟨.ofChars ['t', 'o'] (by decide), [.ofChars ['d', 'o'] (by decide)]⟩

theorem atlas_of_comment_behind_block :
    let before := ["k: |".toList, " x".toList]
    let after := ["- c".toList]
    let c := "d:e '".toList
    let commented := twoWords.item 0 ++ trailing c
    let atlas (row : List Char) :=
      (Survey.build .outline (String.ofList (Text.unlines true (before ++ row :: after)))).atlas
    (∀ r ∈ before ++ commented :: after, '\n' ∉ r ∧ '\r' ∉ r) ∧
      (∀ depth ∈ (Context.run {} (Line.numbered 1 before)).1.block?, 0 ≤ depth) ∧
      ¬ SeparatesKey c ∧
      atlas commented = (atlas (twoWords.item 0)).mapPlaces
        (·.withRaw 3 (String.ofList commented)) := by
  intro before after c commented atlas
  have hrows : ∀ r ∈ before ++ commented :: after, '\n' ∉ r ∧ '\r' ∉ r := by decide
  have houtside : ∀ depth ∈ (Context.run {} (Line.numbered 1 before)).1.block?, 0 ≤ depth :=
    fun depth _ => Nat.zero_le depth
  have hc : ¬ SeparatesKey c := (colon?_eq_none_iff c).mp (by decide)
  exact ⟨hrows, houtside, hc, (atlas_of_trailing_comment true twoWords hrows houtside).1 hc⟩

/-- A colon in the comment makes a key of the words and the comment in front of it. -/
theorem colon_in_comment_ends_key :
    ¬ ∀ (lastOpen : Bool) (before after : List (List Char)) (column : Nat) (w : Phrase)
        (c : List Char),
      (∀ r ∈ before ++ (w.item column ++ trailing c) :: after, '\n' ∉ r ∧ '\r' ∉ r) →
      (∀ depth ∈ (Context.run {} (Line.numbered 1 before)).1.block?, column ≤ depth) →
      let atlas (row : List Char) :=
        (Survey.build .outline
          (String.ofList (Text.unlines lastOpen (before ++ row :: after)))).atlas
      atlas (w.item column ++ trailing c) = (atlas (w.item column)).mapPlaces
        (·.withRaw (before.length + 1) (String.ofList (w.item column ++ trailing c))) := by
  intro h
  have hatlas := h true [] [] 0 twoWords "n: x".toList (by decide) (by rintro depth ⟨⟩)
  have hplain : (Survey.build .outline "- to do").atlas.size = 1 := by cbv
  have hcommented : (Survey.build .outline "- to do # n: x").atlas.size = 2 := by cbv
  have hrow : String.ofList (Text.unlines true [twoWords.item 0]) = "- to do" := by decide
  have hlong : String.ofList (Text.unlines true [twoWords.item 0 ++ trailing "n: x".toList]) =
      "- to do # n: x" := by decide
  have hsize := congrArg Atlas.size hatlas
  simp only [List.nil_append] at hsize
  rw [hrow, hlong, hcommented, Atlas.size_mapPlaces, hplain] at hsize
  exact absurd hsize (by decide)

end Outline

end ConfigAtlas
