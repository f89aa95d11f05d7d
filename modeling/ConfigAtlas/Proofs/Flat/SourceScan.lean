import ConfigAtlas.Survey
import ConfigAtlas.Proofs.Flat.Source
import ConfigAtlas.Proofs.Path.Branches
import ConfigAtlas.Proofs.Text.Lines

/-! # A flat source with quoted names is read as it was written -/

namespace ConfigAtlas.Flat

theorem written_cons (first second : Name) (rest : List Name) :
    Key.written ⟨first, second :: rest⟩ =
      Text.literal first.text ++ '.' :: Key.written ⟨second, rest⟩ := by
  simp [Key.written, Key.names, Name.written]

theorem written_singleton (n : Name) : Key.written ⟨n, []⟩ = Text.literal n.text := by
  simp [Key.written, Key.names, Name.written]

theorem written_quoted (first : Name) (rest : List Name) :
    ∃ body, Key.written ⟨first, rest⟩ = '"' :: (body ++ ['"']) := by
  induction rest generalizing first with
  | nil => exact ⟨_, written_singleton first⟩
  | cons second rest ih =>
    obtain ⟨body, hbody⟩ := ih second
    refine ⟨Text.escape Segment.quotedSpecial first.text ++ ['"', '.', '"'] ++ body, ?_⟩
    rw [written_cons, hbody, Text.literal]
    simp

theorem trim_written (k : Key) : Text.trim k.written = k.written := by
  obtain ⟨body, hbody⟩ := written_quoted k.first k.rest
  rw [hbody, Text.trim_quoted]

/-! ## The parts of a key -/

theorem names_cons_of_not_ends {s : KeyScan} {c : Char} (h : s.ends c = false)
    (rest : List Char) : s.names (c :: rest) = (s.step c).names rest := by
  rw [KeyScan.names, if_neg (by simp [h])]

theorem names_guarded (part : List Char) (quote? : Option Char) (c : Char) (rest : List Char) :
    KeyScan.names ⟨part, quote?, false⟩ ('\\' :: c :: rest) =
      KeyScan.names ⟨c :: part, quote?, false⟩ rest := by
  have hslash : KeyScan.ends ⟨part, quote?, false⟩ '\\' = false := by simp [KeyScan.ends]
  have hstep : KeyScan.step (KeyScan.step ⟨part, quote?, false⟩ '\\') c =
      ⟨c :: part, quote?, false⟩ := by
    simp [KeyScan.step]
  rw [names_cons_of_not_ends hslash, names_cons_of_not_ends (by rfl), hstep]

/-- In a quoted part the escapes are taken out, and nothing else happens. -/
theorem names_escape (t part rest : List Char) :
    KeyScan.names ⟨part, some '"', false⟩ (Text.escape Segment.quotedSpecial t ++ rest) =
      KeyScan.names ⟨t.reverse ++ part, some '"', false⟩ rest := by
  induction t generalizing part with
  | nil => rfl
  | cons c t ih =>
    cases hc : Segment.quotedSpecial c with
    | true =>
      rw [Text.escape_cons_of_special hc, List.cons_append, List.cons_append, names_guarded, ih,
        List.reverse_cons, List.append_assoc, List.singleton_append]
    | false =>
      obtain ⟨hquote, hslash⟩ : c ≠ '"' ∧ c ≠ '\\' := by
        simpa [Segment.quotedSpecial] using hc
      have hends : KeyScan.ends ⟨part, some '"', false⟩ c = false := by simp [KeyScan.ends]
      rw [Text.escape_cons_of_not_special hc, List.cons_append, names_cons_of_not_ends hends]
      have hstep : KeyScan.step ⟨part, some '"', false⟩ c = ⟨c :: part, some '"', false⟩ := by
        simp [KeyScan.step, hslash, hends, KeyScan.quoteAfter, hquote]
      rw [hstep, ih, List.reverse_cons, List.append_assoc, List.singleton_append]

theorem names_literal (t rest : List Char) :
    KeyScan.names {} (Text.literal t ++ rest) =
      KeyScan.names ⟨'"' :: (t.reverse ++ ['"']), none, false⟩ rest := by
  have hopen : KeyScan.step {} '"' = ⟨['"'], some '"', false⟩ := by decide
  have hclose : KeyScan.step ⟨t.reverse ++ ['"'], some '"', false⟩ '"' =
      ⟨'"' :: (t.reverse ++ ['"']), none, false⟩ := by
    simp [KeyScan.step, KeyScan.ends, KeyScan.quoteAfter]
  rw [Text.literal, List.cons_append, List.append_assoc, names_cons_of_not_ends (by decide), hopen,
    names_escape, List.singleton_append, names_cons_of_not_ends (by rfl), hclose]

theorem name?_literal (n : Name) :
    KeyScan.name? ⟨'"' :: (n.text.reverse ++ ['"']), none, false⟩ = some n.text := by
  have hreverse : ('"' :: (n.text.reverse ++ ['"'])).reverse = '"' :: (n.text ++ ['"']) := by simp
  rw [KeyScan.name?, hreverse, Text.trim_quoted, Text.unquote_quoted]
  cases hn : n.text with
  | nil => exact absurd hn n.ne_nil
  | cons c t => rfl

theorem names_written (first : Name) (rest : List Name) :
    KeyScan.names {} (Key.written ⟨first, rest⟩) = Key.texts ⟨first, rest⟩ := by
  induction rest generalizing first with
  | nil =>
    have h := names_literal first.text []
    rw [List.append_nil] at h
    rw [written_singleton, h, KeyScan.names, name?_literal]
    rfl
  | cons second rest ih =>
    have hends : KeyScan.ends ⟨'"' :: (first.text.reverse ++ ['"']), none, false⟩ '.' = true := rfl
    have hstep : KeyScan.step ⟨'"' :: (first.text.reverse ++ ['"']), none, false⟩ '.' = {} := by
      simp [KeyScan.step, hends]
    rw [written_cons, names_literal, KeyScan.names, if_pos hends, hstep, name?_literal, ih]
    rfl

/-! ## The end of a key -/

theorem find?_cons_of_not_finds {s : SeparatorScan} {c : Char} (h : s.finds c = false)
    (rest : List Char) : s.find? (c :: rest) = ((s.step c).find? rest).map (· + 1) := by
  rw [SeparatorScan.find?, if_neg (by simp [h])]

theorem find?_guarded (quote? : Option Char) (fresh : Bool) (c : Char) (rest : List Char) :
    SeparatorScan.find? ⟨quote?, false, fresh⟩ ('\\' :: c :: rest) =
      (SeparatorScan.find? ⟨quote?, false, false⟩ rest).map (· + 2) := by
  have hslash : SeparatorScan.finds ⟨quote?, false, fresh⟩ '\\' = false := by
    simp [SeparatorScan.finds]
  have hstep : SeparatorScan.step (SeparatorScan.step ⟨quote?, false, fresh⟩ '\\') c =
      ⟨quote?, false, false⟩ := by
    simp [SeparatorScan.step]
  rw [find?_cons_of_not_finds hslash, find?_cons_of_not_finds (by rfl), hstep, Option.map_map]
  rfl

/-- In a quoted part no sign is found. What was fresh before it no longer matters behind it. -/
theorem find?_escape (fresh : Bool) (t rest : List Char) :
    SeparatorScan.find? ⟨some '"', false, fresh⟩
        (Text.escape Segment.quotedSpecial t ++ '"' :: rest) =
      (SeparatorScan.find? ⟨none, false, false⟩ rest).map
        (· + ((Text.escape Segment.quotedSpecial t).length + 1)) := by
  induction t generalizing fresh with
  | nil =>
    have hclose : SeparatorScan.step ⟨some '"', false, fresh⟩ '"' = ⟨none, false, false⟩ := by
      cases fresh <;> decide
    rw [Text.escape_nil, List.nil_append, find?_cons_of_not_finds (by rfl), hclose]
    rfl
  | cons c t ih =>
    cases hc : Segment.quotedSpecial c with
    | true =>
      rw [Text.escape_cons_of_special hc, List.cons_append, List.cons_append, find?_guarded, ih]
      simp [Function.comp_def, Nat.add_assoc]
    | false =>
      obtain ⟨hquote, hslash⟩ : c ≠ '"' ∧ c ≠ '\\' := by
        simpa [Segment.quotedSpecial] using hc
      have hfinds : SeparatorScan.finds ⟨some '"', false, fresh⟩ c = false := by
        simp [SeparatorScan.finds]
      have hstep : SeparatorScan.step ⟨some '"', false, fresh⟩ c = ⟨some '"', false, fresh⟩ := by
        simp [SeparatorScan.step, hslash, SeparatorScan.quoteAfter, hquote]
      rw [Text.escape_cons_of_not_special hc, List.cons_append, find?_cons_of_not_finds hfinds,
        hstep, ih]
      simp [Function.comp_def, Nat.add_assoc]

theorem find?_literal (t rest : List Char) :
    SeparatorScan.find? {} (Text.literal t ++ rest) =
      (SeparatorScan.find? ⟨none, false, false⟩ rest).map (· + (Text.literal t).length) := by
  have hopen : SeparatorScan.step {} '"' = ⟨some '"', false, true⟩ := by decide
  rw [Text.literal, List.cons_append, List.append_assoc, find?_cons_of_not_finds (by decide), hopen,
    List.singleton_append, find?_escape]
  simp [Function.comp_def, Nat.add_assoc]

theorem find?_written (first : Name) (rest : List Name) (value : List Char) :
    SeparatorScan.find? {} (Key.written ⟨first, rest⟩ ++ '=' :: value) =
      some (Key.written ⟨first, rest⟩).length := by
  induction rest generalizing first with
  | nil =>
    have h := find?_literal first.text ('=' :: value)
    rw [written_singleton, h, SeparatorScan.find?, if_pos (by rfl)]
    simp
  | cons second rest ih =>
    have hstep : SeparatorScan.step ⟨none, false, false⟩ '.' = {} := by decide
    rw [written_cons, List.append_assoc, List.cons_append, find?_literal,
      find?_cons_of_not_finds (by rfl), hstep, ih]
    simp [Nat.add_comm]

/-! ## Lines -/

theorem not_startsWith_bracket {c : Char} (hc : c ≠ '[') (start : Nat) (t front : List Char) :
    Piece.startsWith ⟨start, c :: t⟩ ('[' :: front) = false := by
  simp [Piece.startsWith, List.isPrefixOf, Ne.symm hc]

section

variable {c : Char} {t value : List Char}

theorem readEntry_of_find? (hkey : Text.trim (c :: t) = c :: t) (hvalue : Text.trim value = value)
    (hvalue_ne : value ≠ [])
    (hfind : SeparatorScan.find? {} (c :: t ++ '=' :: value) = some (c :: t).length) :
    Statement.readEntry (.whole (c :: t ++ '=' :: value)) =
      .entry ⟨0, c :: t⟩ (some ⟨(c :: t).length + 1, value⟩) := by
  have hfront : ((Piece.whole (c :: t ++ '=' :: value)).take (c :: t).length).trim =
      ⟨0, c :: t⟩ := by
    rw [Piece.whole, Piece.take_length_append]
    exact Piece.trim_eq_self hkey
  have hbehind : ((Piece.whole (c :: t ++ '=' :: value)).drop ((c :: t).length + 1)).trim =
      ⟨(c :: t).length + 1, value⟩ := by
    have hdrop := Piece.drop_length_append 0 (c :: t ++ ['=']) value
    rw [List.append_assoc, List.singleton_append, List.length_append, List.length_singleton,
      Nat.zero_add] at hdrop
    rw [Piece.whole, hdrop]
    exact Piece.trim_eq_self hvalue
  have hvalue_some : Piece.isEmpty ⟨(c :: t).length + 1, value⟩ = false := by
    simp [Piece.isEmpty, hvalue_ne]
  have hfind' : SeparatorScan.find? {} (Piece.whole (c :: t ++ '=' :: value)).text =
      some (c :: t).length := hfind
  simp only [Statement.readEntry, hfind', hfront, hbehind, hvalue_some, Bool.false_eq_true,
    if_false]
  rfl

theorem read_of_find? (hmark : Statement.isCommentMark c = false) (hbracket : c ≠ '[')
    (hkey : Text.trim (c :: t) = c :: t) (hvalue : Text.trim value = value)
    (hvalue_ne : value ≠ [])
    (hfind : SeparatorScan.find? {} (c :: t ++ '=' :: value) = some (c :: t).length) :
    Statement.read (c :: t ++ '=' :: value) =
      .entry ⟨0, c :: t⟩ (some ⟨(c :: t).length + 1, value⟩) := by
  have hblank := Text.not_isBlank_head_of_trim hkey
  obtain ⟨rest, hrest⟩ := Text.trim_cons hblank (t ++ '=' :: value)
  have htext : (Piece.whole (c :: t ++ '=' :: value)).trim.text = c :: rest := by
    rw [Piece.text_trim, Piece.whole, List.cons_append, hrest]
  have hbrackets : ∀ front, (Piece.whole (c :: t ++ '=' :: value)).trim.startsWith
      ('[' :: front) = false := by
    intro front
    rw [Piece.startsWith, htext]
    exact not_startsWith_bracket hbracket 0 rest front
  rw [← readEntry_of_find? hkey hvalue hvalue_ne hfind]
  simp only [Statement.read, htext, hmark, Bool.false_eq_true, if_false, Piece.between?,
    hbrackets]

end

theorem read_entry (e : Entry) :
    Statement.read e.written =
      .entry ⟨0, e.key.written⟩ (some ⟨e.key.written.length + 1, e.value⟩) := by
  obtain ⟨body, hbody⟩ := written_quoted e.key.first e.key.rest
  have hkey : e.key.written = '"' :: (body ++ ['"']) := hbody
  have htrim := trim_written e.key
  have hfind : SeparatorScan.find? {} (e.key.written ++ '=' :: e.value) =
      some e.key.written.length := find?_written e.key.first e.key.rest e.value
  rw [Entry.written]
  rw [hkey] at htrim hfind ⊢
  exact read_of_find? (by decide) (by decide) htrim e.trim_value e.value_ne_nil hfind

theorem trim_bracketed (t : List Char) :
    (Piece.whole ('[' :: (t ++ [']']))).trim = .whole ('[' :: (t ++ [']'])) :=
  Piece.trim_eq_self (Text.trim_concat (by decide) (by decide) t)

theorem read_header {s : Section} (h : s.isArray = false) :
    Statement.read s.header = .header ⟨1, s.key.written⟩ := by
  obtain ⟨body, hbody⟩ := written_quoted s.key.first s.key.rest
  have htable : Piece.between? ['[', '['] [']', ']']
      (.whole ('[' :: (s.key.written ++ [']']))) = none := by
    rw [Piece.between?, show s.key.written = _ from hbody]
    rfl
  have hheader : Piece.between? ['['] [']'] (.whole ('[' :: (s.key.written ++ [']']))) =
      some ⟨1, s.key.written⟩ :=
    Piece.between?_enclosed ['['] [']'] s.key.written 0
  have hmark : Statement.isCommentMark '[' = false := by decide
  have htrim : Piece.trim ⟨1, s.key.written⟩ = ⟨1, s.key.written⟩ :=
    Piece.trim_eq_self (trim_written s.key)
  rw [Section.header, if_neg (by simp [h]), Statement.read, trim_bracketed]
  simp only [htable, hheader, htrim]
  rw [Piece.whole]
  simp only [hmark, Bool.false_eq_true, if_false]

theorem read_table {s : Section} (h : s.isArray = true) :
    Statement.read s.header = .table ⟨2, s.key.written⟩ := by
  have hheader : s.header = '[' :: (('[' :: s.key.written ++ [']']) ++ [']']) := by
    rw [Section.header, if_pos h]
    simp
  have htable : Piece.between? ['[', '['] [']', ']'] (.whole s.header) =
      some ⟨2, s.key.written⟩ := by
    have henclosed := Piece.between?_enclosed ['[', '['] [']', ']'] s.key.written 0
    rw [Section.header, if_pos h]
    exact henclosed
  have hmark : Statement.isCommentMark '[' = false := by decide
  have htrim : Piece.trim ⟨2, s.key.written⟩ = ⟨2, s.key.written⟩ :=
    Piece.trim_eq_self (trim_written s.key)
  rw [hheader] at htable
  rw [hheader, Statement.read, trim_bracketed]
  simp only [htable, htrim]
  rw [Piece.whole]
  simp only [hmark, Bool.false_eq_true, if_false]

/-! ## Paths -/

theorem keyPath_written (base : List Segment) (k : Key) :
    keyPath (.ofSegments base) k.written = .ofSegments (base ++ k.steps) := by
  have hnames := names_written k.first k.rest
  rw [keyPath, show KeyScan.names {} k.written = k.texts from hnames, Path.ofSegments_append,
    Key.steps, List.foldl_map]
  rfl

theorem map_filed_steps (k : Key) : k.steps.map Segment.filed = k.steps := by
  simp [Key.steps, Segment.filed]

theorem steps_inj {k k' : Key} : k.steps = k'.steps ↔ k.texts = k'.texts := by
  constructor
  · intro h
    refine List.map_inj_right ?_ |>.mp h
    intro s t hst
    exact String.ofList_inj.mp (Segment.field.inj hst)
  · intro h
    rw [Key.steps, h, Key.steps]

theorem address_steps_inj (k k' : Key) :
    (Path.ofSegments k.steps).address = (Path.ofSegments k'.steps).address ↔
      k.texts = k'.texts := by
  rw [Path.address_eq_iff, Path.segments_ofSegments, Path.segments_ofSegments, map_filed_steps,
    map_filed_steps, steps_inj]

/-! ## Reading the lines -/

namespace Context

theorem run_append (ctx : Context) (a b : List Line) :
    ctx.run (a ++ b) = (((ctx.run a).1.run b).1, (ctx.run a).2 ++ ((ctx.run a).1.run b).2) := by
  induction a generalizing ctx with
  | nil => rfl
  | cons line rest ih => simp [run, ih]

theorem step_entry {ctx : Context} {base : List Segment} (h : ctx.current = .ofSegments base)
    (n : Nat) (e : Entry) : ctx.step ⟨n, e.written⟩ = (ctx, [.placed (e.record base n)]) := by
  rw [step, read_entry]
  simp only [h, keyPath_written]
  rfl

theorem run_entries {ctx : Context} {base : List Segment} (h : ctx.current = .ofSegments base)
    (n : Nat) (es : List Entry) :
    ctx.run (Line.numbered n (es.map Entry.written)) =
      (ctx, (Flat.entryRecords base n es).map .placed) := by
  induction es generalizing n with
  | nil => rfl
  | cons e rest ih =>
    rw [List.map_cons, Line.numbered, run, step_entry h]
    simp only [ih]
    rfl

/-- The tables that the sections so far have opened are the tables that are counted. -/
def Counts (ctx : Context) (earlier : List Section) : Prop :=
  ∀ k : Key, ctx.tableCount (.ofSegments k.steps) =
    earlier.countP fun t => t.isArray && t.key.texts == k.texts

theorem counts_nil : Counts {} [] := fun _ => rfl

theorem Counts.openTable {ctx : Context} {earlier : List Section} (h : ctx.Counts earlier)
    {s : Section} (hs : s.isArray = true) :
    (ctx.openTable (.ofSegments s.key.steps)).Counts (earlier ++ [s]) := by
  intro k
  have hcount := h k
  have hown := h s.key
  simp only [tableCount] at hcount hown
  rw [tableCount, Context.openTable, List.lookup_cons, List.countP_append, List.countP_singleton,
    tableCount, hown, hs, Bool.true_and]
  by_cases hk : k.texts = s.key.texts
  · have haddress := (address_steps_inj k s.key).mpr hk
    simp [haddress, hk]
  · have haddress := mt (address_steps_inj k s.key).mp hk
    rw [beq_eq_false_iff_ne.mpr haddress, hcount]
    simp [Ne.symm hk]

theorem Counts.header {ctx : Context} {earlier : List Section} (h : ctx.Counts earlier)
    {s : Section} (hs : s.isArray = false) (current : Path) :
    Counts { ctx with current := current } (earlier ++ [s]) := by
  intro k
  rw [List.countP_append, ← h k]
  simp [hs, tableCount]

theorem step_header {ctx : Context} {earlier : List Section} (h : ctx.Counts earlier) (n : Nat)
    (s : Section) :
    ∃ opened : Context, ctx.step ⟨n, s.header⟩ = (opened, []) ∧
      opened.current = .ofSegments (s.steps earlier) ∧ opened.Counts (earlier ++ [s]) := by
  have hpath : keyPath .root s.key.written = .ofSegments s.key.steps := keyPath_written [] s.key
  cases hs : s.isArray with
  | false =>
    refine ⟨{ ctx with current := .ofSegments s.key.steps }, ?_, ?_, h.header hs _⟩
    · rw [step, read_header hs]
      simp only [hpath]
    · simp [Section.steps, hs]
  | true =>
    refine ⟨ctx.openTable (.ofSegments s.key.steps), ?_, ?_, h.openTable hs⟩
    · rw [step, read_table hs]
      simp only [hpath]
    · rw [Section.steps, if_pos hs, ← h s.key, Path.ofSegments_append]
      rfl

theorem run_sections {ctx : Context} {earlier : List Section} (h : ctx.Counts earlier) (n : Nat)
    (ss : List Section) :
    (ctx.run (Line.numbered n (ss.flatMap Section.lines))).2 =
      (sectionRecords earlier n ss).map .placed := by
  induction ss generalizing ctx earlier n with
  | nil => rfl
  | cons s rest ih =>
    obtain ⟨opened, hstep, hcurrent, hcounts⟩ := step_header h n s
    have hsection : ctx.run (Line.numbered n s.lines) =
        (opened, (Flat.entryRecords (s.steps earlier) (n + 1) s.entries).map .placed) := by
      rw [Section.lines, Line.numbered, run, hstep]
      simp only [run_entries hcurrent, List.nil_append]
    rw [List.flatMap_cons, Line.numbered_append, run_append, hsection, ih hcounts, sectionRecords,
      List.map_append]

end Context

/-! ## The whole source -/

theorem feed_not_mem_written (first : Name) (rest : List Name) :
    '\n' ∉ Key.written ⟨first, rest⟩ := by
  induction rest generalizing first with
  | nil =>
    rw [written_singleton]
    exact Text.feed_not_mem_literal first.feed_not_mem
  | cons second rest ih =>
    rw [written_cons, List.mem_append, List.mem_cons]
    rintro (hfirst | hdot | hrest)
    · exact Text.feed_not_mem_literal first.feed_not_mem hfirst
    · exact absurd hdot (by decide)
    · exact ih second hrest

theorem isLine_entry (e : Entry) : Text.IsLine e.written where
  ne_nil := by simp [Entry.written]
  feed_not_mem := by
    rw [Entry.written, List.mem_append, List.mem_cons]
    rintro (hkey | hsign | hvalue)
    · exact feed_not_mem_written e.key.first e.key.rest hkey
    · exact absurd hsign (by decide)
    · exact e.feed_not_mem_value hvalue
  no_return := by
    intro h
    have hvalue : e.value.getLast? = some '\r' := by
      rw [Entry.written, ← List.singleton_append, ← List.append_assoc,
        List.getLast?_append_of_ne_nil _ e.value_ne_nil] at h
      exact h
    have := Text.not_isBlank_getLast_of_trim e.trim_value hvalue
    revert this
    decide

theorem isLine_header (s : Section) : Text.IsLine s.header where
  ne_nil := by
    rw [Section.header]
    split <;> simp
  feed_not_mem := by
    have hkey := feed_not_mem_written s.key.first s.key.rest
    rw [Section.header]
    split <;> simp [show '\n' ∉ s.key.written from hkey]
  no_return := by
    rw [Section.header]
    split <;> simp [List.getLast?_cons, List.getLast?_append]

theorem isLine_lines (s : Source) : ∀ row ∈ s.lines, Text.IsLine row := by
  intro row hrow
  rw [Source.lines, List.mem_append, List.mem_map, List.mem_flatMap] at hrow
  rcases hrow with ⟨e, -, rfl⟩ | ⟨t, -, hrow⟩
  · exact isLine_entry e
  · rw [Section.lines, List.mem_cons, List.mem_map] at hrow
    rcases hrow with rfl | ⟨e, -, rfl⟩
    · exact isLine_header t
    · exact isLine_entry e

theorem findings_lines (s : Source) (lastOpen : Bool) :
    findings (Text.unlines lastOpen s.lines) = s.entryRecords.map .placed := by
  have htop : ({} : Context).current = .ofSegments [] := rfl
  rw [findings, Line.ofContent_unlines lastOpen (isLine_lines s), Source.lines,
    Line.numbered_append, Context.run_append, Context.run_entries htop,
    Context.run_sections Context.counts_nil, Source.entryRecords, List.map_append,
    List.length_map, Nat.add_comm 1]

/-- Paths without keys, for which the address says all. -/
def Named (p : Path) : Prop := p.isRoot = false ∧ p.NoKey

theorem named_record {base : List Segment} (hbase : base.map Segment.filed = base) (n : Nat)
    (e : Entry) : Named (e.record base n).path := by
  constructor
  · simp [Entry.record, Path.isRoot, Key.steps, Key.texts, Key.names]
  · simp [Path.NoKey, Entry.record, hbase, map_filed_steps]

theorem named_entryRecords {base : List Segment} (hbase : base.map Segment.filed = base)
    (n : Nat) (es : List Entry) : ∀ r ∈ Flat.entryRecords base n es, Named r.path := by
  induction es generalizing n with
  | nil => simp [Flat.entryRecords]
  | cons e rest ih =>
    intro r hr
    rcases List.mem_cons.mp hr with rfl | hr
    · exact named_record hbase n e
    · exact ih (n + 1) r hr

theorem map_filed_sectionSteps (earlier : List Section) (s : Section) :
    (s.steps earlier).map Segment.filed = s.steps earlier := by
  rw [Section.steps, List.map_append, map_filed_steps]
  split <;> rfl

theorem named_sectionRecords (earlier : List Section) (n : Nat) (ss : List Section) :
    ∀ r ∈ sectionRecords earlier n ss, Named r.path := by
  induction ss generalizing earlier n with
  | nil => simp [sectionRecords]
  | cons s rest ih =>
    intro r hr
    rcases List.mem_append.mp hr with hr | hr
    · exact named_entryRecords (map_filed_sectionSteps earlier s) _ _ r hr
    · exact ih _ _ r hr

theorem named_sourceRecords (s : Source) : ∀ r ∈ s.entryRecords, Named r.path := by
  intro r hr
  rcases List.mem_append.mp hr with hr | hr
  · exact named_entryRecords rfl _ _ r hr
  · exact named_sectionRecords _ _ _ r hr

/-- A source with quoted names is on record exactly as it was written. -/
theorem records_build_source (s : Source) (lastOpen : Bool) :
    (Survey.build .flat (String.ofList (Text.unlines lastOpen s.lines))).atlas.records =
      s.records := by
  have hfindings : Survey.findings .flat (Text.unlines lastOpen s.lines) =
      s.entryRecords.map .placed := findings_lines s lastOpen
  have hnamed := named_sourceRecords s
  rw [Survey.atlas_build, String.toList_ofList, hfindings, Atlas.ofFindings_placed,
    Atlas.records_ofRecords_of_inj fun r hr => (hnamed r hr).1]
  · rfl
  · intro r hr q hq hrq
    exact Path.address_inj_of_noKey (hnamed r hr).2 (hnamed q hq).2 hrq

end ConfigAtlas.Flat
