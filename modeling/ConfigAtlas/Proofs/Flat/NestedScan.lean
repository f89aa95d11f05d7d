import ConfigAtlas.Survey
import ConfigAtlas.Proofs.Flat.Nested
import ConfigAtlas.Proofs.Outline.Reading
import ConfigAtlas.Proofs.Path.Address
import ConfigAtlas.Proofs.Text.Commas
import ConfigAtlas.Proofs.Text.Lines
import ConfigAtlas.Proofs.Text.Trimmed

/-! # A list in a flat value answers for what stands in it, at any depth -/

namespace ConfigAtlas.Flat

open Outline (Word isWordChar ne_of_isWordChar isBlank_of_isWordChar isQuote_of_isWordChar)

/-! ## Values and items -/

theorem passes_of_isPlain {c : Char} (h : isPlain c = true) : Text.Passes 0 [c] := by
  apply Text.Passes.of_step
  intro depth _
  simp only [isPlain, Bool.not_eq_true', List.contains_eq_mem, decide_eq_false_iff_not,
    List.mem_cons, List.not_mem_nil, not_or] at h
  obtain ⟨-, hcomma, hquote, hsingle, hsquare, hsquare', hcurly, hcurly', hround, hround', -⟩ := h
  simp [Text.Nesting.cuts, Text.Nesting.step, Text.isQuote, Text.Nesting.opensBracket,
    Text.Nesting.closesBracket, *]

theorem isPlain_of_isBlank {c : Char} (h : Text.isBlank c = true) (hfeed : c ≠ '\n') :
    isPlain c = true := by
  have hsigns : ['\n', ',', '"', '\'', '[', ']', '{', '}', '(', ')'].all
      (fun d => d == '\n' || !Text.isBlank d) = true := by decide
  rw [isPlain, Bool.not_eq_true', List.contains_eq_mem, decide_eq_false_iff_not]
  intro hmem
  have hsign := List.all_eq_true.mp hsigns c hmem
  simp [h, hfeed] at hsign

theorem Gap.passes (g : Gap) : Text.Passes 0 g.text := by
  refine .of_chars fun c hc => passes_of_isPlain (isPlain_of_isBlank (g.blank c hc) ?_)
  rintro rfl
  exact g.feed_not_mem hc

mutual

theorem Value.passes (v : Value) : Text.Passes 0 v.written :=
  match v with
  | .leaf l => .of_chars fun c hc => passes_of_isPlain (l.plain c hc)
  | .list first rest => .enclosed (.append (first.passes.mono (Nat.zero_le 1)) (passes_rest rest))

theorem Item.passes (item : Item) : Text.Passes 0 item.written :=
  match item with
  | .mk before value after => before.passes.append (value.passes.append after.passes)

theorem passes_rest (items : List Item) : Text.Passes 1 (restWritten items) :=
  match items with
  | [] => .nil 1
  | item :: rest =>
    .append .comma (.append (item.passes.mono (Nat.zero_le 1)) (passes_rest rest))

end

theorem Value.trim_written (v : Value) : Text.trim v.written = v.written := by
  cases v with
  | leaf l => exact l.trim_text
  | list first rest => exact Text.trim_concat (by decide) (by decide) _

theorem Item.trim_written (item : Item) (start : Nat) :
    Piece.trim ⟨start, item.written⟩ = ⟨start + item.lead.length, item.value.written⟩ := by
  cases item with
  | mk before value after =>
    exact Piece.trim_between before.blank value.trim_written after.blank start

theorem commaParts_items (first : Item) (rest : List Item) :
    Text.commaParts {} (first.written ++ restWritten rest) =
      (first :: rest).map Item.written := by
  induction rest generalizing first with
  | nil =>
    rw [restWritten, List.append_nil, Text.commaParts_singleton first.passes.uncut]
    rfl
  | cons second rest ih =>
    rw [restWritten, Text.commaParts_append_comma first.passes.uncut, ih]
    rfl

/-! ## One step down -/

theorem inlineList?_leaf (start : Nat) (l : Leaf) : inlineList? ⟨start, l.text⟩ = none := by
  have hsigns : ∀ c ∈ l.text, c ≠ ',' ∧ c ≠ '[' := by
    intro c hc
    have hplain := l.plain c hc
    constructor <;> rintro rfl <;> exact absurd hplain (by decide)
  have hopen : Piece.startsWith ⟨start, l.text⟩ ['['] = false := by
    cases hl : l.text with
    | nil => rfl
    | cons c t =>
      have hc := (hsigns c (by simp [hl])).2
      simp [Piece.startsWith, List.isPrefixOf, Ne.symm hc]
  have hcomma : l.text.contains ',' = false := by
    rw [List.contains_eq_mem, decide_eq_false_iff_not]
    exact fun hmem => (hsigns ',' hmem).1 rfl
  simp only [inlineList?, Piece.between?, hopen, hcomma, Bool.false_eq_true, if_false]

theorem inlineList?_list (start : Nat) (first : Item) (rest : List Item) :
    inlineList? ⟨start, (Value.list first rest).written⟩ =
      some ⟨start + 1, first.written ++ restWritten rest⟩ := by
  have hinner : Piece.between? ['['] [']'] ⟨start, (Value.list first rest).written⟩ =
      some ⟨start + 1, first.written ++ restWritten rest⟩ :=
    Piece.between?_enclosed ['['] [']'] (first.written ++ restWritten rest) start
  rw [inlineList?, hinner]

theorem getElem?_elements (start : Nat) (first : Item) (rest : List Item) (n : Nat) :
    (Piece.elements ⟨start, first.written ++ restWritten rest⟩)[n]? =
      (first :: rest)[n]?.map fun item =>
        ⟨start + ((((first :: rest).take n).flatMap fun i => i.written ++ [',']) ++
          item.lead).length, item.value.written⟩ := by
  rw [Piece.elements, List.getElem?_map, commaParts_items, Piece.getElem?_consecutive ',',
    List.getElem?_map, Option.map_map, Option.map_map]
  congr 1
  funext item
  rw [Function.comp_apply, Function.comp_apply, Item.trim_written, ← List.map_take,
    List.flatMap_map, List.length_append, Nat.add_assoc]

theorem listElement?_value (n : Nat) (place : Place) (v : Value) (column : Nat) :
    listElement? n { place with value? := some ⟨String.ofList v.written, column⟩ } =
      (v.child? n).map fun s =>
        { place with value? := some ⟨String.ofList s.value.written, column + s.front.length⟩ } := by
  cases v with
  | leaf l =>
    simp only [listElement?, String.toList_ofList, Value.written, inlineList?_leaf, Value.child?,
      Option.map_none]
  | list first rest =>
    simp only [listElement?, String.toList_ofList, inlineList?_list, getElem?_elements,
      Value.child?, Option.map_map]
    congr 1
    funext item
    simp [Piece.span, Item.spot, Nat.add_assoc, Nat.add_comm 1]

/-! ## The line of a value -/

theorem trim_word (w : Word) : Text.trim w.text = w.text := by
  have hstart := w.trimStart_append []
  rw [List.append_nil] at hstart
  rw [Text.trim, hstart, w.trimEnd_text]

theorem names_plain {t : List Char} (h : ∀ c ∈ t, isWordChar c = true) (part : List Char) :
    KeyScan.names ⟨part, none, false⟩ t =
      (KeyScan.name? ⟨t.reverse ++ part, none, false⟩).toList := by
  induction t generalizing part with
  | nil => rfl
  | cons c t ih =>
    have hc := h c List.mem_cons_self
    have hslash : c ≠ '\\' := ne_of_isWordChar hc (by decide)
    have hdot : c ≠ '.' := ne_of_isWordChar hc (by decide)
    have hends : KeyScan.ends ⟨part, none, false⟩ c = false := by simp [KeyScan.ends, hdot]
    have hstep : KeyScan.step ⟨part, none, false⟩ c = ⟨c :: part, none, false⟩ := by
      simp [KeyScan.step, hslash, hends, KeyScan.quoteAfter, isQuote_of_isWordChar hc]
    rw [KeyScan.names, if_neg (by simp [hends]), hstep, ih fun d hd => h d (.tail c hd)]
    simp

theorem names_word (w : Word) : KeyScan.names {} w.text = [w.text] := by
  have hname : KeyScan.name? ⟨w.text.reverse, none, false⟩ = some w.text := by
    rw [KeyScan.name?, List.reverse_reverse, trim_word, w.unquote_text]
    cases hw : w.text with
    | nil => exact absurd hw w.ne_nil
    | cons c t => rfl
  have hnames := names_plain w.chars []
  rw [List.append_nil, hname] at hnames
  exact hnames

theorem find?_plain {t : List Char} (h : ∀ c ∈ t, isWordChar c = true) (fresh : Bool)
    (rest : List Char) :
    SeparatorScan.find? ⟨none, false, fresh⟩ (t ++ ' ' :: '=' :: rest) = some (t.length + 1) := by
  induction t generalizing fresh with
  | nil => cases fresh <;> rfl
  | cons c t ih =>
    have hc := h c List.mem_cons_self
    have hslash : c ≠ '\\' := ne_of_isWordChar hc (by decide)
    have hsign : c ≠ '=' := ne_of_isWordChar hc (by decide)
    have hfinds : SeparatorScan.finds ⟨none, false, fresh⟩ c = false := by
      simp [SeparatorScan.finds, hsign]
    obtain ⟨next, hstep⟩ : ∃ next,
        SeparatorScan.step ⟨none, false, fresh⟩ c = ⟨none, false, next⟩ := by
      simp [SeparatorScan.step, hslash, SeparatorScan.quoteAfter, isQuote_of_isWordChar hc]
    rw [List.cons_append, SeparatorScan.find?, if_neg (by simp [hfinds]), hstep,
      ih fun d hd => h d (.tail c hd)]
    rfl

theorem readEntry_line (key : Word) (v : Value) :
    Statement.readEntry (.whole (v.line key)) =
      .entry ⟨0, key.text⟩
        (if v.written = [] then none else some ⟨(opening key).length, v.written⟩) := by
  have hline : v.line key = key.text ++ ' ' :: '=' :: ' ' :: v.written := by
    simp [Value.line, opening]
  have hnil : ∀ c ∈ ([] : List Char), Text.isBlank c = true := by simp
  have hspace : ∀ c ∈ [' '], Text.isBlank c = true := Outline.isBlank_of_mem_spaces (n := 1)
  have hfind : SeparatorScan.find? {} (Piece.whole (v.line key)).text =
      some (key.text.length + 1) := by
    rw [hline]
    exact find?_plain key.chars true _
  have hkey : ((Piece.whole (v.line key)).take (key.text.length + 1)).trim = ⟨0, key.text⟩ := by
    have htake : Piece.take ⟨0, key.text ++ ' ' :: '=' :: ' ' :: v.written⟩
        (key.text.length + 1) = ⟨0, key.text ++ [' ']⟩ := by
      simp [Piece.take, List.take_append, List.take_of_length_le]
    have htrim := Piece.trim_between hnil (trim_word key) hspace 0
    rw [hline, Piece.whole, htake]
    simpa [key.ne_nil] using htrim
  have hvalue : ((Piece.whole (v.line key)).drop (key.text.length + 2)).trim =
      ⟨(opening key).length, v.written⟩ := by
    have hdrop : Piece.drop ⟨0, key.text ++ ' ' :: '=' :: ' ' :: v.written⟩
        (key.text.length + 2) = ⟨key.text.length + 2, ' ' :: v.written⟩ := by
      simp [Piece.drop_eq, List.drop_append]
    have htrim := Piece.trim_between hspace v.trim_written hnil (key.text.length + 2)
    rw [hline, Piece.whole, hdrop]
    simpa [opening] using htrim
  simp [Statement.readEntry, hfind, hkey, hvalue, Piece.isEmpty, key.ne_nil]

theorem read_line (key : Word) (v : Value) :
    Statement.read (v.line key) = Statement.readEntry (.whole (v.line key)) := by
  obtain ⟨c, tail, hkey, hc⟩ := key.text_eq_cons
  obtain ⟨rest, hrest⟩ :=
    Text.trim_cons (isBlank_of_isWordChar hc) (tail ++ [' ', '=', ' '] ++ v.written)
  have htext : (Piece.whole (v.line key)).trim.text = c :: rest := by
    rw [Piece.text_trim, Piece.whole, ← hrest, Value.line, opening, hkey]
    rfl
  have hmark : Statement.isCommentMark c = false := by
    simp [Statement.isCommentMark, ne_of_isWordChar hc (by decide : isWordChar ';' = false),
      ne_of_isWordChar hc (by decide : isWordChar '#' = false)]
  have hbracket : ∀ t, (Piece.whole (v.line key)).trim.startsWith ('[' :: t) = false := by
    intro t
    have hne := ne_of_isWordChar hc (by decide : isWordChar '[' = false)
    rw [Piece.startsWith, htext, List.isPrefixOf, beq_eq_false_iff_ne.mpr (Ne.symm hne)]
    rfl
  simp only [Statement.read, htext, hmark, Piece.between?, hbracket, Bool.false_eq_true, if_false]

theorem keyPath_word (w : Word) :
    keyPath .root w.text = .ofSegments [.field (String.ofList w.text)] := by
  rw [keyPath, names_word]
  rfl

theorem findings_line (key : Word) (first : Item) (rest : List Item) :
    findings ((Value.list first rest).line key) =
      [.placed ⟨.ofSegments [.field (String.ofList key.text)],
        Spot.place key ((Value.list first rest).line key) ⟨[], .list first rest, []⟩⟩] := by
  have hfeed : '\n' ∉ (Value.list first rest).line key := by
    simp [Value.line, opening, (Value.list first rest).feed_not_mem,
      key.not_mem (by decide : isWordChar '\n' = false)]
  have hne : (Value.list first rest).line key ≠ [] := by simp [Value.line, opening]
  have hwritten : (Value.list first rest).written ≠ [] := by simp [Value.written]
  have hstep : Context.step {} ⟨1, (Value.list first rest).line key⟩ =
      ({}, [.placed ⟨.ofSegments [.field (String.ofList key.text)],
        Line.place ⟨1, (Value.list first rest).line key⟩ (some ⟨0, key.text⟩)
          (some ⟨(opening key).length, (Value.list first rest).written⟩)⟩]) := by
    simp only [Context.step, read_line, readEntry_line, if_neg hwritten, keyPath_word]
  rw [findings, Line.ofContent_eq, Text.lines_of_feed_not_mem hfeed hne]
  simp [Line.numbered, Context.run, hstep, Line.place, Piece.span, Spot.place]

/-! ## All steps down -/

theorem resolveSteps_line {atlas : Atlas} {key : Word} {v : Value}
    (hatlas : ∀ p, atlas.get? p =
      if p.address = (Path.ofSegments [.field (String.ofList key.text)]).address then
        some (Spot.place key (v.line key) ⟨[], v, []⟩) else none)
    (indices : List Nat) (n : Nat) (hn : n ≤ indices.length) :
    resolveSteps atlas (.ofSegments (.field (String.ofList key.text) :: indices.map .index))
        (n + 1) =
      (v.at? (indices.take n)).map (Spot.place key (v.line key)) := by
  induction n with
  | zero => simp [resolveSteps, hatlas, Path.subPath, Value.at?]
  | succ n ih =>
    let p := Path.ofSegments (.field (String.ofList key.text) :: indices.map .index)
    -- Only the key is on record, so each step down reads the list above it.
    have hnone : atlas.get? (p.subPath (n + 2)) = none := by
      rw [hatlas, if_neg]
      rw [Path.address_eq_iff]
      intro h
      have hlength := congrArg List.length h
      simp only [p, Path.segments_subPath, Path.segments_ofSegments, List.length_map,
        List.length_take, List.length_cons, List.length_nil] at hlength
      omega
    have hindex : p.segments[n + 1]? = some (.index indices[n]) := by
      simp [p, List.getElem?_eq_getElem hn]
    have htake : indices.take (n + 1) = indices.take n ++ [indices[n]] := by
      rw [← List.take_append_getElem hn]
    rw [resolveSteps, hnone, hindex]
    simp only
    rw [ih (Nat.le_of_succ_le hn), htake, Value.at?_concat, Option.bind_map, Option.map_bind]
    refine Option.bind_congr fun s _ => ?_
    rw [Function.comp_apply, Function.comp_apply, Option.map_map]
    exact (listElement?_value indices[n] (Spot.place key (v.line key) s) s.value _).trans
      (by simp [Spot.place, Spot.inside, Function.comp_def, Nat.add_assoc])

/-- A list of indices has an answer exactly where it leads to a value, and the answer shows the
text of this value at its own column. -/
theorem resolve?_indices (key : Word) (first : Item) (rest : List Item) (indices : List Nat) :
    let value := Value.list first rest
    (Survey.build .flat (String.ofList (value.line key))).resolve?
        (.ofSegments (.field (String.ofList key.text) :: indices.map .index)) =
      (value.at? indices).map (Spot.place key (value.line key)) ∧
    ∀ s ∈ value.at? indices,
      value.line key = (opening key ++ s.front) ++ (s.value.written ++ s.behind) := by
  intro value
  constructor
  · have hatlas : ∀ p, (Atlas.ofFindings (findings (value.line key))).get? p =
        if p.address = (Path.ofSegments [.field (String.ofList key.text)]).address then
          some (Spot.place key (value.line key) ⟨[], value, []⟩) else none := by
      intro p
      rw [findings_line]
      exact Atlas.get?_insert {} ⟨.ofSegments [.field (String.ofList key.text)], _⟩ rfl p
    have hsteps := resolveSteps_line hatlas indices indices.length (Nat.le_refl _)
    rw [List.take_length] at hsteps
    rw [Survey.build, Survey.resolve?, String.toList_ofList, resolve?, Path.length,
      Path.segments_ofSegments, List.length_cons, List.length_map]
    exact hsteps
  · intro s hs
    rw [Value.line, Value.written_of_at? hs, List.append_assoc]

end ConfigAtlas.Flat
