import ConfigAtlas.Proofs.Markup.Relocated
import ConfigAtlas.Proofs.Markup.ReturnTags
import ConfigAtlas.Proofs.Markup.Spans
import ConfigAtlas.Proofs.Text.Lines

/-! # Carriage returns before line feeds do not show in what is on record of a markup source -/

namespace ConfigAtlas

/-! ## Elements -/

namespace Text

theorem contains_feed_withReturns (t : List Char) :
    (withReturns t).contains '\n' = t.contains '\n' := by
  rw [Bool.eq_iff_iff, List.contains_iff_mem, List.contains_iff_mem]
  exact feed_mem_withReturns_iff

end Text

/-- The piece at its place in `t` when line feeds have got their carriage returns, its own text
left as it is. -/
def Piece.move (t : List Char) (p : Piece) : Piece := ⟨Text.moved t p.start, p.text⟩

theorem Piece.withReturns_eq_move (t : List Char) {p : Piece} (h : '\n' ∉ p.text) :
    p.withReturns t = p.move t := withReturns_of_feed_not_mem h

namespace Markup

open Text (moved)

variable {t : List Char}

/-- What follows a tag gets its carriage returns. -/
def returns (t : List Char) : Relocation where
  position := moved t
  after := Piece.withReturns t
  text := Piece.move t

theorem word_returns (t : List Char) (p : Piece) : (returns t).word p = p.move t := rfl

theorem textMoves_returns {tag : OpenTag} (h : tag.after.Within t) (stop : Nat) :
    Builder.TextMoves (returns t) tag stop := by
  intro children
  have hbody : (tag.after.withReturns t).take (moved t stop - moved t tag.after.start) =
      (tag.after.take (stop - tag.after.start)).withReturns t :=
    (Piece.withReturns_take_sub h stop).symm
  have hchildren : (children.map (Element.relocate (returns t))).isEmpty = children.isEmpty :=
    List.isEmpty_map
  have hafter : (OpenTag.relocate (returns t) tag).after = tag.after.withReturns t := rfl
  unfold Builder.inlineText?
  simp only [Unclosed.relocate, hafter, hchildren]
  rw [show (returns t).position stop = moved t stop from rfl,
    show (tag.after.withReturns t).start = moved t tag.after.start from rfl, hbody,
    Piece.withReturns, Text.contains_feed_withReturns]
  split
  · rename_i hinline
    rw [Bool.and_eq_true, Bool.not_eq_true', ← Bool.not_eq_true, List.contains_iff_mem] at hinline
    have htrim : '\n' ∉ (tag.after.take (stop - tag.after.start)).trim.text := by
      obtain ⟨before, after, htext, -⟩ :=
        Piece.PartOf.trim (tag.after.take (stop - tag.after.start))
      intro hmem
      apply hinline.2
      rw [htext]
      exact List.mem_append_right _ (List.mem_append_left _ hmem)
    have hmove := Piece.withReturns_trim (h.part (.take _ (stop - tag.after.start)))
    rw [Piece.withReturns_eq_move t htrim] at hmove
    exact congrArg some hmove.symm
  · rfl

end Markup

/-! ## Lines -/

namespace Text

theorem lastLine_withReturns (t : List Char) : lastLine (withReturns t) = lastLine t := by
  induction t using line_induction with
  | last row hrow => rw [withReturns_eq_self hrow]
  | feed row rest hrow ih =>
    have hbreak : withReturns (row ++ '\n' :: rest) =
        (row ++ ['\r']) ++ '\n' :: withReturns rest := by
      simp [withReturns_eq_self hrow]
    rw [hbreak, lastLine_append_feed, ih, lastLine_append_feed]

theorem dropReturn_firstLine_withReturns {s t : List Char} (hs : '\r' ∉ s) (ht : '\r' ∉ t) :
    dropReturn (s ++ firstLine (withReturns t)) = dropReturn (s ++ firstLine t) := by
  by_cases hfeed : '\n' ∈ t
  · obtain ⟨row, rest, rfl, hrow⟩ := List.eq_append_cons_of_mem hfeed
    have hbreak : withReturns (row ++ '\n' :: rest) =
        (row ++ ['\r']) ++ '\n' :: withReturns rest := by
      simp [withReturns_eq_self hrow]
    have hreturn : '\r' ∉ s ++ row := by
      simp only [List.mem_append, not_or] at ht ⊢
      exact ⟨hs, ht.1⟩
    rw [hbreak, firstLine_append (by simpa using hrow), firstLine_append hrow, firstLine_feed,
      firstLine_feed, List.append_nil, List.append_nil, dropReturn_of_not_mem hreturn,
      ← List.append_assoc, dropReturn, if_pos (List.getLast?_concat), List.dropLast_concat]
  · rw [withReturns_eq_self hfeed]

theorem columnAt_withReturns (t : List Char) (position : Nat) :
    columnAt (withReturns t) (moved t position) = columnAt t position := by
  rw [columnAt, take_moved, lastLine_withReturns, columnAt]

theorem lineAt_withReturns {t : List Char} (h : '\r' ∉ t) (position : Nat) :
    lineAt (withReturns t) (moved t position) = lineAt t position := by
  have hlast : '\r' ∉ lastLine (t.take position) := by
    intro hmem
    rw [lastLine, List.mem_reverse] at hmem
    exact h (List.mem_of_mem_take (List.mem_reverse.mp ((List.takeWhile_sublist _).mem hmem)))
  have hrest : '\r' ∉ t.drop position := fun hmem => h (List.mem_of_mem_drop hmem)
  rw [lineAt, take_moved, drop_moved, count_feed_withReturns, lastLine_withReturns,
    dropReturn_firstLine_withReturns hlast hrest, lineAt]

end Text

namespace LineTable

variable {t : List Char} (h : '\r' ∉ t) {position : Nat} (hposition : position ≤ t.length)
include h hposition

theorem place_withReturns (key? value? : Option Span) :
    (ofContent (Text.withReturns t)).place (Text.moved t position) key? value? =
      (ofContent t).place position key? value? := by
  rw [place_ofContent (Text.moved_le_length t position), place_ofContent hposition,
    Text.lineAt_withReturns h]

theorem column_withReturns :
    (ofContent (Text.withReturns t)).column (Text.moved t position) =
      (ofContent t).column position := by
  rw [column_ofContent (Text.moved_le_length t position), column_ofContent hposition,
    Text.lineAt_withReturns h, Text.columnAt_withReturns]

end LineTable

namespace Markup

open LineTable (ofContent)
open Text (withReturns moved)

variable {t : List Char}

/-! ## What is on record -/

theorem span_move (hreturn : '\r' ∉ t) {p : Piece} (h : p.Within t) :
    (ofContent (withReturns t)).span (p.move t) = (ofContent t).span p := by
  rw [LineTable.span, Piece.move, LineTable.column_withReturns hreturn h.start_le,
    LineTable.span]

theorem unquote_move {p : Piece} (h : p.Within t) : (p.move t).unquote = p.unquote.move t := by
  cases hquoted : Text.isQuoted p.text with
  | false =>
    have hmove : Text.isQuoted (p.move t).text = false := hquoted
    rw [Piece.unquote, if_neg (by simp [hmove]), Piece.unquote, if_neg (by simp [hquoted])]
  | true =>
    have hmove : Text.isQuoted (p.move t).text = true := hquoted
    obtain ⟨quote, middle, hquote, htext⟩ := Text.isQuoted_eq hquoted
    have hfeed : quote ≠ '\n' := (Text.ne_of_isQuote hquote (by decide)).symm
    have hstart := Piece.moved_start h (n := 1) (by simp [htext])
    rw [htext, Text.moved_cons hfeed, Text.moved_zero] at hstart
    rw [Piece.unquote_of_isQuoted hmove, Piece.unquote_of_isQuoted hquoted, Piece.move, Piece.move,
      hstart]

theorem keyPiece_move {e : Element} (h : e.tag.PartsOf (.whole t)) :
    (e.relocate (returns t)).keyPiece = e.keyPiece.move t := by
  unfold Element.keyPiece
  rw [Element.label?_relocate, Element.tag_relocate]
  cases hlabel : e.label? with
  | none => rfl
  | some label =>
    exact unquote_move (h.attributes label (label?_mem hlabel)).1.value_part.within

theorem elementPlace_move (hreturn : '\r' ∉ t) {p : Placement}
    (h : p.element.BuiltFrom (·.PartsOf (.whole t))) :
    (p.relocate (returns t)).elementPlace (ofContent (withReturns t)) =
      p.elementPlace (ofContent t) := by
  have horigin := standsIn_elementOrigin h
  have hkey : p.element.keyPiece.Within t := horigin.key_within
  have htext : (p.element.text?.map (returns t).text).map (ofContent (withReturns t)).span =
      p.element.text?.map (ofContent t).span := by
    rw [Option.map_map]
    exact Option.map_congr fun v hv => span_move hreturn (horigin.value_within v hv)
  rw [Placement.elementPlace, Placement.relocate, Element.text?_relocate, htext,
    keyPiece_move h.tag, span_move hreturn hkey, Element.tag_relocate]
  exact LineTable.place_withReturns hreturn horigin.name_within.start_le _ _

theorem attributeRecord_move (hreturn : '\r' ∉ t) {a : Attribute}
    (h : a.PartsOf (.whole t)) (p : Placement) :
    (p.relocate (returns t)).attributeRecord (ofContent (withReturns t)) (a.relocate (returns t)) =
      p.attributeRecord (ofContent t) a := by
  have hname := h.name_part.within
  have hplace := LineTable.place_withReturns hreturn hname.start_le
    (some ((ofContent t).span a.name)) (some ((ofContent t).span a.value))
  rw [Placement.attributeRecord, Placement.attributeRecord]
  simp only [Attribute.relocate, word_returns]
  rw [span_move hreturn hname, span_move hreturn h.value_part.within, ← hplace]
  rfl

theorem records_move (hreturn : '\r' ∉ t) {p : Placement}
    (h : p.element.BuiltFrom (·.PartsOf (.whole t))) :
    (p.relocate (returns t)).records (ofContent (withReturns t)) = p.records (ofContent t) := by
  have hattributes : ∀ a ∈ p.element.recordedAttributes,
      (p.relocate (returns t)).attributeRecord (ofContent (withReturns t))
        (a.relocate (returns t)) = p.attributeRecord (ofContent t) a := by
    intro a ha
    have hmem : a ∈ p.element.tag.attributes := (List.mem_filter.mp ha).1
    exact attributeRecord_move hreturn (h.tag.attributes a hmem).1 p
  have helement := congrArg (Record.mk p.path) (elementPlace_move hreturn h)
  simpa using map_records_relocate (f := id) helement hattributes

/-! ## Answers -/

section

variable (hvalues : ∀ tag, .opening tag ∈ tags (.whole t) → ∀ a ∈ tag.attributes,
  '\n' ∉ a.value.text)
include hvalues

theorem tags_move :
    tags (.whole (withReturns t)) = (tags (.whole t)).map (Tag.relocate (returns t)) := by
  rw [tags_whole_withReturns]
  apply List.map_congr_left
  intro tag htag
  cases tag with
  | closing name start => rfl
  | opening tag =>
    obtain ⟨hname, hnames⟩ := feed_not_mem_names htag
    have hattributes : ∀ a ∈ tag.attributes, a.withReturns t = a.relocate (returns t) := by
      intro a ha
      rw [Attribute.withReturns, Piece.withReturns_eq_move t (hnames a ha),
        Piece.withReturns_eq_move t (hvalues tag htag a ha), Attribute.relocate, word_returns,
        word_returns]
    rw [Tag.withReturns, OpenTag.withReturns, Piece.withReturns_eq_move t hname,
      List.map_congr_left hattributes]
    rfl

theorem ofContent_withReturns :
    Document.ofContent (withReturns t) = (Document.ofContent t).relocate (returns t) := by
  have hempty : Builder.BuiltFrom (fun tag => tag.after.Within t) {} := ⟨by simp, by simp⟩
  have hrun := Builder.run_relocate hempty
    (fun tag htag => (partsOf_of_mem_tags htag).after_part.within)
    fun tag htag _ start _ => textMoves_returns htag start
  rw [Document.ofContent, tags_move hvalues,
    show ({} : Builder) = Builder.relocate (returns t) {} from rfl, hrun, Builder.forest_relocate,
    Document.ofRoots_relocate]
  rfl

theorem recordsOf_withReturns (hreturn : '\r' ∉ t) :
    recordsOf (withReturns t) = recordsOf t := by
  have hbuilt := builtFrom_ofContent fun tag htag => partsOf_of_mem_tags (p := .whole t) htag
  rw [recordsOf, ofContent_withReturns hvalues, Document.placements_relocate, List.flatMap_map,
    recordsOf]
  exact List.flatMap_congr fun p hp => records_move hreturn (hbuilt p hp)

end

/-- In a content where no line feed has a carriage return and no attribute value a line feed,
carriage returns before all line feeds change no entry and no answer. -/
theorem answers_withReturns {content : String} (hreturn : '\r' ∉ content.toList)
    (hvalues : ∀ tag, .opening tag ∈ tags (.whole content.toList) → ∀ a ∈ tag.attributes,
      '\n' ∉ a.value.text) :
    let survey := Survey.build .markup content
    let other := Survey.build .markup (String.ofList (withReturns content.toList))
    other.atlas.records = survey.atlas.records ∧ ∀ p, other.resolve? p = survey.resolve? p := by
  intro survey other
  have hatlas : other.atlas = survey.atlas := by
    rw [atlas_build_markup, atlas_build_markup, String.toList_ofList,
      recordsOf_withReturns hvalues hreturn]
  have honly :
      (Document.ofContent (String.ofList (withReturns content.toList)).toList).onlyChildren =
        (Document.ofContent content.toList).onlyChildren := by
    rw [String.toList_ofList, ofContent_withReturns hvalues, Document.onlyChildren_relocate]
  have hsame : other = survey := congrArg₂ Survey.markup hatlas honly
  rw [hsame]
  exact ⟨rfl, fun p => rfl⟩

theorem answers_withReturns_in_tag :
    let content := "<a>\n<b\n c=\"é\">t</b>\n</a>"
    let survey := Survey.build .markup content
    let other := Survey.build .markup (String.ofList (withReturns content.toList))
    '\r' ∉ content.toList ∧
      (∀ tag, .opening tag ∈ tags (.whole content.toList) → ∀ a ∈ tag.attributes,
        '\n' ∉ a.value.text) ∧
      other.atlas.records = survey.atlas.records ∧ ∀ p, other.resolve? p = survey.resolve? p := by
  intro content survey other
  have hreturn : '\r' ∉ content.toList := by decide
  have htags : tags (.whole content.toList) =
      [.opening ⟨⟨1, ['a']⟩, [], false, ⟨3, "\n<b\n c=\"é\">t</b>\n</a>".toList⟩⟩,
        .opening ⟨⟨5, ['b']⟩, [⟨⟨8, ['c']⟩, ⟨10, ['"', 'é', '"']⟩⟩], false,
          ⟨14, "t</b>\n</a>".toList⟩⟩,
        .closing ['b'] 15, .closing ['a'] 20] := by cbv
  have hvalues : ∀ tag, .opening tag ∈ tags (.whole content.toList) → ∀ a ∈ tag.attributes,
      '\n' ∉ a.value.text := by
    rw [htags]
    simp
  exact ⟨hreturn, hvalues, answers_withReturns hreturn hvalues⟩

end Markup

end ConfigAtlas
