import Mathlib
import ConfigAtlas.Proofs.Atlas.Lookup
import ConfigAtlas.Proofs.Markup.Placed
import ConfigAtlas.Proofs.Markup.TagParts
import ConfigAtlas.Proofs.Markup.WrittenTag
import ConfigAtlas.Proofs.Text.OnLine

/-!
# Attributes on record

A tag on one line has each of its attributes on record as it is written, unless a guarded quote
takes the text behind it for a part of its value.
-/

namespace ConfigAtlas.Markup

/-! ## On the line of the tag -/

theorem value_of_attributeRecord {p : Placement} {table : LineTable} (a b : Attribute)
    (h : p.attributeRecord table a = p.attributeRecord table b) : a.value.text = b.value.text := by
  have hvalue : some (table.span a.value) = some (table.span b.value) :=
    congrArg (·.place.value?) h
  have htext := congrArg Span.text (Option.some.inj hvalue)
  exact String.ofList_injective htext

/-- The record of an attribute whose name and value stand on this line. -/
def Attribute.recordOn (a : Attribute) (line : Line) (path : Path) : Record :=
  ⟨path.field (String.ofList a.name.text), line.place (some a.name) (some a.value)⟩

section

variable {content : List Char} {start position : Nat} {rest : List Char}
variable (hstart : start ≤ position) (hline : Text.SameLine content start position)
include hstart hline

theorem QuotedAttribute.record_on_line (a : QuotedAttribute)
    (hwritten : content.drop position = a.written ++ rest) (p : Placement) :
    let column := Text.columnAt content start + (position - start)
    p.attributeRecord (LineTable.ofContent content)
        ⟨⟨position + a.gap.length, a.name⟩,
          ⟨position + a.gap.length + a.name.length + 1, a.value⟩⟩ =
      Attribute.recordOn
        ⟨⟨column + a.gap.length, a.name⟩, ⟨column + a.gap.length + a.name.length + 1, a.value⟩⟩
        (Text.lineAt content start) p.path := by
  intro column
  obtain ⟨hgapFeed, hnameFeed, hvalueFeed⟩ := a.feed_not_mem
  obtain ⟨c, tail, hname, hc⟩ := a.name_eq_cons
  have hfeed : c ≠ '\n' := fun h => absurd (h ▸ hc) (by decide)
  have hquote : a.quote ≠ '\n' := fun h => absurd (h ▸ a.quote_isQuote) (by decide)
  have hgap : content.drop position = a.gap ++ ((a.name ++ ['=']) ++ (a.value ++ rest)) := by
    simp [hwritten, written]
  have hnameText := Lists.drop_behind hgap
  have hnameLine := hline.behind hgapFeed hgap
  have hvalueText := Lists.drop_behind hnameText
  have hvalueLine := hnameLine.behind hnameFeed hnameText
  have hnameSpan : (LineTable.ofContent content).span ⟨position + a.gap.length, a.name⟩ =
      Piece.span ⟨column + a.gap.length, a.name⟩ := by
    rw [hname] at hnameText
    rw [LineTable.span_of_sameLine (by simp only; omega) hnameLine hnameText hfeed]
    congr 2
    simp only [column]
    omega
  have hvalueSpan : (LineTable.ofContent content).span
      ⟨position + a.gap.length + a.name.length + 1, a.value⟩ =
        Piece.span ⟨column + a.gap.length + a.name.length + 1, a.value⟩ := by
    rw [List.length_append, List.length_singleton, ← Nat.add_assoc] at hvalueText hvalueLine
    rw [LineTable.span_of_sameLine (by simp only; omega) hvalueLine hvalueText hquote]
    congr 2
    simp only [column]
    omega
  have hle : position + a.gap.length ≤ content.length :=
    Lists.le_length_of_drop (a := c) (by rw [hnameText, hname]; rfl)
  have hnumber := (Text.number_lineAt_eq_iff content (Nat.le_add_right_of_le hstart)).mpr hnameLine
  have htext := Text.text_lineAt_of_sameLine (Nat.le_add_right_of_le hstart) hnameLine
  rw [Placement.attributeRecord, LineTable.place_ofContent hle, hnumber, htext, hnameSpan,
    hvalueSpan]
  rfl

theorem map_inText_on_line {attributes : List QuotedAttribute}
    (hwritten : content.drop position = attributes.flatMap (·.written) ++ rest) (p : Placement) :
    (QuotedAttribute.inText position attributes).map
        (p.attributeRecord (LineTable.ofContent content)) =
      (QuotedAttribute.inText (Text.columnAt content start + (position - start)) attributes).map
        (·.recordOn (Text.lineAt content start) p.path) := by
  induction attributes generalizing position with
  | nil => rfl
  | cons a more ih =>
    rw [List.flatMap_cons, List.append_assoc] at hwritten
    have hfeed : '\n' ∉ a.written := by
      obtain ⟨hgap, hname, hvalue⟩ := a.feed_not_mem
      simp only [List.mem_append, not_or] at hname
      simp [QuotedAttribute.written, hgap, hname.1, hvalue]
    have hcolumn : Text.columnAt content start + (position + a.written.length - start) =
        Text.columnAt content start + (position - start) + a.written.length := by omega
    have hmore := ih (Nat.le_add_right_of_le hstart) (hline.behind hfeed hwritten)
      (Lists.drop_behind hwritten)
    rw [hcolumn] at hmore
    rw [QuotedAttribute.inText, QuotedAttribute.inText, List.map_cons, List.map_cons, hmore,
      a.record_on_line hstart hline hwritten]

end

/-- What is to be on record of the attributes of a tag that stands at the column of the line. -/
def WrittenTag.attributeRecords (t : WrittenTag) (line : Line) (column : Nat) (path : Path) :
    List Record :=
  (QuotedAttribute.inText (column + 1 + t.name.length) t.attributes).map (·.recordOn line path)

/-! ## The tag of an element -/

section

variable {content front behind : List Char} {t : WrittenTag} {p : Placement}
variable (hcontent : content = front ++ (t.written ++ behind))
variable (hstart : p.element.tag.name.start = front.length + 1)
include hcontent

theorem drop_behind_name : content.drop (front.length + 1 + t.name.length) =
      t.attributes.flatMap (·.written) ++ (t.gap ++ (t.closing ++ '>' :: behind)) ∧
    Text.SameLine content front.length (front.length + 1 + t.name.length) := by
  have hname : '\n' ∉ '<' :: t.name := by
    intro h
    rcases List.mem_cons.mp h with h | h
    · cases h
    · exact absurd (t.name_chars _ h) (by decide)
  have hdrop : content.drop front.length = ('<' :: t.name) ++
      (t.attributes.flatMap (·.written) ++ (t.gap ++ (t.closing ++ '>' :: behind))) := by
    simp [hcontent, WrittenTag.written, WrittenTag.inside]
  have hfirst : Text.SameLine content front.length front.length := by
    simp [Text.SameLine]
  have hlength : front.length + ('<' :: t.name).length = front.length + 1 + t.name.length := by
    rw [List.length_cons]
    omega
  rw [← hlength]
  exact ⟨Lists.drop_behind hdrop, hfirst.behind hname hdrop⟩

theorem map_attributeRecord :
    (QuotedAttribute.inText (front.length + 1 + t.name.length) t.attributes).map
        (p.attributeRecord (LineTable.ofContent content)) =
      t.attributeRecords (Text.lineAt content front.length)
        (Text.columnAt content front.length) p.path := by
  obtain ⟨hwritten, hline⟩ := drop_behind_name hcontent
  have hcolumn : Text.columnAt content front.length + 1 + t.name.length =
      Text.columnAt content front.length + (front.length + 1 + t.name.length - front.length) := by
    omega
  rw [WrittenTag.attributeRecords, hcolumn]
  exact map_inText_on_line (by omega) hline hwritten p

include hstart

theorem tag_of_placed (hp : p ∈ (Document.ofContent content).placements) :
    p.element.tag.name = ⟨front.length + 1, t.name⟩ ∧
      p.element.tag.attributes =
        Attribute.readAll ⟨front.length + 1 + t.name.length, t.inside⟩ := by
  have hread : ∀ tag, .opening tag ∈ tags (.whole content) →
      ∃ n, OpenTag.read? ⟨n, content.drop n⟩ = some tag := by
    intro tag htag
    obtain ⟨q, hq, hstop, hread⟩ := exists_read?_of_mem_tags htag
    have htext : q.text = content.drop q.start :=
      hq.text_eq_drop (hstop.trans (Nat.zero_add _))
    exact ⟨q.start, htext ▸ hread⟩
  obtain ⟨n, hn⟩ := (builtFrom_ofContent hread p hp).tag
  have hfront : n = front.length := by
    have hname := OpenTag.start_name hn
    simp only at hname
    omega
  rw [hfront, hcontent, List.drop_left] at hn
  obtain ⟨tag, htag, hname, hattributes⟩ := t.exists_read?_written front.length behind
  obtain rfl : tag = p.element.tag := Option.some.inj (htag.symm.trans hn)
  exact ⟨hname, hattributes⟩

/-- Beside the element itself, what its tag places is what is written exactly when each value is
read as it is written. -/
theorem records_iff_readsVerbatim (hp : p ∈ (Document.ofContent content).placements)
    (hentry : t.name ≠ Element.entryName) :
    p.records (LineTable.ofContent content) =
        ⟨p.path, p.elementPlace (LineTable.ofContent content)⟩ ::
          t.attributeRecords (Text.lineAt content front.length)
            (Text.columnAt content front.length) p.path ↔
      t.ReadsVerbatim := by
  obtain ⟨hname, hattributes⟩ := tag_of_placed hcontent hstart hp
  have hlabel : p.element.label? = none :=
    label?_eq_none fun h => absurd ((congrArg Piece.text hname).symm.trans h) hentry
  have hrecorded : p.element.recordedAttributes =
      (Attribute.readAll ⟨front.length + 1 + t.name.length, t.inside⟩).filter
        (!·.declaresNamespace) := by
    simp [Element.recordedAttributes, hlabel, hattributes]
  have hkeep : ∀ a ∈ t.attributes, ∀ start value,
      (!Attribute.declaresNamespace ⟨⟨start, a.name⟩, value⟩) = true := by
    intro a _ start value
    rw [a.declaresNamespace_name]
    rfl
  have hgap : ∀ c ∈ t.gap, Text.isBlank c = true := fun c hc => (t.gap_blank c hc).1
  rw [Placement.records, hrecorded, ← map_attributeRecord hcontent, List.cons_eq_cons,
    and_iff_right rfl]
  exact map_readAll_iff value_of_attributeRecord hgap hkeep _

end

/-! ## On record -/

theorem map_name_inText (start : Nat) (attributes : List QuotedAttribute) :
    (QuotedAttribute.inText start attributes).map (·.name.text) = attributes.map (·.name) := by
  induction attributes generalizing start with
  | nil => rfl
  | cons a rest ih => rw [QuotedAttribute.inText, List.map_cons, List.map_cons, ih]

theorem filed_field (path : Path) (name : List Char) :
    (path.field (String.ofList name)).filed = path.filed ++ [.field (String.ofList name)] :=
  Path.filed_push path _

theorem WrittenTag.path_of_mem {t : WrittenTag} {line : Line} {column : Nat} {path : Path}
    {r : Record} (hr : r ∈ t.attributeRecords line column path) :
    ∃ a ∈ t.attributes, r.path = path.field (String.ofList a.name) := by
  obtain ⟨a, ha, rfl⟩ := List.mem_map.mp hr
  have hname : a.name.text ∈ t.attributes.map (·.name) := by
    rw [← map_name_inText (column + 1 + t.name.length)]
    exact List.mem_map_of_mem ha
  obtain ⟨b, hb, hsame⟩ := List.mem_map.mp hname
  exact ⟨b, hb, by rw [Attribute.recordOn, hsame]⟩

theorem WrittenTag.eq_of_filed_eq {t : WrittenTag} {line : Line} {column : Nat} {path : Path}
    {r : Record} (hr : r ∈ t.attributeRecords line column path) :
    r.path.filed ≠ path.filed ∧
      ∀ q ∈ t.attributeRecords line column path, q.path.filed = r.path.filed → q = r := by
  obtain ⟨a, ha, rfl⟩ := List.mem_map.mp hr
  constructor
  · rw [Attribute.recordOn, filed_field]
    simp
  · intro q hq hfiled
    obtain ⟨b, hb, rfl⟩ := List.mem_map.mp hq
    rw [Attribute.recordOn, Attribute.recordOn, filed_field, filed_field,
      List.append_cancel_left_eq, List.singleton_inj, Segment.field.injEq] at hfiled
    have hname : b.name.text = a.name.text := String.ofList_injective hfiled
    have hdistinct := t.distinct
    rw [← map_name_inText (column + 1 + t.name.length)] at hdistinct
    rw [List.inj_on_of_nodup_map hdistinct hb ha hname]

/-- Of a tag on one line, what is placed beside the element is each attribute as it is written,
exactly when all values are read verbatim. Then all of them are on record, if nothing else takes
their paths. -/
theorem quoted_attributes_on_record {content : String} {front behind : List Char} {t : WrittenTag}
    {earlier later : List Placement} {p : Placement}
    (hcontent : content.toList = front ++ (t.written ++ behind))
    (hplaced : (Document.ofContent content.toList).placements = earlier ++ p :: later)
    (hstart : p.element.tag.name.start = front.length + 1)
    (hentry : t.name ≠ Element.entryName)
    (hapart : ∀ a ∈ t.attributes, ∀ q ∈ earlier ++ later,
      ∀ r ∈ q.records (LineTable.ofContent content.toList),
        r.path.filed ≠ (p.path.field (String.ofList a.name)).filed) :
    let table := LineTable.ofContent content.toList
    let written := t.attributeRecords (Text.lineAt content.toList front.length)
      (Text.columnAt content.toList front.length) p.path
    (p.records table = ⟨p.path, p.elementPlace table⟩ :: written ↔ t.ReadsVerbatim) ∧
      (t.ReadsVerbatim → ∀ r ∈ written, r ∈ (Survey.build .markup content).atlas.records) := by
  intro table written
  have hp : p ∈ (Document.ofContent content.toList).placements := by simp [hplaced]
  have hiff := records_iff_readsVerbatim hcontent hstart hp hentry
  refine ⟨hiff, ?_⟩
  intro hverbatim r hr
  have hrecords := hiff.mpr hverbatim
  obtain ⟨hother, hunique⟩ := WrittenTag.eq_of_filed_eq hr
  obtain ⟨a, ha, hpath⟩ := WrittenTag.path_of_mem hr
  rw [atlas_build_markup]
  apply Atlas.mem_records_ofRecords
  · refine List.mem_flatMap.mpr ⟨p, hp, ?_⟩
    rw [hrecords]
    exact List.mem_cons_of_mem _ hr
  · rw [← Bool.not_eq_true, Path.isRoot_iff_filed, hpath, filed_field]
    simp
  · intro q hq hfiled
    obtain ⟨holder, hholder, hq⟩ := List.mem_flatMap.mp hq
    -- The record of the same path is of this tag, as the other placements stay apart from it.
    have hcases : holder = p ∨ holder ∈ earlier ++ later := by
      rw [hplaced, List.mem_append, List.mem_cons] at hholder
      rw [List.mem_append]
      tauto
    rcases hcases with rfl | hapartHolder
    · rw [hrecords] at hq
      rcases List.mem_cons.mp hq with rfl | hq
      · exact absurd hfiled.symm hother
      · exact hunique q hq hfiled
    · exact absurd (hpath ▸ hfiled) (hapart a ha holder hapartHolder q hq)

def guardedAtEnd : WrittenTag where
  name := ['t']
  attributes := [
    { gap := [' '], name := ['a'], quote := '"', text := "x>\\".toList },
    { gap := [' '], name := ['b'], quote := '\'', text := "/ \\".toList }]
  gap := []
  slash := true

theorem readsVerbatim_guardedAtEnd : guardedAtEnd.ReadsVerbatim := by
  refine ⟨?_, ?_, trivial⟩
  · intro _
    refine ⟨List.all_iff_forall_prop.mp (by decide), ?_⟩
    intro before after hrest
    have hmem : '"' ∈ before ++ '"' :: after := by simp
    rw [← hrest] at hmem
    exact absurd hmem (by decide)
  · intro hguards
    exact absurd hguards (by decide)

theorem guarded_value_on_record :
    let content := "<r>\n <t a=\"x>\\\" b='/ \\'/></r>"
    let front := "<r>\n ".toList
    let line : Line := ⟨2, " <t a=\"x>\\\" b='/ \\'/></r>".toList⟩
    ∃ p, content.toList = front ++ (guardedAtEnd.written ++ "</r>".toList) ∧
      (Document.ofContent content.toList).placements = [p] ∧
      p.element.tag.name.start = front.length + 1 ∧ p.path = Path.root.field "t" ∧
      guardedAtEnd.ReadsVerbatim ∧
      ∀ r ∈ guardedAtEnd.attributeRecords line 1 p.path,
        r ∈ (Survey.build .markup content).atlas.records := by
  intro content front line
  let p : Placement := ⟨Path.root.field "t",
    ⟨⟨⟨6, ['t']⟩, [⟨⟨8, ['a']⟩, ⟨10, "\"x>\\\"".toList⟩⟩, ⟨⟨16, ['b']⟩, ⟨18, "'/ \\'".toList⟩⟩],
      true, ⟨25, "</r>".toList⟩⟩, none, []⟩⟩
  have hcontent : content.toList = front ++ (guardedAtEnd.written ++ "</r>".toList) := by decide
  have hplaced : (Document.ofContent content.toList).placements = [] ++ p :: [] := by cbv
  have hline : Text.lineAt content.toList front.length = line := by decide
  have hcolumn : Text.columnAt content.toList front.length = 1 := by decide
  have hrecords := (quoted_attributes_on_record hcontent hplaced rfl (by decide) (by simp)).2
    readsVerbatim_guardedAtEnd
  rw [hline, hcolumn] at hrecords
  exact ⟨p, hcontent, hplaced, rfl, rfl, readsVerbatim_guardedAtEnd, hrecords⟩

def guardedBefore : WrittenTag where
  name := ['t']
  attributes := [
    { gap := [' '], name := ['a'], quote := '"', text := "x\\".toList },
    { gap := [' '], name := ['b'], quote := '"', text := "y".toList }]
  gap := []
  slash := false

/-- Where a backslash guards the quote at the end of a value, the value goes on to the next quote,
and the attribute in between is lost. -/
theorem guarded_quote_hides_attribute :
    ¬ ∀ (content : String) (front behind : List Char) (t : WrittenTag)
        (earlier later : List Placement) (p : Placement),
      content.toList = front ++ (t.written ++ behind) →
      (Document.ofContent content.toList).placements = earlier ++ p :: later →
      p.element.tag.name.start = front.length + 1 → t.name ≠ Element.entryName →
      (∀ a ∈ t.attributes, ∀ q ∈ earlier ++ later,
        ∀ r ∈ q.records (LineTable.ofContent content.toList),
          r.path.filed ≠ (p.path.field (String.ofList a.name)).filed) →
      ∀ r ∈ t.attributeRecords (Text.lineAt content.toList front.length)
          (Text.columnAt content.toList front.length) p.path,
        r ∈ (Survey.build .markup content).atlas.records := by
  intro h
  let p : Placement := ⟨Path.root.field "t",
    ⟨⟨⟨4, ['t']⟩, [⟨⟨6, ['a']⟩, ⟨8, "\"x\\\" b=\"".toList⟩⟩], false,
      ⟨19, "1</t></r>".toList⟩⟩, some ⟨19, ['1']⟩, []⟩⟩
  have hplaced : (Document.ofContent "<r><t a=\"x\\\" b=\"y\">1</t></r>".toList).placements =
      [] ++ p :: [] := by cbv
  have hrecords : (Survey.build .markup "<r><t a=\"x\\\" b=\"y\">1</t></r>").atlas.records.map
      (·.place.key?) = [some ⟨"t", 4⟩, some ⟨"a", 6⟩] := by cbv
  have hlost := h _ "<r>".toList "1</t></r>".toList guardedBefore [] [] p (by decide) hplaced rfl
    (by decide) (by simp) _ (List.mem_cons_of_mem _ List.mem_cons_self)
  have hkey := List.mem_map_of_mem (f := (·.place.key?)) hlost
  rw [hrecords] at hkey
  exact absurd hkey (by decide)

end ConfigAtlas.Markup
