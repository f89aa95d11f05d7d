import Mathlib
import ConfigAtlas.Survey
import ConfigAtlas.Proofs.Atlas.Lookup
import ConfigAtlas.Proofs.Outline.BlockShape
import ConfigAtlas.Proofs.Outline.Rows

/-!
# Keys in double quotes

Whatever stands in the quotes, a literal in front of a colon is one key. The name it is filed
under has the quotes taken off and nothing else, so a backslash that guards a character of the
literal stays in the name.
-/

namespace ConfigAtlas

namespace Text

theorem length_escape (special : Char → Bool) (t : List Char) :
    (escape special t).length = t.length + t.countP special := by
  induction t with
  | nil => rfl
  | cons c t ih =>
    cases hc : special c <;> simp [hc, ih] <;> omega

theorem escape_eq_self_iff {special : Char → Bool} {t : List Char} :
    escape special t = t ↔ t.any special = false := by
  constructor
  · intro h
    have hlength := congrArg List.length h
    rw [length_escape] at hlength
    have hnone : t.countP special = 0 := by omega
    rw [List.any_eq_false]
    exact List.countP_eq_zero.mp hnone
  · intro h
    induction t with
    | nil => rfl
    | cons c t ih =>
      rw [List.any_cons, Bool.or_eq_false_iff] at h
      rw [escape_cons_of_not_special h.1, ih h.2]

end Text

namespace Outline

def quotedKeyLine (key : List Char) (v : Scalar) : List Char :=
  Text.literal key ++ ':' :: ' ' :: v.written

section

variable (key : List Char) (v : Scalar)

/-! ## What is read -/

theorem pair_read?_literal (start : Nat) {after : List Char} (h : Ends after) :
    Pair.read? ⟨start, Text.literal key ++ ':' :: after⟩ =
      (let value := scalarAt (Piece.trimStart ⟨start + (Text.literal key).length + 1, after⟩)
      some ⟨⟨start, Text.literal key⟩, if value.isEmpty then none else some value⟩) := by
  have hbarrier : (Text.literal key).head?.all Pair.isKeyBarrier = false := by
    rw [Text.literal, List.head?_cons, Option.all_some]
    decide
  have htrim : Text.trimEnd (Text.literal key) = Text.literal key :=
    Text.trimEnd_concat (by decide) ('"' :: Text.escape Segment.quotedSpecial key)
  apply pair_read?_key _ htrim hbarrier start h
  rw [Text.quotedRun?_literal, Option.some_or]

theorem read_quotedKeyLine :
    Statement.read ⟨0, quotedKeyLine key v⟩ =
      .pair ⟨⟨0, Text.literal key⟩, some ⟨(Text.literal key).length + 2, v.written⟩⟩ := by
  have hpair := pair_read?_literal key 0 (ends_space v.written)
  obtain ⟨rest, hline⟩ : ∃ rest, quotedKeyLine key v = '"' :: rest := ⟨_, rfl⟩
  have hread := read_cons (by decide : Text.isBlank '"' = false) (by decide) (by decide) 0 rest
  rw [← hline] at hread
  rw [← quotedKeyLine] at hpair
  rw [hread, hpair]
  simp only [v.scalarAt_behind_space, v.isEmpty_written, Bool.false_eq_true, if_false,
    Nat.zero_add]

/-! ## What is on record -/

def quotedKeyPlace : Place :=
  Line.place ⟨1, quotedKeyLine key v⟩ (some ⟨0, Text.literal key⟩)
    (some ⟨(Text.literal key).length + 2, v.written⟩)

/-- The name keeps the backslashes of the literal. -/
def quotedKeyRecord : Record :=
  ⟨Path.root.field (String.ofList (Text.escape Segment.quotedSpecial key)), quotedKeyPlace key v⟩

theorem step_quotedKeyLine :
    (Context.step {} ⟨1, quotedKeyLine key v⟩).2 = [.placed (quotedKeyRecord key v)] := by
  obtain ⟨rest, hline⟩ : ∃ rest, quotedKeyLine key v = '"' :: rest := ⟨_, rfl⟩
  have hindent : (quotedKeyLine key v).takeWhile isGap = [] := by
    rw [hline]
    rfl
  have hdirective : Statement.isDirective (Text.trimStart (quotedKeyLine key v)) = false := by
    rw [hline, Text.trimStart_cons (by decide)]
    simp [Statement.isDirective, List.isPrefixOf]
  have hfront : (Piece.whole (quotedKeyLine key v)).drop 0 = ⟨0, quotedKeyLine key v⟩ := rfl
  have hname : Text.unquote (Text.literal key) = Text.escape Segment.quotedSpecial key :=
    Text.unquote_quoted _
  unfold Context.step
  simp only [Context.passesOver, hindent, hdirective, List.length_nil, hfront,
    read_quotedKeyLine, Bool.false_eq_true, if_false]
  simp only [Context.placePair, Context.placeValue_written, hname]
  rfl

theorem findings_quotedKeyLine {key : List Char} (h : '\n' ∉ key) :
    findings (quotedKeyLine key v) = [.placed (quotedKeyRecord key v)] := by
  have hfeed : '\n' ∉ quotedKeyLine key v := by
    simp [quotedKeyLine, Text.feed_not_mem_literal h, v.isLine.feed_not_mem]
  have hne : quotedKeyLine key v ≠ [] := by simp [quotedKeyLine]
  rw [findings_of_line hfeed hne, step_quotedKeyLine]

/-- A key in quotes is the one entry of its line, filed under what it is written as. It is found
by its text just when no quote and no backslash of the text had to be guarded. -/
theorem quoted_key_on_record {key : List Char} (h : '\n' ∉ key) :
    let atlas := (Survey.build .outline (String.ofList (quotedKeyLine key v))).atlas
    atlas.records = [quotedKeyRecord key v] ∧
      atlas.get? (Path.root.key (String.ofList key)) =
        if key.any Segment.quotedSpecial then none else some (quotedKeyPlace key v) := by
  intro atlas
  have hatlas : atlas = .ofRecords [quotedKeyRecord key v] := by
    have hfindings : Survey.findings .outline (quotedKeyLine key v) = _ :=
      findings_quotedKeyLine v h
    simp only [atlas]
    rw [Survey.atlas_build, String.toList_ofList, hfindings]
    exact Atlas.ofFindings_placed [quotedKeyRecord key v]
  have haddress : (Path.root.key (String.ofList key)).address =
      (quotedKeyRecord key v).path.address ↔ key.any Segment.quotedSpecial = false := by
    rw [Path.address_eq_iff_filed, ← Text.escape_eq_self_iff]
    simp [quotedKeyRecord, Path.filed, Path.key, Path.field, Segment.filed, String.ofList_inj,
      eq_comm]
  have hget : atlas.get? (Path.root.key (String.ofList key)) =
      if (Path.root.key (String.ofList key)).address = (quotedKeyRecord key v).path.address
      then some (quotedKeyPlace key v) else none := by
    rw [hatlas]
    exact Atlas.get?_insert {} (quotedKeyRecord key v) rfl _
  constructor
  · rw [hatlas]
    rfl
  · simp only [hget, haddress]
    cases key.any Segment.quotedSpecial <;> rfl

end

theorem found_with_colon_in_quotes :
    let key := ['a', ':', ' ', '#', ' ', 'b']
    let v : Scalar := .word (.ofChars ['v'] (by decide))
    String.ofList (quotedKeyLine key v) = "\"a: # b\": v" ∧ '\n' ∉ key ∧
      key.any Segment.quotedSpecial = false ∧
      (Survey.build .outline "\"a: # b\": v").atlas.records = [quotedKeyRecord key v] ∧
      (Survey.build .outline "\"a: # b\": v").atlas.get? (Path.root.key "a: # b") =
        some ⟨1, "\"a: # b\": v", some ⟨"\"a: # b\"", 0⟩, some ⟨"v", 10⟩⟩ := by
  intro key v
  have hline : String.ofList (quotedKeyLine key v) = "\"a: # b\": v" := by decide
  have hfeed : '\n' ∉ key := by decide
  have hplain : key.any Segment.quotedSpecial = false := by decide
  obtain ⟨hrecords, hget⟩ := quoted_key_on_record v hfeed
  rw [hline] at hrecords hget
  refine ⟨hline, hfeed, hplain, hrecords, hget.trans ?_⟩
  rw [hplain]
  rfl

/-- A quote in the text of a key keeps its backslash in the name, and the text is not found. -/
theorem quote_in_key_not_found :
    ¬ ∀ (key : List Char), key ≠ [] → '\n' ∉ key → '\r' ∉ key →
      let line := Text.literal key ++ [':', ' ', 'v']
      let atlas := (Survey.build .outline (String.ofList line)).atlas
      atlas.size = 1 ∧
        atlas.get? (Path.root.key (String.ofList key)) =
          some (Line.place ⟨1, line⟩ (some ⟨0, Text.literal key⟩)
            (some ⟨(Text.literal key).length + 2, ['v']⟩)) := by
  intro h
  have hfound := (h ['a', '"', 'b'] (by decide) (by decide) (by decide)).2
  have hline : String.ofList (Text.literal ['a', '"', 'b'] ++ [':', ' ', 'v']) =
      "\"a\\\"b\": v" := by decide
  have hkey : String.ofList ['a', '"', 'b'] = "a\"b" := by decide
  have hnone :
      (Survey.build .outline "\"a\\\"b\": v").atlas.get? (Path.root.key "a\"b") = none := by
    cbv
  rw [hline, hkey, hnone] at hfound
  cases hfound

end Outline

end ConfigAtlas
