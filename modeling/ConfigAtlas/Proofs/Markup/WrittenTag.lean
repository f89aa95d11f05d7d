import Mathlib
import ConfigAtlas.Markup.Document
import ConfigAtlas.Proofs.Markup.TagReading
import ConfigAtlas.Proofs.Text.Guarded
import ConfigAtlas.Proofs.Text.Trimmed

/-!
# Opening tags with all values in quotes

The end of a tag is found by its quotes alone, but a value is read with backslashes that guard. So
what is read is what is written as long as no guarded quote ends a value, or nothing follows that
could be taken for its end.
-/

namespace ConfigAtlas.Markup

/-! ## What is written -/

/-- An attribute on one line, with blanks in front and a value in quotes of one kind. -/
structure QuotedAttribute where
  gap : List Char
  name : List Char
  quote : Char
  text : List Char
  gap_ne_nil : gap ≠ [] := by decide
  gap_blank : ∀ c ∈ gap, Text.isBlank c = true ∧ c ≠ '\n' :=
    by exact List.all_iff_forall_prop.mp (by decide)
  name_ne_nil : name ≠ [] := by decide
  name_chars : ∀ c ∈ name, Text.isBlank c = false ∧ c ∉ ['=', '"', '\'', '>', ':'] :=
    by exact List.all_iff_forall_prop.mp (by decide)
  not_namespace : name ≠ namespaceName := by decide
  quote_isQuote : Text.isQuote quote = true := by decide
  text_chars : ∀ c ∈ text, c ≠ '\n' ∧ c ≠ quote :=
    by exact List.all_iff_forall_prop.mp (by decide)

namespace QuotedAttribute

def value (a : QuotedAttribute) : List Char := a.quote :: (a.text ++ [a.quote])

def written (a : QuotedAttribute) : List Char := a.gap ++ (a.name ++ '=' :: a.value)

/-- The attributes as they stand one behind the other. -/
def inText (start : Nat) : List QuotedAttribute → List Attribute
  | [] => []
  | a :: rest =>
    ⟨⟨start + a.gap.length, a.name⟩, ⟨start + a.gap.length + a.name.length + 1, a.value⟩⟩ ::
      inText (start + a.written.length) rest

/-- Where the quote at the end is guarded, the value is read up to the next blank, unless another
quote behind it is taken for its end. -/
def ReadsBefore (a : QuotedAttribute) (rest : List Char) : Prop :=
  Text.GuardsQuote a.quote a.text →
    (∀ c ∈ a.text, Text.isBlank c = false) ∧
      ∀ before after, rest = before ++ a.quote :: after → Text.GuardsQuote a.quote before

def AllRead : List QuotedAttribute → (gap : List Char) → Prop
  | [], _ => True
  | a :: rest, gap => a.ReadsBefore (rest.flatMap written ++ gap) ∧ AllRead rest gap

end QuotedAttribute

/-- A tag on one line, all of whose attributes are quoted. -/
structure WrittenTag where
  name : List Char
  attributes : List QuotedAttribute
  gap : List Char
  slash : Bool
  name_ne_nil : name ≠ [] := by decide
  name_chars : ∀ c ∈ name, isTagNameChar c = true :=
    by exact List.all_iff_forall_prop.mp (by decide)
  distinct : (attributes.map (·.name)).Nodup := by decide
  gap_blank : ∀ c ∈ gap, Text.isBlank c = true ∧ c ≠ '\n' :=
    by exact List.all_iff_forall_prop.mp (by decide)

namespace WrittenTag

def inside (t : WrittenTag) : List Char := t.attributes.flatMap (·.written) ++ t.gap

def closing (t : WrittenTag) : List Char := if t.slash then ['/'] else []

def written (t : WrittenTag) : List Char :=
  '<' :: (t.name ++ (t.inside ++ (t.closing ++ ['>'])))

/-- All values are read as they are written. -/
def ReadsVerbatim (t : WrittenTag) : Prop := QuotedAttribute.AllRead t.attributes t.gap

end WrittenTag

/-! ## Values -/

namespace QuotedAttribute

variable (a : QuotedAttribute)

theorem quote_not_mem_text : a.quote ∉ a.text := fun h => (a.text_chars _ h).2 rfl

theorem isBlank_quote : Text.isBlank a.quote = false := Text.isBlank_of_isQuote a.quote_isQuote

theorem feed_not_mem : '\n' ∉ a.gap ∧ '\n' ∉ a.name ++ ['='] ∧ '\n' ∉ a.value := by
  refine ⟨fun h => (a.gap_blank _ h).2 rfl, ?_, ?_⟩
  · intro h
    simp only [List.mem_append, List.mem_singleton] at h
    rcases h with h | h
    · exact absurd (a.name_chars _ h).1 (by decide)
    · cases h
  · intro h
    simp only [value, List.mem_cons, List.mem_append, List.not_mem_nil, or_false] at h
    have hquote : '\n' ≠ a.quote := fun h => absurd (h ▸ a.quote_isQuote) (by decide)
    rcases h with h | h | h
    · exact hquote h
    · exact (a.text_chars _ h).1 rfl
    · exact hquote h

theorem declaresNamespace_name (start : Nat) (value : Piece) :
    Attribute.declaresNamespace ⟨⟨start, a.name⟩, value⟩ = false := by
  have hcolon : ':' ∉ a.name := fun h => (a.name_chars _ h).2 (by simp)
  simp [Attribute.declaresNamespace, a.not_namespace, hcolon]

theorem name_eq_cons : ∃ c rest, a.name = c :: rest ∧ Text.isBlank c = false := by
  obtain ⟨c, rest, hname⟩ := List.exists_cons_of_ne_nil a.name_ne_nil
  exact ⟨c, rest, hname, (a.name_chars c (by simp [hname])).1⟩

theorem quotedRun?_value (rest : List Char) : Text.quotedRun? (a.value ++ rest) =
    if Text.GuardsQuote a.quote a.text then
      (Text.untilClosed a.quote false rest).map (· + a.value.length)
    else some a.value.length := by
  have hvalue : a.value ++ rest = a.quote :: (a.text ++ a.quote :: rest) := by simp [value]
  have hlength : a.value.length = a.text.length + 2 := by simp [value]
  rw [hvalue, Text.quotedRun?, if_pos a.quote_isQuote, Text.untilClosed_append a.quote_not_mem_text,
    hlength]
  split
  · rename_i hguards
    rw [(Text.guardsNext_iff _ _).mpr hguards, Text.untilClosed]
    simp [Function.comp_def, Nat.add_comm, Nat.add_left_comm]
  · rename_i hguards
    rw [← Text.guardsNext_iff, Bool.not_eq_true] at hguards
    simp [hguards, Text.untilClosed, Nat.add_comm, Nat.add_left_comm]

theorem takeWhile_value_iff {rest : List Char} (hrest : rest.head?.all Text.isBlank = true) :
    (a.value ++ rest).takeWhile (!Text.isBlank ·) = a.value ↔
      ∀ c ∈ a.text, Text.isBlank c = false := by
  constructor
  · intro h c hc
    have hmem : c ∈ (a.value ++ rest).takeWhile (!Text.isBlank ·) := by
      rw [h]
      simp [value, hc]
    simpa using List.mem_takeWhile_imp hmem
  · intro h
    have hsolid : ∀ c ∈ a.value, (!Text.isBlank c) = true := by
      intro c hc
      simp only [value, List.mem_cons, List.mem_append, List.not_mem_nil, or_false] at hc
      rcases hc with rfl | hc | rfl
      · simp [a.isBlank_quote]
      · simp [h c hc]
      · simp [a.isBlank_quote]
    rw [List.takeWhile_append_of_pos hsolid]
    cases rest with
    | nil => simp
    | cons c rest =>
      rw [List.takeWhile_cons_of_neg (by simpa using hrest), List.append_nil]

/-- A value is read as it is written exactly when the text behind it does not go on with it. -/
theorem valueAt_eq_iff (start : Nat) {rest : List Char}
    (hrest : rest.head?.all Text.isBlank = true) :
    (Attribute.valueAt ⟨start, a.value ++ rest⟩).text = a.value ↔ a.ReadsBefore rest := by
  have hrun := a.quotedRun?_value rest
  unfold Attribute.valueAt ReadsBefore
  by_cases hguards : Text.GuardsQuote a.quote a.text
  · rw [if_pos hguards] at hrun
    simp only [hrun, hguards, forall_true_left]
    have hclosed := Text.untilClosed_eq_none_iff a.quote false rest
    simp only [Text.guardsNext_iff] at hclosed
    cases hn : Text.untilClosed a.quote false rest with
    | none =>
      have hall := hclosed.mp hn
      simp only [Option.map_none]
      exact (a.takeWhile_value_iff hrest).trans (and_iff_left hall).symm
    | some n =>
      -- A closing quote further on takes more than the value.
      have hnot : ¬ ∀ before after, rest = before ++ a.quote :: after →
          Text.GuardsQuote a.quote before := by
        rw [← hclosed, hn]
        exact Option.some_ne_none n
      have hpos : 0 < n := Text.untilClosed_pos hn
      have hle : n ≤ rest.length := Text.untilClosed_le hn
      simp only [Option.map_some]
      refine iff_of_false ?_ fun h => hnot h.2
      intro h
      have hlength := congrArg List.length h
      simp only [Piece.take, List.length_take, List.length_append] at hlength
      omega
  · rw [if_neg hguards] at hrun
    simp only [hrun, hguards, false_implies, iff_true]
    exact List.take_left

/-! ## Attributes -/

theorem takeWhile_name (rest : List Char) :
    (a.name ++ '=' :: rest).takeWhile Attribute.isNameChar = a.name := by
  have hname : ∀ c ∈ a.name, Attribute.isNameChar c = true := by
    intro c hc
    obtain ⟨hblank, hsigns⟩ := a.name_chars c hc
    simp only [List.mem_cons, not_or] at hsigns
    simp [Attribute.isNameChar, hblank, hsigns]
  rw [List.takeWhile_append_of_pos hname, List.takeWhile_cons_of_neg (by decide), List.append_nil]

theorem trimStart_written (start : Nat) (rest : List Char) :
    Piece.trimStart ⟨start, a.written ++ rest⟩ =
      ⟨start + a.gap.length, a.name ++ '=' :: (a.value ++ rest)⟩ := by
  obtain ⟨c, tail, hname, hc⟩ := a.name_eq_cons
  have hwritten : a.written ++ rest = a.gap ++ (a.name ++ '=' :: (a.value ++ rest)) := by
    simp [written]
  rw [hwritten, Piece.trimStart_append fun c hc => (a.gap_blank c hc).1, hname, List.cons_append,
    Piece.trimStart_cons hc]

theorem read_written (start : Nat) (rest : List Char) :
    let behind : Piece := ⟨start + a.name.length + 1, a.value ++ rest⟩
    Attribute.read ⟨start, a.name ++ '=' :: (a.value ++ rest)⟩ =
      (some ⟨⟨start, a.name⟩, Attribute.valueAt behind⟩,
        behind.drop (Attribute.valueAt behind).length) := by
  intro behind
  have hname : Piece.takeWhile ⟨start, a.name ++ '=' :: (a.value ++ rest)⟩ Attribute.isNameChar =
      ⟨start, a.name⟩ := by rw [Piece.takeWhile, a.takeWhile_name]
  have hdrop : Piece.drop ⟨start, a.name ++ '=' :: (a.value ++ rest)⟩ a.name.length =
      ⟨start + a.name.length, '=' :: (a.value ++ rest)⟩ := Piece.drop_length_append _ _ _
  have hafter : Attribute.afterName ⟨start, a.name ++ '=' :: (a.value ++ rest)⟩ =
      ⟨start + a.name.length, '=' :: (a.value ++ rest)⟩ := by
    rw [Attribute.afterName, hname, Piece.length, hdrop, Piece.trimStart_cons (by decide)]
  have hsign : Attribute.afterSign ⟨start, a.name ++ '=' :: (a.value ++ rest)⟩ = behind := by
    have hone : Piece.drop ⟨start + a.name.length, '=' :: (a.value ++ rest)⟩ 1 = behind :=
      Piece.drop_length_append _ ['='] _
    rw [Attribute.afterSign, hafter, hone]
    exact Piece.trimStart_cons a.isBlank_quote _ _
  have hne : Piece.isEmpty ⟨start, a.name⟩ = false :=
    List.isEmpty_eq_false_iff.mpr a.name_ne_nil
  rw [Attribute.read_of_sign (congrArg Piece.text hafter), hname, hsign, hne]
  rfl

theorem readAll_written (start : Nat) (rest : List Char) :
    let behind : Piece := ⟨start + a.gap.length + a.name.length + 1, a.value ++ rest⟩
    Attribute.readAll ⟨start, a.written ++ rest⟩ =
      ⟨⟨start + a.gap.length, a.name⟩, Attribute.valueAt behind⟩ ::
        Attribute.readAll (behind.drop (Attribute.valueAt behind).length) := by
  intro behind
  have htrim := a.trimStart_written start rest
  have hne : (Piece.trimStart ⟨start, a.written ++ rest⟩).text ≠ [] := by
    rw [htrim]
    simp
  rw [Attribute.readAll_of_ne_nil hne, htrim, a.read_written]
  rfl

end QuotedAttribute

theorem readAll_blank {gap : List Char} (h : ∀ c ∈ gap, Text.isBlank c = true) (start : Nat) :
    Attribute.readAll ⟨start, gap⟩ = [] := by
  apply Attribute.readAll_of_nil
  have htrim := Piece.trimStart_append h start []
  rw [List.append_nil] at htrim
  rw [htrim]
  rfl

theorem head?_attributes {gap : List Char} (h : ∀ c ∈ gap, Text.isBlank c = true)
    (attributes : List QuotedAttribute) :
    (attributes.flatMap (·.written) ++ gap).head?.all Text.isBlank = true := by
  cases attributes with
  | nil =>
    cases gap with
    | nil => rfl
    | cons c gap => exact h c List.mem_cons_self
  | cons a rest =>
    obtain ⟨c, tail, hgap⟩ := List.exists_cons_of_ne_nil a.gap_ne_nil
    have hc := (a.gap_blank c (by simp [hgap])).1
    simpa [QuotedAttribute.written, hgap] using hc

theorem map_readAll_iff {β : Type} {keep : Attribute → Bool} {f : Attribute → β}
    (hf : ∀ x y, f x = f y → x.value.text = y.value.text) {gap : List Char}
    (hgap : ∀ c ∈ gap, Text.isBlank c = true) {attributes : List QuotedAttribute}
    (hkeep : ∀ a ∈ attributes, ∀ start value, keep ⟨⟨start, a.name⟩, value⟩ = true) (start : Nat) :
    ((Attribute.readAll ⟨start, attributes.flatMap (·.written) ++ gap⟩).filter keep).map f =
        (QuotedAttribute.inText start attributes).map f ↔
      QuotedAttribute.AllRead attributes gap := by
  induction attributes generalizing start with
  | nil => simp [readAll_blank hgap, QuotedAttribute.inText, QuotedAttribute.AllRead]
  | cons a rest ih =>
    let behind := rest.flatMap (·.written) ++ gap
    let value : Piece := ⟨start + a.gap.length + a.name.length + 1, a.value ++ behind⟩
    have hwritten : (a :: rest).flatMap (·.written) ++ gap = a.written ++ behind := by
      simp [behind]
    have hread := a.readAll_written start behind
    have hbefore : (Attribute.valueAt value).text = a.value ↔ a.ReadsBefore behind :=
      a.valueAt_eq_iff _ (head?_attributes hgap rest)
    have hvalue : (Attribute.valueAt value).text = a.value →
        Attribute.valueAt value = ⟨value.start, a.value⟩ := by
      intro htext
      rw [← Attribute.start_valueAt value, ← htext]
    have hdrop : (Attribute.valueAt value).text = a.value →
        value.drop (Attribute.valueAt value).length = ⟨start + a.written.length, behind⟩ := by
      intro htext
      have hstart : value.start + a.value.length = start + a.written.length := by
        simp only [value, QuotedAttribute.written, List.length_append, List.length_cons]
        omega
      rw [Piece.length, htext, ← hstart]
      exact Piece.drop_length_append _ _ _
    have hrest := ih fun b hb => hkeep b (List.mem_cons_of_mem _ hb)
    -- The rest is read behind this value only if this value is read as it is written.
    rw [hwritten, hread, List.filter_cons_of_pos (hkeep a List.mem_cons_self _ _), List.map_cons,
      QuotedAttribute.inText, List.map_cons, List.cons_eq_cons, QuotedAttribute.AllRead,
      ← hbefore]
    constructor
    · rintro ⟨hhead, htail⟩
      have htext := hf _ _ hhead
      rw [hdrop htext, hrest] at htail
      exact ⟨htext, htail⟩
    · rintro ⟨htext, htail⟩
      refine ⟨congrArg (fun v => f ⟨_, v⟩) (hvalue htext), ?_⟩
      rw [hdrop htext, hrest]
      exact htail

/-! ## Tags -/

theorem plain_of_isBlank {c : Char} (h : Text.isBlank c = true) :
    c ≠ '>' ∧ Text.isQuote c = false := by
  constructor
  · rintro rfl
    exact absurd h (by decide)
  · rw [← Bool.not_eq_true]
    intro hquote
    rw [Text.isBlank_of_isQuote hquote] at h
    cases h

theorem tagStop?_plain {t : List Char} (h : ∀ c ∈ t, c ≠ '>' ∧ Text.isQuote c = false)
    (rest : List Char) : tagStop? none (t ++ rest) = (tagStop? none rest).map (· + t.length) := by
  induction t with
  | nil => simp
  | cons c t ih =>
    obtain ⟨hstop, hquote⟩ := h c List.mem_cons_self
    have hrest := ih fun d hd => h d (List.mem_cons_of_mem _ hd)
    simp [tagStop?, hstop, hquote, hrest, Function.comp_def, Nat.add_assoc]

theorem tagStop?_quoted {quote : Char} {t : List Char} (h : quote ∉ t) (rest : List Char) :
    tagStop? (some quote) (t ++ quote :: rest) =
      (tagStop? none rest).map (· + (t.length + 1)) := by
  induction t with
  | nil => simp [tagStop?]
  | cons c t ih =>
    rw [List.mem_cons, not_or] at h
    simp [tagStop?, Ne.symm h.1, ih h.2, Function.comp_def, Nat.add_assoc]

namespace QuotedAttribute

theorem tagStop?_written (a : QuotedAttribute) (rest : List Char) :
    tagStop? none (a.written ++ rest) = (tagStop? none rest).map (· + a.written.length) := by
  have hplain : ∀ c ∈ a.gap ++ (a.name ++ ['=']), c ≠ '>' ∧ Text.isQuote c = false := by
    intro c hc
    simp only [List.mem_append, List.mem_singleton] at hc
    rcases hc with hc | hc | rfl
    · exact plain_of_isBlank (a.gap_blank c hc).1
    · have hsigns := (a.name_chars c hc).2
      simp only [List.mem_cons, not_or] at hsigns
      simp [Text.isQuote, hsigns]
    · decide
  have hwritten : a.written ++ rest =
      a.gap ++ (a.name ++ ['=']) ++ a.quote :: (a.text ++ a.quote :: rest) := by
    simp [written, value]
  have hstop : a.quote ≠ '>' := fun h => absurd (h ▸ a.quote_isQuote) (by decide)
  have hlength : a.written.length =
      a.text.length + 1 + 1 + (a.gap ++ (a.name ++ ['='])).length := by
    simp only [written, value, List.length_append, List.length_cons, List.length_nil]
    omega
  rw [hwritten, tagStop?_plain hplain, tagStop?, if_neg hstop, if_pos a.quote_isQuote,
    tagStop?_quoted a.quote_not_mem_text, hlength]
  simp [Function.comp_def, Nat.add_assoc]

end QuotedAttribute

namespace WrittenTag

variable (t : WrittenTag)

theorem tagStop?_inside (rest : List Char) :
    tagStop? none (t.inside ++ rest) = (tagStop? none rest).map (· + t.inside.length) := by
  have hattributes : ∀ (attributes : List QuotedAttribute) (tail : List Char),
      tagStop? none (attributes.flatMap (·.written) ++ tail) =
        (tagStop? none tail).map (· + (attributes.flatMap (·.written)).length) := by
    intro attributes tail
    induction attributes with
    | nil => simp
    | cons a later ih =>
      rw [List.flatMap_cons, List.append_assoc, a.tagStop?_written, ih, Option.map_map]
      simp [Function.comp_def, Nat.add_comm, Nat.add_left_comm]
  have hgap := tagStop?_plain (fun c hc => plain_of_isBlank (t.gap_blank c hc).1) rest
  rw [inside, List.append_assoc, hattributes, hgap, Option.map_map]
  simp only [Function.comp_def, List.length_append, Nat.add_assoc, Nat.add_comm t.gap.length]

theorem tagStop?_written (after : List Char) :
    tagStop? none (t.inside ++ (t.closing ++ '>' :: after)) =
      some (t.inside ++ t.closing).length := by
  have hclosing : tagStop? none (t.closing ++ '>' :: after) = some t.closing.length := by
    unfold closing
    split <;> simp [tagStop?, Text.isQuote]
  rw [t.tagStop?_inside, hclosing, List.length_append, Nat.add_comm]
  rfl

theorem inside_eq_nil_or_concat :
    t.inside = [] ∨ ∃ front c, t.inside = front ++ [c] ∧ (c == '/') = false := by
  unfold inside
  rcases List.eq_nil_or_concat t.gap with hgap | ⟨front, c, hgap⟩
  · rcases List.eq_nil_or_concat t.attributes with hnone | ⟨front, a, hlast⟩
    · exact .inl (by rw [hgap, hnone]; rfl)
    · have hquote : (a.quote == '/') = false :=
        beq_eq_false_iff_ne.mpr fun h => absurd (h ▸ a.quote_isQuote) (by decide)
      exact .inr ⟨front.flatMap (·.written) ++ (a.gap ++ (a.name ++ '=' :: a.quote :: a.text)),
        a.quote, by simp [hgap, hlast, QuotedAttribute.written, QuotedAttribute.value], hquote⟩
  · have hblank := (t.gap_blank c (by simp [hgap])).1
    have hslash : (c == '/') = false :=
      beq_eq_false_iff_ne.mpr fun h => absurd (h ▸ hblank) (by decide)
    exact .inr ⟨t.attributes.flatMap (·.written) ++ front, c, by simp [hgap], hslash⟩

theorem withoutSlashes_written (start : Nat) :
    withoutSlashes ⟨start, t.inside ++ t.closing⟩ = ⟨start, t.inside⟩ := by
  have hslashes : ∀ c ∈ t.closing.reverse, (c == '/') = true := by
    unfold closing
    split <;> simp
  have hend : t.inside.reverse.dropWhile (· == '/') = t.inside.reverse := by
    rcases t.inside_eq_nil_or_concat with hnone | ⟨front, c, hlast, hc⟩
    · rw [hnone]
      rfl
    · rw [hlast, List.reverse_concat, List.dropWhile_cons_of_neg (by simp [hc])]
  rw [withoutSlashes, List.reverse_append, List.dropWhile_append_of_pos hslashes, hend,
    List.reverse_reverse]

theorem head?_behind_name (after : List Char) :
    ∃ c rest, t.inside ++ (t.closing ++ '>' :: after) = c :: rest ∧ isTagNameChar c = false := by
  have hhead := head?_attributes (fun c hc => (t.gap_blank c hc).1) t.attributes
  rw [← inside] at hhead
  cases hinside : t.inside with
  | nil =>
    unfold closing
    split
    · exact ⟨'/', _, rfl, by decide⟩
    · exact ⟨'>', _, rfl, by decide⟩
  | cons c rest =>
    rw [hinside] at hhead
    have hc : Text.isBlank c = true := hhead
    exact ⟨c, _, rfl, by simp [isTagNameChar, hc]⟩

theorem exists_read?_written (start : Nat) (after : List Char) :
    ∃ tag, OpenTag.read? ⟨start, t.written ++ after⟩ = some tag ∧
      tag.name = ⟨start + 1, t.name⟩ ∧
      tag.attributes = Attribute.readAll ⟨start + 1 + t.name.length, t.inside⟩ := by
  obtain ⟨c, rest, hrest, hc⟩ := t.head?_behind_name after
  let inner := t.inside ++ t.closing
  have hwritten : t.written ++ after = ['<'] ++ (t.name ++ (inner ++ '>' :: after)) := by
    simp [written, inner]
  have hbehind : inner ++ '>' :: after = c :: rest := by
    rw [← hrest, List.append_assoc]
  have htake : (t.name ++ (inner ++ '>' :: after)).takeWhile isTagNameChar = t.name := by
    rw [hbehind, List.takeWhile_append_of_pos t.name_chars,
      List.takeWhile_cons_of_neg (by simp [hc]), List.append_nil]
  have hdrop : Piece.drop ⟨start, t.written ++ after⟩ 1 =
      ⟨start + 1, t.name ++ (inner ++ '>' :: after)⟩ := by
    rw [hwritten]
    exact Piece.drop_length_append start ['<'] _
  have hname : Piece.takeWhile ⟨start + 1, t.name ++ (inner ++ '>' :: after)⟩ isTagNameChar =
      ⟨start + 1, t.name⟩ := by rw [Piece.takeWhile, htake]
  have hbody : Piece.dropWhile ⟨start + 1, t.name ++ (inner ++ '>' :: after)⟩ isTagNameChar =
      ⟨start + 1 + t.name.length, inner ++ '>' :: after⟩ := by
    rw [Piece.dropWhile_eq_drop, htake]
    exact Piece.drop_length_append _ _ _
  have hne : ¬ Piece.isEmpty ⟨start + 1, t.name⟩ = true := by
    simpa [Piece.isEmpty] using t.name_ne_nil
  have hstop : tagStop? none (inner ++ '>' :: after) = some inner.length := by
    rw [List.append_assoc]
    exact t.tagStop?_written after
  refine ⟨OpenTag.ofBody ⟨start + 1, t.name⟩
    ⟨start + 1 + t.name.length, inner ++ '>' :: after⟩ inner.length, ?_, rfl, ?_⟩
  · rw [OpenTag.read?_eq, hdrop, hname, if_neg hne, hbody, hstop]
    rfl
  · rw [OpenTag.ofBody, Piece.take_length_append, t.withoutSlashes_written]

end WrittenTag

end ConfigAtlas.Markup
