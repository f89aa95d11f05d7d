import ConfigAtlas.Diagnostic

/-!
# Highlights inside a value

Whatever part of a value is asked for, the carets stay under the value. The sums that place them
fit in 64 bits but for one highlight: behind an opening quote the last position of all is one too
many, and nothing is pointed at.
-/

namespace ConfigAtlas.Diagnostic

/-- The carets stand under the value and nothing else. -/
def Underline.Inside (u : Underline) (value : Span) : Prop :=
  value.column ≤ u.start ∧ u.start + u.width ≤ value.stop

/-- How many characters of a value stand before its first position. -/
def skipped (text : String) : Nat :=
  if text.toList.head? = some '"' ∨ text.toList.head? = some '\'' then 1 else 0

/-- What a highlight asks for, in numbers without a bound. -/
def asked (value : Span) (highlight : Highlight) : Underline :=
  let start := highlight.offset + skipped value.text
  if value.width ≤ start then ⟨value.column, value.width⟩
  else ⟨value.column + skipped value.text + highlight.offset,
    min highlight.length (value.width - skipped value.text - highlight.offset)⟩

/-- No sum on the way to the underline passes the last word. -/
def SumsFit (value : Span) (highlight : Highlight) : Prop :=
  let start := highlight.offset + skipped value.text
  start < UInt64.size ∧ (start < value.width → value.column + start < UInt64.size)

variable {value : Span} {highlight : Highlight}

theorem quoteWidth_eq_skipped (text : String) : quoteWidth text = skipped text := by
  unfold quoteWidth skipped Text.isQuote
  cases text.toList.head? <;> simp

theorem skipped_le_one (text : String) : skipped text ≤ 1 := by
  unfold skipped
  split <;> omega

theorem asked_inside (value : Span) (highlight : Highlight) :
    (asked value highlight).Inside value := by
  simp only [asked, Underline.Inside, Span.stop]
  split
  · exact ⟨Nat.le_refl _, Nat.le_refl _⟩
  · constructor <;> simp only <;> omega

theorem sumsFit (hstop : value.stop < UInt64.size)
    (hstart : highlight.offset + skipped value.text < UInt64.size) : SumsFit value highlight := by
  refine ⟨hstart, fun hinside => ?_⟩
  rw [Span.stop] at hstop
  omega

theorem underlineValue_eq_asked (h : SumsFit value highlight) :
    underlineValue value (some highlight) = .ok (asked value highlight) := by
  obtain ⟨hstart, hsum⟩ := h
  simp only [underlineValue, asked, quoteWidth_eq_skipped, sum_of_lt hstart]
  show (if _ then _ else _) = _
  split
  · rfl
  · rename_i hinside
    have hcolumn : value.column + (highlight.offset + skipped value.text) =
        value.column + skipped value.text + highlight.offset := by omega
    have hwidth : value.width - (highlight.offset + skipped value.text) =
        value.width - skipped value.text - highlight.offset := by omega
    rw [sum_of_lt (hsum (by omega)), hcolumn, hwidth]
    rfl

theorem underlineValue_of_overflow
    (hstart : UInt64.size ≤ highlight.offset + skipped value.text) :
    underlineValue value (some highlight) = .error .overflow := by
  simp only [underlineValue, quoteWidth_eq_skipped, sum_of_le hstart]
  rfl

/-- A highlight is underlined as it was asked for, which stays inside its value, and no sum is too
wide. The one exception is the last position of all behind an opening quote: there is no underline
at all, though what was asked for is the whole value. -/
theorem underline_of_highlight {d : Diagnostic} (hvalue : d.place.value? = some value)
    (hhighlight : d.highlight? = some highlight) (hstop : value.stop < UInt64.size)
    (hoffset : highlight.offset < UInt64.size) :
    (asked value highlight).Inside value ∧
      (highlight.offset + skipped value.text < UInt64.size →
        d.underline = .ok (asked value highlight) ∧ SumsFit value highlight) ∧
      (UInt64.size ≤ highlight.offset + skipped value.text →
        d.underline = .error .overflow ∧ highlight.offset = UInt64.size - 1 ∧
          asked value highlight = ⟨value.column, value.width⟩) := by
  have hunderline : d.underline = underlineValue value (some highlight) := by
    rw [underline, hvalue, hhighlight]
  rw [hunderline]
  refine ⟨asked_inside value highlight, fun hstart => ?_, fun hstart => ?_⟩
  · have hfit := sumsFit hstop hstart
    exact ⟨underlineValue_eq_asked hfit, hfit⟩
  · have hskipped := skipped_le_one value.text
    have hpast : value.width ≤ highlight.offset + skipped value.text := by
      rw [Span.stop] at hstop
      omega
    exact ⟨underlineValue_of_overflow hstart, by omega, if_pos hpast⟩

theorem underline_of_highlight_at_bounds :
    let quote : Span := ⟨"'", 18446744073709551614⟩
    let wide : Diagnostic :=
      ⟨⟨1, "'", none, some quote⟩, none, none, some ⟨18446744073709551614, 1⟩⟩
    let word : Span := ⟨"\"abcdef\"", 4⟩
    let long : Diagnostic := ⟨⟨1, "re: \"abcdef\"", none, some word⟩, none, none, some ⟨4, 50⟩⟩
    (quote.stop < UInt64.size ∧ wide.underline = .ok ⟨18446744073709551614, 1⟩) ∧
      (word.stop < UInt64.size ∧ long.underline = .ok ⟨9, 3⟩) := by
  intro quote wide word long
  have hquote : quote.stop < UInt64.size := by decide
  have hword : word.stop < UInt64.size := by decide
  obtain ⟨-, hwide, -⟩ := underline_of_highlight (d := wide) rfl rfl hquote (by decide)
  obtain ⟨-, hlong, -⟩ := underline_of_highlight (d := long) rfl rfl hword (by decide)
  have hone : asked quote ⟨18446744073709551614, 1⟩ = ⟨18446744073709551614, 1⟩ := by decide
  have hcut : asked word ⟨4, 50⟩ = ⟨9, 3⟩ := by decide
  rw [← hone, ← hcut]
  exact ⟨⟨hquote, (hwide (by decide)).1⟩, hword, (hlong (by decide)).1⟩

/-- The last position of all starts outside the value, which should be underlined as a whole. -/
theorem last_position_overflows :
    let value : Span := ⟨"\"abcdef\"", 4⟩
    let highlight : Highlight := ⟨18446744073709551615, 1⟩
    let d : Diagnostic := ⟨⟨1, "re: \"abcdef\"", none, some value⟩, none, none, some highlight⟩
    value.stop < UInt64.size ∧ highlight.offset < UInt64.size ∧ highlight.length < UInt64.size ∧
      asked value highlight = ⟨4, 8⟩ ∧ d.underline = .error .overflow ∧
      ¬ SumsFit value highlight := by
  have hfit : ¬ SumsFit ⟨"\"abcdef\"", 4⟩ ⟨18446744073709551615, 1⟩ :=
    fun h => absurd h.1 (by decide)
  exact ⟨by decide, by decide, by decide, by decide, rfl, hfit⟩

end ConfigAtlas.Diagnostic
