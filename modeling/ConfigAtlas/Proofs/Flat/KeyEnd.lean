import Mathlib
import ConfigAtlas.Proofs.Flat.SourceScan
import ConfigAtlas.Proofs.Text.Guarded
import ConfigAtlas.Proofs.Text.Trimmed

/-!
# Where a key ends

A scan of its own looks for the equals sign behind a key. It judges what is quoted as the reader of
keys does, up to a quote with nothing but blanks before it in its part, one of them guarded: there
the reader opens a quoted part, and the scan reads on as if nothing had been opened.
-/

namespace ConfigAtlas

namespace Text

/-- The last character that is not blank. -/
def lastSolid? (t : List Char) : Option Char := (trimEnd t).getLast?

theorem lastSolid?_concat (t : List Char) (c : Char) :
    lastSolid? (t ++ [c]) = if isBlank c then lastSolid? t else some c := by
  rw [lastSolid?]
  split
  · rename_i hc
    rw [trimEnd_append (by simpa using hc), lastSolid?]
  · rename_i hc
    rw [trimEnd_concat (by simpa using hc), List.getLast?_concat]

theorem lastSolid?_of_getLast? {t : List Char} {c : Char} (h : t.getLast? = some c)
    (hc : isBlank c = false) : lastSolid? t = some c := by
  obtain ⟨front, rfl⟩ := List.getLast?_eq_some_iff.mp h
  rw [lastSolid?_concat, if_neg (by simp [hc])]

end Text

namespace Flat

open Text (isBlank isQuote lastSolid?)

namespace KeyScan

def run (s : KeyScan) (t : List Char) : KeyScan := t.foldl step s

/-- What comes next is neither in quotes nor guarded. -/
def isBare (s : KeyScan) : Bool := s.quote.isNone && !s.escaped

/-- The position of the first equals sign that is neither in quotes nor guarded. -/
def sign? (s : KeyScan) (t : List Char) : Option Nat :=
  (List.range t.length).find? fun n => t[n]? == some '=' && (s.run (t.take n)).isBare

/-- The character opens a quoted part for the reader of the key. -/
def opensQuote (s : KeyScan) (c : Char) : Bool := s.isBare && isQuote c && s.part.all isBlank

theorem run_concat (s : KeyScan) (t : List Char) (c : Char) :
    s.run (t ++ [c]) = (s.run t).step c := by
  rw [run, List.foldl_append]
  rfl

theorem sign?_cons (s : KeyScan) (c : Char) (t : List Char) :
    s.sign? (c :: t) =
      if c = '=' ∧ s.isBare = true then some 0 else ((s.step c).sign? t).map (· + 1) := by
  rw [sign?, List.length_cons, List.range_succ_eq_map, List.find?_cons, List.find?_map]
  by_cases h : c = '=' ∧ s.isBare = true
  · simp [h, run]
  · have hfirst : ((c :: t)[0]? == some '=' && (s.run ((c :: t).take 0)).isBare) = false := by
      simpa [run] using h
    rw [hfirst, if_neg h]
    rfl

theorem sign?_append (s : KeyScan) (front t : List Char) :
    s.sign? (front ++ t) =
      (s.sign? front).or (((s.run front).sign? t).map (· + front.length)) := by
  induction front generalizing s with
  | nil => simp [sign?, run]
  | cons c front ih =>
    rw [List.cons_append, sign?_cons, sign?_cons, ih]
    split
    · rfl
    · rw [Option.map_or, Option.map_map]
      rfl

theorem sign?_eq_none_of_append {s : KeyScan} {front t : List Char}
    (h : s.sign? (front ++ t) = none) : s.sign? front = none := by
  rw [sign?_append, Option.or_eq_none_iff] at h
  exact h.1

end KeyScan

namespace SeparatorScan

def run (s : SeparatorScan) (t : List Char) : SeparatorScan := t.foldl step s

theorem run_concat (s : SeparatorScan) (t : List Char) (c : Char) :
    s.run (t ++ [c]) = (s.run t).step c := by
  rw [run, List.foldl_append]
  rfl

theorem find?_append (s : SeparatorScan) (front t : List Char) :
    s.find? (front ++ t) =
      (s.find? front).or (((s.run front).find? t).map (· + front.length)) := by
  induction front generalizing s with
  | nil => simp [find?, run]
  | cons c front ih =>
    rw [List.cons_append, find?, find?, ih]
    split
    · rfl
    · rw [Option.map_or, Option.map_map]
      rfl

end SeparatorScan

/-! ## Side by side -/

/-- Both hold the same of what comes next. -/
structure SameJudgement (search : SeparatorScan) (reader : KeyScan) : Prop where
  quote : search.quote = reader.quote
  escaped : search.escaped = reader.escaped

/-- A quote that opens a part for the reader, behind blanks of which one is guarded. -/
def Hidden (before : List Char) (quote : Char) : Prop :=
  (KeyScan.run {} before).opensQuote quote = true ∧ lastSolid? before = some '\\'

theorem Hidden.isQuote {before : List Char} {quote : Char} (h : Hidden before quote) :
    isQuote quote = true := by
  have hopens := h.1
  rw [KeyScan.opensQuote, Bool.and_eq_true, Bool.and_eq_true] at hopens
  exact hopens.1.2

/-- No quote of the text is hidden. -/
def NoneHidden (t : List Char) : Prop :=
  ∀ before quote after, t = before ++ quote :: after → ¬ Hidden before quote

theorem noneHidden_of_no_quote {t : List Char} (h : ∀ c ∈ t, isQuote c = false) :
    NoneHidden t := by
  rintro before quote after rfl hhidden
  have hquote := h quote (by simp)
  rw [hhidden.isQuote] at hquote
  cases hquote

/-- Up to here both judge alike, and a part is fresh for the search when the reader has nothing but
blanks of it, none of them guarded. -/
structure InStep (before : List Char) (search : SeparatorScan) (reader : KeyScan) : Prop
    extends SameJudgement search reader where
  opened : ∀ q, reader.quote = some q → isQuote q = true
  guard : reader.escaped = true → before.getLast? = some '\\'
  fresh : reader.isBare = true →
    (search.fresh = true ↔ reader.part.all isBlank = true ∧ lastSolid? before ≠ some '\\')

theorem inStep_nil : InStep [] {} {} where
  quote := rfl
  escaped := rfl
  opened := by simp
  guard := by simp
  fresh := by simp [lastSolid?, Text.trimEnd]

namespace InStep

variable {before part : List Char} {quote? : Option Char} {fresh : Bool} {c : Char}

theorem step_guarded (h : InStep before ⟨quote?, true, fresh⟩ ⟨part, quote?, true⟩) :
    InStep (before ++ [c]) (SeparatorScan.step ⟨quote?, true, fresh⟩ c)
      (KeyScan.step ⟨part, quote?, true⟩ c) where
  quote := rfl
  escaped := rfl
  opened := h.opened
  guard := by simp [KeyScan.step]
  fresh := by
    have hlast := Text.lastSolid?_of_getLast? (h.guard rfl) (by decide)
    intro _
    rw [Text.lastSolid?_concat, hlast]
    cases hc : isBlank c <;> simp [SeparatorScan.step, KeyScan.step, hc]

theorem step_slash (h : InStep before ⟨quote?, false, fresh⟩ ⟨part, quote?, false⟩) :
    InStep (before ++ ['\\']) (SeparatorScan.step ⟨quote?, false, fresh⟩ '\\')
      (KeyScan.step ⟨part, quote?, false⟩ '\\') where
  quote := rfl
  escaped := rfl
  opened := h.opened
  guard := by simp
  fresh := by simp [KeyScan.step, KeyScan.isBare]

theorem step_quoted {q : Char} (h : InStep before ⟨some q, false, fresh⟩ ⟨part, some q, false⟩)
    (hslash : c ≠ '\\') :
    InStep (before ++ [c]) (SeparatorScan.step ⟨some q, false, fresh⟩ c)
      (KeyScan.step ⟨part, some q, false⟩ c) := by
  have hq := h.opened q rfl
  have hsolid : isBlank q = false := Text.isBlank_of_isQuote hq
  have hdot : q ≠ '.' := by
    rintro rfl
    exact absurd hq (by decide)
  have hreader : KeyScan.step ⟨part, some q, false⟩ c =
      ⟨c :: part, if c = q then none else some q, false⟩ := by
    simp [KeyScan.step, KeyScan.ends, KeyScan.quoteAfter, hslash]
  by_cases hc : c = q
  · subst hc
    have hsearch : SeparatorScan.step ⟨some c, false, fresh⟩ c = ⟨none, false, false⟩ := by
      simp [SeparatorScan.step, SeparatorScan.quoteAfter, hslash, hdot, hsolid]
    rw [hsearch, hreader, if_pos rfl]
    exact ⟨⟨rfl, rfl⟩, by simp, by simp, by simp [hsolid]⟩
  · have hsearch : SeparatorScan.step ⟨some q, false, fresh⟩ c = ⟨some q, false, fresh⟩ := by
      simp [SeparatorScan.step, SeparatorScan.quoteAfter, hslash, hc]
    rw [hsearch, hreader, if_neg hc]
    exact ⟨⟨rfl, rfl⟩, h.opened, by simp, by simp [KeyScan.isBare]⟩

theorem step_dot :
    InStep (before ++ ['.']) (SeparatorScan.step ⟨none, false, fresh⟩ '.')
      (KeyScan.step ⟨part, none, false⟩ '.') := by
  have hlast : lastSolid? (before ++ ['.']) = some '.' := by
    rw [Text.lastSolid?_concat]
    rfl
  have hsearch : SeparatorScan.step ⟨none, false, fresh⟩ '.' = {} := by
    cases fresh <;> decide
  have hreader : KeyScan.step ⟨part, none, false⟩ '.' = {} := by
    simp [KeyScan.step, KeyScan.ends]
  rw [hsearch, hreader]
  exact ⟨⟨rfl, rfl⟩, by simp, by simp, by simp [hlast]⟩

theorem step_bare (h : InStep before ⟨none, false, fresh⟩ ⟨part, none, false⟩)
    (hslash : c ≠ '\\') (hdot : c ≠ '.')
    (hshown : isQuote c = true → part.all isBlank = true → lastSolid? before ≠ some '\\') :
    InStep (before ++ [c]) (SeparatorScan.step ⟨none, false, fresh⟩ c)
      (KeyScan.step ⟨part, none, false⟩ c) := by
  have hfresh := h.fresh rfl
  -- The two open a quote alike, as the sign in front does not hide it here.
  have hopens : (isQuote c && fresh) = (isQuote c && part.all isBlank) := by
    rw [Bool.eq_iff_iff, Bool.and_eq_true, Bool.and_eq_true]
    exact and_congr_right fun hc => hfresh.trans (and_iff_left_of_imp (hshown hc))
  have hsearch : SeparatorScan.step ⟨none, false, fresh⟩ c =
      if isQuote c && fresh then ⟨some c, false, fresh⟩ else ⟨none, false, fresh && isBlank c⟩ := by
    cases hquote : isQuote c <;> cases fresh <;>
      simp [SeparatorScan.step, SeparatorScan.quoteAfter, hslash, hdot, hquote]
  have hreader : KeyScan.step ⟨part, none, false⟩ c =
      if isQuote c && fresh then ⟨c :: part, some c, false⟩ else ⟨c :: part, none, false⟩ := by
    rw [hopens]
    cases hquote : isQuote c <;> cases hblank : part.all isBlank <;>
      simp [KeyScan.step, KeyScan.ends, KeyScan.quoteAfter, hslash, hdot, hquote, hblank]
  rw [hsearch, hreader]
  split
  · rename_i hc
    rw [Bool.and_eq_true] at hc
    exact ⟨⟨rfl, rfl⟩, by simp [hc.1], by simp, by simp [KeyScan.isBare]⟩
  · refine ⟨⟨rfl, rfl⟩, by simp, by simp, fun _ => ?_⟩
    rw [Text.lastSolid?_concat]
    cases hblank : isBlank c with
    | true => simpa [hblank] using hfresh
    | false => simp [hblank]

variable {search : SeparatorScan} {reader : KeyScan}

theorem step (h : InStep before search reader)
    (hshown : reader.opensQuote c = true → lastSolid? before ≠ some '\\') :
    InStep (before ++ [c]) (search.step c) (reader.step c) := by
  obtain ⟨part, quote?, escaped⟩ := reader
  obtain ⟨_, _, fresh⟩ := search
  obtain rfl : quote? = _ := h.quote.symm
  obtain rfl : escaped = _ := h.escaped.symm
  cases escaped with
  | true => exact h.step_guarded
  | false =>
    by_cases hslash : c = '\\'
    · subst hslash
      exact h.step_slash
    · cases quote? with
      | some q => exact h.step_quoted hslash
      | none =>
        by_cases hdot : c = '.'
        · subst hdot
          exact step_dot
        · apply h.step_bare hslash hdot
          intro hquote hblank
          exact hshown (by simp only [KeyScan.opensQuote, hquote, hblank]; rfl)

theorem finds_iff (h : InStep before search reader) :
    search.finds c = true ↔ c = '=' ∧ reader.isBare = true := by
  rw [SeparatorScan.finds, KeyScan.isBare, h.quote, h.escaped, Bool.and_eq_true, beq_iff_eq,
    Bool.and_comm, and_comm]

theorem parts (h : InStep before search reader) (hopens : reader.opensQuote c = true)
    (hlast : lastSolid? before = some '\\') :
    search.step c = ⟨none, false, false⟩ ∧ reader.step c = ⟨c :: reader.part, some c, false⟩ := by
  obtain ⟨part, quote?, escaped⟩ := reader
  obtain ⟨_, _, fresh⟩ := search
  obtain rfl : quote? = _ := h.quote.symm
  obtain rfl : escaped = _ := h.escaped.symm
  rw [KeyScan.opensQuote, Bool.and_eq_true, Bool.and_eq_true] at hopens
  obtain ⟨⟨hbare, hquote⟩, hblank : part.all isBlank = true⟩ := hopens
  have hfresh := h.fresh hbare
  obtain ⟨rfl, rfl⟩ : quote? = none ∧ escaped = false := by simpa [KeyScan.isBare] using hbare
  obtain rfl : fresh = false := by simpa [hlast] using hfresh
  have hsolid := Text.isBlank_of_isQuote hquote
  have hslash : c ≠ '\\' := by
    rintro rfl
    exact absurd hquote (by decide)
  have hdot : c ≠ '.' := by
    rintro rfl
    exact absurd hquote (by decide)
  constructor
  · simp [SeparatorScan.step, SeparatorScan.quoteAfter, hslash, hdot]
  · simp [KeyScan.step, KeyScan.ends, KeyScan.quoteAfter, hslash, hdot, hquote, hblank]

end InStep

/-! ## Up to a hidden quote -/

theorem inStep_run {t : List Char} (h : NoneHidden t) :
    InStep t (SeparatorScan.run {} t) (KeyScan.run {} t) := by
  induction t using List.reverseRecOn with
  | nil => exact inStep_nil
  | append_singleton t c ih =>
    rw [SeparatorScan.run_concat, KeyScan.run_concat]
    apply (ih _).step
    · exact fun hopens hlast => h t c [] rfl ⟨hopens, hlast⟩
    · rintro before quote after rfl
      exact h before quote (after ++ [c]) (by simp)

theorem not_hidden_of_same {before : List Char} {quote : Char}
    (h : InStep before (SeparatorScan.run {} before) (KeyScan.run {} before))
    (hnext : SameJudgement (SeparatorScan.run {} (before ++ [quote]))
      (KeyScan.run {} (before ++ [quote]))) : ¬ Hidden before quote := by
  rintro ⟨hopens, hlast⟩
  obtain ⟨hsearch, hreader⟩ := h.parts hopens hlast
  rw [SeparatorScan.run_concat, KeyScan.run_concat, hsearch, hreader] at hnext
  cases hnext.quote

theorem inStep_of_same {t : List Char}
    (h : ∀ before after, t = before ++ after →
      SameJudgement (SeparatorScan.run {} before) (KeyScan.run {} before)) :
    InStep t (SeparatorScan.run {} t) (KeyScan.run {} t) := by
  induction t using List.reverseRecOn with
  | nil => exact inStep_nil
  | append_singleton t c ih =>
    have hinStep := ih fun before after ht => h before (after ++ [c]) (by simp [ht])
    have hshown := not_hidden_of_same hinStep (h (t ++ [c]) [] (by simp))
    rw [SeparatorScan.run_concat, KeyScan.run_concat]
    exact hinStep.step fun hopens hlast => hshown ⟨hopens, hlast⟩

/-- The two judge alike all along a line exactly when it has no hidden quote. -/
theorem same_iff_noneHidden (line : List Char) :
    (∀ before after, line = before ++ after →
      SameJudgement (SeparatorScan.run {} before) (KeyScan.run {} before)) ↔ NoneHidden line := by
  constructor
  · rintro h before quote after rfl
    apply not_hidden_of_same (inStep_of_same fun front rest hfront => ?_)
    · exact h (before ++ [quote]) after (by simp)
    · exact h front (rest ++ quote :: after) (by simp [hfront])
  · rintro h before after rfl
    exact (inStep_run fun front quote rest hfront =>
      h front quote (rest ++ after) (by simp [hfront])).toSameJudgement

/-! ## The sign -/

/-- Both find the same sign if each hidden quote stands behind it. -/
theorem find?_eq_sign? {before : List Char} {search : SeparatorScan}
    (h : InStep before search (KeyScan.run {} before)) {t : List Char}
    (hbehind : ∀ front quote after, t = front ++ quote :: after → Hidden (before ++ front) quote →
      (KeyScan.run {} before).sign? front ≠ none) :
    search.find? t = (KeyScan.run {} before).sign? t := by
  induction t generalizing before search with
  | nil => rfl
  | cons c t ih =>
    rw [SeparatorScan.find?, KeyScan.sign?_cons]
    simp only [h.finds_iff]
    split
    · rfl
    · rename_i hsign
      have hshown : (KeyScan.run {} before).opensQuote c = true →
          lastSolid? before ≠ some '\\' := by
        intro hopens hlast
        -- A hidden quote here would stand in front of the sign.
        apply hbehind [] c t rfl
        · rw [List.append_nil]
          exact ⟨hopens, hlast⟩
        · rfl
      have hnext := h.step hshown
      rw [← KeyScan.run_concat] at hnext ⊢
      rw [ih hnext]
      intro front quote after ht hhidden
      have hfront := hbehind (c :: front) quote after (by rw [ht]; rfl) (by simpa using hhidden)
      rw [KeyScan.sign?_cons, if_neg hsign, ← KeyScan.run_concat] at hfront
      exact fun hnone => hfront (by rw [hnone]; rfl)

/-- Where the two part: the first hidden quote of a line, with no sign before it. -/
structure PartsAt (line before : List Char) (quote : Char) (after : List Char) : Prop where
  eq_append : line = before ++ quote :: after
  hidden : Hidden before quote
  first : NoneHidden before
  no_sign : KeyScan.sign? {} before = none

theorem exists_partsAt {before after : List Char} {quote : Char} (hhidden : Hidden before quote)
    (hsign : KeyScan.sign? {} before = none) :
    ∃ front other rest, PartsAt (before ++ quote :: after) front other rest := by
  by_cases hfirst : NoneHidden before
  · exact ⟨before, quote, after, rfl, hhidden, hfirst, hsign⟩
  · unfold NoneHidden at hfirst
    push Not at hfirst
    obtain ⟨front, other, rest, rfl, hother⟩ := hfirst
    have hearlier : ∃ front' other' rest',
        PartsAt (front ++ other :: (rest ++ quote :: after)) front' other' rest' :=
      exists_partsAt hother (KeyScan.sign?_eq_none_of_append hsign)
    rwa [List.append_assoc, List.cons_append]
termination_by before.length

namespace PartsAt

variable {line before after : List Char} {quote : Char}

theorem ne_sign (h : PartsAt line before quote after) : quote ≠ '=' := by
  rintro rfl
  exact absurd h.hidden.isQuote (by decide)

theorem find?_eq (h : PartsAt line before quote after) :
    SeparatorScan.find? {} line =
      (SeparatorScan.find? ⟨none, false, false⟩ after).map (· + (before.length + 1)) := by
  have hinStep := inStep_run h.first
  have hbefore : SeparatorScan.find? {} before = none := by
    rw [← h.no_sign]
    exact find?_eq_sign? inStep_nil fun front other rest hfront hother =>
      absurd hother (h.first front other rest hfront)
  have hfinds : (SeparatorScan.run {} before).finds quote = false := by
    rw [← Bool.not_eq_true, hinStep.finds_iff]
    exact fun hsign => h.ne_sign hsign.1
  rw [h.eq_append, SeparatorScan.find?_append, hbefore, Option.none_or,
    find?_cons_of_not_finds hfinds, (hinStep.parts h.hidden.1 h.hidden.2).1, Option.map_map]
  exact congrArg (Option.map · _) (funext fun n => by simp; omega)

theorem sign?_eq (h : PartsAt line before quote after) :
    KeyScan.sign? {} line =
      (KeyScan.sign? ⟨quote :: (KeyScan.run {} before).part, some quote, false⟩ after).map
        (· + (before.length + 1)) := by
  have hsign : ¬ (quote = '=' ∧ (KeyScan.run {} before).isBare = true) :=
    fun hsign => h.ne_sign hsign.1
  rw [h.eq_append, KeyScan.sign?_append, h.no_sign, Option.none_or, KeyScan.sign?_cons,
    if_neg hsign, ((inStep_run h.first).parts h.hidden.1 h.hidden.2).2, Option.map_map]
  exact congrArg (Option.map · _) (funext fun n => by simp; omega)

end PartsAt

/-- The search and the reader of a line judge alike what is quoted and guarded exactly when no quote
of the line is hidden. What the search finds is the first sign for the reader, unless they part
before it. Where they do, the reader goes on in quotes and the search as if the quote stood for
itself, so it finds the reader's sign only if it comes to the same sign without the quotes. -/
theorem key_ends_at_sign (line : List Char) :
    ((∀ before after, line = before ++ after →
      SameJudgement (SeparatorScan.run {} before) (KeyScan.run {} before)) ↔ NoneHidden line) ∧
    (SeparatorScan.find? {} line = KeyScan.sign? {} line ↔
      ∀ before quote after, PartsAt line before quote after →
        SeparatorScan.find? ⟨none, false, false⟩ after =
          KeyScan.sign? ⟨quote :: (KeyScan.run {} before).part, some quote, false⟩ after) ∧
    ∀ before quote after, PartsAt line before quote after →
      SeparatorScan.find? {} line =
        (SeparatorScan.find? ⟨none, false, false⟩ after).map (· + (before.length + 1)) := by
  refine ⟨same_iff_noneHidden line, ⟨?_, ?_⟩, fun before quote after h => h.find?_eq⟩
  · intro hsame before quote after h
    rw [h.find?_eq, h.sign?_eq] at hsame
    exact Option.map_injective (add_left_injective _) hsame
  · intro h
    by_cases hparts : ∃ before quote after, PartsAt line before quote after
    · obtain ⟨before, quote, after, hparts⟩ := hparts
      rw [hparts.find?_eq, hparts.sign?_eq, h before quote after hparts]
    · apply find?_eq_sign? inStep_nil
      rintro before quote after rfl hhidden hnone
      exact hparts (exists_partsAt hhidden hnone)

theorem key_ends_before_hidden_sign :
    let before := ['\\', ' ']
    let after := ['a', '.', 'b', '=', 'c', '"', '=', 'v']
    PartsAt (before ++ '"' :: after) before '"' after ∧
      SeparatorScan.find? {} (before ++ '"' :: after) = some 6 ∧
      KeyScan.sign? {} (before ++ '"' :: after) = some 9 := by
  intro before after
  have hparts : PartsAt (before ++ '"' :: after) before '"' after :=
    ⟨rfl, ⟨by decide, by decide⟩, noneHidden_of_no_quote (by simp [before, isQuote]), by decide⟩
  refine ⟨hparts, ?_, by decide⟩
  rw [(key_ends_at_sign (before ++ '"' :: after)).2.2 before '"' after hparts]
  decide

/-- The quote behind a guarded blank opens a part for the reader, and the search cuts it at the
equals sign in it. -/
theorem key_cut_in_quotes :
    ¬ ∀ line : List Char, SeparatorScan.find? {} line = KeyScan.sign? {} line := by
  intro h
  have hline := h ['\\', ' ', '"', 'a', '.', 'b', '=', 'c', '"', '=', 'v']
  revert hline
  decide

end Flat

end ConfigAtlas
