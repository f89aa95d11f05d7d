import Mathlib
import ConfigAtlas.Path.Reader
import ConfigAtlas.Proofs.Path.Address
import ConfigAtlas.Proofs.Text.Trimmed

/-!
# The grammar of a path

A path is a name or a bracket, and then any number of brackets and of names behind dots. A bracket
holds the digits of an index, or a key in quotes. `Path.read` accepts just the texts of this form,
and each of them is put together in one way only.
-/

namespace ConfigAtlas.Path

open Segment (StartsStep)

/-! ## Tokens -/

/-- A character of a key: as it is, or behind a backslash. -/
inductive Sign where
  | plain (c : Char)
  | guarded (c : Char)
deriving DecidableEq

namespace Sign

def char : Sign → Char
  | plain c => c
  | guarded c => c

def written : Sign → List Char
  | plain c => [c]
  | guarded c => ['\\', c]

/-- A quote would end the key, and a backslash would guard what follows. -/
def Legal : Sign → Prop
  | plain c => c ≠ '"' ∧ c ≠ '\\'
  | guarded _ => True

end Sign

inductive Token where
  | name (t : List Char)
  | dotted (t : List Char)
  | index (digits : List Char)
  | key (signs : List Sign)
deriving DecidableEq

namespace Token

def written : Token → List Char
  | name t => t
  | dotted t => '.' :: t
  | index digits => '[' :: (digits ++ [']'])
  | key signs => '[' :: '"' :: (signs.flatMap Sign.written ++ ['"', ']'])

/-- The step that a token stands for. -/
def segment : Token → Segment
  | name t => .field (String.ofList t)
  | dotted t => .field (String.ofList t)
  | index digits => .index (Nat.ofDigitChars 10 digits 0)
  | key signs => .key (String.ofList (signs.map Sign.char))

/-- A name has a character, and none that starts a step. -/
def IsName (t : List Char) : Prop := t ≠ [] ∧ ∀ c ∈ t, c ≠ '.' ∧ c ≠ '['

/-- Decimal digits of a number that fits in 64 bits. -/
def IsIndex (digits : List Char) : Prop :=
  digits ≠ [] ∧ (∀ d ∈ digits, d.isDigit = true) ∧ Nat.ofDigitChars 10 digits 0 < UInt64.size

/-- The first token may be a name, and later ones a name behind a dot. Any may be a bracket. -/
def Fits (first : Bool) : Token → Prop
  | name t => first = true ∧ IsName t
  | dotted t => first = false ∧ IsName t
  | index digits => IsIndex digits
  | key signs => ∀ s ∈ signs, s.Legal

end Token

def FitAll : (first : Bool) → List Token → Prop
  | _, [] => True
  | first, token :: rest => token.Fits first ∧ FitAll false rest

/-- The text is written as these tokens, each where it may stand. -/
structure Derives (tokens : List Token) (text : List Char) : Prop where
  ne_nil : tokens ≠ []
  fit : FitAll true tokens
  written : tokens.flatMap Token.written = text

theorem written_ne_nil {first : Bool} {tokens : List Token} (hne : tokens ≠ [])
    (h : FitAll first tokens) : tokens.flatMap Token.written ≠ [] := by
  obtain ⟨token, rest, rfl⟩ := List.exists_cons_of_ne_nil hne
  rw [List.flatMap_cons]
  cases token with
  | name t => exact List.append_ne_nil_of_left_ne_nil h.1.2.1 _
  | dotted t => exact List.cons_ne_nil _ _
  | index digits => exact List.cons_ne_nil _ _
  | key signs => exact List.cons_ne_nil _ _

theorem startsStep_written {tokens : List Token} (h : FitAll false tokens) :
    StartsStep (tokens.flatMap Token.written) := by
  intro c hc
  cases tokens with
  | nil => cases hc
  | cons token rest =>
    cases token with
    | name t => exact absurd h.1.1 Bool.false_ne_true
    | dotted t =>
      cases hc
      exact .inl rfl
    | index digits =>
      cases hc
      exact .inr rfl
    | key signs =>
      cases hc
      exact .inr rfl

/-! ## Names -/

theorem isNameChar_iff (c : Char) : isNameChar c = true ↔ c ≠ '.' ∧ c ≠ '[' := by
  simp [isNameChar]

theorem takeWhile_isNameChar {rest : List Char} (h : StartsStep rest) :
    rest.takeWhile isNameChar = [] ∧ rest.dropWhile isNameChar = rest := by
  cases rest with
  | nil => exact ⟨rfl, rfl⟩
  | cons c rest =>
    have hc : ¬ isNameChar c = true := by
      rw [isNameChar_iff]
      rcases h c rfl with rfl | rfl <;> simp
    exact ⟨List.takeWhile_cons_of_neg hc, List.dropWhile_cons_of_neg hc⟩

theorem takeWhile_name {t rest : List Char} (h : Token.IsName t) (hrest : StartsStep rest) :
    (t ++ rest).takeWhile isNameChar = t ∧ (t ++ rest).dropWhile isNameChar = rest := by
  have hchars : ∀ c ∈ t, isNameChar c = true := fun c hc => (isNameChar_iff c).mpr (h.2 c hc)
  obtain ⟨htake, hdrop⟩ := takeWhile_isNameChar hrest
  rw [List.takeWhile_append_of_pos hchars, List.dropWhile_append_of_pos hchars, htake, hdrop,
    List.append_nil]
  exact ⟨rfl, rfl⟩

theorem readName_append {t rest : List Char} (h : Token.IsName t) (hrest : StartsStep rest)
    (start : Nat) : readName start (t ++ rest) = .ok (.field (String.ofList t), rest) := by
  obtain ⟨htake, hdrop⟩ := takeWhile_name h hrest
  rw [readName, htake, hdrop]
  cases t with
  | nil => exact absurd rfl h.1
  | cons c t => rfl

theorem exists_name_of_readName {start : Nat} {t after : List Char} {s : Segment}
    (h : readName start t = .ok (s, after)) :
    ∃ name, Token.IsName name ∧ t = name ++ after ∧ s = .field (String.ofList name) := by
  have hchars : ∀ c ∈ t.takeWhile isNameChar, c ≠ '.' ∧ c ≠ '[' :=
    fun c hc => (isNameChar_iff c).mp (List.all_eq_true.mp List.all_takeWhile c hc)
  unfold readName at h
  split at h
  · cases h
  · rename_i name hname
    cases h
    exact ⟨_, ⟨hname, hchars⟩, List.takeWhile_append_dropWhile.symm, rfl⟩

/-! ## Brackets -/

theorem readKey_written {signs : List Sign} (h : ∀ s ∈ signs, s.Legal) (rest : List Char) :
    readKey (signs.flatMap Sign.written ++ '"' :: rest) = some (signs.map Sign.char, rest) := by
  induction signs with
  | nil => simp [readKey]
  | cons s signs ih =>
    have hrest := ih fun q hq => h q (List.mem_cons_of_mem s hq)
    cases s with
    | plain c =>
      obtain ⟨hquote, hslash⟩ := h (.plain c) List.mem_cons_self
      simp [Sign.written, Sign.char, readKey, hrest, hquote, hslash]
    | guarded c => simp [Sign.written, Sign.char, readKey, hrest]

theorem exists_signs_of_readKey {t raw after : List Char} (h : readKey t = some (raw, after)) :
    ∃ signs : List Sign, (∀ s ∈ signs, s.Legal) ∧ raw = signs.map Sign.char ∧
      t = signs.flatMap Sign.written ++ '"' :: after := by
  fun_induction readKey t generalizing raw with
  | case1 => cases h
  | case2 => cases h
  | case3 c rest ih =>
    obtain ⟨⟨raw', after'⟩, hread, heq⟩ := Option.map_eq_some_iff.mp h
    cases heq
    obtain ⟨signs, hlegal, rfl, rfl⟩ := ih hread
    exact ⟨.guarded c :: signs, List.forall_mem_cons.mpr ⟨trivial, hlegal⟩, rfl, rfl⟩
  | case4 rest =>
    cases h
    exact ⟨[], by simp, rfl, rfl⟩
  | case5 c rest hend hguard hquote ih =>
    -- A backslash would guard what follows it, or stand at the end.
    have hslash : c ≠ '\\' := by
      rintro rfl
      cases rest with
      | nil => exact hend rfl rfl
      | cons d rest => exact hguard d rest rfl rfl
    obtain ⟨⟨raw', after'⟩, hread, heq⟩ := Option.map_eq_some_iff.mp h
    cases heq
    obtain ⟨signs, hlegal, rfl, rfl⟩ := ih hread
    exact ⟨.plain c :: signs, List.forall_mem_cons.mpr ⟨⟨hquote, hslash⟩, hlegal⟩, rfl, rfl⟩

theorem readIndex?_eq_some_iff {digits : List Char} {n : Nat} :
    readIndex? digits = some n ↔ Token.IsIndex digits ∧ n = Nat.ofDigitChars 10 digits 0 := by
  unfold readIndex? Token.IsIndex
  rw [← List.all_eq_true]
  by_cases hdigits : digits ≠ [] ∧ digits.all Char.isDigit = true
  · have htest : (!digits.isEmpty && digits.all Char.isDigit) = true := by
      rw [Bool.and_eq_true, Bool.not_eq_true', List.isEmpty_eq_false_iff]
      exact hdigits
    simp only [if_pos htest, Option.ite_none_right_eq_some, Option.some.injEq]
    constructor
    · rintro ⟨hlt, rfl⟩
      exact ⟨⟨hdigits.1, hdigits.2, hlt⟩, rfl⟩
    · rintro ⟨⟨-, -, hlt⟩, rfl⟩
      exact ⟨hlt, rfl⟩
  · have htest : ¬ (!digits.isEmpty && digits.all Char.isDigit) = true := by
      rw [Bool.and_eq_true, Bool.not_eq_true', List.isEmpty_eq_false_iff]
      exact hdigits
    rw [if_neg htest]
    constructor
    · rintro ⟨⟩
    · rintro ⟨⟨hne, hall, -⟩, -⟩
      exact absurd ⟨hne, hall⟩ hdigits

theorem readBracket_index {digits : List Char} (h : Token.IsIndex digits) (start : Nat)
    (rest : List Char) : readBracket start (digits ++ ']' :: rest) =
      .ok (.index (Nat.ofDigitChars 10 digits 0), rest) := by
  obtain ⟨htake, hdrop⟩ := Segment.takeWhile_digits h.2.1 rest
  have hread := readIndex?_eq_some_iff.mpr ⟨h, rfl⟩
  rw [readBracket, htake, hdrop]
  · simp only [hread]
  · -- A digit is no quote.
    intro t ht
    obtain ⟨d, ds, rfl⟩ := List.exists_cons_of_ne_nil h.1
    rw [List.cons_append, List.cons.injEq] at ht
    have hdigit := h.2.1 d List.mem_cons_self
    rw [ht.1] at hdigit
    exact absurd hdigit (by decide)

theorem readBracket_key {signs : List Sign} (h : ∀ s ∈ signs, s.Legal) (start : Nat)
    (rest : List Char) :
    readBracket start ('"' :: (signs.flatMap Sign.written ++ '"' :: ']' :: rest)) =
      .ok (.key (String.ofList (signs.map Sign.char)), rest) := by
  simp only [readBracket, readKey_written h]

theorem exists_token_of_readBracket {start : Nat} {t after : List Char} {s : Segment}
    (h : readBracket start t = .ok (s, after)) (first : Bool) :
    ∃ token : Token, token.Fits first ∧ '[' :: t = token.written ++ after ∧ s = token.segment := by
  unfold readBracket at h
  split at h
  · split at h
    · cases h
    · rename_i hread
      cases h
      obtain ⟨signs, hlegal, rfl, rfl⟩ := exists_signs_of_readKey hread
      exact ⟨.key signs, hlegal, by simp [Token.written], rfl⟩
    · cases h
    · cases h
  · split at h
    · cases h
    · rename_i c after' hdrop
      split at h
      · rename_i n hindex
        cases h
        obtain ⟨hdigits, rfl⟩ := readIndex?_eq_some_iff.mp hindex
        have hend : c = ']' := by simpa using Lists.not_of_dropWhile_eq_cons hdrop
        have hsplit := List.takeWhile_append_dropWhile (p := (· != ']')) (l := t)
        rw [hdrop, hend] at hsplit
        refine ⟨.index _, hdigits, ?_, rfl⟩
        calc '[' :: t = '[' :: (t.takeWhile (· != ']') ++ ']' :: after) := by rw [hsplit]
          _ = (Token.index (t.takeWhile (· != ']'))).written ++ after := by simp [Token.written]
      · cases h

/-! ## Steps -/

theorem readSegment_written {first : Bool} {token : Token} (h : token.Fits first)
    {rest : List Char} (hrest : StartsStep rest) (start : Nat) :
    readSegment first start (token.written ++ rest) = .ok (token.segment, rest) := by
  cases token with
  | name t =>
    obtain ⟨rfl, hname⟩ := h
    obtain ⟨c, t, rfl⟩ := List.exists_cons_of_ne_nil hname.1
    have hc := (hname.2 c List.mem_cons_self).2
    unfold readSegment
    split
    · rename_i after ht
      exact absurd (List.cons.inj ht).1 hc
    · exact readName_append hname hrest start
  | dotted t =>
    obtain ⟨rfl, hname⟩ := h
    exact readName_append hname hrest (start + 1)
  | index digits =>
    rw [Token.written, List.cons_append, List.append_assoc]
    exact readBracket_index h start rest
  | key signs =>
    rw [Token.written, List.cons_append, List.cons_append, List.append_assoc]
    exact readBracket_key h start rest

theorem exists_token_of_readSegment {first : Bool} {start : Nat} {t after : List Char}
    {s : Segment} (h : readSegment first start t = .ok (s, after)) :
    ∃ token : Token, token.Fits first ∧ t = token.written ++ after ∧ s = token.segment := by
  unfold readSegment at h
  split at h
  · exact exists_token_of_readBracket h first
  · cases first with
    | true =>
      obtain ⟨name, hname, rfl, rfl⟩ := exists_name_of_readName h
      exact ⟨.name name, ⟨rfl, hname⟩, rfl, rfl⟩
    | false =>
      simp only [Bool.false_eq_true, if_false] at h
      split at h
      · obtain ⟨name, hname, rfl, rfl⟩ := exists_name_of_readName h
        exact ⟨.dotted name, ⟨rfl, hname⟩, rfl, rfl⟩
      · cases h

theorem readSegments_of_readSegment {first : Bool} {start : Nat} {t after : List Char}
    {s : Segment} {rest : List Segment} (h : readSegment first start t = .ok (s, after))
    (hrest : readSegments false (start + (t.length - after.length)) after = .ok rest) :
    readSegments first start t = .ok (s :: rest) := by
  have hne : t.isEmpty = false := by
    cases t with
    | nil => exact absurd (length_readSegment_lt h) (Nat.not_lt_zero _)
    | cons c t => rfl
  rw [readSegments, hne]
  simp only [Bool.false_eq_true, if_false]
  split
  · rename_i hread
    rw [h] at hread
    cases hread
  · rename_i hread
    rw [h] at hread
    cases hread
    rw [hrest]

theorem readSegments_written {first : Bool} {tokens : List Token} (h : FitAll first tokens)
    (start : Nat) : readSegments first start (tokens.flatMap Token.written) =
      .ok (tokens.map Token.segment) := by
  induction tokens generalizing first start with
  | nil => simp [readSegments]
  | cons token rest ih =>
    have hfirst := readSegment_written h.1 (startsStep_written h.2) start
    exact readSegments_of_readSegment hfirst (ih h.2 _)

theorem exists_tokens_of_readSegments {first : Bool} {start : Nat} {t : List Char}
    {steps : List Segment} (h : readSegments first start t = .ok steps) :
    ∃ tokens, FitAll first tokens ∧ tokens.flatMap Token.written = t ∧
      steps = tokens.map Token.segment := by
  fun_induction readSegments first start t generalizing steps with
  | case1 first start t hempty =>
    cases h
    exact ⟨[], trivial, (List.isEmpty_iff.mp hempty).symm, rfl⟩
  | case2 => cases h
  | case3 => cases h
  | case4 first start t hne s after hread hlt rest hrest ih =>
    cases h
    obtain ⟨token, hfits, rfl, rfl⟩ := exists_token_of_readSegment hread
    obtain ⟨tokens, hall, rfl, rfl⟩ := ih hrest
    exact ⟨token :: tokens, ⟨hfits, hall⟩, rfl, rfl⟩

theorem read_eq_ok_iff {text : String} {p : Path} :
    read text = .ok p ↔
      ∃ tokens, Derives tokens text.toList ∧ p = ofSegments (tokens.map Token.segment) := by
  constructor
  · intro h
    unfold read at h
    split at h
    · cases h
    · rename_i hne
      split at h
      · cases h
      · rename_i steps hread
        cases h
        obtain ⟨tokens, hfit, hwritten, rfl⟩ := exists_tokens_of_readSegments hread
        refine ⟨tokens, ⟨?_, hfit, hwritten⟩, rfl⟩
        rintro rfl
        exact hne (String.isEmpty_iff.mpr (String.toList_eq_nil_iff.mp hwritten.symm))
  · rintro ⟨tokens, ⟨hne, hfit, hwritten⟩, rfl⟩
    have htext : ¬ text.isEmpty = true := by
      rw [String.isEmpty_iff, ← String.toList_eq_nil_iff, ← hwritten]
      exact written_ne_nil hne hfit
    have hread := readSegments_written hfit 0
    rw [hwritten] at hread
    rw [read, if_neg htext, hread]

/-! ## One way only -/

theorem signs_append_inj {signs signs' : List Sign} (h : ∀ s ∈ signs, s.Legal)
    (h' : ∀ s ∈ signs', s.Legal) {r r' : List Char}
    (heq : signs.flatMap Sign.written ++ '"' :: r = signs'.flatMap Sign.written ++ '"' :: r') :
    signs = signs' ∧ r = r' := by
  induction signs generalizing signs' with
  | nil =>
    cases signs' with
    | nil => exact ⟨rfl, (List.cons.inj heq).2⟩
    | cons s' signs' =>
      have hlegal := h' s' List.mem_cons_self
      cases s' with
      | plain c => exact absurd (List.cons.inj heq).1.symm hlegal.1
      | guarded c => exact absurd (List.cons.inj heq).1 (by decide)
  | cons s signs ih =>
    -- A sign that ends the key, or guards the next, is no plain sign of it.
    have hlegal := h s List.mem_cons_self
    cases signs' with
    | nil =>
      cases s with
      | plain c => exact absurd (List.cons.inj heq).1 hlegal.1
      | guarded c => exact absurd (List.cons.inj heq).1 (by decide)
    | cons s' signs' =>
      have hlegal' := h' s' List.mem_cons_self
      have hlater := fun q hq => h q (List.mem_cons_of_mem s hq)
      have hlater' := fun q hq => h' q (List.mem_cons_of_mem s' hq)
      cases s with
      | plain c =>
        cases s' with
        | plain c' =>
          obtain ⟨rfl, hrest⟩ := List.cons.inj heq
          obtain ⟨rfl, hr⟩ := ih hlater hlater' hrest
          exact ⟨rfl, hr⟩
        | guarded c' => exact absurd (List.cons.inj heq).1 hlegal.2
      | guarded c =>
        cases s' with
        | plain c' => exact absurd (List.cons.inj heq).1.symm hlegal'.2
        | guarded c' =>
          obtain ⟨rfl, hrest⟩ := List.cons.inj (List.cons.inj heq).2
          obtain ⟨rfl, hr⟩ := ih hlater hlater' hrest
          exact ⟨rfl, hr⟩

/-- Where a token ends is where its reading ends, and its segment tells which kind it is. -/
theorem written_append_inj {first : Bool} {token token' : Token} (h : token.Fits first)
    (h' : token'.Fits first) {r r' : List Char} (hr : StartsStep r) (hr' : StartsStep r')
    (heq : token.written ++ r = token'.written ++ r') : token = token' ∧ r = r' := by
  have hread := readSegment_written h hr 0
  rw [heq, readSegment_written h' hr' 0, Except.ok.injEq, Prod.mk.injEq] at hread
  obtain ⟨hsegment, rfl⟩ := hread
  refine ⟨?_, rfl⟩
  have hwritten : token.written = token'.written := List.append_cancel_right heq
  -- The segment read tells the kinds apart, save a name from a dotted one, which the place tells.
  cases token with
  | name t =>
    cases token' with
    | name t' => exact congrArg Token.name hwritten
    | dotted t' => exact absurd (h.1.symm.trans h'.1) (by decide)
    | index digits => cases hsegment
    | key signs => cases hsegment
  | dotted t =>
    cases token' with
    | name t' => exact absurd (h'.1.symm.trans h.1) (by decide)
    | dotted t' => exact congrArg Token.dotted (List.cons.inj hwritten).2
    | index digits => cases hsegment
    | key signs => cases hsegment
  | index digits =>
    cases token' with
    | name t => cases hsegment
    | dotted t => cases hsegment
    | index digits' =>
      exact congrArg Token.index (List.append_cancel_right (List.cons.inj hwritten).2)
    | key signs => cases hsegment
  | key signs =>
    cases token' with
    | name t => cases hsegment
    | dotted t => cases hsegment
    | index digits => cases hsegment
    | key signs' =>
      have hsigns := (List.cons.inj (List.cons.inj hwritten).2).2
      exact congrArg Token.key (signs_append_inj h h' hsigns).1

theorem fitAll_unique {first : Bool} {tokens tokens' : List Token} (h : FitAll first tokens)
    (h' : FitAll first tokens')
    (heq : tokens.flatMap Token.written = tokens'.flatMap Token.written) : tokens = tokens' := by
  induction tokens generalizing first tokens' with
  | nil =>
    cases tokens' with
    | nil => rfl
    | cons token' rest' => exact absurd heq.symm (written_ne_nil (by simp) h')
  | cons token rest ih =>
    cases tokens' with
    | nil => exact absurd heq (written_ne_nil (by simp) h)
    | cons token' rest' =>
      rw [List.flatMap_cons, List.flatMap_cons] at heq
      obtain ⟨rfl, hrest⟩ := written_append_inj h.1 h'.1 (startsStep_written h.2)
        (startsStep_written h'.2) heq
      rw [ih h.2 h'.2 hrest]

theorem derives_unique {tokens tokens' : List Token} {t : List Char} (h : Derives tokens t)
    (h' : Derives tokens' t) : tokens = tokens' :=
  fitAll_unique h.fit h'.fit (h.written.trans h'.written.symm)

/-! ## Faults -/

/-- A fault in the text, at one of its characters or at its end. -/
def Error.UpTo (stop : Nat) : Error → Prop
  | .empty => False
  | .invalid position _ => position ≤ stop

theorem upTo_readName {start : Nat} {t : List Char} {e : Error}
    (h : readName start t = .error e) : e.UpTo start := by
  unfold readName at h
  split at h
  · cases h
    exact Nat.le_refl start
  · cases h

theorem upTo_readBracket {start : Nat} {t : List Char} {e : Error}
    (h : readBracket start t = .error e) : e.UpTo (start + (t.length + 1)) := by
  unfold readBracket at h
  split at h
  · split at h
    · cases h
      exact Nat.le_add_right _ _
    · cases h
    · cases h
      exact Nat.le_add_right _ _
    · rename_i rest _ after hnil hbracket hread
      cases h
      have hlength := length_readKey_lt hread
      simp only [Error.UpTo, List.length_cons]
      omega
  · split at h
    · cases h
      exact Nat.le_add_right _ _
    · split at h
      · cases h
      · cases h
        exact Nat.add_le_add_left (Nat.le_add_left 1 _) start

theorem Error.UpTo.mono {e : Error} {m n : Nat} (h : e.UpTo m) (hmn : m ≤ n) : e.UpTo n := by
  cases e with
  | empty => exact h
  | invalid position fault => exact Nat.le_trans h hmn

theorem upTo_readSegment {first : Bool} {start : Nat} {t : List Char} {e : Error}
    (h : readSegment first start t = .error e) : e.UpTo (start + t.length) := by
  unfold readSegment at h
  split at h
  · exact upTo_readBracket h
  · split at h
    · exact (upTo_readName h).mono (Nat.le_add_right _ _)
    · split at h
      · apply (upTo_readName h).mono
        rw [List.length_cons]
        omega
      · cases h
        exact Nat.le_add_right _ _

theorem upTo_readSegments {first : Bool} {start : Nat} {t : List Char} {e : Error}
    (h : readSegments first start t = .error e) : e.UpTo (start + t.length) := by
  fun_induction readSegments first start t with
  | case1 => cases h
  | case2 first start t hne e' hread =>
    cases h
    exact upTo_readSegment hread
  | case3 first start t hne s after hread hlt e' hrest ih =>
    cases h
    apply (ih hrest).mono
    omega
  | case4 => cases h

theorem upTo_read {text : String} {e : Error} (h : read text = .error e) :
    e = .empty ∧ text = "" ∨ text ≠ "" ∧ e.UpTo text.length := by
  unfold read at h
  split at h
  · rename_i hempty
    cases h
    exact .inl ⟨rfl, String.isEmpty_iff.mp hempty⟩
  · rename_i hne
    split at h
    · rename_i hread
      cases h
      have hstop := upTo_readSegments hread
      rw [Nat.zero_add, String.length_toList] at hstop
      exact .inr ⟨fun hempty => hne (String.isEmpty_iff.mpr hempty), hstop⟩
    · cases h

/-! ## All texts -/

/-- A text reads as a path just when the grammar derives it, as the steps of its derivation, of
which there is never more than one. The empty text alone is refused as empty, and all other faults
are at a position of the text or at its end. -/
theorem read_iff_derives (text : String) :
    (∀ p, read text = .ok p ↔
      ∃ tokens, Derives tokens text.toList ∧ p = ofSegments (tokens.map Token.segment)) ∧
    (∀ tokens tokens', Derives tokens text.toList → Derives tokens' text.toList →
      tokens = tokens') ∧
    (read text = .error .empty ↔ text = "") ∧
    ∀ position fault, read text = .error (.invalid position fault) → position ≤ text.length := by
  refine ⟨fun p => read_eq_ok_iff, fun _ _ => derives_unique, ⟨?_, ?_⟩, ?_⟩
  · intro h
    rcases upTo_read h with ⟨-, hempty⟩ | ⟨-, habsurd⟩
    · exact hempty
    · exact absurd habsurd id
  · rintro rfl
    rfl
  · intro position fault h
    rcases upTo_read h with ⟨habsurd, -⟩ | ⟨-, hstop⟩
    · cases habsurd
    · exact hstop

/-- Digits may have zeros in front, and a backslash may stand before any character of a key. No
sign may stand before the digits. -/
theorem read_derived_and_refused :
    let text := "a[007][\"]\\\"\\b\"].é"
    let tokens : List Token := [.name ['a'], .index ['0', '0', '7'],
      .key [.plain ']', .guarded '"', .guarded 'b'], .dotted ['é']]
    let signed := "a[+7]"
    (Derives tokens text.toList ∧ (∀ tokens', Derives tokens' text.toList → tokens' = tokens) ∧
      read text =
        .ok (ofSegments [.field "a", .index 7, .key "]\"b", .field "é"])) ∧
    (read signed = .error (.invalid 2 .badIndex) ∧ 2 ≤ signed.length) := by
  intro text tokens signed
  have hindex : Token.IsIndex ['0', '0', '7'] := ⟨by decide, by simp, by decide⟩
  have hfit : FitAll true tokens := by
    simp [tokens, FitAll, Token.Fits, Token.IsName, Sign.Legal, hindex]
  have hderives : Derives tokens text.toList := ⟨by simp [tokens], hfit, by decide⟩
  have hsigned : read signed = .error (.invalid 2 .badIndex) := by cbv
  obtain ⟨hread, honly, -, -⟩ := read_iff_derives text
  obtain ⟨-, -, -, hposition⟩ := read_iff_derives signed
  exact ⟨⟨hderives, fun tokens' h => honly tokens' tokens h hderives,
    (hread _).mpr ⟨tokens, hderives, rfl⟩⟩, hsigned, hposition 2 .badIndex hsigned⟩

end ConfigAtlas.Path
