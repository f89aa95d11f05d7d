import ConfigAtlas.Proofs.Path.Grammar

/-!
# Reading the text of a path

`Path.read` gives back the steps that were written, for all paths but those with a name that
cannot be told from its surroundings. What it reads has no such name.
-/

namespace ConfigAtlas

namespace Segment

/-- A name is there, and nothing in it starts the next step. Keys are quoted and may be anything. -/
def Plain : Segment → Prop
  | .field name => name ≠ "" ∧ '.' ∉ name.toList ∧ '[' ∉ name.toList
  | _ => True

/-- An index fits in 64 bits. -/
def FitsWord : Segment → Prop
  | .index n => n < UInt64.size
  | _ => True

/-- The step is read back from its text. -/
def Readable (s : Segment) : Prop := s.Plain ∧ s.FitsWord

/-- The steps one after another. Only the first of all may go without its dot. -/
def charsOf : (first : Bool) → List Segment → List Char
  | _, [] => []
  | first, s :: rest => s.chars first ++ charsOf false rest

/-! ## The tokens that are written -/

/-- Only what would end the key is guarded. -/
def sign (c : Char) : Path.Sign := if quotedSpecial c then .guarded c else .plain c

def token (first : Bool) : Segment → Path.Token
  | .field name => if first then .name name.toList else .dotted name.toList
  | .index n => .index (Nat.toDigits 10 n)
  | .key raw => .key (raw.toList.map sign)

def tokensOf : (first : Bool) → List Segment → List Path.Token
  | _, [] => []
  | first, s :: rest => s.token first :: tokensOf false rest

theorem legal_sign (c : Char) : (sign c).Legal := by
  unfold sign
  split
  · trivial
  · rename_i hc
    simpa [quotedSpecial, Path.Sign.Legal] using hc

theorem char_sign (c : Char) : (sign c).char = c := by
  unfold sign
  split <;> rfl

theorem written_sign (c : Char) :
    (sign c).written = if quotedSpecial c then ['\\', c] else [c] := by
  unfold sign
  split <;> rfl

theorem written_signs (t : List Char) :
    (t.map sign).flatMap Path.Sign.written = Text.escape quotedSpecial t := by
  rw [List.flatMap_map, Text.escape]
  simp only [written_sign]

theorem written_token (first : Bool) (s : Segment) : (s.token first).written = s.chars first := by
  cases s with
  | field name => cases first <;> rfl
  | index n => rfl
  | key raw =>
    rw [token, Path.Token.written, written_signs]
    rfl

theorem segment_token (first : Bool) (s : Segment) : (s.token first).segment = s := by
  cases s with
  | field name => cases first <;> simp [token, Path.Token.segment]
  | index n => simp [token, Path.Token.segment]
  | key raw => simp [token, Path.Token.segment, Function.comp_def, char_sign]

theorem isName_of_plain {name : String} (h : (field name).Plain) :
    Path.Token.IsName name.toList := by
  refine ⟨fun hnil => h.1 (String.toList_eq_nil_iff.mp hnil), fun c hc => ⟨?_, ?_⟩⟩
  · rintro rfl
    exact h.2.1 hc
  · rintro rfl
    exact h.2.2 hc

theorem fits_token {s : Segment} (h : s.Readable) (first : Bool) : (s.token first).Fits first := by
  cases s with
  | field name =>
    cases first with
    | true => exact ⟨rfl, isName_of_plain h.1⟩
    | false => exact ⟨rfl, isName_of_plain h.1⟩
  | index n =>
    refine ⟨Nat.toDigits_ne_nil, isDigit_toDigits n, ?_⟩
    rw [Nat.ofDigitChars_ten_toDigits]
    exact h.2
  | key raw => exact List.forall_mem_map.mpr fun c _ => legal_sign c

theorem readable_segment {first : Bool} {token : Path.Token} (h : token.Fits first) :
    token.segment.Readable := by
  have named : ∀ t : List Char, Path.Token.IsName t → (field (String.ofList t)).Readable := by
    intro t ht
    refine ⟨⟨fun hempty => ht.1 (String.ofList_eq_empty_iff.mp hempty), ?_, ?_⟩, trivial⟩
    · intro hdot
      rw [String.toList_ofList] at hdot
      exact (ht.2 '.' hdot).1 rfl
    · intro hbracket
      rw [String.toList_ofList] at hbracket
      exact (ht.2 '[' hbracket).2 rfl
  cases token with
  | name t => exact named t h.2
  | dotted t => exact named t h.2
  | index digits => exact ⟨trivial, h.2.2⟩
  | key signs => exact ⟨trivial, trivial⟩

theorem written_tokensOf (first : Bool) (steps : List Segment) :
    (tokensOf first steps).flatMap Path.Token.written = charsOf first steps := by
  induction steps generalizing first with
  | nil => rfl
  | cons s rest ih => rw [tokensOf, List.flatMap_cons, written_token, ih, charsOf]

theorem segments_tokensOf (first : Bool) (steps : List Segment) :
    (tokensOf first steps).map Path.Token.segment = steps := by
  induction steps generalizing first with
  | nil => rfl
  | cons s rest ih => rw [tokensOf, List.map_cons, segment_token, ih]

theorem fitAll_tokensOf {steps : List Segment} (h : ∀ s ∈ steps, s.Readable) (first : Bool) :
    Path.FitAll first (tokensOf first steps) := by
  induction steps generalizing first with
  | nil => trivial
  | cons s rest ih =>
    have hrest := ih fun q hq => h q (List.mem_cons_of_mem s hq)
    exact ⟨fits_token (h s List.mem_cons_self) first, hrest false⟩

theorem readable_of_fitAll {first : Bool} {tokens : List Path.Token}
    (h : Path.FitAll first tokens) : ∀ s ∈ tokens.map Path.Token.segment, s.Readable := by
  induction tokens generalizing first with
  | nil => simp
  | cons token rest ih =>
    exact List.forall_mem_cons.mpr ⟨readable_segment h.1, ih h.2⟩

end Segment

namespace Path

open Segment (Plain FitsWord charsOf tokensOf)

/-! ## Written and read -/

theorem toList_text_foldl_push (steps : List Segment) (p : Path) :
    (steps.foldl push p).text.toList = p.text.toList ++ charsOf p.segments.isEmpty steps := by
  induction steps generalizing p with
  | nil => simp [charsOf]
  | cons s rest ih =>
    have hlater : (p.segments ++ [s]).isEmpty = false := by simp
    rw [List.foldl_cons, ih, segments_push, hlater, push, String.toList_append,
      String.toList_ofList, charsOf, List.append_assoc]

theorem toList_text_ofSegments (steps : List Segment) :
    (ofSegments steps).text.toList = charsOf true steps := toList_text_foldl_push steps root

theorem derives_text_ofSegments {steps : List Segment} (hne : steps ≠ [])
    (h : ∀ s ∈ steps, s.Readable) :
    Derives (tokensOf true steps) (ofSegments steps).text.toList := by
  refine ⟨?_, Segment.fitAll_tokensOf h true, ?_⟩
  · obtain ⟨s, rest, rfl⟩ := List.exists_cons_of_ne_nil hne
    exact List.cons_ne_nil _ _
  · rw [Segment.written_tokensOf, toList_text_ofSegments]

theorem read_text_ofSegments {steps : List Segment} (hne : steps ≠ [])
    (h : ∀ s ∈ steps, s.Readable) : read (ofSegments steps).text = .ok (ofSegments steps) := by
  rw [read_eq_ok_iff]
  exact ⟨_, derives_text_ofSegments hne h, by rw [Segment.segments_tokensOf]⟩

theorem read_eq_ok {text : String} {p : Path} (h : read text = .ok p) :
    ∃ steps, steps ≠ [] ∧ (∀ s ∈ steps, s.Readable) ∧ p = ofSegments steps := by
  obtain ⟨tokens, hderives, rfl⟩ := read_eq_ok_iff.mp h
  exact ⟨_, fun hnil => hderives.ne_nil (List.map_eq_nil_iff.mp hnil),
    Segment.readable_of_fitAll hderives.fit, rfl⟩

/-! ## Both ways -/

/-- The text of a path reads as that path exactly when its names are plain, and whatever reads as
a path has plain names and a text of its own that reads the same. -/
theorem read_text_iff_plain :
    (∀ steps : List Segment, steps ≠ [] → (∀ s ∈ steps, s.FitsWord) →
      (read (ofSegments steps).text = .ok (ofSegments steps) ↔ ∀ s ∈ steps, s.Plain)) ∧
    ∀ (text : String) (p : Path), read text = .ok p →
      p.segments ≠ [] ∧ (∀ s ∈ p.segments, s.Plain) ∧ read p.text = .ok p := by
  have hread : ∀ (text : String) (p : Path), read text = .ok p →
      p.segments ≠ [] ∧ (∀ s ∈ p.segments, s.Plain) ∧ read p.text = .ok p := by
    intro text p h
    obtain ⟨steps, hne, hreadable, rfl⟩ := read_eq_ok h
    rw [segments_ofSegments]
    exact ⟨hne, fun s hs => (hreadable s hs).1, read_text_ofSegments hne hreadable⟩
  refine ⟨?_, hread⟩
  intro steps hne hfits
  constructor
  · intro h
    have hplain := (hread _ _ h).2.1
    rwa [segments_ofSegments] at hplain
  · intro hplain
    exact read_text_ofSegments hne fun s hs => ⟨hplain s hs, hfits s hs⟩

/-- Anything may stand in a key, the last word is an index, and leading zeros are not kept. -/
theorem read_text_of_wide_index :
    let steps : List Segment := [.index 18446744073709551615, .key "].\"[", .field "b]"]
    let padded : List Segment := [.field "a", .index 7]
    (steps ≠ [] ∧ (∀ s ∈ steps, s.FitsWord) ∧ (∀ s ∈ steps, s.Plain) ∧
      read (ofSegments steps).text = .ok (ofSegments steps)) ∧
    (read "a[007]" = .ok (ofSegments padded) ∧ (∀ s ∈ padded, s.Plain) ∧
      read "a[7]" = .ok (ofSegments padded)) := by
  intro steps padded
  have hfits : ∀ s ∈ steps, s.FitsWord := by simp [steps, FitsWord, UInt64.size]
  have hplain : ∀ s ∈ steps, s.Plain := by simp [steps, Plain]
  have hread : read "a[007]" = .ok (ofSegments padded) := by cbv
  have htext : (ofSegments padded).text = "a[7]" := by cbv
  have hagain := (read_text_iff_plain.2 "a[007]" (ofSegments padded) hread).2
  rw [segments_ofSegments, htext] at hagain
  exact ⟨⟨by simp [steps], hfits, hplain,
    (read_text_iff_plain.1 steps (by simp [steps]) hfits).mpr hplain⟩, hread, hagain⟩

end Path

end ConfigAtlas
