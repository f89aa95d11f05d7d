import Mathlib.Data.List.Find
import ConfigAtlas.Proofs.Markup.TagParts
import ConfigAtlas.Proofs.Markup.TagReading
import ConfigAtlas.Proofs.Text.Returns

/-!
# Tags of a text with carriage returns

With a carriage return before each line feed, a text has the tags that it has without, each at the
place to which it has moved.
-/

namespace ConfigAtlas

namespace Text

/-! ## Quotes -/

theorem ne_of_isQuote {quote d : Char} (h : isQuote quote = true) (hd : isQuote d = false) :
    d ≠ quote := by
  rintro rfl
  rw [h] at hd
  cases hd

theorem untilClosed_withReturns {quote : Char} (h : isQuote quote = true) (escaped : Bool)
    (t : List Char) :
    untilClosed quote escaped (withReturns t) = (untilClosed quote escaped t).map (moved t) := by
  have hreturn : '\r' ≠ quote := ne_of_isQuote h (by decide)
  have hfeed : '\n' ≠ quote := ne_of_isQuote h (by decide)
  induction t generalizing escaped with
  | nil => cases escaped <;> rfl
  | cons c t ih =>
    by_cases hc : c = '\n'
    · subst hc
      cases escaped <;>
        simp [untilClosed, hreturn, hfeed, ih, Function.comp_def, moved_feed]
    · rw [withReturns_cons hc]
      cases escaped with
      | true => simp [untilClosed, ih, Function.comp_def, moved_cons hc]
      | false =>
        rw [untilClosed, untilClosed]
        split
        · simp [moved_cons hc _ 0]
        · simp [ih, Function.comp_def, moved_cons hc]

theorem quotedRun?_withReturns (t : List Char) :
    quotedRun? (withReturns t) = (quotedRun? t).map (moved t) := by
  cases t with
  | nil => rfl
  | cons c t =>
    by_cases hc : c = '\n'
    · subst hc
      rfl
    · rw [withReturns_cons hc, quotedRun?, quotedRun?]
      split
      · rename_i hquote
        simp [untilClosed_withReturns hquote, Function.comp_def, moved_cons hc]
      · rfl

end Text

namespace Markup

open Piece (PartOf)
open Text (moved)

variable {t : List Char} {p : Piece}

/-! ## Attributes -/

namespace Attribute

def withReturns (t : List Char) (a : Attribute) : Attribute :=
  ⟨a.name.withReturns t, a.value.withReturns t⟩

theorem valueAt_withReturns (t : List Char) (p : Piece) :
    valueAt (p.withReturns t) = (valueAt p).withReturns t := by
  rw [valueAt, valueAt, Piece.withReturns, Text.quotedRun?_withReturns]
  cases Text.quotedRun? p.text with
  | none => exact (Piece.withReturns_takeWhile (by decide) t p).symm
  | some n => exact (Piece.withReturns_take t p n).symm

theorem feed_not_mem_name (p : Piece) : '\n' ∉ (p.takeWhile isNameChar).text :=
  fun hmem => absurd (List.mem_takeWhile_imp hmem) (by decide)

section

variable (hp : p.PartOf (.whole t))
include hp

theorem afterName_withReturns : afterName (p.withReturns t) = (afterName p).withReturns t := by
  have hdrop : (p.dropWhile isNameChar).withReturns t = (p.withReturns t).dropWhile isNameChar :=
    Piece.withReturns_dropWhile (by decide) hp.within
  rw [Piece.dropWhile_eq_drop, Piece.dropWhile_eq_drop] at hdrop
  rw [afterName, afterName, Piece.withReturns_trimStart ((PartOf.drop p _).trans hp).within]
  exact congrArg Piece.trimStart hdrop.symm

theorem afterName_part : (afterName p).PartOf (.whole t) :=
  (PartOf.trimStart _).trans ((PartOf.drop _ _).trans hp)

theorem afterSign_part : (afterSign p).PartOf (.whole t) :=
  (PartOf.trimStart _).trans ((PartOf.drop _ _).trans (afterName_part hp))

theorem afterSign_withReturns {rest : List Char} (h : (afterName p).text = '=' :: rest) :
    afterSign (p.withReturns t) = (afterSign p).withReturns t := by
  have hafter := afterName_part hp
  rw [afterSign, afterName_withReturns hp,
    ← Piece.withReturns_drop_one hafter.within (by decide) h, afterSign,
    Piece.withReturns_trimStart ((PartOf.drop _ 1).trans hafter).within]

theorem read_withReturns {c : Char} {rest : List Char} (htext : p.text = c :: rest)
    (hc : Text.isBlank c = false) :
    read (p.withReturns t) = ((read p).1.map (withReturns t), (read p).2.withReturns t) := by
  have hname : (p.withReturns t).takeWhile isNameChar = (p.takeWhile isNameChar).withReturns t :=
    (Piece.withReturns_takeWhile (by decide) t p).symm
  have hhead :=
    Text.head?_withReturns_eq_iff (c := '=') (by decide) (by decide) (afterName p).text
  by_cases hsign : (afterName p).text.head? = some '='
  · obtain ⟨rest, hrest⟩ := List.head?_eq_some_iff.mp hsign
    have hreturns : (afterName (p.withReturns t)).text = '=' :: Text.withReturns rest := by
      rw [afterName_withReturns hp, Piece.withReturns, hrest, Text.withReturns_cons (by decide)]
    rw [read_of_sign hrest, read_of_sign hreturns, afterSign_withReturns hp hrest, hname,
      valueAt_withReturns, Piece.isEmpty_withReturns,
      ← Piece.withReturns_drop_length (afterSign_part hp).within (valueAt_isPrefix _)]
    split <;> rfl
  · -- The name has no line feed in it, and something of it is passed over.
    have hne := List.length_pos_iff.mpr (name_ne_nil htext hc hsign)
    have hreturns : ¬ (afterName (p.withReturns t)).text.head? = some '=' := by
      rw [afterName_withReturns hp]
      exact mt hhead.mp hsign
    have hlength : max 1 (p.takeWhile isNameChar).length = (p.takeWhile isNameChar).length :=
      Nat.max_eq_right hne
    have hlength' : max 1 ((p.takeWhile isNameChar).withReturns t).length =
        ((p.takeWhile isNameChar).withReturns t).length := by
      rw [Piece.withReturns_of_feed_not_mem (feed_not_mem_name p)]
      exact hlength
    rw [read_of_no_sign hsign, read_of_no_sign hreturns, hname, hlength, hlength',
      ← Piece.withReturns_drop_length hp.within (List.takeWhile_prefix _)]
    rfl

end

theorem readAll_withReturns (hp : p.PartOf (.whole t)) :
    readAll (p.withReturns t) = (readAll p).map (withReturns t) := by
  induction p using readAll.induct with
  | case1 p front hempty =>
    have hfront : ((p.withReturns t).trimStart).text = [] := by
      rw [← Piece.withReturns_trimStart hp.within, Piece.withReturns,
        show p.trimStart.text = [] from hempty]
      rfl
    rw [readAll_of_nil hempty, readAll_of_nil hfront, List.map_nil]
  | case2 p front hempty hlt ih =>
    have hfront : p.trimStart.PartOf (.whole t) := (PartOf.trimStart p).trans hp
    have hne : (p.trimStart.withReturns t).text ≠ [] := by
      rw [Piece.withReturns]
      exact mt Text.withReturns_eq_nil_iff.mp hempty
    obtain ⟨c, rest, htext⟩ := List.exists_cons_of_ne_nil hempty
    have hread := read_withReturns hfront htext (Lists.not_of_dropWhile_eq_cons htext)
    rw [Piece.withReturns_trimStart hp.within] at hne hread
    rw [readAll_of_ne_nil hempty, readAll_of_ne_nil hne, hread, List.map_append,
      ih ((read_part _).trans hfront)]
    cases (read p.trimStart).1 <;> rfl

theorem feed_not_mem_name_of_mem_readAll {a : Attribute} (h : a ∈ readAll p) :
    '\n' ∉ a.name.text := by
  fun_induction readAll p with
  | case1 p front hempty => cases h
  | case2 p front hempty hlt ih =>
    rcases List.mem_append.mp h with h | h
    · rw [Option.mem_toList] at h
      by_cases hsign : (afterName front).text.head? = some '='
      · obtain ⟨rest, hrest⟩ := List.head?_eq_some_iff.mp hsign
        rw [read_of_sign hrest] at h
        simp only [Option.ite_none_left_eq_some, Option.some.injEq] at h
        rw [← h.2]
        exact feed_not_mem_name front
      · rw [read_of_no_sign hsign] at h
        cases h
    · exact ih h

end Attribute

/-! ## Opening tags -/

theorem tagStop?_withReturns {quote? : Option Char} (h : ∀ q ∈ quote?, Text.isQuote q = true)
    (u : List Char) :
    tagStop? quote? (Text.withReturns u) = (tagStop? quote? u).map (moved u) := by
  induction u generalizing quote? with
  | nil => cases quote? <;> rfl
  | cons c u ih =>
    by_cases hc : c = '\n'
    · subst hc
      -- Neither of the two signs is a quote, so the state stays what it was.
      have hquotes : Text.isQuote '\r' = false ∧ Text.isQuote '\n' = false := by decide
      cases quote? with
      | none =>
        simp [tagStop?, hquotes, ih, Function.comp_def, Text.moved_feed]
      | some quote =>
        have hquote := h quote rfl
        have hreturn := Text.ne_of_isQuote hquote hquotes.1
        have hfeed := Text.ne_of_isQuote hquote hquotes.2
        simp [tagStop?, hreturn, hfeed, ih h, Function.comp_def, Text.moved_feed]
    · rw [Text.withReturns_cons hc]
      cases quote? with
      | none =>
        have hnext : ∀ q ∈ (if Text.isQuote c then some c else none), Text.isQuote q = true := by
          intro q hq
          split at hq
          · cases hq
            assumption
          · cases hq
        rw [tagStop?, tagStop?]
        split
        · simp
        · simp [ih hnext, Function.comp_def, Text.moved_cons hc]
      | some quote =>
        have hnext : ∀ q ∈ (if c = quote then none else some quote), Text.isQuote q = true := by
          intro q hq
          split at hq
          · cases hq
          · exact h q hq
        simp [tagStop?, ih hnext, Function.comp_def, Text.moved_cons hc]

theorem withoutSlashes_withReturns (t : List Char) (p : Piece) :
    withoutSlashes (p.withReturns t) = (withoutSlashes p).withReturns t := by
  have htext : ((Text.withReturns p.text).reverse.dropWhile (· == '/')).reverse =
      Text.withReturns (p.text.reverse.dropWhile (· == '/')).reverse :=
    Text.reverse_dropWhile_withReturns (by decide) p.text
  rw [withoutSlashes, withoutSlashes, Piece.withReturns, Piece.withReturns, htext]

namespace OpenTag

def withReturns (t : List Char) (tag : OpenTag) : OpenTag where
  name := tag.name.withReturns t
  attributes := tag.attributes.map (Attribute.withReturns t)
  selfClosing := tag.selfClosing
  after := tag.after.withReturns t

theorem ofBody_withReturns {body : Piece} (hbody : body.PartOf (.whole t)) {n : Nat}
    (hn : tagStop? none body.text = some n) (name : Piece) :
    ofBody (name.withReturns t) (body.withReturns t) (moved body.text n) =
      (ofBody name body n).withReturns t := by
  have hinside := (withoutSlashes_part (body.take n)).trans ((PartOf.take body n).trans hbody)
  have hlast : (((body.take n).withReturns t).trimEnd).text.getLast? =
      (body.take n).trimEnd.text.getLast? := by
    rw [← Piece.withReturns_trimEnd]
    exact Text.getLast?_withReturns _
  obtain ⟨rest, hrest⟩ := drop_tagStop? hn
  have hmoved : moved body.text (n + 1) = moved body.text n + 1 := by
    rw [Text.moved_add, hrest, Text.moved_cons (by decide), Text.moved_zero]
  rw [ofBody, ← Piece.withReturns_take, withoutSlashes_withReturns,
    Attribute.readAll_withReturns hinside, hlast, ← hmoved,
    ← Piece.withReturns_drop hbody.within (tagStop?_lt hn)]
  rfl

theorem read?_withReturns (hp : p.PartOf (.whole t)) {rest : List Char}
    (htext : p.text = '<' :: rest) :
    read? (p.withReturns t) = (read? p).map (withReturns t) := by
  have hfront := (PartOf.drop p 1).trans hp
  have hbody := (PartOf.dropWhile (p.drop 1) isTagNameChar).trans hfront
  have hstop : tagStop? none (((p.drop 1).dropWhile isTagNameChar).withReturns t).text =
      (tagStop? none ((p.drop 1).dropWhile isTagNameChar).text).map
        (moved ((p.drop 1).dropWhile isTagNameChar).text) :=
    tagStop?_withReturns (by simp) _
  rw [read?_eq, read?_eq, ← Piece.withReturns_drop_one hp.within (by decide) htext,
    ← Piece.withReturns_takeWhile (by decide),
    ← Piece.withReturns_dropWhile (by decide) hfront.within, Piece.isEmpty_withReturns, hstop]
  split
  · rfl
  · cases hn : tagStop? none ((p.drop 1).dropWhile isTagNameChar).text with
    | none => rfl
    | some n => exact congrArg some (ofBody_withReturns hbody hn _)

end OpenTag

theorem feed_not_mem_tagName (p : Piece) : '\n' ∉ (p.takeWhile isTagNameChar).text :=
  fun hmem => absurd (List.mem_takeWhile_imp hmem) (by decide)

theorem feed_not_mem_names {tag : OpenTag} (h : .opening tag ∈ tags p) :
    '\n' ∉ tag.name.text ∧ ∀ a ∈ tag.attributes, '\n' ∉ a.name.text := by
  obtain ⟨q, -, -, hread⟩ := exists_read?_of_mem_tags h
  rw [OpenTag.read?_eq, Option.ite_none_left_eq_some] at hread
  obtain ⟨n, -, rfl⟩ := Option.map_eq_some_iff.mp hread.2
  exact ⟨feed_not_mem_tagName _, fun a ha => Attribute.feed_not_mem_name_of_mem_readAll ha⟩

/-! ## All tags -/

def Tag.withReturns (t : List Char) : Tag → Tag
  | .opening tag => .opening (tag.withReturns t)
  | .closing name start => .closing name (moved t start)

theorem hiddenEnd?_withReturns (t : List Char) (p : Piece) :
    hiddenEnd? (p.withReturns t) = hiddenEnd? p := by
  have hmarks : ∀ mark ∈ hiddenMarks, '\n' ∉ mark.1 ∧ '\r' ∉ mark.1 := by decide
  rw [hiddenEnd?, hiddenEnd?, List.find?_congr]
  intro mark hmark
  exact Piece.startsWith_withReturns (hmarks mark hmark).1 (hmarks mark hmark).2

theorem hiddenEnd?_no_break {mark : List Char} (h : hiddenEnd? p = some mark) :
    '\n' ∉ mark ∧ '\r' ∉ mark := by
  obtain ⟨pair, hpair, rfl⟩ := Option.map_eq_some_iff.mp h
  have hmarks : ∀ pair ∈ hiddenMarks, '\n' ∉ pair.2 ∧ '\r' ∉ pair.2 := by decide
  exact hmarks pair (List.mem_of_find?_eq_some hpair)

theorem closingName_withReturns (hp : p.PartOf (.whole t)) (h : p.startsWith ['<', '/'] = true) :
    (((p.withReturns t).drop 2).takeWhile isTagNameChar).text =
      ((p.drop 2).takeWhile isTagNameChar).text := by
  obtain ⟨rest, hrest⟩ := List.isPrefixOf_iff_prefix.mp h
  have hmoved : moved p.text 2 = 2 := by
    rw [← hrest]
    exact Text.moved_eq_self (by decide) rest
  have hle : 2 ≤ p.text.length := (List.isPrefixOf_iff_prefix.mp h).length_le
  have hdrop := Piece.withReturns_drop hp.within hle
  rw [hmoved] at hdrop
  rw [← hdrop, ← Piece.withReturns_takeWhile (by decide)]
  exact Text.withReturns_eq_self (feed_not_mem_tagName _)

theorem Tag.read_withReturns (hp : p.PartOf (.whole t)) {rest : List Char}
    (htext : p.text = '<' :: rest) :
    Tag.read (p.withReturns t) =
      ((Tag.read p).1.map (Tag.withReturns t), (Tag.read p).2.withReturns t) := by
  rw [Tag.read, Tag.read, hiddenEnd?_withReturns]
  cases hhidden : hiddenEnd? p with
  | some mark =>
    obtain ⟨hfeed, hreturn⟩ := hiddenEnd?_no_break hhidden
    simp only [Piece.withReturns_past hfeed hreturn hp.within, Option.map_none]
  | none =>
    have hstarts : (p.withReturns t).startsWith ['<', '/'] = p.startsWith ['<', '/'] :=
      Piece.startsWith_withReturns (by decide) (by decide)
    simp only [hstarts]
    split
    · rename_i hclosing
      rw [closingName_withReturns hp hclosing,
        Piece.withReturns_past (by decide) (by decide) hp.within]
      rfl
    · rw [OpenTag.read?_withReturns hp htext]
      cases OpenTag.read? p with
      | none =>
        simp only [Option.map_none, Piece.withReturns_drop_one hp.within (by decide) htext]
      | some tag => rfl

theorem tags_withReturns (hp : p.PartOf (.whole t)) :
    tags (p.withReturns t) = (tags p).map (Tag.withReturns t) := by
  induction p using tags.induct with
  | case1 p front hempty =>
    have hfront : ((p.withReturns t).dropWhile (· != '<')).text = [] := by
      rw [← Piece.withReturns_dropWhile (by decide) hp.within, Piece.withReturns,
        show (p.dropWhile (· != '<')).text = [] from hempty]
      rfl
    rw [tags_of_nil hempty, tags_of_nil hfront, List.map_nil]
  | case2 p front hempty hlt ih =>
    have hfront : (p.dropWhile (· != '<')).PartOf (.whole t) := (PartOf.dropWhile p _).trans hp
    have hne : ((p.dropWhile (· != '<')).withReturns t).text ≠ [] := by
      rw [Piece.withReturns]
      exact mt Text.withReturns_eq_nil_iff.mp hempty
    obtain ⟨c, rest, htext⟩ := List.exists_cons_of_ne_nil hempty
    have hopen : c = '<' := by simpa using Lists.not_of_dropWhile_eq_cons htext
    have hread := Tag.read_withReturns hfront (hopen ▸ htext)
    rw [Piece.withReturns_dropWhile (by decide) hp.within] at hne hread
    rw [tags_of_ne_nil hempty, tags_of_ne_nil hne, hread, List.map_append,
      ih ((Tag.read_part _).trans hfront)]
    cases (Tag.read (p.dropWhile (· != '<'))).1 <;> rfl

theorem tags_whole_withReturns (t : List Char) :
    tags (.whole (Text.withReturns t)) = (tags (.whole t)).map (Tag.withReturns t) := by
  rw [← Piece.withReturns_whole, tags_withReturns (PartOf.refl _)]

end Markup

end ConfigAtlas
