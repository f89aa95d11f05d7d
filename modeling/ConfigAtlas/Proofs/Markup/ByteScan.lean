import Mathlib
import ConfigAtlas.Proofs.Markup.Relocated
import ConfigAtlas.Proofs.Markup.TagOrder
import ConfigAtlas.Proofs.Text.Bytes
import ConfigAtlas.Proofs.Text.Trimmed

/-!
# Scanning by bytes

The same scan with positions that are counted in bytes, every cut of a text being checked. No cut
ever fails, each round of its loops moves on to a place where the text can be cut, and what it
finds is what the scan by characters finds.
-/

namespace ConfigAtlas.Markup

open Piece (RestOf)
open Text (byteAt byteSize dropBytes? takeBytes? findChar? findText?)

/-! ## Loops -/

/-- How a round of a loop ends. It is broken if a cut failed in it. -/
inductive Round (α : Type) where
  | broken
  | ended
  | moved (found? : Option α) (position : Nat)

/-- What a loop finds, and the positions it comes to, unless it breaks or the fuel is used up. -/
def Round.loop {α : Type} (round : Nat → Round α) : (fuel : Nat) → Nat →
    Option (List α × List Nat)
  | 0, _ => none
  | fuel + 1, position =>
    match round position with
    | .broken => none
    | .ended => some ([], [])
    | .moved found? next =>
      (loop round fuel next).map fun (found, positions) =>
        (found?.toList ++ found, next :: positions)

/-! ## Attributes -/

/-- The length of the value at the front. -/
def valueSize (t : List Char) : Nat :=
  match Text.quotedRun? t with
  | some n => byteAt t n
  | none => (findChar? Text.isBlank t).getD (byteSize t)

/-- The inside of a tag stands behind `base` bytes. -/
def attributeRound (inner : List Char) (base position : Nat) : Round Attribute :=
  match dropBytes? position inner with
  | none => if byteSize inner < position then .ended else .broken
  | some rest =>
    let trimmed := Text.trimStart rest
    if trimmed.isEmpty then .ended
    else
      let nameStart := position + (byteSize rest - byteSize trimmed)
      let nameSize := (findChar? (!Attribute.isNameChar ·) trimmed).getD (byteSize trimmed)
      match takeBytes? nameSize trimmed, dropBytes? nameSize trimmed with
      | some name, some afterName =>
        match Text.trimStart afterName with
        | '=' :: valuePart =>
          let value := Text.trimStart valuePart
          let valueStart := byteSize inner - byteSize value
          match takeBytes? (valueSize value) value with
          | some text =>
            .moved (if name.isEmpty then none
              else some ⟨⟨base + nameStart, name⟩, ⟨base + valueStart, text⟩⟩)
              (valueStart + max (valueSize value) 1)
          | none => .broken
        | _ => .moved none (nameStart + max nameSize 1)
      | _, _ => .broken

/-- The loop can come to a position right behind the end, but no further. -/
def attributeLoop (inner : List Char) (base : Nat) : Option (List Attribute × List Nat) :=
  Round.loop (attributeRound inner base) (byteSize inner + 2) 0

/-! ## Tags -/

def tagName? (t : List Char) : Option (List Char) :=
  takeBytes? ((findChar? (!isTagNameChar ·) t).getD (byteSize t)) t

/-- Where the source goes on behind the first mark from a byte on, or its end. -/
def skipPast? (content : List Char) (start : Nat) (mark : List Char) : Option Nat :=
  (dropBytes? start content).map fun rest =>
    ((findText? mark rest).map (start + · + byteSize mark)).getD (byteSize content)

/-- The opening tag at `start`, if it is one. -/
def openTagAt? (content : List Char) (start : Nat) : Option (Option OpenTag) := do
  let after ← dropBytes? (start + 1) content
  let name ← tagName? after
  if name.isEmpty then some none
  else do
    let body ← dropBytes? (start + 1 + byteSize name) content
    match (tagStop? none body).map (byteAt body) with
    | none => some none
    | some close => do
      let inner ← takeBytes? close body
      let attributes ← attributeLoop (withoutSlashes ⟨0, inner⟩).text (start + 1 + byteSize name)
      let rest ← dropBytes? (start + 1 + byteSize name + close + 1) content
      some (some {
        name := ⟨start + 1, name⟩
        attributes := attributes.1
        selfClosing := (Text.trimEnd inner).getLast? == some '/'
        after := ⟨start + 1 + byteSize name + close + 1, rest⟩ })

/-- The tag at `start`, if it is one, and where to go on. -/
def tagAt? (content : List Char) (start : Nat) : Option (Option Tag × Nat) := do
  let rest ← dropBytes? start content
  match hiddenEnd? ⟨start, rest⟩ with
  | some mark => (skipPast? content start mark).map fun next => (none, next)
  | none =>
    if ['<', '/'].isPrefixOf rest then do
      let name ← tagName? (rest.drop 2)
      let next ← skipPast? content start ['>']
      some (some (.closing name start), next)
    else do
      match ← openTagAt? content start with
      | some tag => some (some (.opening tag), tag.after.start)
      | none => some (none, start + 1)

/-- One round of the loop over a source: on to the next `<`, and past what stands there. -/
def tagRound (content : List Char) (position : Nat) : Round Tag :=
  match dropBytes? position content with
  | none => .broken
  | some rest =>
    match findChar? (· == '<') rest with
    | none => .ended
    | some relative =>
      match tagAt? content (position + relative) with
      | none => .broken
      | some (found?, next) => .moved found? next

/-- All tags of a source, and the bytes that the loop comes to. -/
def tagLoop (content : List Char) : Option (List Tag × List Nat) :=
  Round.loop (tagRound content) (byteSize content + 1) 0

/-! ## What a loop comes to -/

/-- Each position lies behind the one before and is a place to stand at. -/
structure Advances (stands : Nat → Prop) (position : Nat) (positions : List Nat) : Prop where
  increasing : (position :: positions).Pairwise (· < ·)
  standing : ∀ p ∈ positions, stands p

namespace Advances

variable {stands : Nat → Prop} {position next : Nat} {positions : List Nat}

theorem nil (position : Nat) : Advances stands position [] :=
  ⟨List.pairwise_singleton _ _, by simp⟩

theorem cons (h : Advances stands next positions) (hlt : position < next) (hnext : stands next) :
    Advances stands position (next :: positions) where
  increasing := by
    refine List.pairwise_cons.mpr ⟨fun p hp => ?_, h.increasing⟩
    rcases List.mem_cons.mp hp with rfl | hp
    · exact hlt
    · exact hlt.trans ((List.pairwise_cons.mp h.increasing).1 p hp)
  standing := List.forall_mem_cons.mpr ⟨hnext, h.standing⟩

end Advances

section

variable {p q : Piece}

theorem bytesTo_trimStart (h : p.RestOf q) :
    q.bytesTo p.start + (byteSize p.text - byteSize p.trimStart.text) =
      q.bytesTo p.trimStart.start := by
  have hall := h.bytesTo_add_byteSize
  have htrimmed := ((RestOf.trimStart p).trans h).bytesTo_add_byteSize
  have hle : q.bytesTo p.start ≤ q.bytesTo p.trimStart.start := by
    rw [Piece.trimStart, h.bytesTo_dropWhile]
    exact Nat.le_add_right _ _
  omega

theorem takeBytes?_findChar? (keep : Char → Bool) (t : List Char) :
    takeBytes? ((findChar? (!keep ·) t).getD (byteSize t)) t = some (t.takeWhile keep) := by
  rw [Text.getD_findChar?, Text.takeBytes?_byteAt, Lists.take_length_takeWhile]

theorem dropBytes?_findChar? (keep : Char → Bool) (t : List Char) :
    dropBytes? ((findChar? (!keep ·) t).getD (byteSize t)) t = some (t.dropWhile keep) := by
  rw [Text.getD_findChar?, Text.dropBytes?_byteAt, Lists.drop_length_takeWhile]

/-! ## Rounds over the inside of a tag -/

theorem valueSize_eq (p : Piece) :
    valueSize p.text = byteAt p.text (Attribute.valueAt p).length := by
  unfold valueSize Attribute.valueAt
  cases hrun : Text.quotedRun? p.text with
  | some n =>
    have hn := Text.quotedRun?_le hrun
    simp only
    rw [Piece.length_take, Piece.length, Nat.min_eq_left hn]
  | none =>
    have hsize := Text.getD_findChar? (!Text.isBlank ·) p.text
    simp only [Bool.not_not] at hsize
    exact hsize

theorem takeBytes?_valueSize (p : Piece) :
    takeBytes? (valueSize p.text) p.text = some (Attribute.valueAt p).text := by
  have hprefix := List.prefix_iff_eq_take.mp (Attribute.valueAt_isPrefix p)
  rw [valueSize_eq, Text.takeBytes?_byteAt, Piece.length, ← hprefix]

theorem valueAt_ne_nil {c : Char} {rest : List Char} (htext : p.text = c :: rest)
    (hc : Text.isBlank c = false) : (Attribute.valueAt p).text ≠ [] := by
  unfold Attribute.valueAt
  split
  · rename_i n hrun
    rw [htext, Text.quotedRun?, Option.ite_none_right_eq_some] at hrun
    obtain ⟨m, -, rfl⟩ := Option.map_eq_some_iff.mp hrun.2
    rw [Piece.take, htext]
    exact List.cons_ne_nil _ _
  · rw [Piece.takeWhile, htext, List.takeWhile_cons, hc]
    exact List.cons_ne_nil _ _

theorem read_rest (p : Piece) : (Attribute.read p).2.RestOf p := by
  unfold Attribute.read
  simp only
  split
  · exact (RestOf.drop _ _).trans ((RestOf.trimStart _).trans
      ((RestOf.drop _ _).trans ((RestOf.trimStart _).trans (RestOf.drop _ _))))
  · exact RestOf.drop _ _

theorem text_afterName (p : Piece) : (Attribute.afterName p).text =
    Text.trimStart (p.text.dropWhile Attribute.isNameChar) := by
  rw [← Lists.drop_length_takeWhile, ← Piece.text_drop]
  rfl

theorem text_afterSign {valuePart : List Char}
    (h : (Attribute.afterName p).text = '=' :: valuePart) :
    (Attribute.afterSign p).text = Text.trimStart valuePart := by
  rw [Attribute.afterSign, Piece.trimStart, Piece.dropWhile, Piece.text_drop, h]
  rfl

theorem afterSign_rest (p : Piece) : (Attribute.afterSign p).RestOf p :=
  (RestOf.trimStart _).trans ((RestOf.drop _ 1).trans
    ((RestOf.trimStart _).trans (RestOf.drop p _)))

theorem head?_ne_of_no_sign {t : List Char} (h : ∀ valuePart, t = '=' :: valuePart → False) :
    t.head? ≠ some '=' := by
  intro hhead
  obtain ⟨valuePart, hsign⟩ := List.head?_eq_some_iff.mp hhead
  exact h valuePart hsign

theorem behind_value {v : Piece} (h : v.RestOf q)
    (hsolid : ∀ c rest, v.text = c :: rest → Text.isBlank c = false) :
    let next := q.bytesTo v.start + max (valueSize v.text) 1
    next = q.bytesTo (v.drop (Attribute.valueAt v).length).start ∨
      (v.drop (Attribute.valueAt v).length).text = [] ∧ next = byteSize q.text + 1 := by
  intro next
  cases htext : v.text with
  | nil =>
    have hall := h.bytesTo_add_byteSize
    rw [htext] at hall
    refine Or.inr ⟨by rw [Piece.text_drop, htext, List.drop_nil], ?_⟩
    simp only [next]
    rw [valueSize_eq, htext, ← hall, byteAt, List.take_nil]
    rfl
  | cons c rest =>
    have hne := List.length_pos_iff.mpr (valueAt_ne_nil htext (hsolid c rest htext))
    have hbytes := Text.le_byteAt (Attribute.valueAt_isPrefix v).length_le
    rw [← Piece.length] at hne hbytes
    simp only [next]
    rw [valueSize_eq, h.bytesTo_drop, Nat.max_eq_left (hne.trans_le hbytes)]
    exact Or.inl rfl

theorem behind_name (h : p.RestOf q) (hname : (p.takeWhile Attribute.isNameChar).text ≠ []) :
    q.bytesTo p.start + max (byteAt p.text (p.text.takeWhile Attribute.isNameChar).length) 1 =
      q.bytesTo (p.drop (max 1 (p.takeWhile Attribute.isNameChar).length)).start := by
  have hpos : 1 ≤ (p.takeWhile Attribute.isNameChar).length := List.length_pos_iff.mpr hname
  have hbytes := Text.le_byteAt (List.takeWhile_prefix Attribute.isNameChar (l := p.text)).length_le
  rw [Nat.max_eq_right hpos, h.bytesTo_drop, Nat.max_eq_left (hpos.trans hbytes)]
  rfl

/-- Where the words of attributes stand when the inside of their tag is behind `base` bytes. -/
def insideBytes (inside : Piece) (base : Nat) : Relocation where
  position n := base + inside.bytesTo n
  after := id
  text := id

/-- A round takes the attribute at the front, and ends behind it or right behind all. -/
theorem attributeRound_eq (base : Nat) (h : p.RestOf q) (hne : p.trimStart.text ≠ []) :
    ∃ next, attributeRound q.text base (q.bytesTo p.start) =
        .moved ((Attribute.read p.trimStart).1.map (Attribute.relocate (insideBytes q base))) next ∧
      (next = q.bytesTo (Attribute.read p.trimStart).2.start ∨
        (Attribute.read p.trimStart).2.text = [] ∧ next = byteSize q.text + 1) := by
  have hfront : p.trimStart.RestOf q := (RestOf.trimStart p).trans h
  have htrimmed : Text.trimStart p.text = p.trimStart.text := rfl
  have hempty : p.trimStart.text.isEmpty = false := List.isEmpty_eq_false_iff.mpr hne
  have hstart := bytesTo_trimStart h
  generalize p.trimStart = front at *
  unfold attributeRound
  simp only [h.dropBytes?_eq, htrimmed, hempty, Bool.false_eq_true, if_false, hstart,
    takeBytes?_findChar?, dropBytes?_findChar?, ← text_afterName]
  split
  · rename_i valuePart hsign
    have hvalue := text_afterSign hsign
    have hrest : (Attribute.afterSign front).RestOf q := (afterSign_rest front).trans hfront
    have hvalueStart : byteSize q.text - byteSize (Attribute.afterSign front).text =
        q.bytesTo (Attribute.afterSign front).start := by
      rw [← hrest.bytesTo_add_byteSize, Nat.add_sub_cancel]
    have hsolid : ∀ c rest, (Attribute.afterSign front).text = c :: rest →
        Text.isBlank c = false :=
      fun c rest hcons => Lists.not_of_dropWhile_eq_cons (hvalue.symm.trans hcons)
    rw [Attribute.read_of_sign hsign, ← hvalue, hvalueStart, takeBytes?_valueSize]
    refine ⟨_, ?_, behind_value hrest hsolid⟩
    have hstartValue := Attribute.start_valueAt (Attribute.afterSign front)
    have hname : (front.takeWhile Attribute.isNameChar).isEmpty =
      (front.text.takeWhile Attribute.isNameChar).isEmpty := rfl
    simp only [hname]
    split
    · rfl
    · simp only [Option.map_some, Attribute.relocate, Relocation.word, insideBytes, hstartValue]
      rfl
  · rename_i hsign
    -- Without a sign the round passes the word, which is not empty.
    have hno := head?_ne_of_no_sign hsign
    obtain ⟨c, rest, hcons⟩ := List.exists_cons_of_ne_nil hne
    have hc : Text.isBlank c = false := Lists.not_of_dropWhile_eq_cons (htrimmed.trans hcons)
    rw [Attribute.read_of_no_sign hno, Text.getD_findChar?]
    exact ⟨_, rfl, Or.inl (behind_name hfront (Attribute.name_ne_nil hcons hc hno))⟩

theorem attributeRound_of_blank (base : Nat) (h : p.RestOf q) (hblank : p.trimStart.text = []) :
    attributeRound q.text base (q.bytesTo p.start) = .ended := by
  have htrimmed : Text.trimStart p.text = [] := hblank
  unfold attributeRound
  simp only [h.dropBytes?_eq, htrimmed]
  rfl

theorem attributeRound_past_end (inner : List Char) (base : Nat) :
    attributeRound inner base (byteSize inner + 1) = .ended := by
  have hlt := Nat.lt_succ_self (byteSize inner)
  rw [attributeRound, Text.dropBytes?_of_byteSize_lt hlt]
  exact if_pos hlt

/-- A place where the inside of a tag can be cut, or the one right behind its end. -/
def StandsInside (inner : List Char) (position : Nat) : Prop :=
  (dropBytes? position inner).isSome = true ∨ position = byteSize inner + 1

theorem loop_attributeRound (base : Nat) (h : p.RestOf q) {fuel : Nat}
    (hfuel : p.length + 2 ≤ fuel) :
    ∃ positions, Round.loop (attributeRound q.text base) fuel (q.bytesTo p.start) =
        some ((Attribute.readAll p).map (Attribute.relocate (insideBytes q base)), positions) ∧
      Advances (StandsInside q.text) (q.bytesTo p.start) positions := by
  induction p using Attribute.readAll.induct generalizing fuel with
  | case1 p front hblank =>
    obtain ⟨fuel, rfl⟩ := Nat.exists_eq_succ_of_ne_zero (by omega : fuel ≠ 0)
    refine ⟨[], ?_, .nil _⟩
    rw [Round.loop, attributeRound_of_blank base h hblank, Attribute.readAll_of_nil hblank]
    rfl
  | case2 p front hne hlt ih =>
    simp only [front] at hlt ih
    obtain ⟨fuel, rfl⟩ := Nat.exists_eq_succ_of_ne_zero (by omega : fuel ≠ 0)
    have hless : (Attribute.read p.trimStart).2.length + 2 ≤ fuel := by omega
    have hrest : (Attribute.read p.trimStart).2.RestOf q :=
      (read_rest _).trans ((RestOf.trimStart p).trans h)
    have hfirst : q.bytesTo p.start < q.bytesTo (Attribute.read p.trimStart).2.start :=
      h.bytesTo_lt hrest hlt
    obtain ⟨next, hround, hnext⟩ := attributeRound_eq base h hne
    rw [Round.loop, hround, Attribute.readAll_of_ne_nil hne]
    rcases hnext with rfl | ⟨hnil, rfl⟩
    · obtain ⟨positions, hloop, hadvances⟩ := ih hrest hless
      refine ⟨_, ?_, hadvances.cons hfirst (Or.inl ?_)⟩
      · simp only [hloop, Option.map_some]
        rw [List.map_append]
        cases (Attribute.read p.trimStart).1 <;> rfl
      · rw [hrest.dropBytes?_eq]
        rfl
    · -- Right behind the end the loop stops, as the scan by characters does at the end.
      obtain ⟨fuel, rfl⟩ := Nat.exists_eq_succ_of_ne_zero (by omega : fuel ≠ 0)
      have hlast : Attribute.readAll (Attribute.read p.trimStart).2 = [] := by
        apply Attribute.readAll_of_nil
        rw [Piece.trimStart, Piece.dropWhile, hnil]
        rfl
      refine ⟨[byteSize q.text + 1], ?_, (Advances.nil _).cons ?_ (Or.inr rfl)⟩
      · simp only [Round.loop, attributeRound_past_end, Option.map_some]
        rw [hlast, List.append_nil, List.append_nil]
        cases (Attribute.read p.trimStart).1 <;> rfl
      · exact Nat.lt_succ_of_le (Text.byteAt_le _ _)

theorem attributeLoop_eq (q : Piece) (base : Nat) :
    ∃ positions, attributeLoop q.text base =
        some ((Attribute.readAll q).map (Attribute.relocate (insideBytes q base)), positions) ∧
      Advances (StandsInside q.text) 0 positions := by
  have hfuel : q.length + 2 ≤ byteSize q.text + 2 :=
    Nat.add_le_add_right (Text.length_le_byteSize q.text) 2
  have hzero : q.bytesTo q.start = 0 := by
    rw [Piece.bytesTo, Nat.sub_self]
    rfl
  have hloop := loop_attributeRound base (RestOf.refl q) hfuel
  rwa [hzero] at hloop

/-! ## Rounds over a whole source -/

variable {content : List Char}

/-- Where tags stand when positions are counted in bytes. -/
def byBytes (content : List Char) : Relocation where
  position := byteAt content
  after p := ⟨byteAt content p.start, p.text⟩
  text := id

theorem tagName?_eq (p : Piece) : tagName? p.text = some (p.takeWhile isTagNameChar).text :=
  takeBytes?_findChar? isTagNameChar p.text

theorem skipPast?_eq (h : p.RestOf (.whole content)) (mark : List Char) :
    skipPast? content (byteAt content p.start) mark =
      some (byteAt content (p.past mark).start) := by
  have hdrop : dropBytes? (byteAt content p.start) content = some p.text := h.dropBytes?_eq
  have hall : byteAt content p.start + byteSize p.text = byteSize content :=
    h.bytesTo_add_byteSize
  obtain ⟨n, hskip, hfind⟩ := Text.exists_findText? mark p.text p.start
  have hadd : byteAt content (p.start + n) = byteAt content p.start + byteAt p.text n :=
    h.bytesTo_add n
  rw [skipPast?, hdrop, Piece.past, hskip, Option.map_some, hadd, ← hfind, ← hall]
  cases findText? mark p.text with
  | none => rfl
  | some found => simp [Nat.add_assoc]

theorem bytesTo_inside {inside : Piece} (hpart : inside.PartOf (.whole content)) {n : Nat}
    (hstart : inside.start ≤ n) (hstop : n ≤ inside.stop) :
    byteAt content inside.start + inside.bytesTo n = byteAt content n := by
  obtain ⟨k, rfl⟩ := Nat.exists_eq_add_of_le hstart
  obtain ⟨later, hlater⟩ := hpart.within.2
  have hk : k ≤ inside.text.length := Nat.le_of_add_le_add_left hstop
  rw [Text.byteAt_add, Piece.bytesTo, Nat.add_sub_cancel_left, ← hlater, byteAt, byteAt, byteAt,
    List.take_append_of_le_length hk]

theorem relocate_inside {inside : Piece} (hpart : inside.PartOf (.whole content)) {a : Attribute}
    (ha : a.PartsOf inside) :
    a.relocate (insideBytes inside (byteAt content inside.start)) =
      a.relocate (byBytes content) := by
  have hword : ∀ w : Piece, w.PartOf inside →
      byteAt content inside.start + inside.bytesTo w.start = byteAt content w.start :=
    fun w hw => bytesTo_inside hpart hw.start_le ((Nat.le_add_right _ _).trans hw.stop_le)
  simp only [Attribute.relocate, Relocation.word, insideBytes, byBytes, hword _ ha.name_part,
    hword _ ha.value_part]

theorem byteAt_drop (h : p.RestOf (.whole content)) (n : Nat) :
    byteAt content (p.drop n).start = byteAt content p.start + byteAt p.text n := h.bytesTo_drop n

theorem dropBytes?_start (h : p.RestOf (.whole content)) :
    dropBytes? (byteAt content p.start) content = some p.text := h.dropBytes?_eq

theorem byteAt_past_sign (h : p.RestOf (.whole content)) {n : Nat} {c : Char} {rest : List Char}
    (hsign : p.text.drop n = c :: rest) (hc : c.utf8Size = 1) :
    byteAt content (p.drop (n + 1)).start = byteAt content p.start + byteAt p.text n + 1 := by
  rw [byteAt_drop h, Text.byteAt_add, hsign, Nat.add_assoc]
  simp [byteAt, byteSize, hc]

theorem byteAt_body (h : p.RestOf (.whole content)) :
    byteAt content (p.dropWhile isTagNameChar).start =
      byteAt content p.start + byteSize (p.takeWhile isTagNameChar).text := by
  have hname : byteAt p.text (p.text.takeWhile isTagNameChar).length =
      byteSize (p.takeWhile isTagNameChar).text :=
    congrArg byteSize (Lists.take_length_takeWhile isTagNameChar p.text)
  rw [Piece.dropWhile_eq_drop, byteAt_drop h, hname]

theorem openTagAt?_eq (h : p.RestOf (.whole content)) {rest : List Char}
    (hsign : p.text = '<' :: rest) :
    openTagAt? content (byteAt content p.start) =
      some ((OpenTag.read? p).map (OpenTag.relocate (byBytes content))) := by
  have hafter : (p.drop 1).RestOf (.whole content) := (RestOf.drop p 1).trans h
  have hone : byteAt content p.start + 1 = byteAt content (p.drop 1).start :=
    (byteAt_past_sign h (n := 0) hsign rfl).symm
  have hbody : ((p.drop 1).dropWhile isTagNameChar).RestOf (.whole content) :=
    (RestOf.dropWhile _ _).trans hafter
  rw [openTagAt?, OpenTag.read?_eq, hone, dropBytes?_start hafter]
  simp only [Option.bind_eq_bind, Option.bind_some, tagName?_eq, ← byteAt_body hafter,
    dropBytes?_start hbody]
  have hname : ((p.drop 1).takeWhile isTagNameChar).isEmpty =
      ((p.drop 1).takeWhile isTagNameChar).text.isEmpty := rfl
  rw [hname]
  split
  · rfl
  · generalize (p.drop 1).dropWhile isTagNameChar = body at *
    cases hstop : tagStop? none body.text with
    | none => rfl
    | some n =>
      obtain ⟨after, hsign⟩ := drop_tagStop? hstop
      have hinside : (withoutSlashes (body.take n)).PartOf (.whole content) :=
        (withoutSlashes_part _).trans ((Piece.PartOf.take body n).trans hbody.part)
      obtain ⟨positions, hloop, -⟩ :=
        attributeLoop_eq (withoutSlashes (body.take n)) (byteAt content body.start)
      -- The attributes are found inside the tag; here they are moved to the content.
      have hattributes : (Attribute.readAll (withoutSlashes (body.take n))).map
          (Attribute.relocate (insideBytes (withoutSlashes (body.take n))
            (byteAt content body.start))) =
          (Attribute.readAll (withoutSlashes (body.take n))).map
            (Attribute.relocate (byBytes content)) :=
        List.map_congr_left fun a ha =>
          relocate_inside hinside (Attribute.partsOf_of_mem_readAll ha)
      rw [hattributes] at hloop
      have hend := byteAt_past_sign hbody hsign rfl
      have hslashes : (withoutSlashes ⟨0, body.text.take n⟩).text =
        (withoutSlashes (body.take n)).text := rfl
      simp only [Option.map_some, Text.takeBytes?_byteAt, Option.bind_some, hslashes, hloop,
        ← hend, dropBytes?_start ((RestOf.drop body (n + 1)).trans hbody)]
      rfl

theorem tagAt?_eq (h : p.RestOf (.whole content)) {rest : List Char}
    (hsign : p.text = '<' :: rest) :
    tagAt? content (byteAt content p.start) =
      some ((Tag.read p).1.map (Tag.relocate (byBytes content)),
        byteAt content (Tag.read p).2.start) := by
  have hhidden : hiddenEnd? ⟨byteAt content p.start, p.text⟩ = hiddenEnd? p := rfl
  rw [tagAt?, dropBytes?_start h, Option.bind_eq_bind, Option.bind_some, hhidden, Tag.read]
  cases hiddenEnd? p with
  | some mark => simp only [skipPast?_eq h, Option.map_some, Option.map_none]
  | none =>
    have hslash : p.startsWith ['<', '/'] = ['<', '/'].isPrefixOf p.text := rfl
    have hclosing : (p.drop 2).text = p.text.drop 2 := p.text_drop 2
    simp only [hslash]
    split
    · simp only [Option.bind_eq_bind, ← hclosing, tagName?_eq, Option.bind_some, skipPast?_eq h]
      rfl
    · rw [openTagAt?_eq h hsign, Option.bind_eq_bind, Option.bind_some]
      cases OpenTag.read? p with
      | some tag => rfl
      | none =>
        have hone := byteAt_past_sign h (n := 0) hsign rfl
        simp only [Option.map_none, hone]
        rfl

theorem isOpening_eq : (fun c : Char => c == '<') = fun c => !(c != '<') := by
  funext c
  rw [bne, Bool.not_not]

theorem tagRound_eq (h : p.RestOf (.whole content)) (hne : (p.dropWhile (· != '<')).text ≠ []) :
    tagRound content (byteAt content p.start) =
      .moved ((Tag.read (p.dropWhile (· != '<'))).1.map (Tag.relocate (byBytes content)))
        (byteAt content (Tag.read (p.dropWhile (· != '<'))).2.start) := by
  have hfront : (p.dropWhile (· != '<')).RestOf (.whole content) :=
    (RestOf.dropWhile _ _).trans h
  have hfound : findChar? (fun c => !(c != '<')) p.text =
      some (byteAt p.text (p.text.takeWhile (· != '<')).length) :=
    Text.findChar?_of_dropWhile_ne_nil hne
  have hstart : byteAt content (p.dropWhile (· != '<')).start = byteAt content p.start +
      byteAt p.text (p.text.takeWhile (· != '<')).length := h.bytesTo_dropWhile _
  obtain ⟨c, rest, hcons⟩ := List.exists_cons_of_ne_nil hne
  have htext : p.text.dropWhile (· != '<') = c :: rest := hcons
  have hopen : c = '<' := by simpa using Lists.not_of_dropWhile_eq_cons htext
  rw [tagRound, dropBytes?_start h, isOpening_eq]
  simp only [hfound, ← hstart, tagAt?_eq hfront (hopen ▸ hcons)]

theorem tagRound_of_none (h : p.RestOf (.whole content))
    (hnil : (p.dropWhile (· != '<')).text = []) :
    tagRound content (byteAt content p.start) = .ended := by
  have hfound : findChar? (fun c => !(c != '<')) p.text = none :=
    Text.findChar?_of_dropWhile_eq_nil hnil
  rw [tagRound, dropBytes?_start h, isOpening_eq]
  simp only [hfound]

/-- A place in a source where it can be cut. -/
def StandsIn (content : List Char) (position : Nat) : Prop :=
  position ≤ byteSize content ∧ (dropBytes? position content).isSome = true

theorem loop_tagRound (h : p.RestOf (.whole content)) {fuel : Nat} (hfuel : p.length < fuel) :
    ∃ positions, Round.loop (tagRound content) fuel (byteAt content p.start) =
        some ((tags p).map (Tag.relocate (byBytes content)), positions) ∧
      Advances (StandsIn content) (byteAt content p.start) positions := by
  induction p using tags.induct generalizing fuel with
  | case1 p front hnil =>
    obtain ⟨fuel, rfl⟩ := Nat.exists_eq_succ_of_ne_zero (Nat.ne_zero_of_lt hfuel)
    refine ⟨[], ?_, .nil _⟩
    rw [Round.loop, tagRound_of_none h hnil, tags_of_nil hnil]
    rfl
  | case2 p front hne hlt ih =>
    simp only [front] at hlt ih
    obtain ⟨fuel, rfl⟩ := Nat.exists_eq_succ_of_ne_zero (Nat.ne_zero_of_lt hfuel)
    have hrest : (Tag.read (p.dropWhile (· != '<'))).2.RestOf (.whole content) :=
      RestOf.trans ⟨Tag.read_part _, Tag.stop_read _⟩ ((RestOf.dropWhile _ _).trans h)
    have hless : (Tag.read (p.dropWhile (· != '<'))).2.length < fuel := by omega
    obtain ⟨positions, hloop, hadvances⟩ := ih hrest hless
    refine ⟨_, ?_, hadvances.cons (h.bytesTo_lt hrest hlt) ⟨Text.byteAt_le _ _, ?_⟩⟩
    · rw [Round.loop, tagRound_eq h hne, tags_of_ne_nil hne]
      simp only [hloop, Option.map_some]
      rw [List.map_append]
      cases (Tag.read (p.dropWhile (· != '<'))).1 <;> rfl
    · rw [dropBytes?_start hrest]
      rfl

end

/-! ## What stands between two tags -/

/-- Whichever open element a closing tag closes, what stands between the two can be cut out. -/
def BodiesCut (content : List Char) : Prop :=
  ∀ earlier name stop later, tags (.whole content) = earlier ++ .closing name stop :: later →
    ∀ u ∈ (Builder.run {} earlier).unclosed,
      Text.slice? (byteAt content u.tag.after.start) (byteAt content stop) content =
        some (u.tag.after.take (stop - u.tag.after.start)).text

theorem bodiesCut (content : List Char) : BodiesCut content := by
  intro earlier name stop later htags u hu
  have hbuilt : (Builder.run {} earlier).BuiltFrom fun tag => .opening tag ∈ earlier :=
    Builder.BuiltFrom.run ⟨by simp, by simp⟩ fun _ htag => htag
  have hopening := (hbuilt.unclosed u hu).tag
  have horder := pairwise_tags (.whole content)
  have hmem : .opening u.tag ∈ tags (.whole content) := by
    rw [htags]
    exact List.mem_append_left _ hopening
  rw [htags] at horder
  have hle : u.tag.after.start ≤ stop :=
    (List.pairwise_append.mp horder).2.2 _ hopening _ List.mem_cons_self
  rw [Text.slice?_byteAt hle, ← text_after_eq_drop hmem]
  rfl

/-- Counted in bytes, the scan of a source and the one of the inside of a tag find what they find
counted in characters. Neither ever cuts inside a character or the wrong way round. The positions
they come to lie one behind the other, where the text can be cut. -/
theorem scan_moves_on (content : List Char) :
    (∃ positions, tagLoop content =
        some ((tags (.whole content)).map (Tag.relocate (byBytes content)), positions) ∧
      Advances (StandsIn content) 0 positions) ∧
    (∀ (inside : Piece) (base : Nat), ∃ positions, attributeLoop inside.text base =
        some ((Attribute.readAll inside).map (Attribute.relocate (insideBytes inside base)),
          positions) ∧
      Advances (StandsInside inside.text) 0 positions) ∧
    BodiesCut content := by
  refine ⟨?_, attributeLoop_eq, bodiesCut content⟩
  exact loop_tagRound (RestOf.refl _) (Nat.lt_succ_of_le (Text.length_le_byteSize content))

/-- A declaration without an end is passed over up to the end of the source. -/
example : (tagLoop ['é', '<', 'b', '/', '>', '<', '!', 'é']).map Prod.snd = some [6, 10] := by
  decide

/-- An equals sign without a value leads right behind the end. -/
example : (attributeLoop ['é', ' ', 'k', '='] 0).map Prod.snd = some [2, 6] := by decide

end ConfigAtlas.Markup
