import ConfigAtlas.Outline.Context
import ConfigAtlas.Proofs.Text.Part

/-!
# Offsets in bytes

A text can be cut between two of its characters only. Cuts at offsets that are counted in bytes
are checked, and those that stand before a character give what counting characters gives.
-/

namespace ConfigAtlas

namespace Text

/-! ## Checked cuts -/

/-- What follows so many bytes, unless they end inside a character or there are not as many. -/
def dropBytes? : Nat → List Char → Option (List Char)
  | 0, t => some t
  | _ + 1, [] => none
  | n + 1, c :: rest => if c.utf8Size ≤ n + 1 then dropBytes? (n + 1 - c.utf8Size) rest else none

/-- The first `n` bytes, if no character is cut by that. -/
def takeBytes? : Nat → List Char → Option (List Char)
  | 0, _ => some []
  | _ + 1, [] => none
  | n + 1, c :: rest =>
    if c.utf8Size ≤ n + 1 then (takeBytes? (n + 1 - c.utf8Size) rest).map (c :: ·) else none

/-- What stands between two offsets, the first of which must not come after the second. -/
def slice? (start stop : Nat) (t : List Char) : Option (List Char) :=
  if start ≤ stop then (dropBytes? start t).bind (takeBytes? (stop - start)) else none

/-- The offset of a character, or of the end if there are not as many. -/
def byteAt (t : List Char) (n : Nat) : Nat := byteSize (t.take n)

/-! ## Offsets of characters -/

theorem byteSize_append (s t : List Char) : byteSize (s ++ t) = byteSize s + byteSize t := by
  induction s with
  | nil => exact (Nat.zero_add _).symm
  | cons c s ih => rw [List.cons_append, byteSize, byteSize, ih, Nat.add_assoc]

theorem length_le_byteSize (t : List Char) : t.length ≤ byteSize t := by
  induction t with
  | nil => exact Nat.le_refl _
  | cons c t ih =>
    have hc := c.utf8Size_pos
    rw [List.length_cons, byteSize]
    omega

theorem byteSize_pos {t : List Char} (h : t ≠ []) : 0 < byteSize t :=
  Nat.lt_of_lt_of_le (List.length_pos_iff.mpr h) (length_le_byteSize t)

theorem byteAt_of_length_le {t : List Char} {n : Nat} (h : t.length ≤ n) :
    byteAt t n = byteSize t := by
  rw [byteAt, List.take_of_length_le h]

theorem byteAt_length (t : List Char) : byteAt t t.length = byteSize t :=
  byteAt_of_length_le (Nat.le_refl _)

theorem byteAt_add (t : List Char) (m n : Nat) :
    byteAt t (m + n) = byteAt t m + byteAt (t.drop m) n := by
  rw [byteAt, List.take_add, byteSize_append, byteAt, byteAt]

theorem byteAt_add_byteSize_drop (t : List Char) (n : Nat) :
    byteAt t n + byteSize (t.drop n) = byteSize t := by
  rw [byteAt, ← byteSize_append, List.take_append_drop]

theorem byteSize_take_lt {t : List Char} {a b : Nat} (hab : a < b) (ha : a < t.length) :
    byteSize (t.take a) < byteSize (t.take b) := by
  induction t generalizing a b with
  | nil => cases ha
  | cons c t ih =>
    obtain ⟨b, rfl⟩ := Nat.exists_eq_succ_of_ne_zero (Nat.ne_zero_of_lt hab)
    have hc : 0 < c.utf8Size := c.utf8Size_pos
    cases a with
    | zero =>
      simp only [List.take_zero, List.take_succ_cons, byteSize]
      omega
    | succ a =>
      have := ih (Nat.lt_of_succ_lt_succ hab) (Nat.lt_of_succ_lt_succ ha)
      simp only [List.take_succ_cons, byteSize]
      omega

theorem byteAt_le (t : List Char) (n : Nat) : byteAt t n ≤ byteSize t :=
  Nat.le_of_add_right_le (Nat.le_of_eq (byteAt_add_byteSize_drop t n))

theorem le_byteAt {t : List Char} {n : Nat} (h : n ≤ t.length) : n ≤ byteAt t n := by
  have hle := length_le_byteSize (t.take n)
  rwa [List.length_take, Nat.min_eq_left h] at hle

/-! ## Cuts at characters -/

theorem dropBytes?_cons (n : Nat) (c : Char) (t : List Char) :
    dropBytes? (c.utf8Size + n) (c :: t) = dropBytes? n t := by
  obtain ⟨k, hk⟩ := Nat.exists_eq_succ_of_ne_zero (Nat.ne_of_gt c.utf8Size_pos)
  have hsum : c.utf8Size + n = k + n + 1 := by omega
  rw [hsum, dropBytes?, if_pos (by omega)]
  congr 1
  omega

theorem takeBytes?_cons (n : Nat) (c : Char) (t : List Char) :
    takeBytes? (c.utf8Size + n) (c :: t) = (takeBytes? n t).map (c :: ·) := by
  obtain ⟨k, hk⟩ := Nat.exists_eq_succ_of_ne_zero (Nat.ne_of_gt c.utf8Size_pos)
  have hsum : c.utf8Size + n = k + n + 1 := by omega
  rw [hsum, takeBytes?, if_pos (by omega)]
  congr 2
  omega

theorem dropBytes?_byteAt (t : List Char) (n : Nat) :
    dropBytes? (byteAt t n) t = some (t.drop n) := by
  induction t generalizing n with
  | nil => cases n <;> rfl
  | cons c t ih =>
    cases n with
    | zero => rfl
    | succ n =>
      rw [byteAt, List.take_succ_cons, byteSize, dropBytes?_cons]
      exact ih n

theorem takeBytes?_byteAt (t : List Char) (n : Nat) :
    takeBytes? (byteAt t n) t = some (t.take n) := by
  induction t generalizing n with
  | nil => cases n <;> rfl
  | cons c t ih =>
    cases n with
    | zero => rfl
    | succ n =>
      have hinner : takeBytes? (byteSize (t.take n)) t = some (t.take n) := ih n
      rw [byteAt, List.take_succ_cons, byteSize, takeBytes?_cons, hinner]
      rfl

theorem slice?_byteAt {m n : Nat} (h : m ≤ n) (t : List Char) :
    slice? (byteAt t m) (byteAt t n) t = some ((t.drop m).take (n - m)) := by
  obtain ⟨k, rfl⟩ := Nat.exists_eq_add_of_le h
  rw [slice?, byteAt_add, if_pos (Nat.le_add_right _ _), dropBytes?_byteAt, Option.bind_some,
    Nat.add_sub_cancel_left, takeBytes?_byteAt, Nat.add_sub_cancel_left]

theorem dropBytes?_of_byteSize_lt {n : Nat} {t : List Char} (h : byteSize t < n) :
    dropBytes? n t = none := by
  obtain ⟨n, rfl⟩ := Nat.exists_eq_succ_of_ne_zero (Nat.ne_zero_of_lt h)
  induction t generalizing n with
  | nil => rfl
  | cons c t ih =>
    rw [byteSize] at h
    rw [dropBytes?, if_pos (by omega)]
    obtain ⟨m, hm⟩ := Nat.exists_eq_succ_of_ne_zero (show n + 1 - c.utf8Size ≠ 0 by omega)
    rw [hm]
    exact ih m (by omega)

theorem takeBytes?_of_byteSize_lt {n : Nat} {t : List Char} (h : byteSize t < n) :
    takeBytes? n t = none := by
  induction t generalizing n with
  | nil =>
    obtain ⟨n, rfl⟩ := Nat.exists_eq_succ_of_ne_zero (Nat.ne_zero_of_lt h)
    rfl
  | cons c t ih =>
    rw [byteSize] at h
    obtain ⟨k, rfl⟩ : ∃ k, n = c.utf8Size + k := ⟨n - c.utf8Size, by omega⟩
    rw [takeBytes?_cons, ih (by omega), Option.map_none]

/-! ## Finding -/

/-- The offset of the first character that passes the test. -/
def findChar? (test : Char → Bool) (t : List Char) : Option Nat :=
  (t.findIdx? test).map (byteAt t)

/-- The offset of the first place at which the mark begins. -/
def findText? (mark : List Char) : List Char → Option Nat
  | [] => none
  | c :: rest =>
    if mark.isPrefixOf (c :: rest) then some 0 else (findText? mark rest).map (c.utf8Size + ·)

theorem findChar?_of_dropWhile_ne_nil {keep : Char → Bool} {t : List Char}
    (h : t.dropWhile keep ≠ []) :
    findChar? (!keep ·) t = some (byteAt t (t.takeWhile keep).length) := by
  rw [findChar?, Lists.findIdx?_not, if_neg h, Option.map_some]

theorem findChar?_of_dropWhile_eq_nil {keep : Char → Bool} {t : List Char}
    (h : t.dropWhile keep = []) : findChar? (!keep ·) t = none := by
  rw [findChar?, Lists.findIdx?_not, if_pos h, Option.map_none]

theorem getD_findChar? (keep : Char → Bool) (t : List Char) :
    (findChar? (!keep ·) t).getD (byteSize t) = byteAt t (t.takeWhile keep).length := by
  by_cases h : t.dropWhile keep = []
  · have happ := List.takeWhile_append_dropWhile (p := keep) (l := t)
    rw [h, List.append_nil] at happ
    rw [findChar?_of_dropWhile_eq_nil h, happ, byteAt_length, Option.getD_none]
  · rw [findChar?_of_dropWhile_ne_nil h, Option.getD_some]

theorem exists_findText? (mark t : List Char) (start : Nat) :
    ∃ n, Piece.skipPast mark start t = ⟨start + n, t.drop n⟩ ∧
      ((findText? mark t).map (· + byteSize mark)).getD (byteSize t) = byteAt t n := by
  induction t generalizing start with
  | nil => exact ⟨0, rfl, rfl⟩
  | cons c t ih =>
    rw [findText?, Piece.skipPast]
    split
    · rename_i hmark
      obtain ⟨later, hlater⟩ := List.isPrefixOf_iff_prefix.mp hmark
      refine ⟨mark.length, rfl, ?_⟩
      rw [byteAt, ← hlater, List.take_left]
      exact Nat.zero_add _
    · obtain ⟨n, hskip, hfind⟩ := ih (start + 1)
      refine ⟨n + 1, ?_, ?_⟩
      · rw [hskip, List.drop_succ_cons, Nat.add_assoc, Nat.add_comm 1 n]
      · rw [byteAt, List.take_succ_cons, byteSize, byteSize]
        rw [byteAt] at hfind
        rw [← hfind]
        cases findText? mark t with
        | none => rfl
        | some found => exact Nat.add_assoc _ _ _

end Text

/-! ## What is left of a piece -/

namespace Piece

open Text (byteAt byteSize)

/-- One piece is what is left of another from some position on. -/
structure RestOf (p q : Piece) : Prop where
  part : p.PartOf q
  stop : p.stop = q.stop

/-- How many bytes of a piece stand before a position. -/
def bytesTo (q : Piece) (position : Nat) : Nat := byteAt q.text (position - q.start)

namespace RestOf

variable {p q : Piece}

theorem refl (p : Piece) : p.RestOf p := ⟨.refl p, rfl⟩

theorem trans {r : Piece} (h : p.RestOf q) (h' : q.RestOf r) : p.RestOf r :=
  ⟨h.part.trans h'.part, h.stop.trans h'.stop⟩

theorem drop (p : Piece) (n : Nat) : (p.drop n).RestOf p := ⟨.drop p n, p.stop_drop n⟩

theorem dropWhile (p : Piece) (test : Char → Bool) : (p.dropWhile test).RestOf p :=
  ⟨.dropWhile p test, p.stop_dropWhile test⟩

theorem trimStart (p : Piece) : p.trimStart.RestOf p := dropWhile p Text.isBlank

theorem text_eq (h : p.RestOf q) : p.text = q.text.drop (p.start - q.start) := by
  obtain ⟨before, after, htext, hstart⟩ := h.part
  have hafter : after = [] := by
    have hstop := h.stop
    rw [Piece.stop, Piece.stop, htext, hstart, List.length_append, List.length_append] at hstop
    exact List.eq_nil_of_length_eq_zero (by omega)
  rw [htext, hstart, Nat.add_sub_cancel_left, List.drop_left, hafter, List.append_nil]

theorem bytesTo_add (h : p.RestOf q) (n : Nat) :
    q.bytesTo (p.start + n) = q.bytesTo p.start + byteAt p.text n := by
  have hsum : p.start + n - q.start = p.start - q.start + n := by
    have := h.part.start_le
    omega
  rw [bytesTo, hsum, Text.byteAt_add, ← h.text_eq, bytesTo]

theorem bytesTo_drop (h : p.RestOf q) (n : Nat) :
    q.bytesTo (p.drop n).start = q.bytesTo p.start + byteAt p.text n := by
  rw [drop_eq, h.bytesTo_add, byteAt, ← List.take_eq_take_min, byteAt]

theorem bytesTo_dropWhile (h : p.RestOf q) (test : Char → Bool) :
    q.bytesTo (p.dropWhile test).start =
      q.bytesTo p.start + byteAt p.text (p.text.takeWhile test).length := by
  rw [dropWhile_eq_drop, h.bytesTo_drop]

theorem dropBytes?_eq (h : p.RestOf q) :
    Text.dropBytes? (q.bytesTo p.start) q.text = some p.text := by
  rw [bytesTo, Text.dropBytes?_byteAt, ← h.text_eq]

theorem bytesTo_add_byteSize (h : p.RestOf q) :
    q.bytesTo p.start + byteSize p.text = byteSize q.text := by
  rw [h.text_eq, bytesTo, Text.byteAt_add_byteSize_drop]

theorem bytesTo_lt {r : Piece} (h : p.RestOf q) (h' : r.RestOf q) (hlt : r.length < p.length) :
    q.bytesTo p.start < q.bytesTo r.start := by
  have hp := h.stop
  have hr := h'.stop
  have hstart := h.part.start_le
  rw [length, length] at hlt
  rw [Piece.stop, Piece.stop] at hp hr
  exact Text.byteSize_take_lt (by omega) (by omega)

end RestOf

end Piece

end ConfigAtlas
