import ConfigAtlas.Proofs.Path.Composed

/-!
# The text that a path keeps

A path carries its text along, lengthened by each step and put together again for a part of the
path. In whichever way a path is reached, the text is that of its steps. Where names are plain it
says what the steps are.
-/

namespace ConfigAtlas

namespace Segment

/-! ## One step after another -/

theorem charsOf_append (first : Bool) (a b : List Segment) :
    charsOf first (a ++ b) = charsOf first a ++ charsOf (first && a.isEmpty) b := by
  induction a generalizing first with
  | nil => simp [charsOf]
  | cons s rest ih => simp [charsOf, ih]

theorem startsStep_charsOf (steps : List Segment) : StartsStep (charsOf false steps) := by
  intro c hc
  cases steps with
  | nil => cases hc
  | cons s rest =>
    cases s with
    | field name =>
      cases hc
      exact .inl rfl
    | index n =>
      cases hc
      exact .inr rfl
    | key raw =>
      cases hc
      exact .inr rfl

/-! ## Steps told apart -/

section

variable {r r' : List Char}

theorem quoted_append_inj {raw raw' : String}
    (h : Text.escape quotedSpecial raw.toList ++ '"' :: r =
      Text.escape quotedSpecial raw'.toList ++ '"' :: r') : raw = raw' ∧ r = r' := by
  have hread : ∀ (name : String) (rest : List Char),
      Path.readKey (Text.escape quotedSpecial name.toList ++ '"' :: rest) =
        some (name.toList, rest) := by
    intro name rest
    have hlegal : ∀ s ∈ name.toList.map sign, s.Legal :=
      List.forall_mem_map.mpr fun c _ => legal_sign c
    rw [← written_signs, Path.readKey_written hlegal]
    simp [Function.comp_def, char_sign]
  have hboth := hread raw r
  rw [h, hread raw' r', Option.some.injEq, Prod.mk.injEq] at hboth
  exact ⟨String.toList_inj.mp hboth.1.symm, hboth.2.symm⟩

theorem name_append_inj {name name' : String} (hname : (field name).Plain)
    (hname' : (field name').Plain) (hr : StartsStep r) (hr' : StartsStep r')
    (h : name.toList ++ r = name'.toList ++ r') : name = name' ∧ r = r' := by
  obtain ⟨hfront, hback⟩ := Path.takeWhile_name (isName_of_plain hname) hr
  obtain ⟨hfront', hback'⟩ := Path.takeWhile_name (isName_of_plain hname') hr'
  rw [h] at hfront hback
  exact ⟨String.toList_inj.mp (hfront.symm.trans hfront'), hback.symm.trans hback'⟩

theorem field_chars_append_ne {name : String} (h : (field name).Plain) (first : Bool) :
    (field name).chars first ++ r ≠ '[' :: r' := by
  intro heq
  cases first with
  | false => exact absurd (List.cons.inj heq).1 (by decide)
  | true =>
    obtain ⟨hne, hchars⟩ := isName_of_plain h
    obtain ⟨c, rest, hname⟩ := List.exists_cons_of_ne_nil hne
    rw [chars, if_pos rfl, hname] at heq
    exact (hchars c (by simp [hname])).2 (List.cons.inj heq).1

theorem index_chars_append_ne (n : Nat) (raw : String) (first : Bool) :
    (index n).chars first ++ r ≠ (key raw).chars first ++ r' := by
  intro heq
  obtain ⟨d, rest, hdigits⟩ := List.exists_cons_of_ne_nil (Nat.toDigits_ne_nil (b := 10) (n := n))
  have hdigit := isDigit_toDigits n d (by simp [hdigits])
  simp only [chars, hdigits, List.cons_append, List.cons.injEq] at heq
  rw [heq.2.1] at hdigit
  exact absurd hdigit (by decide)

theorem chars_append_inj {first : Bool} {s t : Segment} (hs : s.Plain) (ht : t.Plain)
    (hr : StartsStep r) (hr' : StartsStep r') (h : s.chars first ++ r = t.chars first ++ r') :
    s = t ∧ r = r' := by
  cases s with
  | field name =>
    cases t with
    | field name' =>
      have hnames : name.toList ++ r = name'.toList ++ r' := by
        cases first with
        | true => exact h
        | false => exact (List.cons.inj h).2
      obtain ⟨rfl, hrest⟩ := name_append_inj hs ht hr hr' hnames
      exact ⟨rfl, hrest⟩
    | index n => exact absurd h (field_chars_append_ne hs first)
    | key raw => exact absurd h (field_chars_append_ne hs first)
  | index n =>
    cases t with
    | field name => exact absurd h.symm (field_chars_append_ne ht first)
    | index m =>
      obtain ⟨rfl, hrest⟩ := toDigits_append_inj (by simpa [chars] using h)
      exact ⟨rfl, hrest⟩
    | key raw => exact absurd h (index_chars_append_ne n raw first)
  | key raw =>
    cases t with
    | field name => exact absurd h.symm (field_chars_append_ne ht first)
    | index n => exact absurd h.symm (index_chars_append_ne n raw first)
    | key raw' =>
      obtain ⟨rfl, hrest⟩ := quoted_append_inj (by simpa [chars] using h)
      exact ⟨rfl, (List.cons.inj hrest).2⟩

end

theorem chars_ne_nil {s : Segment} (h : s.Plain) (first : Bool) : s.chars first ≠ [] := by
  cases s with
  | field name =>
    cases first with
    | true => exact (isName_of_plain h).1
    | false => exact List.cons_ne_nil _ _
  | index n => exact List.cons_ne_nil _ _
  | key raw => exact List.cons_ne_nil _ _

theorem charsOf_inj {first : Bool} {ss ts : List Segment} (hs : ∀ s ∈ ss, s.Plain)
    (ht : ∀ t ∈ ts, t.Plain) (h : charsOf first ss = charsOf first ts) : ss = ts := by
  induction ss generalizing first ts with
  | nil =>
    cases ts with
    | nil => rfl
    | cons t ts =>
      have hnil := (List.append_eq_nil_iff.mp h.symm).1
      exact absurd hnil (chars_ne_nil (ht t List.mem_cons_self) first)
  | cons s ss ih =>
    cases ts with
    | nil =>
      have hnil := (List.append_eq_nil_iff.mp h).1
      exact absurd hnil (chars_ne_nil (hs s List.mem_cons_self) first)
    | cons t ts =>
      obtain ⟨rfl, hrest⟩ := chars_append_inj (hs s List.mem_cons_self) (ht t List.mem_cons_self)
        (startsStep_charsOf ss) (startsStep_charsOf ts) h
      rw [ih (fun q hq => hs q (List.mem_cons_of_mem _ hq))
        (fun q hq => ht q (List.mem_cons_of_mem _ hq)) hrest]

end Segment

namespace Path

open Segment (charsOf)

/-! ## Reached from the root -/

/-- What can be made of paths, from the root on. -/
inductive Reached : Path → Prop
  | root : Reached root
  | push {p : Path} (s : Segment) : Reached p → Reached (p.push s)
  | field {p : Path} (name : String) : Reached p → Reached (p.field name)
  | element {p : Path} (n : Nat) : Reached p → Reached (p.element n)
  | key {p : Path} (raw : String) : Reached p → Reached (p.key raw)
  | ofSegments (steps : List Segment) : Reached (ofSegments steps)
  | subPath {p : Path} (n : Nat) : Reached p → Reached (p.subPath n)
  | parent {p q : Path} : Reached p → p.parent? = some q → Reached q
  | ancestor {p q : Path} : Reached p → q ∈ p.ancestors → Reached q
  | read {text : String} {p : Path} : read text = .ok p → Reached p

/-- The text is that of the steps, written one after another. -/
def UpToDate (p : Path) : Prop := p.text.toList = charsOf true p.segments

theorem upToDate_ofSegments (steps : List Segment) : (ofSegments steps).UpToDate := by
  rw [UpToDate, segments_ofSegments, toList_text_ofSegments]

theorem UpToDate.push {p : Path} (h : p.UpToDate) (s : Segment) : (p.push s).UpToDate := by
  rw [UpToDate, segments_push, Segment.charsOf_append, ← h]
  simp [Path.push, charsOf]

theorem parent?_eq_some {p q : Path} (h : p.parent? = some q) :
    p.isRoot = false ∧ q = p.subPath (p.length - 1) := by
  rw [parent?] at h
  split at h
  · cases h
  · rename_i hroot
    exact ⟨Bool.eq_false_of_not_eq_true hroot, (Option.some.inj h).symm⟩

theorem Reached.upToDate {p : Path} (h : Reached p) : p.UpToDate := by
  induction h with
  | root => rfl
  | push s _ ih => exact ih.push s
  | field name _ ih => exact ih.push _
  | element n _ ih => exact ih.push _
  | key raw _ ih => exact ih.push _
  | ofSegments steps => exact upToDate_ofSegments steps
  | subPath n _ _ => exact upToDate_ofSegments _
  | parent _ hparent _ =>
    rw [(parent?_eq_some hparent).2]
    exact upToDate_ofSegments _
  | ancestor _ hmem _ =>
    obtain ⟨n, -, rfl⟩ := List.mem_map.mp hmem
    exact upToDate_ofSegments _
  | read hread =>
    obtain ⟨steps, -, -, rfl⟩ := read_eq_ok hread
    exact upToDate_ofSegments steps

theorem UpToDate.subPath_isPrefix {p : Path} (h : p.UpToDate) (n : Nat) :
    (p.subPath n).text.toList <+: p.text.toList := by
  have hsteps := Segment.charsOf_append true (p.segments.take n) (p.segments.drop n)
  rw [List.take_append_drop, ← h, ← toList_text_ofSegments] at hsteps
  exact ⟨_, hsteps.symm⟩

theorem subPath_subPath (p : Path) (n m : Nat) :
    (p.subPath n).subPath m = p.subPath (min n m) := by
  rw [subPath, segments_subPath, List.take_take, Nat.min_comm, subPath]

/-! ## Parents -/

theorem isRoot_iff_length (p : Path) : p.isRoot = true ↔ p.length = 0 :=
  List.isEmpty_iff_length_eq_zero

theorem exists_length_of_parent? {p q : Path} (h : p.parent? = some q) :
    ∃ n, p.length = n + 1 ∧ q = p.subPath n := by
  obtain ⟨hroot, rfl⟩ := parent?_eq_some h
  have hne : p.segments ≠ [] := List.isEmpty_eq_false_iff.mp hroot
  exact ⟨p.length - 1, (Nat.sub_add_cancel (List.length_pos_iff.mpr hne)).symm, rfl⟩

theorem length_subPath (p : Path) (n : Nat) : (p.subPath n).length = min n p.length := by
  rw [length, segments_subPath, List.length_take, length]

theorem length_parent?_lt {p q : Path} (h : p.parent? = some q) : q.length < p.length := by
  obtain ⟨n, hlength, rfl⟩ := exists_length_of_parent? h
  rw [length_subPath]
  omega

/-- The parent, its parent and so on, without the root. -/
def upward (p : Path) : List Path :=
  match h : p.parent? with
  | none => []
  | some q =>
    have := length_parent?_lt h
    if q.isRoot then [] else q :: upward q
termination_by p.length

theorem ancestors_of_parent? {p q : Path} (h : p.parent? = some q) :
    p.ancestors = if q.isRoot then [] else q :: q.ancestors := by
  obtain ⟨n, hlength, rfl⟩ := exists_length_of_parent? h
  have hq : (p.subPath n).length = n := by
    rw [length_subPath]
    omega
  cases n with
  | zero =>
    rw [if_pos ((isRoot_iff_length _).mpr hq), ancestors, hlength]
    rfl
  | succ n =>
    have hroot : ¬ (p.subPath (n + 1)).isRoot = true := by
      rw [isRoot_iff_length]
      omega
    have hsame : ∀ k ∈ ((List.range (n + 1)).drop 1).reverse,
        (p.subPath (n + 1)).subPath k = p.subPath k := by
      intro k hk
      have hk' := List.mem_range.mp (List.mem_of_mem_drop (List.mem_reverse.mp hk))
      rw [subPath_subPath, Nat.min_eq_right (Nat.le_of_lt hk')]
    rw [if_neg hroot, ancestors, hlength, List.range_succ,
      List.drop_append_of_le_length (by simp), List.reverse_append, List.map_append, ancestors, hq,
      List.map_congr_left hsame]
    rfl

theorem ancestors_eq_upward (p : Path) : p.ancestors = p.upward := by
  fun_induction upward p with
  | case1 p h =>
    have hlength : p.length = 0 := by
      rw [← isRoot_iff_length]
      simpa [parent?] using h
    rw [ancestors, hlength]
    rfl
  | case2 p q h _ hroot => rw [ancestors_of_parent? h, if_pos hroot]
  | case3 p q h _ hroot ih => rw [ancestors_of_parent? h, if_neg hroot, ih]

theorem pairwise_length_ancestors (p : Path) :
    p.ancestors.Pairwise fun q r => r.length < q.length := by
  rw [ancestors, List.pairwise_map, List.pairwise_reverse]
  apply (List.pairwise_lt_range.drop).imp_of_mem
  intro m n hm hn hlt
  have hshort := List.mem_range.mp (List.mem_of_mem_drop hn)
  rw [length_subPath, length_subPath]
  omega

/-! ## Equality -/

theorem beq_iff_text (p q : Path) : (p == q) = true ↔ p.text = q.text := by
  show (p.text == q.text) = true ↔ p.text = q.text
  exact beq_iff_eq

theorem beq_iff_segments {p q : Path} (hp : p.UpToDate) (hq : q.UpToDate) (hplain : p.PlainlyNamed)
    (hplain' : q.PlainlyNamed) : (p == q) = true ↔ p.segments = q.segments := by
  rw [beq_iff_text, ← String.toList_inj, hp, hq]
  exact ⟨Segment.charsOf_inj hplain hplain', fun h => by rw [h]⟩

/-- However a path is reached, its text is that of its steps, a part of the path has a front of the
text, and the ancestors are the parents one after another. With plain names, two paths are equal
just when their steps are. -/
theorem text_follows_steps {p : Path} (h : Reached p) :
    p.text.toList = charsOf true p.segments ∧
    (∀ n, (p.subPath n).text.toList <+: p.text.toList) ∧
    (∀ n m, ((p.subPath n).subPath m).segments = (p.subPath (min n m)).segments) ∧
    (p.ancestors = p.upward ∧ p.ancestors.Pairwise fun q r => r.length < q.length) ∧
    ∀ q, Reached q → p.PlainlyNamed → q.PlainlyNamed →
      ((p == q) = true ↔ p.segments = q.segments) :=
  ⟨h.upToDate, h.upToDate.subPath_isPrefix, fun n m => by rw [subPath_subPath],
    ⟨p.ancestors_eq_upward, p.pairwise_length_ancestors⟩,
    fun _ hq => beq_iff_segments h.upToDate hq.upToDate⟩

/-- Part of a path that was put together step by step, and the path that a text reads as. -/
theorem text_follows_steps_of_part :
    let p := (((root.field "env").key "prod east").element 3).subPath 2
    let q := ofSegments [.field "env", .key "prod east"]
    p.text.toList = charsOf true p.segments ∧ p.ancestors = [root.field "env"] ∧
      (p == q) = true := by
  intro p q
  have hp : Reached p := .subPath 2 (.element 3 (.key "prod east" (.field "env" .root)))
  have hsteps : p.segments = q.segments := by simp [p, q, Path.field, Path.key, element]
  have hplain : q.PlainlyNamed := by simp [q, PlainlyNamed, Segment.Plain]
  have hplain' : p.PlainlyNamed := by rwa [PlainlyNamed, hsteps]
  have hread : read q.text = .ok q := by
    apply read_text_ofSegments (by simp)
    simp [Segment.Readable, Segment.Plain, Segment.FitsWord]
  obtain ⟨htext, -, -, -, hequal⟩ := text_follows_steps hp
  exact ⟨htext, rfl, (hequal q (.read hread) hplain' hplain).mpr hsteps⟩

end Path

end ConfigAtlas
