import Mathlib.Data.List.Induction
import Mathlib.Data.List.Nodup

/-!
# Facts about any list

What the reading of sources and the books kept about them need to know of lists, whatever the
lists are of.
-/

namespace ConfigAtlas.Lists

variable {α β : Type}

/-! ## As long as a test holds -/

section

variable {test : α → Bool}

theorem dropWhile_dropWhile {p q : α → Bool} (h : ∀ a, p a = true → q a = true) (l : List α) :
    (l.dropWhile p).dropWhile q = l.dropWhile q := by
  induction l with
  | nil => rfl
  | cons a l ih =>
    cases ha : p a with
    | true => rw [List.dropWhile_cons_of_pos ha, List.dropWhile_cons_of_pos (h a ha), ih]
    | false => rw [List.dropWhile_cons_of_neg (by simp [ha])]

theorem not_of_dropWhile_eq_cons {a : α} {l rest : List α} (h : l.dropWhile test = a :: rest) :
    test a = false := by
  have hhead := List.head?_dropWhile_not test l
  rw [h] at hhead
  simpa using hhead

theorem dropWhile_eq_self {p q : α → Bool} (h : ∀ a, q a = true → p a = true) {l : List α}
    (hl : l.dropWhile p = l) : l.dropWhile q = l := by
  cases l with
  | nil => rfl
  | cons a l =>
    apply List.dropWhile_cons_of_neg
    intro ha
    have hnot := not_of_dropWhile_eq_cons hl
    rw [h a ha] at hnot
    cases hnot

theorem take_length_takeWhile (test : α → Bool) (l : List α) :
    l.take (l.takeWhile test).length = l.takeWhile test :=
  (List.prefix_iff_eq_take.mp (List.takeWhile_prefix test)).symm

theorem drop_length_takeWhile (test : α → Bool) (l : List α) :
    l.drop (l.takeWhile test).length = l.dropWhile test := by
  have happ := List.takeWhile_append_dropWhile (p := test) (l := l)
  exact (congrArg (List.drop _) happ.symm).trans List.drop_left

theorem findIdx?_not (test : α → Bool) (l : List α) :
    l.findIdx? (!test ·) =
      if l.dropWhile test = [] then none else some (l.takeWhile test).length := by
  induction l with
  | nil => rfl
  | cons a l ih =>
    rw [List.findIdx?_cons, List.dropWhile_cons, List.takeWhile_cons, ih]
    cases test a with
    | true =>
      simp only [Bool.not_true, Bool.false_eq_true, if_false, if_true, List.length_cons]
      split <;> rfl
    | false => rfl

theorem takeWhile_append_cons {a : α} (h : test a = false) (front behind : List α) :
    (front ++ a :: behind).takeWhile test = front.takeWhile test ∧
      (front ++ a :: behind).dropWhile test = front.dropWhile test ++ a :: behind := by
  induction front with
  | nil => simp [h]
  | cons b front ih =>
    cases hb : test b with
    | true => simp [hb, ih.1, ih.2]
    | false => simp [hb]

theorem takeWhile_append_of_lt {front behind : List α}
    (h : ((front ++ behind).takeWhile test).length < front.length) (other : List α) :
    (front ++ other).takeWhile test = front.takeWhile test ∧
      (front ++ other).dropWhile test = front.dropWhile test ++ other := by
  induction front with
  | nil => exact absurd h (Nat.not_lt_zero _)
  | cons a front ih =>
    cases ha : test a with
    | true =>
      rw [List.cons_append, List.takeWhile_cons_of_pos ha, List.length_cons, List.length_cons,
        Nat.add_lt_add_iff_right] at h
      simp [ha, ih h]
    | false => simp [ha]

theorem length_le_of_prefix {a : α} (h : test a = false) {front t l : List α}
    (hl : l <+: front ++ a :: t) (hall : ∀ b ∈ l, test b = true) : l.length ≤ front.length := by
  apply Nat.le_of_not_lt
  intro hlt
  have hfirst : front ++ [a] <+: front ++ a :: t :=
    (List.prefix_append_right_inj front).mpr ⟨t, rfl⟩
  have hle : (front ++ [a]).length ≤ l.length := by
    rw [List.length_append, List.length_singleton]
    omega
  have hmem := (List.prefix_of_prefix_length_le hfirst hl hle).subset
    (List.mem_append_right front (List.mem_singleton_self a))
  rw [hall a hmem] at h
  cases h

end

/-! ## Stretches -/

section

variable {l front rest : List α} {a : α} {i j : Nat}

theorem isPrefixOf_append_cons [BEq α] [LawfulBEq α] (h : a ∉ front) (l rest : List α) :
    front.isPrefixOf (l ++ a :: rest) = front.isPrefixOf l := by
  induction l generalizing front with
  | nil =>
    cases front with
    | nil => rfl
    | cons b front =>
      have hb : (b == a) = false := beq_eq_false_iff_ne.mpr (List.ne_of_not_mem_cons h).symm
      simp [List.isPrefixOf, hb]
  | cons c l ih =>
    cases front with
    | nil => rfl
    | cons b front =>
      rw [List.cons_append, List.isPrefixOf, List.isPrefixOf, ih (List.not_mem_of_not_mem_cons h)]

theorem take_append_between (l : List α) (h : i ≤ j) :
    l.take j = l.take i ++ (l.take j).drop i := by
  have hsplit := (List.take_append_drop i (l.take j)).symm
  rwa [List.take_take, Nat.min_eq_left h] at hsplit

theorem drop_behind (h : l.drop i = front ++ rest) : l.drop (i + front.length) = rest := by
  rw [← List.drop_drop, h, List.drop_left]

theorem le_length_of_drop (h : l.drop i = a :: rest) : i ≤ l.length := by
  have hlength := congrArg List.length h
  rw [List.length_drop, List.length_cons] at hlength
  omega

theorem getElem?_of_prefix_drop (h : a :: rest <+: l.drop i) : l[i]? = some a := by
  obtain ⟨later, hl⟩ := h
  rw [← List.head?_drop, ← hl]
  rfl

theorem prefix_drop_add (h : front ++ rest <+: l.drop i) : rest <+: l.drop (i + front.length) := by
  obtain ⟨later, hl⟩ := h
  exact ⟨later, (drop_behind (hl.symm.trans (List.append_assoc front rest later))).symm⟩

theorem prefix_drop_succ (h : a :: rest <+: l.drop i) : rest <+: l.drop (i + 1) :=
  @prefix_drop_add α l [a] rest i h

theorem modify_append_cons (h : front.length = i) (a : α) (rest : List α) (f : α → α) :
    (front ++ a :: rest).modify i f = front ++ f a :: rest := by
  subst h
  rw [List.modify_eq_take_drop, List.take_left, List.drop_left, List.modifyHead_cons]

end

/-! ## Without repeats -/

section

variable [BEq α] [LawfulBEq α]

theorem eraseDups_concat (as : List α) (a : α) :
    (as ++ [a]).eraseDups = if a ∈ as then as.eraseDups else as.eraseDups ++ [a] := by
  rw [List.eraseDups_append]
  by_cases h : a ∈ as <;> simp [List.removeAll, h, List.eraseDups_cons]

theorem nodup_eraseDups (as : List α) : as.eraseDups.Nodup := by
  induction as using List.reverseRecOn with
  | nil => exact List.nodup_nil
  | append_singleton as a ih =>
    rw [eraseDups_concat]
    split
    · exact ih
    · rename_i hmem
      refine List.nodup_append.mpr ⟨ih, List.nodup_singleton a, ?_⟩
      intro b hb c hc
      rw [List.mem_singleton.mp hc]
      rintro rfl
      exact hmem (List.mem_eraseDups.mp hb)

theorem eraseDups_filter (test : α → Bool) (as : List α) :
    (as.filter test).eraseDups = as.eraseDups.filter test := by
  induction as using List.reverseRecOn with
  | nil => rfl
  | append_singleton as a ih =>
    rw [List.filter_append, eraseDups_concat]
    cases ha : test a with
    | true =>
      rw [List.filter_cons_of_pos ha, List.filter_nil, eraseDups_concat, ih]
      by_cases hmem : a ∈ as <;> simp [hmem, ha]
    | false =>
      rw [List.filter_cons_of_neg (by simp [ha]), List.filter_nil, List.append_nil, ih]
      by_cases hmem : a ∈ as <;> simp [hmem, ha]

theorem eraseDups_map [BEq β] [LawfulBEq β] {f : α → β} {as : List α}
    (h : ∀ a ∈ as, ∀ b ∈ as, f a = f b → a = b) :
    (as.map f).eraseDups = as.eraseDups.map f := by
  induction as using List.reverseRecOn with
  | nil => rfl
  | append_singleton as a ih =>
    have hmem : f a ∈ as.map f ↔ a ∈ as := by
      constructor
      · intro hin
        obtain ⟨b, hb, hba⟩ := List.mem_map.mp hin
        exact h b (List.mem_append_left _ hb) a (by simp) hba ▸ hb
      · exact List.mem_map_of_mem
    have has := ih fun a ha b hb =>
      h a (List.mem_append_left _ ha) b (List.mem_append_left _ hb)
    rw [List.map_append, List.map_singleton, eraseDups_concat, eraseDups_concat, has]
    by_cases hin : a ∈ as
    · rw [if_pos hin, if_pos (hmem.mpr hin)]
    · rw [if_neg hin, if_neg (mt hmem.mp hin), List.map_append, List.map_singleton]

end

/-! ## The one that answers -/

section

variable [BEq α] [LawfulBEq α] {rows : List (α × β)} {key : α} {value : β}

theorem lookup_of_forall (hmem : (key, value) ∈ rows)
    (hsame : ∀ other, (key, other) ∈ rows → other = value) : rows.lookup key = some value := by
  cases hlookup : rows.lookup key with
  | none =>
    rw [List.lookup_eq_none_iff] at hlookup
    exact absurd (beq_self_eq_true key) (by simpa using hlookup _ hmem)
  | some other =>
    obtain ⟨before, after, rfl, -⟩ := List.lookup_eq_some_iff.mp hlookup
    rw [hsame other (by simp)]

theorem lookup_of_nodup (h : (rows.map Prod.fst).Nodup) (hmem : (key, value) ∈ rows) :
    rows.lookup key = some value := by
  apply lookup_of_forall hmem
  intro other hother
  exact (Prod.mk.inj (List.inj_on_of_nodup_map h hother hmem rfl)).2

end

theorem findSome?_eq_of_unique {f : α → Option β} {as : List α} {a : α} (ha : a ∈ as)
    (hother : ∀ b, b ≠ a → f b = none) : as.findSome? f = f a := by
  cases hf : f a with
  | none =>
    rw [List.findSome?_eq_none_iff]
    intro b _
    by_cases hb : b = a
    · rw [hb, hf]
    · exact hother b hb
  | some value =>
    obtain ⟨before, after, rfl, hnew⟩ := List.eq_append_cons_of_mem ha
    rw [List.findSome?_eq_some_iff]
    refine ⟨before, a, after, rfl, hf, ?_⟩
    rintro b hb
    exact hother b fun hba => hnew (hba ▸ hb)

/-! ## Numbers -/

theorem filter_filter_lt {c c' : Nat} (h : c ≤ c') (rows : List (Nat × α)) :
    (rows.filter (·.1 < c')).filter (·.1 < c) = rows.filter (·.1 < c) := by
  rw [List.filter_filter]
  apply List.filter_congr
  intro row _
  rw [← Bool.decide_and, decide_eq_decide]
  omega

theorem filter_lt_eq_self {c c' : Nat} (h : c ≤ c') {rows : List (Nat × α)}
    (hrows : rows.filter (·.1 < c) = rows) : rows.filter (·.1 < c') = rows := by
  rw [List.filter_eq_self] at hrows ⊢
  intro row hrow
  have := hrows row hrow
  rw [decide_eq_true_eq] at this ⊢
  omega

theorem getElem_le_iff {xs : List Nat} (h : xs.Pairwise (· < ·)) (x : Nat) {i : Nat}
    (hi : i < xs.length) : xs[i] ≤ x ↔ i < xs.countP (· ≤ x) := by
  induction xs generalizing i with
  | nil => cases hi
  | cons y xs ih =>
    obtain ⟨hlater, hrest⟩ := List.pairwise_cons.mp h
    by_cases hy : y ≤ x
    · rw [List.countP_cons_of_pos (by simpa using hy)]
      cases i with
      | zero => simp [hy]
      | succ i => simpa using ih hrest (Nat.lt_of_succ_lt_succ hi)
    · have hnone : xs.countP (· ≤ x) = 0 := by
        rw [List.countP_eq_zero]
        intro z hz
        have := hlater z hz
        rw [decide_eq_true_eq]
        omega
      rw [List.countP_cons_of_neg (by simpa using hy), hnone]
      cases i with
      | zero => simp [hy]
      | succ i =>
        have := hlater _ (List.getElem_mem (Nat.lt_of_succ_lt_succ hi))
        simp only [List.getElem_cons_succ, Nat.not_lt_zero, iff_false]
        omega

end ConfigAtlas.Lists
