import ConfigAtlas.Text.Elements

/-! # Where a comma list is cut, and where it is not -/

namespace ConfigAtlas.Text

/-- With `low` brackets open or more, the scan cuts nothing off the text, and behind it as many
brackets are open as before it. -/
def Passes (low : Nat) (t : List Char) : Prop :=
  ∀ depth, low ≤ depth → ∀ rest, commaParts ⟨depth, none, false⟩ (t ++ rest) =
    (commaParts ⟨depth, none, false⟩ rest).modifyHead (t ++ ·)

namespace Passes

variable {low : Nat} {s t : List Char}

theorem nil (low : Nat) : Passes low [] := by
  intro depth _ rest
  exact (congrFun List.modifyHead_id (commaParts ⟨depth, none, false⟩ rest)).symm

theorem append (hs : Passes low s) (ht : Passes low t) : Passes low (s ++ t) := by
  intro depth hdepth rest
  rw [List.append_assoc, hs depth hdepth, ht depth hdepth, List.modifyHead_modifyHead]
  congr 1
  funext u
  exact (List.append_assoc s t u).symm

theorem mono {high : Nat} (h : Passes low t) (hle : low ≤ high) : Passes high t :=
  fun depth hdepth => h depth (Nat.le_trans hle hdepth)

theorem of_step {c : Char} (h : ∀ depth, low ≤ depth →
    Nesting.cuts ⟨depth, none, false⟩ c = false ∧
      Nesting.step ⟨depth, none, false⟩ c = ⟨depth, none, false⟩) : Passes low [c] := by
  intro depth hdepth rest
  obtain ⟨hcuts, hstep⟩ := h depth hdepth
  rw [List.singleton_append, commaParts, if_neg (by simp [hcuts]), hstep]
  rfl

theorem comma : Passes 1 [','] :=
  of_step fun depth hdepth => ⟨by simp [Nesting.cuts]; omega, rfl⟩

theorem of_chars (h : ∀ c ∈ t, Passes low [c]) : Passes low t := by
  induction t with
  | nil => exact nil low
  | cons c t ih =>
    exact append (h c List.mem_cons_self) (ih fun d hd => h d (List.mem_cons_of_mem c hd))

theorem enclosed (h : Passes 1 t) : Passes 0 ('[' :: (t ++ [']'])) := by
  intro depth _ rest
  have hopen : Nesting.step ⟨depth, none, false⟩ '[' = ⟨depth + 1, none, false⟩ := rfl
  have hclose : Nesting.step ⟨depth + 1, none, false⟩ ']' = ⟨depth, none, false⟩ := rfl
  have hcuts : ∀ n c, c ≠ ',' → Nesting.cuts n c = false := by
    intro n c hc
    simp [Nesting.cuts, hc]
  rw [List.cons_append, List.append_assoc, List.singleton_append, commaParts,
    if_neg (by rw [hcuts _ _ (by decide)]; decide), hopen, h (depth + 1) (Nat.le_add_left 1 depth),
    commaParts, if_neg (by rw [hcuts _ _ (by decide)]; decide), hclose,
    List.modifyHead_modifyHead, List.modifyHead_modifyHead]
  congr 1
  funext u
  simp

end Passes

/-- From the start the scan cuts nothing off the text, and goes on behind it as from the start. -/
def Uncut (t : List Char) : Prop :=
  ∀ rest, commaParts {} (t ++ rest) = (commaParts {} rest).modifyHead (t ++ ·)

theorem Passes.uncut {t : List Char} (h : Passes 0 t) : Uncut t := h 0 (Nat.le_refl 0)

theorem commaParts_singleton {t : List Char} (h : Uncut t) : commaParts {} t = [t] := by
  have hparts := h []
  rw [List.append_nil] at hparts
  rw [hparts]
  simp [commaParts]

theorem commaParts_append_comma {t : List Char} (h : Uncut t) (rest : List Char) :
    commaParts {} (t ++ ',' :: rest) = t :: commaParts {} rest := by
  have hcuts : Nesting.cuts {} ',' = true := rfl
  rw [h, commaParts, if_pos hcuts]
  simp

theorem commaParts_intercalate {parts : List (List Char)} (hne : parts ≠ [])
    (h : ∀ part ∈ parts, Uncut part) : commaParts {} ([','].intercalate parts) = parts := by
  induction parts with
  | nil => exact absurd rfl hne
  | cons part rest ih =>
    have hpart := h part List.mem_cons_self
    cases rest with
    | nil =>
      rw [List.intercalate_singleton, commaParts_singleton hpart]
    | cons next rest =>
      rw [List.intercalate_cons_cons, List.append_assoc, List.singleton_append,
        commaParts_append_comma hpart,
        ih (by simp) fun u hu => h u (List.mem_cons_of_mem part hu)]

/-! ## How many elements -/

/-- A comma cuts where everything in front of it is closed. -/
def cutsAt (n : Nesting) (t : List Char) (i : Nat) : Bool :=
  t[i]? == some ',' && (t.take i).foldl Nesting.step n == {}

/-- How many commas stand outside quotes and brackets. -/
def cutCount (t : List Char) : Nat := (List.range t.length).countP (cutsAt {} t)

/-- Nothing is guarded outside quotes. -/
def Nesting.Sound (n : Nesting) : Prop := n.quote = none → n.escaped = false

theorem Nesting.Sound.step {n : Nesting} (h : n.Sound) (c : Char) : (n.step c).Sound := by
  obtain ⟨depth, quote, escaped⟩ := n
  unfold Sound at h ⊢
  cases quote with
  | none =>
    obtain rfl : escaped = false := h rfl
    simp only [Nesting.step]
    repeat' split
    all_goals simp
  | some quote =>
    simp only [Nesting.step]
    repeat' split
    all_goals simp_all

theorem Nesting.Sound.cuts_eq {n : Nesting} (h : n.Sound) (c : Char) :
    n.cuts c = (c == ',' && n == {}) := by
  obtain ⟨depth, quote, escaped⟩ := n
  unfold Sound at h
  rw [Bool.eq_iff_iff]
  simp only [cuts, Bool.and_eq_true, beq_iff_eq, Option.isNone_iff_eq_none, mk.injEq] at h ⊢
  constructor
  · rintro ⟨⟨hc, hquote⟩, hdepth⟩
    exact ⟨hc, hdepth, hquote, h hquote⟩
  · rintro ⟨hc, hdepth, hquote, -⟩
    exact ⟨⟨hc, hquote⟩, hdepth⟩

theorem length_commaParts {n : Nesting} (h : n.Sound) (t : List Char) :
    (commaParts n t).length = (List.range t.length).countP (cutsAt n t) + 1 := by
  induction t generalizing n with
  | nil => rfl
  | cons c t ih =>
    have hrest : (List.range t.length).countP (cutsAt n (c :: t) ∘ Nat.succ) =
        (List.range t.length).countP (cutsAt (n.step c) t) := rfl
    have hfirst : cutsAt n (c :: t) 0 = n.cuts c := by
      rw [h.cuts_eq]
      rfl
    rw [List.length_cons, List.range_succ_eq_map, List.countP_cons, List.countP_map, hrest, hfirst,
      commaParts]
    split
    · rename_i hcuts
      rw [h.cuts_eq, Bool.and_eq_true, beq_iff_eq, beq_iff_eq] at hcuts
      obtain ⟨rfl, rfl⟩ := hcuts
      exact congrArg (· + 1) (ih h)
    · rw [List.length_modifyHead]
      exact ih (h.step c)

end ConfigAtlas.Text

namespace ConfigAtlas.Piece

theorem getElem?_consecutive (c : Char) (start : Nat) (ts : List (List Char)) (n : Nat) :
    (consecutive start ts)[n]? =
      ts[n]?.map fun t => ⟨start + ((ts.take n).flatMap (· ++ [c])).length, t⟩ := by
  induction ts generalizing start n with
  | nil => simp [consecutive]
  | cons t rest ih =>
    cases n with
    | zero => simp [consecutive]
    | succ n => simp [consecutive, ih, Nat.add_assoc, Nat.add_comm 1]

end ConfigAtlas.Piece
