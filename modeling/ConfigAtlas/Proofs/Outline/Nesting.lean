import ConfigAtlas.Outline.Context
import ConfigAtlas.Proofs.Lists

/-!
# What closing and opening leave of a context

To close at a column forgets whatever a deeper line has left behind, so a node that comes back to
its own column comes back to the context it was opened in.
-/

namespace ConfigAtlas.Outline.Context

variable {ctx : Context} {c c' : Nat}

/-- Closes whatever is deeper than an item, and an item as deep. -/
def closeForItem (ctx : Context) (depth : Nat) : Context :=
  { ctx with
    holders := ctx.holders.dropWhile fun h => depth < h.depth || (h.depth == depth && h.isItem)
    nextIndices := ctx.nextIndices.filter (·.1 < depth) }

def nextIndex (ctx : Context) (depth : Nat) : Nat := (ctx.nextIndices.lookup depth).getD 0

def openPair (ctx : Context) (path : Path) (depth : Nat) : Context :=
  { ctx with holders := ⟨path, depth, false⟩ :: ctx.holders }

def openElement (ctx : Context) (depth n : Nat) : Context :=
  { ctx with
    holders := ⟨ctx.base.element n, depth, true⟩ :: ctx.holders
    nextIndices := (depth, n + 1) :: ctx.nextIndices }

theorem openItem_eq (ctx : Context) (depth : Nat) :
    ctx.openItem depth = (ctx.closeForItem depth).openElement depth (ctx.nextIndex depth) := rfl

@[simp] theorem base_openElement (ctx : Context) (depth n : Nat) :
    (ctx.openElement depth n).base = ctx.base.element n := rfl

/-! ## Closing twice -/

theorem closeForPair_closeForPair (h : c ≤ c') (ctx : Context) :
    (ctx.closeForPair c').closeForPair c = ctx.closeForPair c := by
  simp only [closeForPair, Lists.filter_filter_lt h, mk.injEq, and_true]
  apply Lists.dropWhile_dropWhile
  intro holder hdeep
  rw [decide_eq_true_eq] at hdeep ⊢
  omega

theorem closeForItem_closeForPair (h : c < c') (ctx : Context) :
    (ctx.closeForPair c').closeForItem c = ctx.closeForItem c := by
  simp only [closeForItem, closeForPair, Lists.filter_filter_lt (Nat.le_of_lt h), mk.injEq,
    and_true]
  apply Lists.dropWhile_dropWhile
  intro holder hdeep
  rw [decide_eq_true_eq] at hdeep
  rw [Bool.or_eq_true, decide_eq_true_eq]
  exact Or.inl (Nat.lt_of_lt_of_le h hdeep)

theorem closeForPair_closeForItem (ctx : Context) :
    (ctx.closeForItem c).closeForPair c = ctx.closeForPair c := by
  simp only [closeForItem, closeForPair, Lists.filter_filter_lt (Nat.le_refl c), mk.injEq,
    and_true]
  apply Lists.dropWhile_dropWhile
  intro holder hdeep
  rw [Bool.or_eq_true, Bool.and_eq_true, decide_eq_true_eq, beq_iff_eq] at hdeep
  rw [decide_eq_true_eq]
  omega

theorem nextIndex_closeForPair (h : c < c') (ctx : Context) :
    (ctx.closeForPair c').nextIndex c = ctx.nextIndex c := by
  simp only [nextIndex, closeForPair]
  congr 1
  induction ctx.nextIndices with
  | nil => rfl
  | cons entry rest ih =>
    obtain ⟨depth, n⟩ := entry
    by_cases hdepth : depth < c'
    · rw [List.filter_cons_of_pos (by simpa using hdepth), List.lookup_cons, List.lookup_cons, ih]
    · have hne : (c == depth) = false := beq_eq_false_iff_ne.mpr (by omega)
      rw [List.filter_cons_of_neg (by simpa using hdepth), List.lookup_cons, hne, ih]

theorem closeForPair_congr {ctx' : Context} (h : c ≤ c')
    (hclosed : ctx'.closeForPair c' = ctx.closeForPair c') :
    ctx'.closeForPair c = ctx.closeForPair c := by
  rw [← closeForPair_closeForPair h, hclosed, closeForPair_closeForPair h]

theorem closeForItem_congr {ctx' : Context} (h : c < c')
    (hclosed : ctx'.closeForPair c' = ctx.closeForPair c') :
    ctx'.closeForItem c = ctx.closeForItem c := by
  rw [← closeForItem_closeForPair h, hclosed, closeForItem_closeForPair h]

theorem nextIndex_congr {ctx' : Context} (h : c < c')
    (hclosed : ctx'.closeForPair c' = ctx.closeForPair c') :
    ctx'.nextIndex c = ctx.nextIndex c := by
  rw [← nextIndex_closeForPair h, hclosed, nextIndex_closeForPair h]

/-! ## Contexts that nothing at a column changes -/

/-- No holder is as deep as the column, and no list is. -/
def Shallow (column : Nat) (ctx : Context) : Prop := ctx.closeForPair column = ctx

/-- As deep as the column there is at most the key whose list stands there. -/
def ListShallow (column : Nat) (ctx : Context) : Prop := ctx.closeForItem column = ctx

theorem shallow_closeForPair (column : Nat) (ctx : Context) :
    Shallow column (ctx.closeForPair column) :=
  closeForPair_closeForPair (Nat.le_refl column) ctx

theorem listShallow_closeForItem (column : Nat) (ctx : Context) :
    ListShallow column (ctx.closeForItem column) := by
  simp only [ListShallow, closeForItem]
  rw [Lists.dropWhile_dropWhile (fun _ h => h), Lists.filter_filter_lt (Nat.le_refl column)]

theorem Shallow.withBlock (h : Shallow c ctx) (block? : Option Nat) :
    Shallow c { ctx with block? := block? } := by
  have hclosed : ctx.closeForPair c = ctx := h
  exact congrArg (fun closed : Context => { closed with block? := block? }) hclosed

theorem ListShallow.withBlock (h : ListShallow c ctx) (block? : Option Nat) :
    ListShallow c { ctx with block? := block? } := by
  have hclosed : ctx.closeForItem c = ctx := h
  exact congrArg (fun closed : Context => { closed with block? := block? }) hclosed

theorem shallow_empty (column : Nat) : Shallow column {} := rfl

theorem Shallow.listShallow (h : Shallow c ctx) : ListShallow c ctx := by
  have hclosed : (ctx.closeForPair c).nextIndices = ctx.nextIndices := congrArg nextIndices h
  have hholders : ctx.holders.dropWhile (c ≤ ·.depth) = ctx.holders := congrArg holders h
  have hkept := Lists.dropWhile_eq_self
    (q := fun h => c < h.depth || (h.depth == c && h.isItem)) ?_ hholders
  · unfold ListShallow closeForItem
    rw [hkept, show ctx.nextIndices.filter (·.1 < c) = ctx.nextIndices from hclosed]
  · intro holder hdeep
    rw [Bool.or_eq_true, Bool.and_eq_true, decide_eq_true_eq, beq_iff_eq] at hdeep
    rw [decide_eq_true_eq]
    omega

theorem Shallow.filter_nextIndices (h : Shallow c ctx) (hc : c ≤ c') :
    ctx.nextIndices.filter (·.1 < c') = ctx.nextIndices := by
  exact Lists.filter_lt_eq_self hc (congrArg nextIndices h)

theorem Shallow.nextIndex_eq_zero (h : Shallow c ctx) : ctx.nextIndex c = 0 := by
  have hclosed := h.filter_nextIndices (Nat.le_refl c)
  have hlookup : ctx.nextIndices.lookup c = none := by
    rw [List.lookup_eq_none_iff]
    intro entry hentry
    rw [List.filter_eq_self] at hclosed
    have := hclosed entry hentry
    rw [decide_eq_true_eq] at this
    rw [bne_iff_ne]
    omega
  rw [nextIndex, hlookup]
  rfl

/-! ## Opening -/

section openPair

variable (path : Path)

theorem closeForPair_openPair (ctx : Context) :
    (ctx.openPair path c).closeForPair c = ctx.closeForPair c := by
  simp [openPair, closeForPair]

theorem Shallow.openPair (h : Shallow c ctx) (hc : c < c') :
    Shallow c' (ctx.openPair path c) := by
  have hclosed := h.filter_nextIndices (Nat.le_of_lt hc)
  simp only [Shallow, closeForPair, Context.openPair, hclosed]
  rw [List.dropWhile_cons_of_neg (by simpa using hc)]

theorem Shallow.listShallow_openPair (h : Shallow c ctx) :
    ListShallow c (ctx.openPair path c) := by
  have hclosed := h.filter_nextIndices (Nat.le_refl c)
  simp only [ListShallow, closeForItem, Context.openPair, hclosed]
  rw [List.dropWhile_cons_of_neg (by simp)]

theorem Shallow.nextIndex_openPair (h : Shallow c ctx) : (ctx.openPair path c).nextIndex c = 0 :=
  h.nextIndex_eq_zero

theorem Shallow.openPair_at (h : Shallow c ctx) (column : Nat) :
    (ListShallow column (ctx.openPair path c) ∧ (ctx.openPair path c).nextIndex column = 0) ∨
    ((ctx.openPair path c).closeForItem column = ctx.closeForItem column ∧
      (ctx.openPair path c).nextIndex column = ctx.nextIndex column) := by
  rcases Nat.lt_trichotomy c column with hlt | rfl | hgt
  · have hopened := h.openPair path hlt
    exact .inl ⟨hopened.listShallow, hopened.nextIndex_eq_zero⟩
  · exact .inl ⟨h.listShallow_openPair path, h.nextIndex_openPair path⟩
  · have hclosed := closeForPair_openPair path (c := c) ctx
    exact .inr ⟨closeForItem_congr hgt hclosed, nextIndex_congr hgt hclosed⟩

end openPair

section openElement

variable (n : Nat)

theorem closeForItem_openElement (ctx : Context) :
    (ctx.openElement c n).closeForItem c = ctx.closeForItem c := by
  simp [openElement, closeForItem]

theorem ListShallow.openElement (h : ListShallow c ctx) (hc : c < c') :
    Shallow c' (ctx.openElement c n) := by
  have hclosed : ctx.nextIndices.filter (·.1 < c) = ctx.nextIndices := congrArg nextIndices h
  have hkept := Lists.filter_lt_eq_self (Nat.le_of_lt hc) hclosed
  simp only [Shallow, closeForPair, Context.openElement]
  rw [List.dropWhile_cons_of_neg (by simpa using hc),
    List.filter_cons_of_pos (by simpa using hc), hkept]

theorem nextIndex_openElement (ctx : Context) : (ctx.openElement c n).nextIndex c = n + 1 := by
  simp [nextIndex, openElement]

theorem closeForPair_openElement (ctx : Context) :
    (ctx.openElement c n).closeForPair c = ctx.closeForPair c := by
  rw [← closeForPair_closeForItem, closeForItem_openElement, closeForPair_closeForItem]

/-- For an item at any column the element stays open and no list goes on, or its own list goes on,
or its list is closed with it. -/
theorem ListShallow.openElement_at (h : ListShallow c ctx) (column : Nat) :
    (ListShallow column (ctx.openElement c n) ∧ (ctx.openElement c n).nextIndex column = 0) ∨
    ((ctx.openElement c n).closeForItem column = ctx ∧
      (ctx.openElement c n).nextIndex column = n + 1) ∨
    ((ctx.openElement c n).closeForItem column = ctx.closeForItem column ∧
      (ctx.openElement c n).nextIndex column = ctx.nextIndex column) := by
  rcases Nat.lt_trichotomy c column with hlt | rfl | hgt
  · have hopened := h.openElement n hlt
    exact .inl ⟨hopened.listShallow, hopened.nextIndex_eq_zero⟩
  · exact .inr (.inl ⟨(closeForItem_openElement n ctx).trans h, nextIndex_openElement n ctx⟩)
  · have hclosed := closeForPair_openElement n (c := c) ctx
    exact .inr (.inr ⟨closeForItem_congr hgt hclosed, nextIndex_congr hgt hclosed⟩)

end openElement

/-! ## Coming back from what was opened -/

section

variable {after before : Context} {path : Path} {n : Nat}

theorem closeForPair_of_closeForItem (h : after.closeForItem c = before) :
    after.closeForPair c = before.closeForPair c := by
  rw [← closeForPair_closeForItem, h]

theorem closeForPair_of_openPair (hbefore : Shallow c before) (hc : c < c')
    (h : after.closeForPair c' = before.openPair path c) : after.closeForPair c = before := by
  rw [← closeForPair_closeForPair (Nat.le_of_lt hc), h, closeForPair_openPair]
  exact hbefore

theorem closeForItem_of_openElement (hbefore : ListShallow c before) (hc : c < c')
    (h : after.closeForPair c' = before.openElement c n) : after.closeForItem c = before := by
  rw [← closeForItem_closeForPair hc, h, closeForItem_openElement]
  exact hbefore

theorem nextIndex_of_openElement (hc : c < c')
    (h : after.closeForPair c' = before.openElement c n) : after.nextIndex c = n + 1 := by
  rw [← nextIndex_closeForPair hc, h, nextIndex_openElement]

end

end ConfigAtlas.Outline.Context
