import Mathlib
import ConfigAtlas.Proofs.Path.Address

/-!
# Trees of paths whose lists have no gaps

Each path of such a tree has its parent in it, and each item of a list the item before it. This is
kept when a child is added to a path of the tree, and then any number of items to a new list. The
names on the way are fields.
-/

namespace ConfigAtlas.Path

/-- Whatever hangs below a node does so by nodes, and lists count from zero without a gap. -/
structure Gapless (tree : Set (List Segment)) : Prop where
  nil_not_mem : [] ∉ tree
  parent_mem : ∀ base s, base ++ [s] ∈ tree → base = [] ∨ base ∈ tree
  before_mem : ∀ base n, base ++ [.index (n + 1)] ∈ tree → base ++ [.index n] ∈ tree
  map_filed : ∀ steps ∈ tree, steps.map Segment.filed = steps

/-- The first `n` items of the list that stands at `base`. -/
def items (base : List Segment) (n : Nat) : Set (List Segment) :=
  {steps | ∃ i < n, steps = base ++ [.index i]}

theorem mem_items {base steps : List Segment} {n : Nat} :
    steps ∈ items base n ↔ ∃ i < n, steps = base ++ [.index i] := Iff.rfl

theorem items_succ (base : List Segment) (n : Nat) :
    items base (n + 1) = insert (base ++ [.index n]) (items base n) := by
  ext steps
  simp only [mem_items, Set.mem_insert_iff, Nat.lt_succ_iff_lt_or_eq, or_and_right, exists_or,
    exists_eq_left]
  exact or_comm

namespace Gapless

variable {tree : Set (List Segment)} {base : List Segment}

theorem empty : Gapless ∅ := ⟨by simp, by simp, by simp, by simp⟩

theorem insert (h : Gapless tree) {s : Segment} (hs : s.filed = s)
    (hbase : base = [] ∨ base ∈ tree)
    (hbefore : ∀ n, s = .index (n + 1) → base ++ [.index n] ∈ tree) :
    Gapless (insert (base ++ [s]) tree) where
  nil_not_mem := by
    simp [h.nil_not_mem]
  parent_mem := by
    intro base' s' hmem
    rcases Set.mem_insert_iff.mp hmem with heq | hmem
    · obtain ⟨rfl, -⟩ := List.append_inj' heq rfl
      exact hbase.imp id (Set.mem_insert_of_mem _)
    · exact (h.parent_mem base' s' hmem).imp id (Set.mem_insert_of_mem _)
  before_mem := by
    intro base' n hmem
    rcases Set.mem_insert_iff.mp hmem with heq | hmem
    · obtain ⟨rfl, hn⟩ := List.append_inj' heq rfl
      exact Set.mem_insert_of_mem _ (hbefore n (List.singleton_inj.mp hn).symm)
    · exact Set.mem_insert_of_mem _ (h.before_mem base' n hmem)
  map_filed := by
    intro steps hmem
    rcases Set.mem_insert_iff.mp hmem with rfl | hmem
    · -- The base is empty or a path of the tree, which has no keys.
      have hfields : base.map Segment.filed = base := by
        rcases hbase with rfl | hbase
        · rfl
        · exact h.map_filed base hbase
      rw [List.map_append, hfields, List.map_singleton, hs]
    · exact h.map_filed steps hmem

theorem insertItems (h : Gapless tree) (hbase : base ∈ tree) (n : Nat) :
    Gapless (tree ∪ items base n) := by
  induction n with
  | zero =>
    have hnone : items base 0 = ∅ := by simp [items]
    rw [hnone, Set.union_empty]
    exact h
  | succ n ih =>
    rw [items_succ, Set.union_insert]
    apply ih.insert rfl (.inr (.inl hbase))
    rintro m ⟨⟩
    exact .inr ⟨m, Nat.lt_succ_self m, rfl⟩

/-! ## The whole tree -/

theorem mem_of_prefix (h : Gapless tree) {steps front : List Segment} (hmem : steps ∈ tree)
    (hfront : front <+: steps) (hne : front ≠ []) : front ∈ tree := by
  obtain ⟨more, rfl⟩ := hfront
  induction more using List.reverseRecOn with
  | nil => simpa using hmem
  | append_singleton more s ih =>
    rw [← List.append_assoc] at hmem
    rcases h.parent_mem _ s hmem with hnil | hparent
    · exact absurd (List.append_eq_nil_iff.mp hnil).1 hne
    · exact ih hparent

theorem exists_length (h : Gapless tree) (hfinite : tree.Finite) (base : List Segment) :
    ∃ n, ∀ i, base ++ [.index i] ∈ tree ↔ i < n := by
  have hinj : Function.Injective fun i => base ++ [Segment.index i] := by
    intro i j hij
    simpa using hij
  obtain ⟨bound, hbound⟩ := (hfinite.preimage hinj.injOn).bddAbove
  have hout : ∃ i, base ++ [.index i] ∉ tree :=
    ⟨bound + 1, fun hmem => absurd (hbound hmem) (Nat.not_succ_le_self bound)⟩
  classical
  refine ⟨Nat.find hout, fun i => ⟨?_, fun hi => not_not.mp (Nat.find_min hout hi)⟩⟩
  intro hmem
  by_contra hle
  have hdown : ∀ k, base ++ [.index (Nat.find hout + k)] ∈ tree →
      base ++ [.index (Nat.find hout)] ∈ tree := by
    intro k
    induction k with
    | zero => exact id
    | succ k ih => exact fun hk => ih (h.before_mem base _ hk)
  apply Nat.find_spec hout
  apply hdown (i - Nat.find hout)
  rwa [Nat.add_sub_cancel' (Nat.le_of_not_lt hle)]

end Gapless

end ConfigAtlas.Path
