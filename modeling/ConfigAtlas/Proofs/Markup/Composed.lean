import Mathlib
import ConfigAtlas.Proofs.Markup.Built
import ConfigAtlas.Proofs.Path.Composed

/-! # No element of a markup source has more children than the source has characters -/

namespace ConfigAtlas.Markup

variable {limit used : Nat}

/-- No element in it has more children than the limit. -/
inductive Element.Narrow (limit : Nat) : Element → Prop where
  | mk {tag : OpenTag} {text? : Option Piece} {children : List Element}
      (hlength : children.length ≤ limit) (hchildren : ∀ e ∈ children, e.Narrow limit) :
      Element.Narrow limit ⟨tag, text?, children⟩

theorem Element.Narrow.length_children {e : Element} (h : e.Narrow limit) :
    e.children.length ≤ limit := by
  cases h with
  | mk hlength hchildren => exact hlength

theorem Element.Narrow.children {e : Element} (h : e.Narrow limit) :
    ∀ child ∈ e.children, child.Narrow limit := by
  cases h with
  | mk hlength hchildren => exact hchildren

/-! ## Building -/

namespace Builder

/-- The elements that are closed and not yet inside a closed one, and those that are open. -/
def weight (b : Builder) : Nat :=
  b.roots.length + (b.unclosed.map fun u => u.children.length + 1).sum

/-- After so many opening tags. -/
structure Narrow (limit used : Nat) (b : Builder) : Prop where
  roots : ∀ e ∈ b.roots, e.Narrow limit
  unclosed : ∀ u ∈ b.unclosed, ∀ e ∈ u.children, e.Narrow limit
  weight_le : b.weight ≤ used

namespace Narrow

variable {b : Builder}

theorem empty : Narrow limit 0 {} := ⟨by simp, by simp, by simp [weight]⟩

theorem attach (h : b.Narrow limit used) {e : Element} (he : e.Narrow limit) :
    (b.attach e).Narrow limit (used + 1) := by
  have hweight := h.weight_le
  unfold weight at hweight
  unfold Builder.attach
  split
  · refine ⟨?_, h.unclosed, ?_⟩
    · intro r hr
      rcases List.mem_cons.mp hr with rfl | hr
      · exact he
      · exact h.roots r hr
    · simp only [weight, List.length_cons]
      omega
  · rename_i parent outer houter
    refine ⟨h.roots, ?_, ?_⟩
    · intro u hu child hchild
      rcases List.mem_cons.mp hu with rfl | hu
      · rcases List.mem_cons.mp hchild with rfl | hchild
        · exact he
        · exact h.unclosed parent (by simp [houter]) child hchild
      · exact h.unclosed u (by simp [houter, hu]) child hchild
    · rw [houter, List.map_cons, List.sum_cons] at hweight
      simp only [weight, List.map_cons, List.sum_cons, List.length_cons]
      omega

theorem openTag (h : b.Narrow limit used) (tag : OpenTag) :
    (b.openTag tag).Narrow limit (used + 1) := by
  unfold Builder.openTag
  split
  · exact h.attach (.mk (Nat.zero_le _) (by simp))
  · refine ⟨h.roots, ?_, ?_⟩
    · intro u hu child hchild
      rcases List.mem_cons.mp hu with rfl | hu
      · cases hchild
      · exact h.unclosed u hu child hchild
    · have hweight := h.weight_le
      simp only [weight, List.map_cons, List.sum_cons, List.length_nil] at hweight ⊢
      omega

theorem close (h : b.Narrow limit used) (hlimit : used ≤ limit) (text : Unclosed → Option Piece) :
    (b.close text).Narrow limit used := by
  have hweight := h.weight_le
  unfold weight at hweight
  unfold Builder.close
  split
  · exact h
  · rename_i u outer houter
    rw [houter, List.map_cons, List.sum_cons] at hweight
    have hu := h.unclosed u (by simp [houter])
    have hrest : Narrow limit (used - 1) { b with unclosed := outer } := by
      refine ⟨h.roots, fun v hv => h.unclosed v (by simp [houter, hv]), ?_⟩
      simp only [weight]
      omega
    have hclosed : Element.Narrow limit ⟨u.tag, text u, u.children.reverse⟩ := by
      refine .mk ?_ fun child hchild => hu child (List.mem_reverse.mp hchild)
      rw [List.length_reverse]
      omega
    have hattached := hrest.attach hclosed
    rwa [Nat.sub_add_cancel (by omega)] at hattached

theorem abandon (h : b.Narrow limit used) (hlimit : used ≤ limit) (n : Nat) :
    (b.abandon n).Narrow limit used := by
  induction n generalizing b with
  | zero => exact h
  | succ n ih => exact ih (h.close hlimit _)

theorem closeTag (h : b.Narrow limit used) (hlimit : used ≤ limit) (name : List Char)
    (start : Nat) : (b.closeTag name start).Narrow limit used :=
  (h.abandon hlimit _).close hlimit _

theorem run (h : b.Narrow limit used) {ts : List Tag} (hlimit : used + ts.length ≤ limit) :
    (b.run ts).Narrow limit (used + ts.length) := by
  induction ts generalizing b used with
  | nil => exact h
  | cons t rest ih =>
    rw [List.length_cons] at hlimit
    have hstep : (b.step t).Narrow limit (used + 1) := by
      cases t with
      | opening tag => exact h.openTag tag
      | closing name start =>
        have hclosed := h.closeTag (by omega) name start
        exact ⟨hclosed.roots, hclosed.unclosed, hclosed.weight_le.trans (Nat.le_succ used)⟩
    have hrest := ih hstep (by omega)
    rwa [Nat.add_assoc, Nat.add_comm 1] at hrest

theorem forest (h : b.Narrow limit used) (hlimit : used ≤ limit) :
    b.forest.length ≤ limit ∧ ∀ e ∈ b.forest, e.Narrow limit := by
  have hall := h.abandon hlimit b.unclosed.length
  have hweight := hall.weight_le
  unfold weight at hweight
  refine ⟨?_, fun e he => hall.roots e (List.mem_reverse.mp he)⟩
  rw [Builder.forest, List.length_reverse]
  omega

end Narrow

end Builder

theorem length_tags_le (p : Piece) : (tags p).length ≤ p.length := by
  fun_induction tags p with
  | case1 p front hempty => exact Nat.zero_le _
  | case2 p front hempty hlt ih =>
    have hone : (Tag.read front).1.toList.length ≤ 1 := by
      cases (Tag.read front).1 <;> simp
    rw [List.length_append]
    omega

theorem narrow_ofRoots {roots : List Element} (hlength : roots.length ≤ limit)
    (h : ∀ e ∈ roots, e.Narrow limit) :
    (Document.ofRoots roots).children.length ≤ limit ∧
      ∀ e ∈ (Document.ofRoots roots).children, e.Narrow limit := by
  have htops : (roots.filter (!·.isNull)).length ≤ limit ∧
      ∀ e ∈ roots.filter (!·.isNull), e.Narrow limit :=
    ⟨(List.length_filter_le _ _).trans hlength, fun e he => h e (List.mem_filter.mp he).1⟩
  unfold Document.ofRoots
  simp only
  split
  · rename_i root hroot
    split
    · exact htops
    · rw [hroot] at htops
      have hnarrow := htops.2 root (by simp)
      exact ⟨hnarrow.length_children, hnarrow.children⟩
  · exact htops

/-! ## Placing -/

theorem composed_siblingPaths {parent : Path} (hparent : parent.Composed limit) {isList : Bool}
    {names earlier : List (List Char)} {es : List Element}
    (hlength : earlier.length + es.length ≤ limit) :
    ∀ path, some path ∈ siblingPaths parent isList names earlier es → path.Composed limit := by
  induction es generalizing earlier with
  | nil => simp [siblingPaths]
  | cons e rest ih =>
    rw [List.length_cons] at hlength
    -- No name occurs more often than there are siblings.
    have hcount : earlier.count e.name < limit := by
      have := List.count_le_length (a := e.name) (l := earlier)
      omega
    have hchild : (childPath parent isList names earlier e).Composed limit := by
      unfold childPath
      split
      · exact hparent.key _
      · split
        · exact hparent.element hcount
        · split
          · exact (hparent.field _).element hcount
          · exact hparent.field _
    intro path hpath
    rw [siblingPaths] at hpath
    split at hpath
    · rw [List.mem_cons] at hpath
      rcases hpath with hnone | hpath
      · cases hnone
      · exact ih (by omega) path hpath
    · rcases List.mem_cons.mp hpath with hown | hpath
      · cases hown
        exact hchild
      · refine ih ?_ path hpath
        split
        · rw [List.length_cons]
          omega
        · omega

mutual

theorem composed_placements (e : Element) (h : e.Narrow limit) {path : Path}
    (hpath : path.Composed limit) : ∀ p ∈ e.placements path, p.path.Composed limit := by
  cases e with
  | mk tag text? children =>
    have hlength : ([] : List (List Char)).length + children.length ≤ limit := by
      rw [List.length_nil, Nat.zero_add]
      exact h.length_children
    intro p hp
    rw [Element.placements] at hp
    rcases List.mem_cons.mp hp with rfl | hp
    · exact hpath
    · exact composed_placeAll children h.children (composed_siblingPaths hpath hlength) p hp

theorem composed_placeAll (es : List Element) (h : ∀ e ∈ es, e.Narrow limit)
    {paths : List (Option Path)} (hpaths : ∀ path, some path ∈ paths → path.Composed limit) :
    ∀ p ∈ placeAll paths es, p.path.Composed limit := by
  cases es with
  | nil =>
    intro p hp
    rw [placeAll_nil] at hp
    cases hp
  | cons e rest =>
    intro p hp
    cases paths with
    | nil => cases hp
    | cons path? paths =>
      have hpaths' : ∀ path, some path ∈ paths → path.Composed limit :=
        fun path hpath => hpaths path (List.mem_cons_of_mem _ hpath)
      have hrest := composed_placeAll rest (fun e he => h e (List.mem_cons_of_mem _ he)) hpaths'
      cases path? with
      | none => exact hrest p hp
      | some path =>
        rcases List.mem_append.mp hp with hp | hp
        · exact composed_placements e (h e List.mem_cons_self)
            (hpaths path List.mem_cons_self) p hp
        · exact hrest p hp

end

theorem composed_recordsOf {content : List Char} (h : content.length < limit) :
    ∀ r ∈ recordsOf content, r.path.Composed limit := by
  have htags : 0 + (tags (.whole content)).length ≤ limit := by
    have hle : (tags (.whole content)).length ≤ content.length := length_tags_le (.whole content)
    omega
  obtain ⟨hlength, hforest⟩ := (Builder.Narrow.empty.run htags).forest htags
  obtain ⟨hcount, hchildren⟩ := narrow_ofRoots hlength hforest
  have hplaced : ∀ p ∈ (Document.ofContent content).placements, p.path.Composed limit := by
    apply composed_placeAll _ hchildren
    apply composed_siblingPaths Path.composed_root
    rw [List.length_nil, Nat.zero_add]
    exact hcount
  intro r hr
  obtain ⟨p, hp, hrecord⟩ := List.mem_flatMap.mp hr
  rcases List.mem_cons.mp hrecord with rfl | hattribute
  · exact hplaced p hp
  · obtain ⟨a, -, rfl⟩ := List.mem_map.mp hattribute
    exact (hplaced p hp).field _

end ConfigAtlas.Markup
