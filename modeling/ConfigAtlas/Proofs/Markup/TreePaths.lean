import ConfigAtlas.Proofs.Markup.Tree
import ConfigAtlas.Proofs.Path.Branches

/-! # The paths of siblings branch off their parent -/

namespace ConfigAtlas.Markup

variable {parent : List Char} {names : List (List Char)}

theorem formList_iff : formList parent names = true ↔ FormsList parent names := by
  cases names with
  | nil => simp [formList, FormsList]
  | cons name rest =>
    have hsame : rest.all (· == name) = true ↔ ∀ other ∈ name :: rest, other = name := by
      simp
    have hlong : (!rest.isEmpty) = true ↔ 2 ≤ (name :: rest).length := by
      cases rest <;> simp
    rw [formList, Bool.and_eq_true, hsame, Bool.or_eq_true, Bool.or_eq_true, hlong, beq_iff_eq,
      beq_iff_eq, or_assoc]
    constructor
    · rintro ⟨hall, hkind⟩
      exact ⟨name, by simp, hall, hkind⟩
    · rintro ⟨other, -, hall, hkind⟩
      have hother := hall name (by simp)
      subst hother
      exact ⟨hall, hkind⟩

theorem childSteps_ne_nil (earlier : List (List Char)) (name : List Char) :
    childSteps parent names earlier name ≠ [] := by
  unfold childSteps
  split
  · simp
  · split <;> simp

theorem childSteps_eq_cons (h : ¬ FormsList parent names) (earlier : List (List Char))
    (name : List Char) :
    ∃ more, childSteps parent names earlier name = .field (String.ofList name) :: more := by
  rw [childSteps, if_neg h]
  split
  · exact ⟨_, rfl⟩
  · exact ⟨[], rfl⟩

theorem apart_childSteps {before between later : List (List Char)} {name other : List Char}
    (hnames : names = before ++ name :: (between ++ other :: later)) :
    Path.Apart (childSteps parent names before name)
      (childSteps parent names (before ++ name :: between) other) := by
  by_cases hlist : FormsList parent names
  · rw [childSteps, childSteps, if_pos hlist, if_pos hlist]
    apply Path.apart_cons
    intro heq
    have := Segment.index.inj heq
    simp at this
  · by_cases hname : name = other
    · -- The name occurs twice, so its occurrences are counted.
      subst hname
      have htwice : 2 ≤ names.count name := by
        simp [hnames, List.count_append]
        omega
      rw [childSteps, childSteps, if_neg hlist, if_neg hlist, if_pos htwice, if_pos htwice]
      refine Path.apart_append_left [.field (String.ofList name)] (Path.apart_cons ?_ [] [])
      intro heq
      have := Segment.index.inj heq
      simp [List.count_append] at this
    · obtain ⟨more, hmore⟩ := childSteps_eq_cons hlist before name
      obtain ⟨more', hmore'⟩ := childSteps_eq_cons hlist (before ++ name :: between) other
      rw [hmore, hmore']
      apply Path.apart_cons
      intro heq
      exact hname (String.ofList_inj.mp (Segment.field.inj heq))

theorem segments_childPathOf (path : Path) (earlier : List (List Char)) (name : List Char) :
    (childPathOf path parent names earlier name).segments =
      path.segments ++ childSteps parent names earlier name :=
  Path.segments_foldl_push _ path

theorem noKey_childPathOf {path : Path} (h : path.NoKey) (earlier : List (List Char))
    (name : List Char) : (childPathOf path parent names earlier name).NoKey := by
  unfold childPathOf childSteps
  split
  · exact h.element _
  · split
    · exact (h.field _).element _
    · exact h.field _

/-! ## As siblings are read -/

section

variable {e : Element} {before after : List (List Char)}

theorem childPath_of_not_labelled (hlabel : e.label? = none)
    (hnames : names = before ++ e.name :: after) (path : Path) :
    childPath path (formList parent names) names before.reverse e =
      childPathOf path parent names before e.name := by
  have hcount : before.reverse.count e.name = before.count e.name :=
    (List.reverse_perm before).count_eq _
  simp only [childPath, hlabel, hcount, childPathOf, childSteps]
  by_cases hlist : FormsList parent names
  · have hsame : before.count e.name = before.length := by
      obtain ⟨name, -, hall, -⟩ := hlist
      have hown := hall e.name (by simp [hnames])
      rw [List.count_eq_length]
      intro other hother
      rw [hown, hall other (by simp [hnames, hother])]
    rw [if_pos (formList_iff.mpr hlist), if_pos hlist, hsame]
    rfl
  · rw [if_neg (mt formList_iff.mp hlist), if_neg hlist]
    by_cases htwice : 1 < names.count e.name
    · rw [if_pos htwice, if_pos (Nat.succ_le_of_lt htwice)]
      rfl
    · rw [if_neg htwice, if_neg (mt Nat.lt_of_succ_le htwice)]
      rfl

theorem siblingPaths_of_not_labelled (hnull : e.isNull = false) (hlabel : e.label? = none)
    (hnames : names = before ++ e.name :: after) (path : Path) (es : List Element) :
    siblingPaths path (formList parent names) names before.reverse (e :: es) =
      some (childPathOf path parent names before e.name) ::
        siblingPaths path (formList parent names) names (before ++ [e.name]).reverse es := by
  rw [siblingPaths, childPath_of_not_labelled hlabel hnames]
  simp [hnull, hlabel]

end

/-! ## Whole trees -/

def LaterSteps (parent : List Char) (names earlier : List (List Char)) (u : List Segment) : Prop :=
  ∃ between name later, names = earlier ++ between ++ name :: later ∧
    u = childSteps parent names (earlier ++ between) name

theorem apart_laterSteps {earlier : List (List Char)} {name : List Char} {u : List Segment}
    (h : LaterSteps parent names (earlier ++ [name]) u) :
    Path.Apart (childSteps parent names earlier name) u := by
  obtain ⟨between, other, rest, hrest, rfl⟩ := h
  have hnames : names = earlier ++ name :: (between ++ other :: rest) := by
    rw [hrest]
    simp
  rw [← List.append_cons]
  exact apart_childSteps hnames

theorem laterSteps_cons {earlier later : List (List Char)} {name : List Char} {u : List Segment}
    (hnames : names = earlier ++ name :: later)
    (h : u = childSteps parent names earlier name ∨
      LaterSteps parent names (earlier ++ [name]) u) : LaterSteps parent names earlier u := by
  rcases h with rfl | ⟨between, other, rest, hrest, rfl⟩
  · exact ⟨[], name, later, by simp [hnames], by simp⟩
  · exact ⟨name :: between, other, rest, by rw [hrest]; simp, by simp⟩

theorem branching_child {path : Path} {earlier later : List (List Char)} {name : List Char}
    {branches : List Segment → Prop} {own below siblings : List Path}
    (hnames : names = earlier ++ name :: later) (hpath : path.NoKey)
    (hown : own = childPathOf path parent names earlier name :: below)
    (hbelow : Path.Branching branches (childPathOf path parent names earlier name).segments below)
    (hlater : Path.Branching (LaterSteps parent names (earlier ++ [name])) path.segments
      siblings) :
    Path.Branching (LaterSteps parent names earlier) path.segments (own ++ siblings) := by
  have hchild := Path.Branching.cons (segments_childPathOf path earlier name)
    (childSteps_ne_nil earlier name) (noKey_childPathOf hpath earlier name) hbelow
  rw [hown]
  refine (hchild.append hlater ?_).mono fun _ => laterSteps_cons hnames
  rintro _ _ rfl hlater
  exact apart_laterSteps hlater

mutual

theorem branching_recordsBelow (t : Tree) (content : List Char) {path : Path}
    (hpath : path.NoKey) (start : Nat) :
    Path.Branching (fun _ => True) path.segments
      ((t.recordsBelow content path start).map Record.path) := by
  cases t with
  | leaf name text feed_not_mem after => exact .nil
  | branch name gap first rest after =>
    let names := first.name.text :: rest.map fun t => t.name.text
    have hkey : (childPathOf path name.text names [] first.name.text).NoKey :=
      noKey_childPathOf hpath [] _
    have hfirst := branching_recordsBelow first content hkey
      (start + name.opening.length + gap.text.length)
    have hrest := branching_treesRecords rest content hpath name.text names [first.name.text]
      rfl (start + name.opening.length + gap.text.length + first.written.length)
    have hnames : names = [] ++ first.name.text :: rest.map fun t => t.name.text := rfl
    have hall := branching_child hnames hpath rfl hfirst hrest
    rw [Tree.recordsBelow, List.map_append]
    exact hall.mono fun _ _ => trivial

theorem branching_treesRecords (ts : List Tree) (content : List Char) {path : Path}
    (hpath : path.NoKey) (parent : List Char) (names earlier : List (List Char))
    (hnames : names = earlier ++ ts.map fun t => t.name.text) (start : Nat) :
    Path.Branching (LaterSteps parent names earlier) path.segments
      ((treesRecords content path parent names earlier start ts).map Record.path) := by
  cases ts with
  | nil => exact .nil
  | cons t rest =>
    have hkey : (childPathOf path parent names earlier t.name.text).NoKey :=
      noKey_childPathOf hpath earlier _
    have hbelow := branching_recordsBelow t content hkey start
    have hrest := branching_treesRecords rest content hpath parent names
      (earlier ++ [t.name.text]) (by rw [hnames]; simp) (start + t.written.length)
    rw [treesRecords, List.map_append]
    exact branching_child hnames hpath rfl hbelow hrest

end

end ConfigAtlas.Markup
