import Mathlib
import ConfigAtlas.Survey
import ConfigAtlas.Proofs.Outline.Inert
import ConfigAtlas.Proofs.Text.Trimmed

/-!
# Lines that carry no entry

Such a line can be put in or taken out anywhere. What is on record stays as it is, and places on
later lines get the numbers of their new lines.
-/

namespace ConfigAtlas

/-! ## Lines of flat sources -/

namespace Flat

/-- The line is blank, a comment, or neither a header nor an entry. -/
def Inert (row : List Char) : Prop :=
  (∀ c ∈ row, Text.isBlank c = true) ∨
    (∃ c ∈ (Text.trim row).head?, Statement.isCommentMark c = true) ∨
    Statement.read row = .unread

theorem run_eq_scan (ctx : Context) (lines : List Line) :
    ctx.run lines = Scan.run Context.step ctx lines := by
  induction lines generalizing ctx with
  | nil => rfl
  | cons line rest ih => simp only [Context.run, Scan.run, ih]

theorem findings_eq_scan (content : List Char) :
    findings content = (Scan.run Context.step {} (Line.ofContent content)).2 :=
  congrArg Prod.snd (run_eq_scan {} _)

theorem handsOn_step : Scan.HandsOn Context.step := by
  intro ctx line f
  have htext : (line.renumber f).text = line.text := rfl
  unfold Context.step
  rw [htext]
  cases Statement.read line.text <;> rfl

theorem Inert.silent {row : List Char} (h : Inert row) (ctx : Context) :
    Scan.Silent Context.step ctx row := by
  have hread : Statement.read row = .blank ∨ Statement.read row = .unread := by
    rcases h with hblank | ⟨c, hc, hmark⟩ | hunread
    · left
      have htrim : Text.trim row = [] := by
        rw [Text.trim, Text.trimStart, List.dropWhile_eq_nil_iff.mpr hblank]
        rfl
      simp [Statement.read, Piece.whole, htrim]
    · left
      obtain ⟨rest, hrest⟩ := List.head?_eq_some_iff.mp hc
      simp [Statement.read, Piece.whole, hrest, hmark]
    · exact .inr hunread
  intro n
  unfold Context.step
  rcases hread with hread | hread <;> rw [hread] <;> exact ⟨rfl, rfl⟩

end Flat

/-! ## A line more in the rows of a scan -/

/-- What becomes of the number of a line when a line is put in behind the first `n`. -/
def withLineBehind (n number : Nat) : Nat := if n < number then number + 1 else number

def withoutLineBehind (n number : Nat) : Nat := if n < number then number - 1 else number

theorem withoutLineBehind_comp_withLineBehind (n : Nat) :
    withoutLineBehind n ∘ withLineBehind n = id := by
  funext number
  simp only [Function.comp, withLineBehind, withoutLineBehind, id]
  split_ifs <;> omega

theorem Text.lines_unlines_append (lastOpen : Bool) {rows : List (List Char)}
    (h : ∀ row ∈ rows, '\n' ∉ row ∧ '\r' ∉ row) :
    ∃ gone, rows = lines (unlines lastOpen rows) ++ gone ∧ ∀ row ∈ gone, row = [] := by
  fun_induction unlines lastOpen rows with
  | case1 => exact ⟨[], by simp [lines_nil]⟩
  | case2 row hopen =>
    by_cases hrow : row = []
    · exact ⟨[row], by simp [hrow, lines_nil]⟩
    · exact ⟨[], by simp [lines_of_feed_not_mem (h row (by simp)).1 hrow]⟩
  | case3 row hopen =>
    obtain ⟨hfeed, hreturn⟩ := h row (by simp)
    exact ⟨[], by simp [lines_append_feed hfeed, lines_nil, dropReturn_of_not_mem hreturn]⟩
  | case4 row rest hrest ih =>
    obtain ⟨hfeed, hreturn⟩ := h row (by simp)
    obtain ⟨gone, hgone, hempty⟩ := ih fun r hr => h r (List.mem_cons_of_mem _ hr)
    refine ⟨gone, ?_, hempty⟩
    rw [lines_append_feed hfeed, dropReturn_of_not_mem hreturn, List.cons_append, ← hgone]

namespace Scan

variable {State : Type} {step : State → Line → State × List Finding} {s : State}

theorem placed_run_insert (hstep : HandsOn step) {before after : List (List Char)}
    {row : List Char} (hrow : Silent step (run step s (Line.numbered 1 before)).1 row) :
    placed (run step s (Line.numbered 1 (before ++ row :: after))).2 =
      (placed (run step s (Line.numbered 1 (before ++ after))).2).map
        (·.renumber (withLineBehind before.length)) := by
  have hlonger : Line.numbered 1 (before ++ row :: after) = Line.numbered 1 before ++
      ⟨1 + before.length, row⟩ :: Line.numbered (1 + before.length + 1) after :=
    Line.numbered_append 1 before (row :: after)
  have hshorter : (Line.numbered 1 (before ++ after)).map
        (·.renumber (withLineBehind before.length)) =
      Line.numbered 1 before ++ Line.numbered (1 + before.length + 1) after := by
    rw [Line.numbered_append, List.map_append]
    congr 1
    · refine Line.map_renumber_numbered fun i hi => ?_
      rw [withLineBehind, if_neg (by omega)]
    · refine Line.map_renumber_numbered fun i hi => ?_
      rw [withLineBehind, if_pos (by omega)]
      omega
  -- The row changes nothing the later lines see, so they are read as without it.
  obtain ⟨hstate, hnothing⟩ := hrow (1 + before.length)
  have hrenumbered : (run step s ((Line.numbered 1 (before ++ after)).map
        (·.renumber (withLineBehind before.length)))).2 =
      (run step s (Line.numbered 1 (before ++ after))).2.map
        (·.renumber (withLineBehind before.length)) := by
    rw [run_renumber hstep]
  rw [← placed_renumber, ← hrenumbered, hshorter, hlonger, run_append, run_append]
  simp only [run, placed_append, hnothing, hstate, List.nil_append]

theorem placed_run_empty (hempty : ∀ s, Silent step s []) (n : Nat)
    {rows : List (List Char)} (h : ∀ row ∈ rows, row = []) :
    placed (run step s (Line.numbered n rows)).2 = [] := by
  induction rows generalizing s n with
  | nil => rfl
  | cons row rest ih =>
    obtain ⟨hstate, hnothing⟩ := hempty s n
    have hrest := ih (s := s) (n + 1) fun r hr => h r (List.mem_cons_of_mem _ hr)
    rw [h row (by simp), Line.numbered, run]
    simp only [placed_append, hnothing, hstate, hrest, List.append_nil]

theorem placed_run_ofContent (hempty : ∀ s, Silent step s []) (lastOpen : Bool)
    {rows : List (List Char)} (h : ∀ row ∈ rows, '\n' ∉ row ∧ '\r' ∉ row) :
    placed (run step s (Line.ofContent (Text.unlines lastOpen rows))).2 =
      placed (run step s (Line.numbered 1 rows)).2 := by
  obtain ⟨gone, hrows, hgone⟩ := Text.lines_unlines_append lastOpen h
  rw [Line.ofContent_eq]
  conv_rhs => rw [hrows]
  rw [Line.numbered_append, run_append, placed_append, placed_run_empty hempty _ hgone,
    List.append_nil]

end Scan

/-! ## Putting a line in and taking it out -/

namespace Survey

theorem atlas_build_of_scan {State : Type} {step : State → Line → State × List Finding} {s : State}
    (hempty : ∀ s, Scan.Silent step s []) {d : Dialect}
    (hscan : ∀ content, findings d content = (Scan.run step s (Line.ofContent content)).2)
    (lastOpen : Bool) {rows : List (List Char)} (h : ∀ row ∈ rows, '\n' ∉ row ∧ '\r' ∉ row) :
    (build d (String.ofList (Text.unlines lastOpen rows))).atlas =
      .ofRecords (Scan.placed (Scan.run step s (Line.numbered 1 rows)).2) := by
  rw [atlas_build, String.toList_ofList, hscan, Atlas.ofFindings]
  exact congrArg Atlas.ofRecords (Scan.placed_run_ofContent hempty lastOpen h)

theorem atlas_build_insert {State : Type} {step : State → Line → State × List Finding} {s : State}
    (hstep : Scan.HandsOn step) (hempty : ∀ s, Scan.Silent step s []) {d : Dialect}
    (hscan : ∀ content, findings d content = (Scan.run step s (Line.ofContent content)).2)
    (lastOpen : Bool) {before after : List (List Char)} {row : List Char}
    (h : ∀ r ∈ before ++ row :: after, '\n' ∉ r ∧ '\r' ∉ r)
    (hrow : Scan.Silent step (Scan.run step s (Line.numbered 1 before)).1 row) :
    (build d (String.ofList (Text.unlines lastOpen (before ++ row :: after)))).atlas =
      (build d (String.ofList (Text.unlines lastOpen (before ++ after)))).atlas.renumber
        (withLineBehind before.length) := by
  have hshorter : ∀ r ∈ before ++ after, '\n' ∉ r ∧ '\r' ∉ r := by
    intro r hr
    apply h r
    rw [List.mem_append] at hr ⊢
    exact hr.imp_right (List.mem_cons_of_mem row)
  rw [atlas_build_of_scan hempty hscan lastOpen h,
    atlas_build_of_scan hempty hscan lastOpen hshorter, Scan.placed_run_insert hstep hrow,
    Atlas.ofRecords_renumber]

/-- A line that carries no entry where it stands, behind these lines. -/
def Inert : Dialect → (before : List (List Char)) → (row : List Char) → Prop
  | .flat, _, row => Flat.Inert row
  | .outline, before, row => (Outline.Context.run {} (Line.numbered 1 before)).1.Inert row
  | .markup, _, _ => False

/-- An inert line that is put in, or taken out, moves the numbers of later lines by one. Paths,
their order, raw lines and spans are left as they are. -/
theorem atlas_of_inert_line (d : Dialect) (lastOpen : Bool) {before after : List (List Char)}
    {row : List Char} (hrows : ∀ r ∈ before ++ row :: after, '\n' ∉ r ∧ '\r' ∉ r)
    (hinert : Inert d before row) :
    let longer := build d (String.ofList (Text.unlines lastOpen (before ++ row :: after)))
    let shorter := build d (String.ofList (Text.unlines lastOpen (before ++ after)))
    longer.atlas = shorter.atlas.renumber (withLineBehind before.length) ∧
      shorter.atlas = longer.atlas.renumber (withoutLineBehind before.length) := by
  intro longer shorter
  have hlonger : longer.atlas = shorter.atlas.renumber (withLineBehind before.length) := by
    cases d with
    | flat =>
      have hscan : ∀ content, findings .flat content =
          (Scan.run Flat.Context.step {} (Line.ofContent content)).2 :=
        fun _ => congrArg Prod.snd (Flat.run_eq_scan {} _)
      have hempty : Flat.Inert [] := .inl (by simp)
      exact atlas_build_insert Flat.handsOn_step hempty.silent hscan lastOpen hrows
        (Flat.Inert.silent hinert _)
    | outline =>
      have hscan : ∀ content, findings .outline content =
          (Scan.run Outline.Context.step {} (Line.ofContent content)).2 :=
        fun _ => congrArg Prod.snd (Outline.Context.run_eq_scan {} _)
      have hsilent := Outline.Context.Inert.silent hinert
      rw [Outline.Context.run_eq_scan] at hsilent
      exact atlas_build_insert Outline.Context.handsOn_step
        (fun ctx => (Outline.Context.inert_nil ctx).silent) hscan lastOpen hrows hsilent
    | markup => exact hinert.elim
  refine ⟨hlonger, ?_⟩
  rw [hlonger, Atlas.renumber_renumber, withoutLineBehind_comp_withLineBehind, Atlas.renumber_id]

theorem atlas_of_block_line :
    let before := ["k: |".toList, " x".toList]
    let row := "\t- b: 1".toList
    let after := ["j: 2".toList, "k: 3".toList]
    let longer := build .outline (String.ofList (Text.unlines true (before ++ row :: after)))
    let shorter := build .outline (String.ofList (Text.unlines true (before ++ after)))
    (∀ r ∈ before ++ row :: after, '\n' ∉ r ∧ '\r' ∉ r) ∧ Inert .outline before row ∧
      longer.atlas = shorter.atlas.renumber (withLineBehind before.length) ∧
      shorter.atlas = longer.atlas.renumber (withoutLineBehind before.length) := by
  intro before row after longer shorter
  have hrows : ∀ r ∈ before ++ row :: after, '\n' ∉ r ∧ '\r' ∉ r := by decide
  have hblock : (Outline.Context.run {} (Line.numbered 1 before)).1.block? = some 0 := by cbv
  have hinert : Inert .outline before row := .inBlock hblock (.inr (by decide))
  exact ⟨hrows, hinert, atlas_of_inert_line .outline true hrows hinert⟩

end Survey

end ConfigAtlas
