import Mathlib
import ConfigAtlas.Survey
import ConfigAtlas.Proofs.Atlas.Records
import ConfigAtlas.Proofs.Flat.SourceScan

/-!
# Keys with a backslash before each character

A character behind a backslash is read for itself: a dot ends no part, an equals sign ends no key
and a quote opens nothing. But quotes are taken off a name when its backslashes are gone, so a
name that has a quote at each end loses both, guarded or not.
-/

namespace ConfigAtlas

namespace Text

theorem unquote_eq_self_iff {t : List Char} : unquote t = t ↔ isQuoted t = false := by
  rw [unquote]
  cases hquoted : isQuoted t with
  | false => simp
  | true =>
    obtain ⟨c, rest, rfl⟩ : ∃ c rest, t = c :: rest := by
      cases t with
      | nil => cases hquoted
      | cons c rest => exact ⟨c, rest, rfl⟩
    simp only [if_true, Bool.true_eq_false, iff_false]
    intro h
    have hlength := congrArg List.length h
    rw [List.tail_cons, List.length_dropLast, List.length_cons] at hlength
    omega

end Text

namespace Flat

/-! ## How it is written -/

/-- A backslash stands before each character of the name. -/
def guarded (name : List Char) : List Char := Text.escape (fun _ => true) name

def guardedLine (name : List Char) : List Char := guarded name ++ ['=', 'v']

def guardedPlace (name : List Char) : Place :=
  Line.place ⟨1, guardedLine name⟩ (some ⟨0, guarded name⟩)
    (some ⟨(guarded name).length + 1, ['v']⟩)

theorem guarded_cons (c : Char) (name : List Char) :
    guarded (c :: name) = '\\' :: c :: guarded name := rfl

theorem guarded_concat (name : List Char) (c : Char) :
    guarded (name ++ [c]) = guarded name ++ ['\\', c] := by
  rw [guarded, Text.escape_append]
  rfl

/-! ## What is read -/

theorem names_guardedName (part name : List Char) :
    KeyScan.names ⟨part, none, false⟩ (guarded name) =
      (KeyScan.name? ⟨name.reverse ++ part, none, false⟩).toList := by
  induction name generalizing part with
  | nil => rfl
  | cons c name ih =>
    rw [guarded_cons, names_guarded, ih, List.reverse_cons, List.append_assoc,
      List.singleton_append]

theorem find?_guardedName (fresh : Bool) (name value : List Char) :
    SeparatorScan.find? ⟨none, false, fresh⟩ (guarded name ++ '=' :: value) =
      some (guarded name).length := by
  induction name generalizing fresh with
  | nil => rfl
  | cons c name ih =>
    rw [guarded_cons, List.cons_append, List.cons_append, find?_guarded, ih]
    rfl

section

variable {name : List Char}

theorem keyPath_guarded (htrim : Text.trim name = name) :
    keyPath .root (guarded name) =
      match Text.unquote name with
      | [] => .root
      | unquoted => Path.root.field (String.ofList unquoted) := by
  have htext : Text.trim (name.reverse ++ []).reverse = name := by
    rw [List.append_nil, List.reverse_reverse, htrim]
  rw [keyPath, names_guardedName, KeyScan.name?]
  simp only [htext]
  cases Text.unquote name <;> rfl

theorem trim_guarded (hne : name ≠ []) (htrim : Text.trim name = name) :
    Text.trim (guarded name) = guarded name := by
  obtain ⟨front, c, rfl⟩ : ∃ front c, name = front ++ [c] :=
    ⟨name.dropLast, name.getLast hne, (List.dropLast_append_getLast hne).symm⟩
  have hlast : Text.isBlank c = false :=
    Text.not_isBlank_getLast_of_trim htrim List.getLast?_concat
  rw [guarded_concat]
  cases front with
  | nil => exact Text.trim_concat (by decide) hlast []
  | cons d front =>
    have hends := Text.trim_concat (b := '\\') (by decide) hlast (d :: guarded front ++ ['\\'])
    rw [guarded_cons]
    simpa using hends

theorem findings_guardedLine (hne : name ≠ []) (hfeed : '\n' ∉ name)
    (htrim : Text.trim name = name) :
    findings (guardedLine name) =
      [.placed ⟨keyPath .root (guarded name), guardedPlace name⟩] := by
  have hline : Text.lines (guardedLine name) = [guardedLine name] := by
    apply Text.lines_of_feed_not_mem
    · rw [guardedLine, List.mem_append]
      rintro (hkey | hvalue)
      · rcases Text.mem_escape hkey with hname | hslash
        · exact hfeed hname
        · exact absurd hslash (by decide)
      · exact absurd hvalue (by decide)
    · simp [guardedLine]
  have hread : Statement.read (guardedLine name) =
      .entry ⟨0, guarded name⟩ (some ⟨(guarded name).length + 1, ['v']⟩) := by
    have hkey := trim_guarded hne htrim
    have hfind := find?_guardedName true name ['v']
    obtain ⟨rest, hguarded⟩ : ∃ rest, guarded name = '\\' :: rest := by
      cases name with
      | nil => exact absurd rfl hne
      | cons c name => exact ⟨_, guarded_cons c name⟩
    rw [guardedLine]
    rw [hguarded] at hkey hfind ⊢
    exact read_of_find? (by decide) (by decide) hkey (by decide) (by decide) hfind
  rw [findings, Line.ofContent_eq, hline, Line.numbered, Line.numbered, Context.run, Context.step,
    hread]
  rfl

/-! ## What is on record -/

/-- What is left of the name without its quotes, if anything is. -/
def guardedRecords (name : List Char) : List Record :=
  match Text.unquote name with
  | [] => []
  | unquoted => [⟨Path.root.field (String.ofList unquoted), guardedPlace name⟩]

theorem steps_guardedRecords (hne : name ≠ []) :
    (guardedRecords name).map (·.path.segments) = [[.field (String.ofList name)]] ↔
      Text.isQuoted name = false := by
  rw [← Text.unquote_eq_self_iff, guardedRecords]
  split
  · rename_i hnil
    rw [hnil]
    simp [hne.symm]
  · simp [Path.field, String.ofList_inj]

/-- With a backslash before each of its characters a name is the one entry of its line, under the
name as it is, unless a quote at each end is taken off. -/
theorem guarded_key_on_record (hne : name ≠ []) (hfeed : '\n' ∉ name)
    (htrim : Text.trim name = name) :
    let atlas := (Survey.build .flat (String.ofList (guardedLine name))).atlas
    atlas.records = guardedRecords name ∧
      (atlas.records.map (·.path.segments) = [[.field (String.ofList name)]] ↔
        Text.isQuoted name = false) := by
  intro atlas
  have hrecords : atlas.records = guardedRecords name := by
    have hfindings : Survey.findings .flat (guardedLine name) =
        [⟨keyPath .root (guarded name), guardedPlace name⟩].map .placed :=
      findings_guardedLine hne hfeed htrim
    simp only [atlas]
    rw [Survey.atlas_build, String.toList_ofList, hfindings, Atlas.ofFindings_placed,
      keyPath_guarded htrim, guardedRecords]
    split <;> rfl
  exact ⟨hrecords, hrecords ▸ steps_guardedRecords hne⟩

end

theorem guarded_signs_on_record :
    let name := ['"', '.', '=', '#', '[', ' ', '\\', '\'']
    String.ofList (guardedLine name) = "\\\"\\.\\=\\#\\[\\ \\\\\\'=v" ∧ name ≠ [] ∧ '\n' ∉ name ∧
      Text.trim name = name ∧ Text.isQuoted name = false ∧
      (Survey.build .flat (String.ofList (guardedLine name))).atlas.records =
        [⟨Path.root.field (String.ofList name), guardedPlace name⟩] ∧
      (Survey.build .flat (String.ofList (guardedLine name))).atlas.records.map
        (·.path.segments) = [[.field (String.ofList name)]] := by
  intro name
  have hne : name ≠ [] := by decide
  have hfeed : '\n' ∉ name := by decide
  have htrim : Text.trim name = name := by decide
  have hplain : Text.isQuoted name = false := by decide
  obtain ⟨hrecords, hsteps⟩ := guarded_key_on_record hne hfeed htrim
  exact ⟨by decide, hne, hfeed, htrim, hplain, hrecords, hsteps.mpr hplain⟩

/-- The quotes of a name are taken off although a backslash stands before each of them. -/
theorem guarded_quotes_taken_off :
    ¬ ∀ name : List Char, name ≠ [] → '\n' ∉ name → '\r' ∉ name → Text.trim name = name →
      (Survey.build .flat (String.ofList (guardedLine name))).atlas.records.map
        (·.path.segments) = [[.field (String.ofList name)]] := by
  intro h
  have hfound := h ['"', 'a', '"'] (by decide) (by decide) (by decide) (by decide)
  have hsteps : (Survey.build .flat (String.ofList (guardedLine ['"', 'a', '"']))).atlas.records.map
      (·.path.segments) = [[.field "a"]] := by cbv
  rw [hsteps] at hfound
  revert hfound
  decide

end Flat

end ConfigAtlas
