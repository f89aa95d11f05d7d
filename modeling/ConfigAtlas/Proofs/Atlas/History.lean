import ConfigAtlas.Proofs.Atlas.Lookup
import ConfigAtlas.Proofs.Path.Address

/-!
# What an atlas remembers of its insertions

Of all that was ever inserted under the steps of a path, the first insertion gives the entry its
position, and the last one gives it its path and its place. So an atlas can be told from the list
of insertions alone.
-/

namespace ConfigAtlas

namespace Path

theorem map_address_firsts (ps : List Path) :
    (firsts ps).map address = (ps.map address).eraseDups := by
  induction ps with
  | nil => rfl
  | cons p rest ih =>
    have hsame : (fun q : Path => decide (¬ p.SameSteps q)) =
        (fun a => !a == p.address) ∘ address := by
      funext q
      rw [Function.comp_apply, Bool.eq_iff_iff, decide_eq_true_iff, Bool.not_eq_true',
        beq_eq_false_iff_ne, ne_eq, sameSteps_iff_address, eq_comm]
    rw [firsts, List.map_cons, List.map_cons, List.eraseDups_cons, Lists.eraseDups_filter, ← ih,
      hsame, List.filter_map]

theorem mem_of_mem_firsts {p : Path} {ps : List Path} (h : p ∈ firsts ps) : p ∈ ps := by
  induction ps with
  | nil => exact h
  | cons q rest ih =>
    rcases List.mem_cons.mp h with rfl | h
    · exact List.mem_cons_self
    · exact List.mem_cons_of_mem q (ih (List.mem_filter.mp h).1)

end Path

namespace Atlas

/-- The insertions that count. -/
def entered (rs : List Record) : List Record := rs.filter (!·.path.isRoot)

theorem not_isRoot_of_mem_entered {rs : List Record} : ∀ r ∈ entered rs, r.path.isRoot = false := by
  intro r hr
  have hroot := (List.mem_filter.mp hr).2
  rwa [Bool.not_eq_true'] at hroot

theorem insert_of_isRoot {atlas : Atlas} {r : Record} (h : r.path.isRoot = true) :
    atlas.insert r = atlas := by
  rw [insert, if_pos h]

theorem ofRecords_entered (rs : List Record) : ofRecords (entered rs) = ofRecords rs := by
  induction rs using List.reverseRecOn with
  | nil => rfl
  | append_singleton rs r ih =>
    rw [entered, List.filter_append, ← entered, ofRecords_concat]
    cases hroot : r.path.isRoot with
    | true =>
      rw [insert_of_isRoot hroot, List.filter_cons_of_neg (by simp [hroot]), List.filter_nil,
        List.append_nil, ih]
    | false =>
      rw [List.filter_cons_of_pos (by simp [hroot]), List.filter_nil, ofRecords_concat, ih]

/-- The last insertion under the steps of the path. -/
def lastUnder (rs : List Record) (p : Path) : Option Record :=
  rs.findRev? (·.path.SameSteps p)

theorem latest_eq_lastUnder (rs : List Record) (p : Path) :
    latest rs p.address = lastUnder rs p := by
  have hsame : (fun r : Record => r.path.address == p.address) =
      fun r => decide (r.path.SameSteps p) := by
    funext r
    rw [Bool.eq_iff_iff, beq_iff_eq, decide_eq_true_iff, Path.sameSteps_iff_address]
  rw [latest, lastUnder, List.findRev?_eq_find?_reverse, hsame]

theorem lastUnder_isSome_iff {rs : List Record} {p : Path} :
    (lastUnder rs p).isSome = true ↔ ∃ r ∈ rs, r.path.SameSteps p := by
  rw [lastUnder, List.findRev?_eq_find?_reverse, List.find?_isSome]
  simp only [List.mem_reverse, decide_eq_true_eq]

theorem get?_eq_lastUnder (rs : List Record) (p : Path) :
    (ofRecords rs).get? p = (lastUnder (entered rs) p).map Record.place := by
  rw [← ofRecords_entered, get?, lookup_ofRecords not_isRoot_of_mem_entered, latest_eq_lastUnder]

theorem map_some_records (rs : List Record) :
    (ofRecords rs).records.map some =
      (Path.firsts ((entered rs).map Record.path)).map (lastUnder (entered rs)) := by
  have hfirsts : ((entered rs).map (·.path.address)).eraseDups =
      (Path.firsts ((entered rs).map Record.path)).map Path.address := by
    rw [Path.map_address_firsts, List.map_map]
    rfl
  have hlatest : latest (entered rs) ∘ Path.address = lastUnder (entered rs) :=
    funext (latest_eq_lastUnder (entered rs))
  rw [← ofRecords_entered, records_ofRecords not_isRoot_of_mem_entered, hfirsts,
    List.filterMap_map, hlatest]
  -- A path that came up was inserted, so it has a last insertion.
  rw [List.map_filterMap_some_eq_filter_map_isSome, List.filter_eq_self]
  intro last hlast
  obtain ⟨p, hp, rfl⟩ := List.mem_map.mp hlast
  obtain ⟨r, hr, rfl⟩ := List.mem_map.mp (Path.mem_of_mem_firsts hp)
  exact lastUnder_isSome_iff.mpr ⟨r, hr, (Path.sameSteps_iff_address _ _).mpr rfl⟩

/-- An atlas is the map of its insertions: the entries stand in the order in which their paths
first came up, each is the last that was inserted under its steps, and so is every answer. The
root is never entered. -/
theorem ofRecords_is_last_write_map (rs : List Record) :
    let atlas := ofRecords rs
    let paths := Path.firsts ((entered rs).map Record.path)
    atlas.records.map some = paths.map (lastUnder (entered rs)) ∧
      atlas.size = paths.length ∧
      (∀ p, atlas.get? p = (lastUnder (entered rs) p).map Record.place) ∧
      (∀ p, atlas.contains p = true ↔ ∃ r ∈ entered rs, r.path.SameSteps p) ∧
      ∀ place, atlas.insert ⟨.root, place⟩ = atlas := by
  intro atlas paths
  have hrecords : atlas.records.map some = paths.map (lastUnder (entered rs)) :=
    map_some_records rs
  refine ⟨hrecords, ?_, get?_eq_lastUnder rs, ?_, fun place => insert_of_isRoot rfl⟩
  · have hlength := congrArg List.length hrecords
    simpa [records, size] using hlength
  · intro p
    rw [contains, get?_eq_lastUnder, Option.isSome_map, lastUnder_isSome_iff]

/-- An entry keeps its position and takes the later path and place. -/
example : (ofRecords [⟨Path.root.field "a", ⟨1, "a", none, none⟩⟩,
      ⟨Path.root.field "b", ⟨2, "b", none, none⟩⟩,
      ⟨Path.root.key "a", ⟨3, "c", none, none⟩⟩]).records.map
        (fun r => (r.path.segments, r.place.line)) = [([.key "a"], 3), ([.field "b"], 2)] := by
  cbv

end Atlas

end ConfigAtlas
