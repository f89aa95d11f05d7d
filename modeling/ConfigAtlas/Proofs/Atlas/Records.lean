import Mathlib.Data.List.Find
import Mathlib.Data.List.Induction
import ConfigAtlas.Atlas
import ConfigAtlas.Proofs.Lists

/-! # What is on record after a scan: one record an address, in the order of first insertion -/

namespace ConfigAtlas

namespace Finding

theorem filterMap_record?_placed (rs : List Record) :
    (rs.map Finding.placed).filterMap record? = rs := by
  rw [List.filterMap_map]
  exact List.filterMap_some

theorem mem_filterMap_record? {found : List Finding} {r : Record} :
    r ∈ found.filterMap record? ↔ .placed r ∈ found := by
  rw [List.mem_filterMap]
  constructor
  · rintro ⟨finding, hfinding, hr⟩
    cases finding <;> cases hr
    exact hfinding
  · exact fun hr => ⟨_, hr, rfl⟩

end Finding

namespace Atlas

theorem ofFindings_placed (rs : List Record) :
    ofFindings (rs.map .placed) = ofRecords rs := by
  rw [ofFindings, Finding.filterMap_record?_placed]

def addresses (atlas : Atlas) : List String := atlas.slots.map Prod.fst

/-- The last record with this address. -/
def latest (rs : List Record) (address : String) : Option Record :=
  rs.reverse.find? (·.path.address == address)

theorem latest_concat (rs : List Record) (r : Record) (address : String) :
    latest (rs ++ [r]) address =
      if address = r.path.address then some r else latest rs address := by
  rw [latest, List.reverse_concat, List.find?_cons]
  by_cases h : address = r.path.address
  · simp [h]
  · rw [if_neg h, beq_eq_false_iff_ne.mpr (Ne.symm h)]
    rfl

theorem map_fst_put (address : String) (r : Record) (slots : List (String × Record)) :
    (put address r slots).map Prod.fst =
      if address ∈ slots.map Prod.fst then slots.map Prod.fst
      else slots.map Prod.fst ++ [address] := by
  induction slots with
  | nil => rfl
  | cons slot rest ih =>
    obtain ⟨a, old⟩ := slot
    by_cases h : a = address
    · simp [put, h]
    · rw [put, if_neg h, List.map_cons, ih]
      by_cases hmem : address ∈ rest.map Prod.fst
      · simp [hmem]
      · simp [hmem, Ne.symm h]

theorem slots_insert (atlas : Atlas) {r : Record} (h : r.path.isRoot = false) :
    (atlas.insert r).slots = put r.path.address r atlas.slots := by
  simp [insert, h]

theorem ofRecords_concat (rs : List Record) (r : Record) :
    ofRecords (rs ++ [r]) = (ofRecords rs).insert r := by
  rw [ofRecords, List.foldl_append]
  rfl

theorem addresses_ofRecords {rs : List Record} (h : ∀ r ∈ rs, r.path.isRoot = false) :
    (ofRecords rs).addresses = (rs.map (·.path.address)).eraseDups := by
  induction rs using List.reverseRecOn with
  | nil => rfl
  | append_singleton rs r ih =>
    have hrs := ih fun q hq => h q (List.mem_append_left _ hq)
    rw [ofRecords_concat, addresses, slots_insert _ (h r (by simp)), map_fst_put, ← addresses, hrs,
      List.map_append, List.map_singleton, Lists.eraseDups_concat]
    simp only [List.mem_eraseDups]

theorem lookup_ofRecords {rs : List Record} (h : ∀ r ∈ rs, r.path.isRoot = false)
    (address : String) : (ofRecords rs).slots.lookup address = latest rs address := by
  induction rs using List.reverseRecOn with
  | nil => rfl
  | append_singleton rs r ih =>
    have hrs := ih fun q hq => h q (List.mem_append_left _ hq)
    rw [ofRecords_concat, slots_insert _ (h r (by simp)), lookup_put, hrs, latest_concat]

theorem map_snd_eq_filterMap_lookup {slots : List (String × Record)}
    (h : (slots.map Prod.fst).Nodup) :
    slots.map Prod.snd = (slots.map Prod.fst).filterMap fun a => slots.lookup a := by
  induction slots with
  | nil => rfl
  | cons slot rest ih =>
    obtain ⟨a, r⟩ := slot
    rw [List.map_cons, List.nodup_cons] at h
    have hrest : ∀ b ∈ rest.map Prod.fst, ((a, r) :: rest).lookup b = rest.lookup b := by
      intro b hb
      have hne : (b == a) = false := beq_eq_false_iff_ne.mpr fun hba => h.1 (hba ▸ hb)
      rw [List.lookup_cons, hne]
    rw [List.map_cons, List.map_cons, List.filterMap_cons, List.lookup_cons_self, ih h.2,
      List.filterMap_congr hrest]

/-- Each address keeps its first position and its last record. -/
theorem records_ofRecords {rs : List Record} (h : ∀ r ∈ rs, r.path.isRoot = false) :
    (ofRecords rs).records = (rs.map (·.path.address)).eraseDups.filterMap (latest rs) := by
  have hkeys : (ofRecords rs).slots.map Prod.fst = (rs.map (·.path.address)).eraseDups :=
    addresses_ofRecords h
  have hlookup : (fun a => (ofRecords rs).slots.lookup a) = latest rs :=
    funext (lookup_ofRecords h)
  have hnodup : ((ofRecords rs).slots.map Prod.fst).Nodup := by
    rw [hkeys]
    exact Lists.nodup_eraseDups _
  rw [records, map_snd_eq_filterMap_lookup hnodup, hlookup, hkeys]

/-- Where no two paths share an address, records go by the steps of their paths. -/
theorem records_ofRecords_of_inj {rs : List Record} (h : ∀ r ∈ rs, r.path.isRoot = false)
    (hinj : ∀ r ∈ rs, ∀ q ∈ rs, r.path.address = q.path.address →
      r.path.segments = q.path.segments) :
    (ofRecords rs).records =
      (rs.map (·.path.segments)).eraseDups.filterMap fun steps =>
        rs.reverse.find? (·.path.segments == steps) := by
  let filed (steps : List Segment) : String := String.ofList (steps.flatMap Segment.address)
  have haddress : rs.map (·.path.address) = (rs.map (·.path.segments)).map filed := by
    rw [List.map_map]
    rfl
  have hdups : (rs.map (·.path.address)).eraseDups =
      ((rs.map (·.path.segments)).eraseDups).map filed := by
    rw [haddress, Lists.eraseDups_map]
    intro s hs t ht hst
    obtain ⟨r, hr, rfl⟩ := List.mem_map.mp hs
    obtain ⟨q, hq, rfl⟩ := List.mem_map.mp ht
    exact hinj r hr q hq hst
  rw [records_ofRecords h, hdups, List.filterMap_map]
  apply List.filterMap_congr
  intro steps hsteps
  obtain ⟨r, hr, rfl⟩ := List.mem_map.mp (List.mem_eraseDups.mp hsteps)
  -- Among the records, to have an address is to have the steps it is written from.
  apply List.find?_congr
  intro q hq
  rw [Bool.eq_iff_iff, beq_iff_eq, beq_iff_eq]
  constructor
  · exact hinj q (List.mem_reverse.mp hq) r hr
  · intro hqr
    exact congrArg filed hqr

theorem mem_put {address : String} {r : Record} {slots : List (String × Record)}
    {slot : String × Record} (h : slot ∈ put address r slots) :
    slot = (address, r) ∨ slot ∈ slots := by
  induction slots with
  | nil => exact Or.inl (List.mem_singleton.mp h)
  | cons first rest ih =>
    rw [put] at h
    split at h <;> rcases List.mem_cons.mp h with rfl | h
    · exact Or.inl rfl
    · exact Or.inr (List.mem_cons_of_mem _ h)
    · exact Or.inr List.mem_cons_self
    · exact (ih h).imp id (List.mem_cons_of_mem _)

theorem mem_of_mem_records_ofRecords {rs : List Record} {r : Record}
    (h : r ∈ (ofRecords rs).records) : r ∈ rs := by
  induction rs using List.reverseRecOn with
  | nil => cases h
  | append_singleton rs q ih =>
    rw [ofRecords_concat, insert] at h
    split at h
    · exact List.mem_append_left _ (ih h)
    · obtain ⟨slot, hslot, rfl⟩ := List.mem_map.mp h
      rcases mem_put hslot with rfl | hslot
      · simp
      · exact List.mem_append_left _ (ih (List.mem_map_of_mem hslot))

theorem placed_of_mem_records {findings : List Finding} {r : Record}
    (h : r ∈ (ofFindings findings).records) : .placed r ∈ findings :=
  Finding.mem_filterMap_record?.mp (mem_of_mem_records_ofRecords h)

theorem exists_record_of_get? {atlas : Atlas} {p : Path} {place : Place}
    (h : atlas.get? p = some place) : ∃ r ∈ atlas.records, r.place = place := by
  obtain ⟨r, hr, rfl⟩ := Option.map_eq_some_iff.mp h
  obtain ⟨before, after, hslots, -⟩ := List.lookup_eq_some_iff.mp hr
  refine ⟨r, ?_, rfl⟩
  rw [records, hslots]
  simp

theorem put_of_not_mem {address : String} {r : Record} {slots : List (String × Record)}
    (h : address ∉ slots.map Prod.fst) : put address r slots = slots ++ [(address, r)] := by
  induction slots with
  | nil => rfl
  | cons slot rest ih =>
    obtain ⟨a, old⟩ := slot
    rw [List.map_cons, List.mem_cons, not_or] at h
    rw [put, if_neg (Ne.symm h.1), ih h.2, List.cons_append]

theorem records_ofRecords_of_nodup {rs : List Record} (h : ∀ r ∈ rs, r.path.isRoot = false)
    (hnodup : (rs.map (·.path.address)).Nodup) : (ofRecords rs).records = rs := by
  induction rs using List.reverseRecOn with
  | nil => rfl
  | append_singleton rs r ih =>
    rw [List.map_append, List.nodup_append] at hnodup
    obtain ⟨hfront, -, hnew⟩ := hnodup
    have hrs : ∀ q ∈ rs, q.path.isRoot = false := fun q hq => h q (List.mem_append_left _ hq)
    have hmem : r.path.address ∉ (ofRecords rs).slots.map Prod.fst := by
      rw [← addresses, addresses_ofRecords hrs, List.mem_eraseDups]
      exact fun hin => hnew _ hin _ (by simp) rfl
    rw [ofRecords_concat, records, slots_insert _ (h r (by simp)), put_of_not_mem hmem,
      List.map_append, ← records, ih hrs hfront]
    rfl

end Atlas

end ConfigAtlas
