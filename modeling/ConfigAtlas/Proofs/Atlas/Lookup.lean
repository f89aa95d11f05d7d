import ConfigAtlas.Proofs.Atlas.Records
import ConfigAtlas.Proofs.Path.Address

/-! # What is on record is found under its own path, and nothing else is found -/

namespace ConfigAtlas

namespace Path

/-- The steps as the address keeps them. -/
def filed (p : Path) : List Segment := p.segments.map Segment.filed

theorem address_eq_iff_filed (p q : Path) : p.address = q.address ↔ p.filed = q.filed :=
  address_eq_iff p q

@[simp] theorem filed_push (p : Path) (s : Segment) : (p.push s).filed = p.filed ++ [s.filed] := by
  simp [filed]

@[simp] theorem filed_ofSegments (steps : List Segment) :
    (ofSegments steps).filed = steps.map Segment.filed := by
  simp [filed]

theorem isRoot_iff_filed (p : Path) : p.isRoot = true ↔ p.filed = [] := by
  simp [isRoot, filed]

end Path

namespace Atlas

theorem get?_congr (atlas : Atlas) {p q : Path} (h : p.filed = q.filed) :
    atlas.get? p = atlas.get? q := by
  rw [get?, get?, (Path.address_eq_iff_filed p q).mpr h]

/-- Each record is filed under the address of its path, one record an address, and never under
the root. -/
structure Filed (atlas : Atlas) : Prop where
  address_eq : ∀ slot ∈ atlas.slots, slot.1 = slot.2.path.address
  nodup : (atlas.slots.map Prod.fst).Nodup
  not_root : ∀ slot ∈ atlas.slots, slot.2.path.isRoot = false

theorem Filed.insert {atlas : Atlas} (h : atlas.Filed) (r : Record) : (atlas.insert r).Filed := by
  cases hroot : r.path.isRoot with
  | true =>
    rw [Atlas.insert, if_pos hroot]
    exact h
  | false =>
    have hslots := slots_insert atlas hroot
    refine ⟨?_, ?_, ?_⟩ <;> rw [hslots]
    · intro slot hslot
      rcases mem_put hslot with rfl | hslot
      · rfl
      · exact h.address_eq slot hslot
    · rw [map_fst_put]
      split
      · exact h.nodup
      · rename_i hnew
        refine List.nodup_append.mpr ⟨h.nodup, List.nodup_singleton _, ?_⟩
        rintro a ha b hb rfl
        exact hnew (List.mem_singleton.mp hb ▸ ha)
    · intro slot hslot
      rcases mem_put hslot with rfl | hslot
      · exact hroot
      · exact h.not_root slot hslot

theorem filed_ofRecords (rs : List Record) : (ofRecords rs).Filed := by
  induction rs using List.reverseRecOn with
  | nil => exact ⟨by simp [ofRecords], by simp [ofRecords], by simp [ofRecords]⟩
  | append_singleton rs r ih =>
    rw [ofRecords_concat]
    exact ih.insert r

namespace Filed

variable {atlas : Atlas}

theorem get?_record (h : atlas.Filed) {r : Record} (hr : r ∈ atlas.records) :
    atlas.get? r.path = some r.place := by
  obtain ⟨⟨address, r⟩, hslot, rfl⟩ := List.mem_map.mp hr
  have haddress : address = r.path.address := h.address_eq _ hslot
  rw [get?, ← haddress, Lists.lookup_of_nodup h.nodup hslot]
  rfl

theorem contains_iff (h : atlas.Filed) {p : Path} :
    atlas.contains p = true ↔ ∃ r ∈ atlas.records, r.path.filed = p.filed := by
  constructor
  · intro hcontains
    obtain ⟨place, hplace⟩ := Option.isSome_iff_exists.mp hcontains
    obtain ⟨r, hlookup, -⟩ := Option.map_eq_some_iff.mp hplace
    obtain ⟨before, after, hslots, -⟩ := List.lookup_eq_some_iff.mp hlookup
    have hslot : (p.address, r) ∈ atlas.slots := by simp [hslots]
    exact ⟨r, List.mem_map_of_mem hslot,
      ((Path.address_eq_iff_filed p r.path).mp (h.address_eq _ hslot)).symm⟩
  · rintro ⟨r, hr, hfiled⟩
    rw [contains, ← get?_congr atlas hfiled, h.get?_record hr]
    rfl

theorem nodup_records (h : atlas.Filed) : (atlas.records.map (·.path.address)).Nodup := by
  have hmap : atlas.records.map (·.path.address) = atlas.slots.map Prod.fst := by
    rw [records, List.map_map]
    exact List.map_congr_left fun slot hslot => (h.address_eq slot hslot).symm
  rw [hmap]
  exact h.nodup

end Filed

/-- A path has a place exactly when it was placed, be it by fields or by keys. -/
theorem contains_ofRecords_iff {rs : List Record} {p : Path} :
    (ofRecords rs).contains p = true ↔
      ∃ r ∈ rs, r.path.isRoot = false ∧ r.path.filed = p.filed := by
  induction rs using List.reverseRecOn with
  | nil => simp [contains, get?, ofRecords]
  | append_singleton rs r ih =>
    rw [ofRecords_concat]
    simp only [List.mem_append, List.mem_singleton, or_and_right, exists_or, exists_eq_left, ← ih]
    cases hroot : r.path.isRoot with
    | true => simp [insert, hroot]
    | false =>
      rw [contains, get?_insert _ _ hroot]
      simp only [Path.address_eq_iff_filed, @eq_comm _ p.filed]
      by_cases h : r.path.filed = p.filed <;> simp [h, contains]

theorem mem_records_ofRecords {rs : List Record} {r : Record} (hr : r ∈ rs)
    (hroot : r.path.isRoot = false) (hunique : ∀ q ∈ rs, q.path.filed = r.path.filed → q = r) :
    r ∈ (ofRecords rs).records := by
  have hcontains : (ofRecords rs).contains r.path = true :=
    contains_ofRecords_iff.mpr ⟨r, hr, hroot, rfl⟩
  obtain ⟨q, hq, hfiled⟩ := (filed_ofRecords rs).contains_iff.mp hcontains
  have hsame := hunique q (mem_of_mem_records_ofRecords hq) hfiled
  rwa [hsame] at hq

theorem get?_of_isRoot (rs : List Record) {p : Path} (h : p.isRoot = true) :
    (ofRecords rs).get? p = none := by
  rw [← Option.not_isSome_iff_eq_none]
  intro hsome
  obtain ⟨r, -, hroot, hfiled⟩ := contains_ofRecords_iff.mp hsome
  rw [(Path.isRoot_iff_filed p).mp h, ← Path.isRoot_iff_filed, hroot] at hfiled
  cases hfiled

end Atlas

end ConfigAtlas
