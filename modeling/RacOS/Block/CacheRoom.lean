import RacOS.Block.CacheWrite

/-!
# Room in the cache

A cache has room when it is not full of pinned sectors.  Reading never takes the
room away, because a sector that was just read is clean; and a sector that was
just read can be written without any room.  So a program that reads before it
writes fails in a cache with room only if the device does.
-/

namespace RacOS.Block.BlockCache

open Program

/-- Some entry is free or can be evicted. -/
def Room (c : BlockCache) : Prop :=
  maxCachedSectors ≤ c.entries.length → ¬c.AllPinned

variable {c : BlockCache}

theorem room_of_not_recording (h : c.recording = none) : c.Room := by
  intro hfull hpinned
  have hpos : 0 < c.entries.length := Nat.lt_of_lt_of_le (by decide) hfull
  obtain ⟨e, he⟩ := List.exists_mem_of_length_pos hpos
  have hrec := (hpinned e he).2
  simp [isRecorded, h] at hrec

variable {lba : ℕ}

/-- Reading touches an entry or adds a clean one. -/
theorem fetchSector_entries {c c' : BlockCache} {out : Sector}
    (h : fetchSector lba c = .ok out c') :
    c' = c.touched lba ∧ (∃ e, c.lookup lba = some e) ∨
      ∃ e ∈ c'.entries, e.lba = lba ∧ e.dirty = false := by
  obtain ⟨-, ⟨e, hl, -, rfl⟩ | ⟨c₂, -, -, -, rfl⟩⟩ := fetchSector_ok_cases h
  · exact Or.inl ⟨rfl, e, hl⟩
  · exact Or.inr ⟨⟨lba, c.device.storage lba, false, c.seq + 1⟩, by simp [push], rfl, rfl⟩

theorem mem_touched (lba : ℕ) {e : CacheEntry} (he : e ∈ c.entries) :
    ∃ e' ∈ (c.touched lba).entries, e'.lba = e.lba ∧ e'.dirty = e.dirty := by
  rcases Vec.mem_updateFirst_or
    (f := fun e : CacheEntry => { e with accessSeq := c.seq + 1 })
    (p := fun e => e.lba == lba) he with h | ⟨-, h⟩
  · exact ⟨e, h, rfl, rfl⟩
  · exact ⟨_, h, rfl, rfl⟩

/-- A sector that was read is cached, and there is still room. -/
theorem fetchSector_room {c c' : BlockCache} {out : Sector} (h : fetchSector lba c = .ok out c') :
    c'.lookup lba ≠ none ∧ (c.Room → c'.Room) := by
  rcases fetchSector_entries h with ⟨rfl, e, hl⟩ | ⟨e, he, rfl, hclean⟩
  · obtain ⟨he, rfl⟩ := mem_of_lookup hl
    refine ⟨fun hnone => ?_, fun hroom hfull hpinned => ?_⟩
    · obtain ⟨e', he', hlba, -⟩ := mem_touched e.lba he
      exact lookup_eq_none_iff.mp hnone e' he' hlba
    · refine hroom ?_ fun f hf => ?_
      · rwa [touched, updateEntry, Vec.length_updateFirst] at hfull
      · obtain ⟨f', hf', hlba, hdirty⟩ := mem_touched e.lba hf
        rw [← hlba, ← hdirty]
        exact hpinned f' hf'
  · refine ⟨fun hnone => lookup_eq_none_iff.mp hnone e he rfl, fun _ _ hpinned => ?_⟩
    have hdirty := (hpinned e he).1
    rw [hclean] at hdirty
    cases hdirty

/-- With room in the cache, reading a sector of a working device succeeds. -/
theorem fetchSector_of_room (hc : c.Inv) (hff : c.device.FaultFree) (hroom : c.Room)
    (hlba : lba < c.device.sectorCount) : ∃ c', fetchSector lba c = .ok (c.view lba) c' := by
  cases h : fetchSector lba c with
  | ok out c' =>
    obtain ⟨-, rfl, -⟩ := fetchSector_ok hc h
    exact ⟨c', rfl⟩
  | error err c' =>
    obtain ⟨-, hpinned, hfull⟩ := (fetchSector_error hc h).2.2 hff hlba
    exact absurd hpinned (hroom hfull)

/-- Writing a cached sector of a working device succeeds. -/
theorem storeSector_of_cached (hc : c.Inv) (hff : c.device.FaultFree)
    (hlba : lba < c.device.sectorCount) (hl : c.lookup lba ≠ none) (data : Sector) :
    ∃ c', storeSector lba data c = .ok () c' := by
  cases h : storeSector lba data c with
  | ok u c' => exact ⟨c', rfl⟩
  | error err c' => exact absurd ((storeSector_error hc h).2.2 hff hlba).1 hl

end RacOS.Block.BlockCache
