import RacOS.Block.Cache
import Mathlib.Data.List.Nodup

/-!
# What the cache operations do

The logical contents of a sector are its cached copy, or else what the device
holds.  `Inv` is the invariant of the cache, `Keeps` says what reading,
evicting and flushing may do to it whatever their outcome, and `Stores` what a
successful write does.  Every later result about the cache, and about the
filesystem above it, is derived from these three.
-/

namespace RacOS.Block.BlockCache

open Program

/-- The logical contents of a sector. -/
def view (c : BlockCache) (lba : ℕ) : Sector :=
  match c.lookup lba with
  | some e => e.data
  | none => c.device.storage lba

/-- Sector `lba` has a cached copy that is newer than the device's. -/
def DirtyAt (c : BlockCache) (lba : ℕ) : Prop :=
  ∃ e ∈ c.entries, e.lba = lba ∧ e.dirty = true

/-- The invariant of the cache: one entry a sector, at most the limit, only
sectors of the device, and clean entries agree with the device. -/
structure Inv (c : BlockCache) : Prop where
  nodup : (c.entries.map (·.lba)).Nodup
  size : c.entries.length ≤ maxCachedSectors
  range : ∀ e ∈ c.entries, e.lba < c.device.sectorCount
  clean : ∀ e ∈ c.entries, e.dirty = false → e.data = c.device.storage e.lba

theorem inv_new (device : BlockDevice) : (new device).Inv := by
  constructor <;> simp [new]

/-! ## Lookup and view -/

variable {c : BlockCache} {lba : ℕ}

theorem lookup_eq_none_iff : c.lookup lba = none ↔ ∀ e ∈ c.entries, e.lba ≠ lba := by
  simp [lookup]

theorem mem_of_lookup {e : CacheEntry} (h : c.lookup lba = some e) :
    e ∈ c.entries ∧ e.lba = lba := by
  unfold lookup at h
  exact ⟨List.mem_of_find?_eq_some h, by simpa using List.find?_some h⟩

theorem eq_of_lba_eq {es : List CacheEntry} (hnodup : (es.map (·.lba)).Nodup) {e f : CacheEntry}
    (he : e ∈ es) (hf : f ∈ es) (h : e.lba = f.lba) : e = f :=
  List.inj_on_of_nodup_map hnodup he hf h

theorem Inv.lookup_of_mem (hc : c.Inv) {e : CacheEntry} (he : e ∈ c.entries) :
    c.lookup e.lba = some e := by
  cases h : c.lookup e.lba with
  | none => exact absurd rfl (lookup_eq_none_iff.mp h e he)
  | some f =>
    obtain ⟨hf, hlba⟩ := mem_of_lookup h
    rw [eq_of_lba_eq hc.nodup hf he hlba]

theorem Inv.view_of_mem (hc : c.Inv) {e : CacheEntry} (he : e ∈ c.entries) :
    c.view e.lba = e.data := by
  simp [view, hc.lookup_of_mem he]

theorem view_of_lookup_none (h : c.lookup lba = none) : c.view lba = c.device.storage lba := by
  simp [view, h]

/-- A sector without a dirty copy reads as the device has it. -/
theorem Inv.view_of_not_dirtyAt (hc : c.Inv) (h : ¬c.DirtyAt lba) :
    c.view lba = c.device.storage lba := by
  cases hl : c.lookup lba with
  | none => exact view_of_lookup_none hl
  | some e =>
    obtain ⟨he, rfl⟩ := mem_of_lookup hl
    rw [hc.view_of_mem he]
    apply hc.clean e he
    by_contra hd
    exact h ⟨e, he, rfl, by simpa using hd⟩

/-- The view is determined by which entries there are and by the device. -/
theorem Inv.view_eq (hc : c.Inv) {V : ℕ → Sector} (hmem : ∀ e ∈ c.entries, e.data = V e.lba)
    (hnone : ∀ lba, (∀ e ∈ c.entries, e.lba ≠ lba) →
      c.device.storage lba = V lba) : c.view = V := by
  funext lba
  cases hl : c.lookup lba with
  | none =>
    rw [view_of_lookup_none hl]
    exact hnone lba (lookup_eq_none_iff.mp hl)
  | some e =>
    obtain ⟨he, rfl⟩ := mem_of_lookup hl
    rw [hc.view_of_mem he, hmem e he]

/-! ## What keeps the logical contents -/

/-- What reading, evicting and flushing may do: the logical contents stay, no
sector becomes dirty, pinned sectors stay dirty, and every sector written to
the device was dirty and not recorded. -/
structure Keeps (c c' : BlockCache) : Prop where
  inv : c'.Inv
  view : c'.view = c.view
  recording : c'.recording = c.recording
  sectorCount : c'.device.sectorCount = c.device.sectorCount
  faults : c'.device.faults = c.device.faults
  dirty : ∀ lba, c'.DirtyAt lba → c.DirtyAt lba
  pinned : ∀ lba, c.DirtyAt lba → c.isRecorded lba = true → c'.DirtyAt lba
  writes : ∃ ws, c'.device.writes = c.device.writes ++ ws ∧
    c'.device.storage = WriteLog.apply c.device.storage ws ∧
    ∀ w ∈ ws, c.DirtyAt w.1 ∧ c.isRecorded w.1 = false ∧ w.2 = c.view w.1

variable {c' : BlockCache}

theorem isRecorded_congr (h : c'.recording = c.recording) : c'.isRecorded = c.isRecorded := by
  funext lba
  simp [isRecorded, h]

namespace Keeps

theorem refl (hc : c.Inv) : Keeps c c :=
  { inv := hc
    view := rfl
    recording := rfl
    sectorCount := rfl
    faults := rfl
    dirty := fun _ h => h
    pinned := fun _ h _ => h
    writes := ⟨[], by simp⟩ }

theorem trans {a b c : BlockCache} (hab : Keeps a b) (hbc : Keeps b c) : Keeps a c := by
  have hrec := isRecorded_congr hab.recording
  refine
    { inv := hbc.inv
      view := hbc.view.trans hab.view
      recording := hbc.recording.trans hab.recording
      sectorCount := hbc.sectorCount.trans hab.sectorCount
      faults := hbc.faults.trans hab.faults
      dirty := fun lba h => hab.dirty lba (hbc.dirty lba h)
      pinned := fun lba h hr => hbc.pinned lba (hab.pinned lba h hr) (by rwa [hrec])
      writes := ?_ }
  obtain ⟨ws, hw, hs, hws⟩ := hab.writes
  obtain ⟨vs, hv, ht, hvs⟩ := hbc.writes
  refine ⟨ws ++ vs, ?_, ?_, ?_⟩
  · rw [hv, hw, List.append_assoc]
  · rw [ht, hs, WriteLog.apply_append]
  · intro w hmem
    rcases List.mem_append.mp hmem with hmem | hmem
    · exact hws w hmem
    · obtain ⟨hd, hr, hv⟩ := hvs w hmem
      exact ⟨hab.dirty _ hd, by rwa [hrec] at hr, by rw [hv, hab.view]⟩

theorem isRecorded (h : Keeps c c') : c'.isRecorded = c.isRecorded :=
  isRecorded_congr h.recording

theorem faultFree (h : Keeps c c') (hff : c.device.FaultFree) : c'.device.FaultFree := by
  intro n
  rw [h.faults]
  exact hff n

/-- A sector that is not dirty keeps its device contents. -/
theorem storage_of_not_dirtyAt (h : Keeps c c') (hd : ¬c.DirtyAt lba) :
    c'.device.storage lba = c.device.storage lba := by
  obtain ⟨ws, -, hs, hws⟩ := h.writes
  rw [hs]
  apply WriteLog.apply_of_notMem
  rintro w hw rfl
  exact hd (hws w hw).1

end Keeps

theorem Keeps.of_entries_eq (hc : c.Inv) (hentries : c'.entries = c.entries)
    (hrec : c'.recording = c.recording) (hdev : c'.device = c.device ∨ c'.device = c.device.tick) :
    Keeps c c' := by
  have hsc : c'.device.sectorCount = c.device.sectorCount := by
    rcases hdev with h | h <;> simp [h]
  have hst : c'.device.storage = c.device.storage := by
    rcases hdev with h | h <;> simp [h]
  have hwr : c'.device.writes = c.device.writes := by
    rcases hdev with h | h <;> simp [h]
  have hfa : c'.device.faults = c.device.faults := by
    rcases hdev with h | h <;> simp [h]
  have hda : ∀ lba, c'.DirtyAt lba ↔ c.DirtyAt lba := by
    intro lba
    simp [DirtyAt, hentries]
  refine
    { inv := ?_
      view := ?_
      recording := hrec
      sectorCount := hsc
      faults := hfa
      dirty := fun lba h => (hda lba).mp h
      pinned := fun lba h _ => (hda lba).mpr h
      writes := ⟨[], by simp [hwr, hst]⟩ }
  · constructor
    · rw [hentries]
      exact hc.nodup
    · rw [hentries]
      exact hc.size
    · rw [hentries, hsc]
      exact hc.range
    · rw [hentries, hst]
      exact hc.clean
  · funext lba
    simp [BlockCache.view, lookup, hentries, hst]

end RacOS.Block.BlockCache
