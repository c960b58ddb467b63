import RacOS.Block.CacheDirect
import RacOS.Block.CacheWrite

/-!
# Transparency of the block cache

Outside recording, a cache over a fault-free device behaves like a flat disk
that remembers the last successful write to each sector.  Eviction, flushing
and invalidation are invisible to `readSector`; `readThrough` sees the disk
only up to the dirty entries the cache still holds.
-/

namespace RacOS.Block

open Program

/-- The calls of a cache outside recording. -/
inductive CacheCall
  | readSector (lba outLen : ℕ)
  | writeSector (lba : ℕ) (input : List UInt8)
  | flush
  | writeThrough (lba : ℕ) (data : Sector)
  | readThrough (lba : ℕ)
  | flushAndInvalidate

namespace CacheCall

open BlockCache

/-- Make the call, dropping what a read returns. -/
def run : CacheCall → CacheM Unit
  | .readSector lba outLen => do let _ ← BlockCache.readSector lba outLen
  | .writeSector lba input => BlockCache.writeSector lba input
  | .flush => BlockCache.flush
  | .writeThrough lba data => BlockCache.writeThrough lba data
  | .readThrough lba => do let _ ← BlockCache.readThrough lba
  | .flushAndInvalidate => BlockCache.flushAndInvalidate

/-- The sector a call writes when it succeeds. -/
def written : CacheCall → List (ℕ × Sector)
  | .writeSector lba input => [(lba, Sector.ofFn fun i => input.getD i 0)]
  | .writeThrough lba data => [(lba, data)]
  | _ => []

/-- One call: the successful writes so far, and the cache. -/
def step (s : List (ℕ × Sector) × BlockCache) (call : CacheCall) : List (ℕ × Sector) × BlockCache :=
  match call.run s.2 with
  | .ok _ c => (s.1 ++ call.written, c)
  | .error _ c => (s.1, c)

/-- A run of calls on a new cache over `device`. -/
def runAll (device : BlockDevice) (calls : List CacheCall) : List (ℕ × Sector) × BlockCache :=
  calls.foldl step ([], BlockCache.new device)

/-- The cache `c` stands for the flat disk that `device` became after the
successful writes `ws`. -/
structure Represents (device : BlockDevice) (ws : List (ℕ × Sector)) (c : BlockCache) : Prop where
  inv : c.Inv
  recording : c.recording = none
  faultFree : c.device.FaultFree
  view : c.view = WriteLog.apply device.storage ws

variable {device : BlockDevice}

theorem represents_new (hff : device.FaultFree) : Represents device [] (BlockCache.new device) :=
  { inv := inv_new device
    recording := rfl
    faultFree := hff
    view := rfl }

theorem readSector_fetch (c : BlockCache) (lba outLen : ℕ) :
    BlockCache.readSector lba outLen c = fetchSector lba c ∨
      BlockCache.readSector lba outLen c = .error .invalidBuffer c := by
  by_cases h : outLen = sectorSize
  · exact Or.inl (bind_of_ok (a := ()) (require_ok_iff.mpr ⟨h, rfl⟩))
  · exact Or.inr (bind_of_error (require_error_iff.mpr ⟨h, rfl, rfl⟩))

namespace Represents

variable {ws : List (ℕ × Sector)} {c c' : BlockCache} (h : Represents device ws c)

include h

theorem of_keeps (hk : Keeps c c') : Represents device ws c' :=
  { inv := hk.inv
    recording := hk.recording.trans h.recording
    faultFree := hk.faultFree h.faultFree
    view := hk.view.trans h.view }

theorem ticked : Represents device ws { c with device := c.device.tick } :=
  h.of_keeps (.of_entries_eq h.inv rfl rfl (Or.inr rfl))

theorem noted (lba : ℕ) : Represents device ws (c.noted lba) :=
  { inv := h.inv.noted lba
    recording := by rw [noted_recording, noteWrite, h.recording]; rfl
    faultFree := h.faultFree
    view := by rw [noted_view, h.view] }

theorem not_isRecorded (lba : ℕ) : c.isRecorded lba = false := by
  simp [isRecorded, h.recording]

/-- Nothing is dirty after a successful flush, so the device holds the whole
logical disk. -/
theorem flush_ok {u : Unit} (hrun : BlockCache.flush c = .ok u c') :
    Represents device ws c' ∧ c'.device.storage = WriteLog.apply device.storage ws := by
  obtain ⟨hk, -, hdirty, -⟩ := flush_final h.inv
  rw [final_of_ok hrun] at hk
  have hrep := h.of_keeps hk
  refine ⟨hrep, ?_⟩
  funext lba
  rw [← hrep.view, hk.inv.view_of_not_dirtyAt]
  intro hd
  have := hdirty c' u hrun lba hd
  rw [h.not_isRecorded lba] at this
  cases this

/-- Invalidating after a successful flush loses nothing. -/
theorem flushAndInvalidate_ok {u : Unit} (hrun : BlockCache.flushAndInvalidate c = .ok u c') :
    Represents device ws c' ∧ c'.device.storage = WriteLog.apply device.storage ws := by
  obtain ⟨v, c₁, hflush, hmod⟩ := bind_ok_iff.mp hrun
  cases hmod
  obtain ⟨hrep, hst⟩ := h.flush_ok hflush
  refine ⟨⟨?_, hrep.recording, hrep.faultFree, hst⟩, hst⟩
  exact ⟨by simp, by simp, by simp, by simp⟩

theorem store {lba : ℕ} {data : Sector} (hs : Stores lba data c c') :
    Represents device (ws ++ [(lba, data)]) c' := by
  refine ⟨hs.inv, ?_, ?_, ?_⟩
  · simp [hs.recording, noteWrite, h.recording]
  · intro n
    rw [hs.faults]
    exact h.faultFree n
  · rw [hs.view, h.view, WriteLog.apply_concat]

/-- A successful call performs its write, if it has one, on the flat disk. -/
theorem run_ok {u : Unit} {call : CacheCall} (hrun : call.run c = .ok u c') :
    Represents device (ws ++ call.written) c' := by
  cases call with
  | readSector lba outLen =>
    obtain ⟨out, c₁, hread, hpure⟩ := bind_ok_iff.mp hrun
    obtain ⟨-, rfl⟩ := pure_ok_iff.mp hpure
    rcases readSector_fetch c lba outLen with hf | hf
    · rw [hf] at hread
      simpa [written] using h.of_keeps (fetchSector_ok h.inv hread).2.2
    · rw [hf] at hread
      cases hread
  | writeSector lba input =>
    obtain ⟨_, c₁, hreq, hstore⟩ := bind_ok_iff.mp hrun
    obtain ⟨-, rfl⟩ := require_ok_iff.mp hreq
    exact h.store (storeSector_ok h.inv hstore)
  | flush => simpa [written] using (h.flush_ok hrun).1
  | writeThrough lba data =>
    obtain ⟨-, rfl⟩ := writeThrough_ok hrun
    obtain ⟨hinv, hview⟩ := h.inv.writeThrough lba data rfl
    refine ⟨hinv, h.recording, h.faultFree, ?_⟩
    rw [hview, h.view]
    exact (WriteLog.apply_concat device.storage ws (lba, data)).symm
  | readThrough lba =>
    obtain ⟨out, c₁, hread, hpure⟩ := bind_ok_iff.mp hrun
    obtain ⟨-, rfl⟩ := pure_ok_iff.mp hpure
    obtain ⟨-, -, rfl⟩ := readThrough_ok hread
    simpa [written] using h.ticked
  | flushAndInvalidate => simpa [written] using (h.flushAndInvalidate_ok hrun).1

/-- A failed call leaves the flat disk as it was. -/
theorem run_error {e : BlockError} {call : CacheCall} (hrun : call.run c = .error e c') :
    Represents device ws c' := by
  cases call with
  | readSector lba outLen =>
    rcases bind_error_iff.mp hrun with hread | ⟨a, s, -, hpure⟩
    · rcases readSector_fetch c lba outLen with hf | hf
      · rw [hf] at hread
        exact h.of_keeps (fetchSector_error h.inv hread).1
      · rw [hf] at hread
        cases hread
        exact h
    · cases hpure
  | writeSector lba input =>
    rcases bind_error_iff.mp hrun with hreq | ⟨_, c₁, hreq, hstore⟩
    · obtain ⟨-, -, rfl⟩ := require_error_iff.mp hreq
      exact h
    · obtain ⟨-, rfl⟩ := require_ok_iff.mp hreq
      rcases (storeSector_error h.inv hstore).1 with rfl | ⟨-, hk⟩
      · exact h
      · exact (h.noted lba).of_keeps hk
  | flush =>
    obtain ⟨c₁, hok⟩ := (flush_final h.inv).2.2.2 h.faultFree
    rw [show run .flush c = _ from hok] at hrun
    cases hrun
  | writeThrough lba data =>
    -- without device faults only an address past the end fails
    obtain ⟨hc, hrange⟩ := writeThrough_error hrun
    rw [forget_of_out_of_range h.inv (hrange h.faultFree)] at hc
    rcases hc with rfl | rfl
    · exact h
    · exact h.ticked
  | readThrough lba =>
    rcases bind_error_iff.mp hrun with hread | ⟨a, s, -, hpure⟩
    · rcases (readThrough_error hread).1 with rfl | rfl
      · exact h
      · exact h.ticked
    · cases hpure
  | flushAndInvalidate =>
    obtain ⟨c₁, hok⟩ := (flush_final h.inv).2.2.2 h.faultFree
    rcases bind_error_iff.mp hrun with hflush | ⟨a, s, -, hmod⟩
    · rw [hok] at hflush
      cases hflush
    · cases hmod

end Represents

/-- Each call keeps the flat disk in step with the successful writes. -/
theorem Represents.step {s : List (ℕ × Sector) × BlockCache} (h : Represents device s.1 s.2)
    (call : CacheCall) : Represents device (step s call).1 (step s call).2 := by
  unfold CacheCall.step
  cases hrun : call.run s.2 with
  | ok u c => exact h.run_ok hrun
  | error e c => exact h.run_error hrun

theorem represents_runAll (hff : device.FaultFree) (calls : List CacheCall) :
    Represents device (runAll device calls).1 (runAll device calls).2 := by
  unfold runAll
  induction calls using List.reverseRecOn with
  | nil => exact represents_new hff
  | append_singleton calls call ih =>
    rw [List.foldl_concat]
    exact ih.step call

/-- The cache is transparent: after any calls, `readSector` answers with the
last successful write of the sector, `readThrough` answers with what the device
holds, which is the same unless the cache holds the sector dirty, no sector is
cached twice, the cache is within its limit, and a successful flush brings the
device to the logical contents. -/
theorem cache_transparent (device : BlockDevice) (hff : device.FaultFree) (calls : List CacheCall) :
    let c := (runAll device calls).2
    let logical := WriteLog.apply device.storage (runAll device calls).1
    (∀ lba outLen out c', BlockCache.readSector lba outLen c = .ok out c' → out = logical lba) ∧
    (∀ lba out c', BlockCache.readThrough lba c = .ok out c' →
      out = c.device.storage lba ∧ (¬c.DirtyAt lba → out = logical lba)) ∧
    (c.entries.map (·.lba)).Nodup ∧ c.entries.length ≤ maxCachedSectors ∧
    (∀ u c', BlockCache.flush c = .ok u c' → c'.device.storage = logical) ∧
    (∀ u c', BlockCache.flushAndInvalidate c = .ok u c' → c'.device.storage = logical) := by
  have h := represents_runAll hff calls
  refine ⟨?_, ?_, h.inv.nodup, h.inv.size, ?_, ?_⟩
  · intro lba outLen out c' hread
    rcases readSector_fetch (runAll device calls).2 lba outLen with hf | hf
    · rw [hf] at hread
      rw [← h.view]
      exact (fetchSector_ok h.inv hread).2.1
    · rw [hf] at hread
      cases hread
  · intro lba out c' hread
    obtain ⟨-, rfl, -⟩ := readThrough_ok hread
    refine ⟨rfl, fun hclean => ?_⟩
    rw [← h.view, h.inv.view_of_not_dirtyAt hclean]
  · intro u c' hrun
    exact (h.flush_ok hrun).2
  · intro u c' hrun
    exact (h.flushAndInvalidate_ok hrun).2

/-! ## A stale read -/

/-- One zeroed sector and no faults. -/
def oneSector : BlockDevice := .blank 1 (by decide)

theorem cache_transparent_oneSector : oneSector.FaultFree ∧
    ∀ lba outLen out c',
      BlockCache.readSector lba outLen
        (runAll oneSector [.writeSector 0 (List.replicate 512 1), .flush]).2 = .ok out c' →
      out = WriteLog.apply oneSector.storage
        (runAll oneSector
          [.writeSector 0 (List.replicate 512 1), .flush]).1 lba :=
  ⟨fun _ => rfl,
    (cache_transparent oneSector (fun _ => rfl)
      [.writeSector 0 (List.replicate 512 1), .flush]).1⟩

set_option maxRecDepth 4000 in
/-- A `readThrough` after a buffered write succeeds with the old contents,
although the last successful write to the sector was a different one. -/
theorem readThrough_stale :
    let calls := [CacheCall.writeSector 0 (List.replicate 512 1)]
    oneSector.FaultFree ∧
    (∃ c', BlockCache.readThrough 0 (runAll oneSector calls).2 = .ok Sector.zero c') ∧
    WriteLog.apply oneSector.storage (runAll oneSector calls).1 0 ≠ Sector.zero := by
  refine ⟨fun _ => rfl, ⟨_, rfl⟩, ?_⟩
  intro h
  have := congrFun h 0
  revert this
  decide

end CacheCall

end RacOS.Block
