import RacOS.Lib.Program
import RacOS.Lib.WriteLog

/-!
# Block devices

The model of `drivers/block.rs`: sectors of 512 bytes, a device that serves
reads and writes of whole sectors, and its error codes.  A device may fail:
`faults n` says whether the access numbered `n` is answered with an I/O error.
The device also keeps the list of the sector writes it has carried out, so
that crash points and write ordering can be spoken about.
-/

namespace RacOS.Block

open Program

/-- Logical sector size used by block devices. -/
abbrev sectorSize : ℕ := 512

/-- The contents of one sector. -/
abbrev Sector := Fin sectorSize → UInt8

namespace Sector

/-- Byte `i` of a sector; positions past the end read as zero. -/
def get (s : Sector) (i : ℕ) : UInt8 :=
  if h : i < sectorSize then s ⟨i, h⟩ else 0

/-- The sector whose bytes are given by `f`. -/
def ofFn (f : ℕ → UInt8) : Sector := fun i => f i

/-- A sector full of zeros. -/
def zero : Sector := fun _ => 0

@[simp] theorem get_zero (i : ℕ) : zero.get i = 0 := by
  simp [get, zero]

theorem get_ofFn (f : ℕ → UInt8) (i : ℕ) : (ofFn f).get i = if i < sectorSize then f i else 0 := by
  unfold get ofFn
  split <;> rfl

theorem get_ofFn_of_lt (f : ℕ → UInt8) {i : ℕ} (h : i < sectorSize) : (ofFn f).get i = f i := by
  rw [get_ofFn, if_pos h]

end Sector

/-- The errors a block device or the cache reports. -/
inductive BlockError
  | outOfRange
  | invalidBuffer
  | io
  deriving DecidableEq, Repr

/-- A block device: its size, its contents, its fault schedule, how many
accesses it has served and the sector writes it has carried out, in order. -/
structure BlockDevice where
  sectorCount : ℕ
  sectorCount_lt : sectorCount < 2 ^ 64
  storage : ℕ → Sector
  faults : ℕ → Bool
  accesses : ℕ
  writes : List (ℕ × Sector)

abbrev DeviceM := EStateM BlockError BlockDevice

namespace BlockDevice

/-- A device none of whose accesses fails. -/
def FaultFree (d : BlockDevice) : Prop := ∀ n, d.faults n = false

/-- A zeroed device that fails the accesses `faults` says. -/
def blank (sectorCount : ℕ) (h : sectorCount < 2 ^ 64)
    (faults : ℕ → Bool := fun _ => false) : BlockDevice :=
  { sectorCount
    sectorCount_lt := h
    storage := fun _ => Sector.zero
    faults
    accesses := 0
    writes := [] }

/-- Count one more access. -/
def tick (d : BlockDevice) : BlockDevice :=
  { d with accesses := d.accesses + 1 }

/-- Put `data` into sector `lba` and log the write. -/
def store (d : BlockDevice) (lba : ℕ) (data : Sector) : BlockDevice :=
  { d with
    storage := WriteLog.put d.storage lba data
    writes := d.writes ++ [(lba, data)] }

/-- Read one sector. -/
def readSector (lba : ℕ) : DeviceM Sector := fun d =>
  if d.sectorCount ≤ lba then .error .outOfRange d
  else if d.faults d.accesses then .error .io d.tick
  else .ok (d.storage lba) d.tick

/-- Write one sector. -/
def writeSector (lba : ℕ) (data : Sector) : DeviceM Unit := fun d =>
  if d.sectorCount ≤ lba then .error .outOfRange d
  else if d.faults d.accesses then .error .io d.tick
  else .ok () (d.store lba data).tick

variable (d : BlockDevice) (lba : ℕ) (data : Sector)

@[simp] theorem tick_sectorCount : d.tick.sectorCount = d.sectorCount := rfl

@[simp] theorem tick_storage : d.tick.storage = d.storage := rfl

@[simp] theorem tick_faults : d.tick.faults = d.faults := rfl

@[simp] theorem tick_writes : d.tick.writes = d.writes := rfl

@[simp] theorem store_sectorCount :
    (d.store lba data).sectorCount = d.sectorCount := rfl

@[simp] theorem store_faults :
    (d.store lba data).faults = d.faults := rfl

@[simp] theorem store_writes :
    (d.store lba data).writes = d.writes ++ [(lba, data)] := rfl

@[simp] theorem store_storage :
    (d.store lba data).storage = WriteLog.put d.storage lba data := rfl

variable {d d' : BlockDevice} {lba : ℕ}

theorem readSector_ok {out : Sector} (h : readSector lba d = .ok out d') :
    lba < d.sectorCount ∧ out = d.storage lba ∧ d' = d.tick := by
  unfold readSector at h
  split at h
  · cases h
  · split at h
    · cases h
    · cases h
      exact ⟨by omega, rfl, rfl⟩

/-- A failed read changes at most the access count. -/
theorem readSector_error {e : BlockError} (h : readSector lba d = .error e d') :
    (d' = d ∨ d' = d.tick) ∧ (d.FaultFree → d.sectorCount ≤ lba) := by
  unfold readSector at h
  split at h
  next hlba =>
    cases h
    exact ⟨Or.inl rfl, fun _ => hlba⟩
  · split at h
    next hfault =>
      cases h
      refine ⟨Or.inr rfl, fun hff => ?_⟩
      rw [hff] at hfault
      cases hfault
    · cases h

theorem writeSector_ok {data : Sector} {u : Unit} (h : writeSector lba data d = .ok u d') :
    lba < d.sectorCount ∧ d' = (d.store lba data).tick := by
  unfold writeSector at h
  split at h
  · cases h
  · split at h
    · cases h
    · cases h
      exact ⟨by omega, rfl⟩

/-- A failed write changes at most the access count. -/
theorem writeSector_error {data : Sector} {e : BlockError}
    (h : writeSector lba data d = .error e d') :
    (d' = d ∨ d' = d.tick) ∧ (d.FaultFree → d.sectorCount ≤ lba) := by
  unfold writeSector at h
  split at h
  next hlba =>
    cases h
    exact ⟨Or.inl rfl, fun _ => hlba⟩
  · split at h
    next hfault =>
      cases h
      refine ⟨Or.inr rfl, fun hff => ?_⟩
      rw [hff] at hfault
      cases hfault
    · cases h

end BlockDevice

end RacOS.Block
