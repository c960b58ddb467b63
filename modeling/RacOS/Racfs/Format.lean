import RacOS.Racfs.Fs

/-!
# Formatting racfs

The model of `format_and_new` in `vfs/racfs.rs`: how large the bitmap is made,
what the superblock says, and the sectors that are written.
-/

namespace RacOS.Racfs

open Program Block Vfs Bytes

/-- The loop of `format_and_new` that sizes the bitmap. -/
def sizeBitmap (totalSectors inodeSectors : ℕ) : ℕ → ℕ → ℕ
  | 0, bitmapSectors => bitmapSectors
  | rounds + 1, bitmapSectors =>
    let overhead := 1 + journalSectorCount + bitmapSectors + inodeSectors
    let dataBlocks := totalSectors - overhead
    let needed := max
      ((dataBlocks + (blocksPerBitmapSector - 1)) / blocksPerBitmapSector) 1
    if needed ≤ bitmapSectors then bitmapSectors
    else sizeBitmap totalSectors inodeSectors rounds needed

/-- Sectors of the inode table. -/
abbrev inodeSectors : ℕ := 32

/-- The superblock of a freshly formatted device. -/
def freshSuperblock (sectorCount : ℕ) : Superblock :=
  let totalSectors := sectorCount % 2 ^ 32
  let bitmapStart := 1 + journalSectorCount
  let bitmapSectors := sizeBitmap totalSectors inodeSectors 8 1
  let inodeStart := bitmapStart + bitmapSectors
  let dataStart := inodeStart + inodeSectors
  let dataBlockCount := totalSectors - dataStart
  { magic := racfsMagic
    version := racfsVersion
    totalSectors := UInt32.ofNat totalSectors
    inodeCount := UInt32.ofNat maxInodes
    dataBlockCount := UInt32.ofNat dataBlockCount
    bitmapStart := UInt32.ofNat bitmapStart
    inodeStart := UInt32.ofNat inodeStart
    dataStart := UInt32.ofNat dataStart
    freeInodes := UInt32.ofNat (maxInodes - 1)
    freeBlocks := UInt32.ofNat dataBlockCount }

/-- An inode without blocks and entries, owned by root. -/
def emptyInode (itype : UInt8) (mode nlink : UInt16) : DiskInode :=
  { itype, mode, size := 0, nlink, uid := 0, gid := 0, direct := fun _ => 0
    dirEntryCount := 0, indirect := 0, doubleIndirect := 0 }

/-- Write zeros to the sectors `start .. start + count`. -/
def zeroSectors (start count : ℕ) : RacfsM Unit :=
  ForM.forM (List.range' start count) fun sector =>
    onCache (BlockCache.storeSector sector Sector.zero)

/-- The header `format_and_new` writes: only the magic number and the state. -/
def freshJournalHeader : Sector :=
  Sector.ofFn (writeU32Le (writeU32Le Bytes.zero 0 journalMagic) 4 journalEmpty)

/-- The writes of `format_and_new`. -/
def formatDevice : RacfsM Unit := do
  flushSb
  onCache (BlockCache.storeSector 1 freshJournalHeader)
  let s ← get
  zeroSectors s.sb.bitmapStart.toNat
    (s.sb.inodeStart.toNat - s.sb.bitmapStart.toNat)
  zeroSectors s.sb.inodeStart.toNat inodeSectors
  writeInode 0 (emptyInode itypeDir 0o755 2)
  onCache BlockCache.flush

/-- The mounted filesystem a device starts with, before anything is read. -/
def mounted (device : BlockDevice) (sb : Superblock) : Racfs :=
  { cache := BlockCache.new device, sb, allocHint := 0, journalSeq := 1 }

/-- Format and mount a block device as racfs. -/
def formatAndNew (device : BlockDevice) : Except VfsError Racfs :=
  match formatDevice (mounted device (freshSuperblock device.sectorCount)) with
  | .ok _ s => .ok s
  | .error e _ => .error e

/-- The filesystem that formatting makes of a device, if it succeeds. -/
def formatted (device : BlockDevice) : Racfs :=
  match formatAndNew device with
  | .ok s => s
  | .error _ => mounted device (freshSuperblock device.sectorCount)

theorem formatAndNew_formatted {device : BlockDevice} (h : (formatAndNew device).isOk = true) :
    formatAndNew device = .ok (formatted device) := by
  unfold formatted
  cases hf : formatAndNew device with
  | ok s => rfl
  | error e =>
    rw [hf] at h
    cases h

/-- A device of 100 zeroed sectors. -/
def smallDevice : BlockDevice := .blank 100 (by decide)

/-- The small device, freshly formatted. -/
def smallFs : Racfs := formatted smallDevice

theorem formatAndNew_smallDevice : formatAndNew smallDevice = .ok smallFs :=
  formatAndNew_formatted (by decide +kernel)

/-! ## The layout that formatting chooses -/

theorem sizeBitmap_bounds {totalSectors : ℕ} (h : totalSectors < 2 ^ 32) (inodeSectors rounds : ℕ)
    {bitmapSectors : ℕ} (hb : 1 ≤ bitmapSectors ∧ bitmapSectors ≤ 2 ^ 20) :
    1 ≤ sizeBitmap totalSectors inodeSectors rounds bitmapSectors ∧
      sizeBitmap totalSectors inodeSectors rounds bitmapSectors ≤ 2 ^ 20 := by
  induction rounds generalizing bitmapSectors with
  | zero => exact hb
  | succ rounds ih =>
    unfold sizeBitmap
    dsimp only
    split
    · exact hb
    · apply ih
      unfold blocksPerBitmapSector
      omega

/-- What formatting guarantees of a layout. -/
structure Superblock.Formatted (L : Superblock) : Prop where
  magic : L.magic = racfsMagic
  version : L.version = racfsVersion
  bitmapStart : L.bitmapStart.toNat = 62
  inodeStart : L.bitmapStart.toNat < L.inodeStart.toNat
  dataStart : L.dataStart.toNat = L.inodeStart.toNat + 32
  inodeCount : L.inodeCount.toNat = 128
  dataBlockCount : L.dataBlockCount.toNat = L.totalSectors.toNat - L.dataStart.toNat

theorem freshSuperblock_formatted (sectorCount : ℕ) : (freshSuperblock sectorCount).Formatted := by
  have htotal : sectorCount % 2 ^ 32 < 2 ^ 32 := Nat.mod_lt _ (by decide)
  have hsize := sizeBitmap_bounds htotal inodeSectors 8
    (⟨le_rfl, by decide⟩ : 1 ≤ 1 ∧ 1 ≤ 2 ^ 20)
  unfold freshSuperblock
  refine ⟨rfl, rfl, rfl, ?_, ?_, rfl, ?_⟩
  all_goals
    simp only [UInt32.toNat_ofNat', journalSectorCount, maxJournalEntries, inodeSectors] at hsize ⊢
    omega

theorem freshSuperblock_totalSectors_le (sectorCount : ℕ) :
    (freshSuperblock sectorCount).totalSectors.toNat ≤ sectorCount := by
  unfold freshSuperblock
  simp only [UInt32.toNat_ofNat']
  omega

end RacOS.Racfs
