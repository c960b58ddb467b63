import RacOS.Racfs.Contents

/-!
# The regions of a formatted device

Sector 0 is the superblock; the journal, the bitmap, the inode table and the data blocks follow it
without gaps.  The size of the bitmap and that of the data area depend on each other.  A round of
the loop that settles them makes the bitmap as large as the data area before it asked for, and the
data area only shrinks by that, so from the first round on the bitmap is large enough.
-/

namespace RacOS.Racfs

open Block Vfs

/-! ## The bitmap -/

/-- The data blocks that are left beside a bitmap of some sectors. -/
def dataBlocks (totalSectors bitmapSectors : ℕ) : ℕ :=
  totalSectors - (1 + journalSectorCount + bitmapSectors + inodeSectors)

theorem sizeBitmap_covers {totalSectors rounds bitmapSectors : ℕ}
    (h : dataBlocks totalSectors bitmapSectors ≤ bitmapSectors * blocksPerBitmapSector) :
    dataBlocks totalSectors (sizeBitmap totalSectors inodeSectors rounds bitmapSectors) ≤
      sizeBitmap totalSectors inodeSectors rounds bitmapSectors * blocksPerBitmapSector := by
  induction rounds generalizing bitmapSectors with
  | zero => exact h
  | succ rounds ih =>
    unfold sizeBitmap
    dsimp only
    split
    · exact h
    · rename_i hlt
      apply ih
      unfold dataBlocks blocksPerBitmapSector at *
      omega

theorem sizeBitmap_succ_covers (totalSectors rounds bitmapSectors : ℕ) :
    dataBlocks totalSectors (sizeBitmap totalSectors inodeSectors (rounds + 1) bitmapSectors) ≤
      sizeBitmap totalSectors inodeSectors (rounds + 1) bitmapSectors *
        blocksPerBitmapSector := by
  unfold sizeBitmap
  dsimp only
  split
  · rename_i hle
    unfold dataBlocks blocksPerBitmapSector at *
    omega
  · rename_i hlt
    apply sizeBitmap_covers
    unfold dataBlocks blocksPerBitmapSector at *
    omega

/-! ## The regions -/

/-- A run of sectors. -/
structure Region where
  start : ℕ
  length : ℕ

namespace Region

/-- The sector after the last. -/
def stop (r : Region) : ℕ := r.start + r.length

def Disjoint (r r' : Region) : Prop :=
  ∀ sector, r.start ≤ sector → sector < r.stop → ¬ (r'.start ≤ sector ∧ sector < r'.stop)

/-- The first region ends before the second one starts. -/
def Before (r r' : Region) : Prop := r.stop ≤ r'.start

instance : IsTrans Region Before :=
  ⟨fun _ r _ h h' => Nat.le_trans h (Nat.le_trans (Nat.le_add_right r.start r.length) h')⟩

theorem Before.disjoint {r r' : Region} (h : r.Before r') : r.Disjoint r' :=
  fun _ _ hlt hin => absurd (Nat.lt_of_lt_of_le hlt h) (Nat.not_lt.mpr hin.1)

end Region

/-- The superblock, the journal, the bitmap, the inode table and the data blocks. -/
def Superblock.regions (sb : Superblock) : List Region :=
  [⟨0, 1⟩, ⟨1, journalSectorCount⟩, ⟨sb.bitmapStart.toNat, sb.bitmapSectors⟩,
    ⟨sb.inodeStart.toNat, sb.inodeCount.toNat / inodesPerSector⟩,
    ⟨sb.dataStart.toNat, sb.dataBlockCount.toNat⟩]

/-- A consistent layout of a device. -/
structure Superblock.Fits (sb : Superblock) (sectorCount : ℕ) : Prop where
  contiguous : sb.regions.IsChain fun r r' => r.stop = r'.start
  disjoint : sb.regions.Pairwise Region.Disjoint
  inside : ∀ r ∈ sb.regions, r.stop ≤ sectorCount
  bitmap : sb.dataBlockCount.toNat ≤ sb.addressableBlocks

theorem freshSuperblock_inodeStart (sectorCount : ℕ) :
    (freshSuperblock sectorCount).inodeStart.toNat =
      62 + sizeBitmap (sectorCount % 2 ^ 32) inodeSectors 8 1 := by
  have hsize := sizeBitmap_bounds (Nat.mod_lt sectorCount (by decide : 0 < 2 ^ 32)) inodeSectors 8
    (⟨le_rfl, by decide⟩ : 1 ≤ 1 ∧ 1 ≤ 2 ^ 20)
  change (UInt32.ofNat (62 + sizeBitmap (sectorCount % 2 ^ 32) inodeSectors 8 1)).toNat = _
  rw [UInt32.toNat_ofNat']
  omega

theorem freshSuperblock_bitmap (sectorCount : ℕ) :
    (freshSuperblock sectorCount).dataBlockCount.toNat ≤
      (freshSuperblock sectorCount).addressableBlocks := by
  have hcovers : dataBlocks (sectorCount % 2 ^ 32)
      (sizeBitmap (sectorCount % 2 ^ 32) inodeSectors 8 1) ≤
      sizeBitmap (sectorCount % 2 ^ 32) inodeSectors 8 1 * blocksPerBitmapSector :=
    sizeBitmap_succ_covers _ 7 1
  have hinode := freshSuperblock_inodeStart sectorCount
  have htotal : (freshSuperblock sectorCount).totalSectors.toNat = sectorCount % 2 ^ 32 := by
    change (UInt32.ofNat (sectorCount % 2 ^ 32)).toNat = _
    rw [UInt32.toNat_ofNat', Nat.mod_mod]
  have hlayout := freshSuperblock_formatted sectorCount
  have hbitmap := hlayout.bitmapStart
  have hdata := hlayout.dataStart
  have hbits : (freshSuperblock sectorCount).bitmapSectors =
      sizeBitmap (sectorCount % 2 ^ 32) inodeSectors 8 1 := by
    have hlt := hlayout.inodeStart
    unfold Superblock.bitmapSectors
    omega
  unfold Superblock.addressableBlocks
  rw [hbits, hlayout.dataBlockCount]
  refine Nat.le_trans ?_ hcovers
  unfold dataBlocks journalSectorCount maxJournalEntries inodeSectors at *
  omega

/-- **The layout.**  However large the device is on which formatting succeeds, the regions follow
each other inside it, and the bitmap has a bit for every data block. -/
theorem formatAndNew_fits {device : BlockDevice} {s : Racfs} (h : formatAndNew device = .ok s) :
    s.sb.Fits device.sectorCount := by
  obtain ⟨hinodes, ws, hputs⟩ := formatAndNew_puts h
  have hsb : s.sb = freshSuperblock device.sectorCount := hputs.sb_eq
  rw [hsb]
  have htotal := freshSuperblock_totalSectors_le device.sectorCount
  obtain ⟨-, -, hbitmap, hinode, hdata, hcount, hblocks⟩ :=
    freshSuperblock_formatted device.sectorCount
  have hbits : (freshSuperblock device.sectorCount).bitmapSectors =
      (freshSuperblock device.sectorCount).inodeStart.toNat - 62 := by
    unfold Superblock.bitmapSectors
    omega
  have hchain : (freshSuperblock device.sectorCount).regions.IsChain
      fun r r' => r.stop = r'.start := by
    unfold Superblock.regions Region.stop
    rw [hbits, hcount, hbitmap, hdata]
    refine .cons_cons rfl (.cons_cons rfl (.cons_cons ?_ (.cons_cons rfl (.singleton _))))
    dsimp only
    omega
  refine ⟨hchain, ?_, fun r hr => ?_, freshSuperblock_bitmap device.sectorCount⟩
  · have hbefore : (freshSuperblock device.sectorCount).regions.IsChain Region.Before :=
      hchain.imp fun _ _ hr => Nat.le_of_eq hr
    exact hbefore.pairwise.imp Region.Before.disjoint
  · unfold Superblock.regions at hr
    simp only [List.mem_cons, List.not_mem_nil, or_false] at hr
    unfold inodeSectors at hinodes
    unfold Region.stop
    unfold journalSectorCount maxJournalEntries inodesPerSector at hr
    rcases hr with rfl | rfl | rfl | rfl | rfl <;> dsimp only <;> omega

/-- The small device. -/
theorem formatAndNew_fits_small : smallFs.sb.Fits 100 :=
  formatAndNew_fits formatAndNew_smallDevice

end RacOS.Racfs
