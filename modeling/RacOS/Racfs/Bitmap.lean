import RacOS.Racfs.Blocks
import RacOS.Racfs.Contents

/-!
# The allocation bitmap

The bits of the block bitmap as the disk stores them: where they lie, what
setting one of them changes, and what a scan for a clear bit finds in a sector.
-/

namespace RacOS.Racfs

open Program Block Vfs Bytes

/-- Bit `idx` of the bitmap on a disk. -/
def bitOn (L : Superblock) (d : ℕ → Sector) (idx : ℕ) : Bool :=
  decide (idx < L.addressableBlocks) &&
    bitmapBit (d (L.bitmapStart.toNat + idx / blocksPerBitmapSector))
      (idx % blocksPerBitmapSector)

theorem bitmapSector_lt {L : Superblock} (hL : L.Formatted) {idx : ℕ}
    (h : idx < L.addressableBlocks) :
    L.bitmapStart.toNat + idx / blocksPerBitmapSector < L.inodeStart.toNat := by
  have hstart := hL.inodeStart
  have hdiv : idx / blocksPerBitmapSector < L.bitmapSectors :=
    Nat.div_lt_of_lt_mul (by rwa [Nat.mul_comm])
  unfold Superblock.bitmapSectors at hdiv
  omega

theorem toNat_ofNat_two_pow {k : ℕ} (hk : k < 8) : (UInt8.ofNat (2 ^ k)).toNat = 2 ^ k := by
  rw [UInt8.toNat_ofNat']
  exact Nat.mod_eq_of_lt (Nat.pow_lt_pow_right (by decide) hk)

theorem bitmapBit_setByte (bitmap : Sector) {i : ℕ} (j : ℕ) (byte : UInt8)
    (hi : i < blocksPerBitmapSector) :
    bitmapBit (Sector.ofFn (setByte bitmap.get (i / 8) byte)) j =
      if j / 8 = i / 8 then byte.toNat.testBit (j % 8)
      else bitmapBit bitmap j := by
  have hbyte : i / 8 < sectorSize := by
    unfold sectorSize
    unfold blocksPerBitmapSector at hi
    omega
  unfold bitmapBit
  by_cases hsame : j / 8 = i / 8
  · rw [if_pos hsame, hsame, Sector.get_ofFn_of_lt _ hbyte, setByte, if_pos rfl]
  · rw [if_neg hsame]
    congr 2
    by_cases hj : j / 8 < sectorSize
    · rw [Sector.get_ofFn_of_lt _ hj, setByte, if_neg hsame]
    · simp [Sector.get, hj]

theorem bitmapBit_set (bitmap : Sector) {i : ℕ} (j : ℕ) (hi : i < blocksPerBitmapSector) :
    bitmapBit (setBitmapBit bitmap i) j = if j = i then true else bitmapBit bitmap j := by
  unfold setBitmapBit
  rw [bitmapBit_setByte bitmap j _ hi]
  by_cases hsame : j / 8 = i / 8
  · rw [if_pos hsame, UInt8.toNat_or, Nat.testBit_or,
      toNat_ofNat_two_pow (by omega), Nat.testBit_two_pow]
    by_cases hji : j = i
    · simp [hji]
    · have hbit : ¬i % 8 = j % 8 := by omega
      rw [if_neg hji, ← hsame]
      simp [hbit, bitmapBit]
  · rw [if_neg hsame, if_neg]
    rintro rfl
    exact hsame rfl

theorem bitOn_put_self {L : Superblock} {d : ℕ → Sector} {idx : ℕ} {x : Bool} {bitmap : Sector}
    (hidx : idx < L.addressableBlocks) (hbit : ∀ j, bitmapBit bitmap j =
      if j = idx % blocksPerBitmapSector then x else
        bitmapBit (d (L.bitmapStart.toNat + idx / blocksPerBitmapSector)) j) :
    bitOn L (WriteLog.put d
      (L.bitmapStart.toNat + idx / blocksPerBitmapSector) bitmap) =
        Function.update (bitOn L d) idx x := by
  funext j
  unfold bitOn
  by_cases hj : j = idx
  · subst hj
    rw [WriteLog.put_same, Function.update_self, hbit, if_pos rfl]
    simp [hidx]
  · rw [Function.update_of_ne hj]
    congr 1
    by_cases hsector : j / blocksPerBitmapSector = idx / blocksPerBitmapSector
    · rw [hsector, WriteLog.put_same, hbit, if_neg]
      intro hmod
      apply hj
      rw [← Nat.div_add_mod j blocksPerBitmapSector, hsector, hmod, Nat.div_add_mod]
    · rw [WriteLog.put_of_ne]
      exact fun h => hsector (Nat.add_left_cancel h)

theorem scanBitmapSector_inl {bitmap : Sector} {sectorEnd fuel idx found : ℕ}
    (h : scanBitmapSector bitmap sectorEnd fuel idx = .inl found) :
    idx ≤ found ∧ found < sectorEnd ∧ bitmapBit bitmap (found % blocksPerBitmapSector) = false := by
  induction fuel generalizing idx with
  | zero => cases h
  | succ fuel ih =>
    unfold scanBitmapSector at h
    split at h
    · next hlt =>
      dsimp only at h
      split at h
      · obtain ⟨hle, hrest⟩ := ih h
        exact ⟨by omega, hrest⟩
      · split at h
        · obtain ⟨hle, hrest⟩ := ih h
          exact ⟨by omega, hrest⟩
        · next hbit =>
          cases h
          exact ⟨le_rfl, hlt, by simpa using hbit⟩
    · cases h

/-- How many blocks are managed. -/
def Superblock.managed (L : Superblock) : ℕ :=
  min L.dataBlockCount.toNat L.addressableBlocks

theorem managed_lt (L : Superblock) {idx : ℕ} (h : idx < L.managed) :
    (UInt32.ofNat (idx + 1)).toNat = idx + 1 := by
  have hlt : idx < L.dataBlockCount.toNat := lt_of_lt_of_le h (Nat.min_le_left _ _)
  have := L.dataBlockCount.toNat_lt
  rw [UInt32.toNat_ofNat']
  omega

end RacOS.Racfs
