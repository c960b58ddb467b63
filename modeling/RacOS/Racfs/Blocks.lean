import RacOS.Racfs.Fs

/-!
# Block allocation

The model of the allocator in `vfs/racfs.rs`: the scan of the bitmap for a clear
bit, and the block it claims.  Block indices are 1-based; 0 is no block.
-/

namespace RacOS.Racfs

open Program Block Vfs Bytes

/-- Bit `i` of a bitmap sector. -/
def bitmapBit (bitmap : Sector) (i : ℕ) : Bool :=
  (bitmap.get (i / 8)).toNat.testBit (i % 8)

/-- Set bit `i` of a bitmap sector. -/
def setBitmapBit (bitmap : Sector) (i : ℕ) : Sector :=
  Sector.ofFn (setByte bitmap.get (i / 8)
    (bitmap.get (i / 8) ||| UInt8.ofNat (2 ^ (i % 8))))

/-- The inner loop of `claim_first_free`: the first clear bit of a bitmap
sector from block `idx` on and below `sectorEnd`, stepping over full bytes, or
the block at which the scan stopped. -/
def scanBitmapSector (bitmap : Sector) (sectorEnd : ℕ) : (fuel : ℕ) → ℕ → ℕ ⊕ ℕ
  | 0, idx => .inr idx
  | fuel + 1, idx =>
    if idx < sectorEnd then
      let bitInSector := idx % blocksPerBitmapSector
      if bitmap.get (bitInSector / 8) = 0xFF then
        scanBitmapSector bitmap sectorEnd fuel (idx + (8 - bitInSector % 8))
      else if bitmapBit bitmap bitInSector then
        scanBitmapSector bitmap sectorEnd fuel (idx + 1)
      else .inl idx
    else .inr idx

/-- The outer loop of `claim_first_free`, one bitmap sector at a time. -/
def claimLoop (stop : ℕ) : (fuel : ℕ) → ℕ → RacfsM (Option ℕ)
  | 0, _ => pure none
  | fuel + 1, idx => do
    if idx < stop then
      let s ← get
      let sectorNo := idx / blocksPerBitmapSector
      let sector := s.sb.bitmapStart.toNat + sectorNo
      let bitmap ← onCache (BlockCache.fetchSector sector)
      let sectorEnd := min ((sectorNo + 1) * blocksPerBitmapSector) stop
      match scanBitmapSector bitmap sectorEnd (sectorEnd - idx) idx with
      | .inl found =>
        onCache (BlockCache.storeSector sector
          (setBitmapBit bitmap (found % blocksPerBitmapSector)))
        pure (some found)
      | .inr next => claimLoop stop fuel next
    else pure none

/-- Claim the first free block in `[start, stop)`. -/
def claimFirstFree (start stop : ℕ) : RacfsM (Option ℕ) :=
  claimLoop stop (stop - start) start

/-- The largest value of a `u32`. -/
abbrev u32Max : ℕ := 2 ^ 32 - 1

/-- Take block `idx` that was just claimed. -/
def takeBlock (idx : ℕ) : RacfsM UInt32 := do
  modify fun s => { s with
    allocHint := min (idx + 1) u32Max
    sb := { s.sb with freeBlocks := s.sb.freeBlocks - 1 } }
  pure (UInt32.ofNat (idx + 1))

/-- Allocate a data block from the bitmap, scanning from the hint to the end
and then from the start to the hint. -/
def allocBlock : RacfsM UInt32 := do
  let s ← get
  require (s.sb.freeBlocks ≠ 0) .noSpace
  let total := min s.sb.dataBlockCount.toNat s.sb.addressableBlocks
  require (total ≠ 0) .noSpace
  let start := min s.allocHint (total - 1)
  match ← claimFirstFree start total with
  | some idx => takeBlock idx
  | none =>
    match ← claimFirstFree 0 start with
    | some idx => takeBlock idx
    | none => throw .noSpace

end RacOS.Racfs
