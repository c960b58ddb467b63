import RacOS.Block.Device
import RacOS.Lib.Bytes

/-!
# The on-disk format of racfs

The model of the constants, the on-disk structures and their serialization in
`vfs/racfs.rs`.  Sector 0 holds the superblock, the sectors up to
`bitmapStart` the journal, then come the block bitmap, the inode table and the
data blocks.

Buffers are functions from offsets to bytes.
-/

namespace RacOS.Racfs

open RacOS.Block Bytes

/-! ## Constants -/

def racfsMagic : UInt32 := 0x52414346

def racfsVersion : UInt32 := 1

abbrev maxInodes : ℕ := 128

abbrev inodeDiskSize : ℕ := 128

abbrev inodesPerSector : ℕ := 4

abbrev directBlocks : ℕ := 8

abbrev blocksPerBitmapSector : ℕ := 4096

def journalMagic : UInt32 := 0x524A4C31

def journalEmpty : UInt32 := 0

abbrev maxJournalEntries : ℕ := 60

abbrev journalSectorCount : ℕ := 1 + maxJournalEntries

def itypeDir : UInt8 := 2

/-! ## The superblock -/

/-- The on-disk superblock, in sector 0. -/
structure Superblock where
  magic : UInt32
  version : UInt32
  totalSectors : UInt32
  inodeCount : UInt32
  dataBlockCount : UInt32
  bitmapStart : UInt32
  inodeStart : UInt32
  dataStart : UInt32
  freeInodes : UInt32
  freeBlocks : UInt32
deriving DecidableEq

namespace Superblock

/-- How many sectors the allocation bitmap occupies. -/
def bitmapSectors (sb : Superblock) : ℕ :=
  max (sb.inodeStart.toNat - sb.bitmapStart.toNat) 1

/-- Data blocks the bitmap can describe. -/
def addressableBlocks (sb : Superblock) : ℕ :=
  sb.bitmapSectors * blocksPerBitmapSector

end Superblock

def superblockToSector (sb : Superblock) : Sector :=
  let buf := writeU32Le Bytes.zero 0 sb.magic
  let buf := writeU32Le buf 4 sb.version
  let buf := writeU32Le buf 8 sb.totalSectors
  let buf := writeU32Le buf 12 sb.inodeCount
  let buf := writeU32Le buf 16 sb.dataBlockCount
  let buf := writeU32Le buf 20 sb.bitmapStart
  let buf := writeU32Le buf 24 sb.inodeStart
  let buf := writeU32Le buf 28 sb.dataStart
  let buf := writeU32Le buf 32 sb.freeInodes
  let buf := writeU32Le buf 36 sb.freeBlocks
  Sector.ofFn buf

/-! ## Inodes -/

/-- The on-disk inode. -/
structure DiskInode where
  itype : UInt8
  mode : UInt16
  size : UInt32
  nlink : UInt16
  uid : UInt32
  gid : UInt32
  direct : Fin directBlocks → UInt32
  dirEntryCount : UInt32
  indirect : UInt32
  doubleIndirect : UInt32

def inodeToBytes (inode : DiskInode) : Bytes :=
  let buf := setByte Bytes.zero 0 inode.itype
  let buf := writeU16Le buf 1 inode.mode
  let buf := writeU32Le buf 4 inode.size
  let buf := writeU16Le buf 8 inode.nlink
  let buf := writeU32Le buf 10 inode.uid
  let buf := writeU32Le buf 14 inode.gid
  let buf := writeArray 4 buf 16 (List.ofFn fun i => (inode.direct i).toNat)
  let buf := writeU32Le buf 48 inode.dirEntryCount
  let buf := writeU32Le buf 52 inode.indirect
  writeU32Le buf 56 inode.doubleIndirect

end RacOS.Racfs
