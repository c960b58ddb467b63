import RacOS.Block.Cache
import RacOS.Racfs.Layout
import RacOS.Vfs.Inode

/-!
# The racfs runtime

The model of `Racfs` in `vfs/racfs.rs`: the mounted filesystem with its cache,
its in-memory superblock and the allocation hint, and the writes to the
superblock and the inode table.

All buffers here are one sector long, so the cache's check of the buffer
length never fires and `fetchSector` and `storeSector` stand for its
`read_sector` and `write_sector`.
-/

namespace RacOS

open Program Block Vfs

/-- A mounted racfs. -/
structure Racfs where
  cache : BlockCache
  sb : Racfs.Superblock
  allocHint : ℕ
  journalSeq : ℕ

abbrev RacfsM := EStateM VfsError Racfs

namespace Racfs

open Bytes

/-- Run a cache operation; every block error is reported as an I/O error. -/
def onCache {α : Type} (x : CacheM α) : RacfsM α :=
  focus (·.cache) (fun s c => { s with cache := c }) (fun _ => .ioError) x

theorem onCache_ok_iff {α : Type} {x : CacheM α} {s s' : Racfs} {a : α} :
    onCache x s = .ok a s' ↔ ∃ c, x s.cache = .ok a c ∧ s' = { s with cache := c } :=
  focus_ok_iff

theorem onCache_error_iff {α : Type} {x : CacheM α} {s s' : Racfs} {e : VfsError} :
    onCache x s = .error e s' ↔
      ∃ err c, x s.cache = .error err c ∧ e = .ioError ∧ s' = { s with cache := c } :=
  focus_error_iff

/-- Write the superblock to the cache. -/
def flushSb : RacfsM Unit := do
  let s ← get
  onCache (BlockCache.storeSector 0 (superblockToSector s.sb))

/-! ## Inodes -/

/-- The sector of the inode table that holds inode `ino`. -/
def inodeSector (sb : Superblock) (ino : ℕ) : ℕ :=
  sb.inodeStart.toNat + ino / inodesPerSector

/-- Where inode `ino` starts in its sector. -/
def inodeOffset (ino : ℕ) : ℕ := ino % inodesPerSector * inodeDiskSize

/-- Write an on-disk inode by number. -/
def writeInode (ino : ℕ) (inode : DiskInode) : RacfsM Unit := do
  let s ← get
  let buf ← onCache (BlockCache.fetchSector (inodeSector s.sb ino))
  onCache (BlockCache.storeSector (inodeSector s.sb ino)
    (Sector.ofFn
      (patch buf.get (inodeOffset ino) inodeDiskSize (inodeToBytes inode))))

end Racfs

end RacOS
