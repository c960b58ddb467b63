import RacOS.Security.Access

/-!
# The mount table

The model of `vfs/mount.rs`: filesystems as providers of inodes, the choice of
the mount a path belongs to, and the walk along the components of a path.  The
inodes of all mounted filesystems have one type of handles, and their
operations run in one monad, which says what reading a filesystem may do.  The
filesystem a lookup ends in is named by the position of its mount.
-/

namespace RacOS.Vfs

open Security

/-- A filesystem: its inode handles and the operations on them that lookups
use. -/
structure Filesystem (m : Type → Type) (ι : Type) where
  rootInode : ι
  getInode : ℕ → m ι
  metadata : ι → m InodeMetadata
  lookup : ι → List UInt8 → m ℕ

/-- A mount point entry. -/
structure MountEntry (m : Type → Type) (ι : Type) where
  path : List UInt8
  fs : Filesystem m ι

/-- The mount table. -/
structure MountTable (m : Type → Type) (ι : Type) where
  mounts : List (MountEntry m ι)

/-- The byte between path components. -/
abbrev slash : UInt8 := 47

/-- The path component that stands for the directory itself. -/
abbrev dot : List UInt8 := [46]

/-- The components of a path that a walk looks up. -/
def components (path : List UInt8) : List (List UInt8) :=
  (path.splitOn slash).filter fun c => c ≠ [] ∧ c ≠ dot

variable {m : Type → Type} {ι : Type}

namespace MountTable

/-- Mount a filesystem at a path, in place of the one that is mounted there. -/
def mount (mt : MountTable m ι) (path : List UInt8) (fs : Filesystem m ι) : MountTable m ι :=
  match mt.mounts.findIdx? (·.path = path) with
  | some i => { mounts := mt.mounts.modify i fun existing => { existing with fs } }
  | none => { mounts := mt.mounts ++ [{ path, fs }] }

/-- Unmount the filesystem at an exact mount path. -/
def umount (mt : MountTable m ι) (path : List UInt8) : Except VfsError (MountTable m ι) :=
  if path = [slash] then .error .invalidArgument
  else
    match mt.mounts.findIdx? (·.path = path) with
    | some idx => .ok { mounts := mt.mounts.eraseIdx idx }
    | none => .error .notFound

/-- Whether a mount at `mpath` covers `path`. -/
def isMatch (mpath path : List UInt8) : Bool :=
  if mpath = [slash] then path.head? == some slash
  else if path = mpath then true
  else mpath.isPrefixOf path && path[mpath.length]? == some slash

/-- The loop of `resolve`: the length and the position of the longest path so
far that covers `path`. -/
def bestMount (path : List UInt8) : List (List UInt8 × ℕ) → Option (ℕ × ℕ) → Option (ℕ × ℕ)
  | [], best => best
  | (mpath, i) :: rest, best =>
    if isMatch mpath path then
      match best with
      | some (bestLen, j) =>
        bestMount path rest
          (if bestLen < mpath.length then some (mpath.length, i)
           else some (bestLen, j))
      | none => bestMount path rest (some (mpath.length, i))
    else bestMount path rest best

/-- The mount with the longest path that covers `path`, with its position and
the remainder of the path. -/
def resolve (mt : MountTable m ι) (path : List UInt8) :
    Option (ℕ × MountEntry m ι × List UInt8) := do
  let (len, idx) ← bestMount path (mt.mounts.map MountEntry.path).zipIdx none
  let entry ← mt.mounts[idx]?
  let remainder := path.drop len
  pure (idx, entry, if remainder.head? = some slash then remainder.drop 1 else remainder)

variable [Monad m] [MonadExceptOf VfsError m]

/-- Refuse the caller a directory that does not grant search permission. -/
def requireSearch (fs : Filesystem m ι) (creds : Credentials) (dir : ι) : m Unit := do
  let dirInfo ← fs.metadata dir
  if canAccess creds dirInfo .execute then pure ()
  else throw .permissionDenied

/-- The loop of `walk`, with the caller whose search permission is checked. -/
def walkLoop (fs : Filesystem m ι) (checking : Option Credentials) : ι → List (List UInt8) → m ι
  | current, [] => pure current
  | current, component :: rest => do
    match checking with
    | some creds => requireSearch fs creds current
    | none => pure ()
    let ino ← fs.lookup current component
    let next ← fs.getInode ino
    walkLoop fs checking next rest

def walk (mt : MountTable m ι) (path : List UInt8) (creds : Option Credentials) : m (ℕ × ℕ) :=
  match mt.resolve path with
  | none => throw .notFound
  | some (idx, mount, remainder) => do
    if remainder = [] then
      let info ← mount.fs.metadata mount.fs.rootInode
      pure (idx, info.ino)
    else
      let checking := creds.filter fun c => !hasCap c capDacOverride
      let inode ← walkLoop mount.fs checking mount.fs.rootInode
        (components remainder)
      let info ← mount.fs.metadata inode
      pure (idx, info.ino)

/-- Look up a path without asking whether the caller may traverse it. -/
def lookupPath (mt : MountTable m ι) (path : List UInt8) : m (ℕ × ℕ) :=
  mt.walk path none

/-- Look up a path as `creds` would see it: every directory walked through must
grant that caller search permission. -/
def lookupPathAs (mt : MountTable m ι) (path : List UInt8) (creds : Credentials) : m (ℕ × ℕ) :=
  mt.walk path (some creds)

/-- Search permission for every directory of `path` up to and including the one
that will hold its last component. -/
def requireSearchToParent (mt : MountTable m ι) (path : List UInt8)
    (creds : Credentials) : m Unit :=
  if hasCap creds capDacOverride then pure ()
  else
    match mt.resolve path with
    | none => throw .notFound
    | some (_, mount, remainder) => do
      let inode ← walkLoop mount.fs (some creds) mount.fs.rootInode
        (components remainder).dropLast
      requireSearch mount.fs creds inode

end MountTable

end RacOS.Vfs
