import Mathlib.Data.Nat.Notation

/-!
# The VFS inode interface

The model of the types of `vfs/inode.rs` that the filesystems use.  Of the
metadata record, the fields no filesystem here fills in (times and device
numbers) are left out.
-/

namespace RacOS.Vfs

/-- The error type of VFS operations. -/
inductive VfsError
  | notFound
  | permissionDenied
  | notADirectory
  | isADirectory
  | alreadyExists
  | noSpace
  | ioError
  | notImplemented
  | invalidArgument
  | badFileDescriptor
  | tooManyOpenFiles
  | brokenPipe
  | wouldBlock
  | directoryNotEmpty
  deriving DecidableEq, Repr

/-- File type flags. -/
inductive FileType
  | regular
  | directory
  | charDevice
  | blockDevice
  | pipe
  | socket
  | symlink
  deriving DecidableEq, Repr

/-- File permissions. -/
structure FileMode where
  bits : UInt32
  deriving DecidableEq

/-- Keep the permission bits of a mode. -/
def FileMode.new (mode : UInt32) : FileMode := ⟨mode &&& 0o7777⟩

/-- Inode metadata. -/
structure InodeMetadata where
  ino : ℕ
  fileType : FileType
  mode : FileMode
  uid : UInt32
  gid : UInt32
  size : ℕ
  nlink : ℕ
  deriving DecidableEq

end RacOS.Vfs
