import RacOS.Vfs.Inode

/-!
# Errors and limits of system calls

The model of `syscall/error.rs`, with what the handlers share: the error that a call
reports for one of the VFS, and the size of the buffer through which it moves data.
-/

namespace RacOS

inductive SyscallError
  | EPERM
  | ENOENT
  | ESRCH
  | EINTR
  | EIO
  | ENXIO
  | EBADF
  | EAGAIN
  | ENOMEM
  | EACCES
  | EFAULT
  | EEXIST
  | ENOTDIR
  | EISDIR
  | EINVAL
  | ENFILE
  | EMFILE
  | ENOSPC
  | ERANGE
  | ENAMETOOLONG
  | ENOSYS
  | ENOEXEC
  | ENOTEMPTY
  | ECHILD
  | EPIPE
  | ENOTTY
  | ECONNREFUSED
  | EADDRINUSE
  | ENOTCONN
  | ETIMEDOUT
  | EXDEV
  deriving DecidableEq

open Vfs (VfsError)

def mapVfsError : VfsError → SyscallError
  | .notFound => .ENOENT
  | .permissionDenied => .EACCES
  | .notADirectory => .ENOTDIR
  | .isADirectory => .EISDIR
  | .alreadyExists => .EEXIST
  | .noSpace => .ENOSPC
  | .invalidArgument => .EINVAL
  | .badFileDescriptor => .EBADF
  | .tooManyOpenFiles => .EMFILE
  | .brokenPipe => SyscallError.EIO
  | .wouldBlock => .EAGAIN
  | .directoryNotEmpty => .ENOTEMPTY
  | .ioError => SyscallError.EIO
  | .notImplemented => SyscallError.EIO

/-- The largest read or write that the kernel moves at once. -/
def userIoChunk : ℕ := 64 * 1024

end RacOS
