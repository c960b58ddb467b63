import RacOS.Vfs.Inode

/-!
# Access decisions

The model of the capability test of `security/capability.rs` and of the
discretionary access check of `security/dac.rs`.
-/

namespace RacOS.Security

open Vfs

/-- The credentials of a task. -/
structure Credentials where
  uid : UInt32
  gid : UInt32
  euid : UInt32
  egid : UInt32
  capPermitted : UInt64
  capEffective : UInt64
  capInheritable : UInt64

/-- The bit of the capability that overrides the access check. -/
abbrev capDacOverride : UInt8 := 1

def capMask (cap : UInt8) : UInt64 := 1 <<< cap.toUInt64

/-- Whether a capability is effective; root has them all. -/
def hasCap (creds : Credentials) (cap : UInt8) : Bool :=
  if creds.euid = 0 then true
  else (creds.capEffective &&& capMask cap) != 0

inductive Access
  | read
  | write
  | execute
  deriving DecidableEq

/-- The three permission bits that apply to the caller. -/
def permBits (creds : Credentials) (info : InodeMetadata) : UInt32 :=
  if creds.euid = info.uid then (info.mode.bits >>> 6) &&& 0b111
  else if creds.egid = info.gid ∨ creds.gid = info.gid then
    (info.mode.bits >>> 3) &&& 0b111
  else info.mode.bits &&& 0b111

/-- May the caller access this inode? -/
def canAccess (creds : Credentials) (info : InodeMetadata) (access : Access) : Bool :=
  if hasCap creds capDacOverride then
    if access = .execute ∧ info.fileType = .regular then
      (info.mode.bits &&& 0o111) != 0
    else true
  else
    match access with
    | .read => (permBits creds info &&& 0b100) != 0
    | .write => (permBits creds info &&& 0b010) != 0
    | .execute => (permBits creds info &&& 0b001) != 0

end RacOS.Security
