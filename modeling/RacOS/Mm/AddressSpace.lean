import RacOS.Mm.PageTable
import RacOS.Mm.VmSpace
import RacOS.Syscall.Error

/-!
# The life of an address space

The model of the making of a page table in `mm/virt.rs`, and of the building of one for a
program in `task/process.rs`.
-/

namespace RacOS.Mm

open Program

/-- The entries of the kernel's page table that a new one shares: those without user
access. -/
def createUserPageTable (kernel : Pml4) : Pml4 := fun i =>
  if (kernel i).entry.IsPresent ∧ .user ∉ (kernel i).entry.flags then kernel i
  else Pml4.empty i

/-- The addresses of `n` pages from `start` on. -/
def pageAddrs (start n : ℕ) : List ℕ := (List.range n).map fun i => start + i * pageSize

/-! ## Building -/

/-- Programs that take frames from the allocator; the state is what it has to give. -/
abbrev FrameM := EStateM String (List ℕ)

def takeFrame (message : String) : FrameM ℕ := fun free =>
  match free with
  | [] => .error message free
  | frame :: rest => .ok frame rest

/-- A segment that `load_elf` has placed: the first frame of its memory is `first`. -/
structure Segment where
  vaddr : ℕ
  memsz : ℕ
  flags : UInt32
  first : ℕ

namespace Segment

def pages (seg : Segment) : ℕ := (seg.memsz + pageSize - 1) / pageSize

def stop (seg : Segment) : ℕ := seg.vaddr + seg.pages * pageSize

/-- Page-table flags for the rights of a segment. -/
def pageFlags (seg : Segment) : Flags :=
  if seg.flags &&& 0x1 ≠ 0 then {.present, .user}
  else if seg.flags &&& 0x2 ≠ 0 then {.present, .writable, .user, .noExecute}
  else {.present, .user, .noExecute}

def prot (seg : Segment) : UInt32 :=
  protRead ||| (if seg.flags &&& 0x2 ≠ 0 then protWrite else 0) |||
    (if seg.flags &&& 0x1 ≠ 0 then protExec else 0)

def frames (seg : Segment) : List ℕ := List.range' seg.first seg.pages

end Segment

def userStackSize : ℕ := 2 * 1024 * 1024

def userStackTop : ℕ := 0x7FFFFFFF0000

/-- What `load_elf` gives: the segments and the first frame of the user stack. -/
structure LoadedElf where
  segments : List Segment
  stackFirst : ℕ

namespace LoadedElf

def stackFrames (loaded : LoadedElf) : List ℕ :=
  List.range' loaded.stackFirst (userStackSize / pageSize)

end LoadedElf

/-- Map addresses to frames, page by page. -/
def mapRange (pageFlags : Flags) : List (ℕ × ℕ) → WalkM Pml4 Unit
  | [] => pure ()
  | (virt, frame) :: rest => do
      mapPage (VirtAddr.page virt) frame pageFlags
      mapRange pageFlags rest

/-- Run a program with another message for its failures. -/
def withMessage {σ α : Type} (message : String) (x : EStateM String σ α) : EStateM String σ α :=
  focus id (fun _ s => s) (fun _ => message) x

def mapSegments : List Segment → WalkM Pml4 Unit
  | [] => pure ()
  | seg :: rest => do
      withMessage "Failed to map ELF segment"
        (mapRange seg.pageFlags ((pageAddrs seg.vaddr seg.pages).zip seg.frames))
      mapSegments rest

/-- Map the segments and the stack. -/
def mapProgram (loaded : LoadedElf) : WalkM Pml4 Unit := do
  mapSegments loaded.segments
  withMessage "Failed to map user stack"
    (mapRange {.present, .writable, .user, .noExecute}
      ((pageAddrs (userStackTop - userStackSize) (userStackSize / pageSize)).zip
        loaded.stackFrames))

def recordSegments : List Segment → EStateM String VmSpace Unit
  | [] => pure ()
  | seg :: rest => do
      focus id (fun _ s => s) (fun _ => "ELF segment outside the user range")
        (VmSpace.insertUncovered ⟨seg.vaddr, seg.stop, seg.prot, .elf⟩)
      recordSegments rest

/-- The record of the areas of a new process. -/
def recordProgram (loaded : LoadedElf) : EStateM String VmSpace Unit := do
  recordSegments loaded.segments
  focus id (fun _ s => s) (fun _ => "user stack overlaps a segment")
    (VmSpace.insert ⟨userStackTop - userStackSize, userStackTop, protRead ||| protWrite, .stack⟩)

/-- Build the page table of a program over the kernel's.  The result is the frame of the
new table and the table. -/
def buildPageTable (kernel : Pml4) (loaded : LoadedElf) : FrameM (ℕ × Pml4) := do
  let root ← withMessage "Failed to create user page table"
    (takeFrame "Out of frames for page table")
  let table ← (fun free =>
    match mapProgram loaded ⟨free, createUserPageTable kernel⟩ with
    | .ok _ s => .ok s.table s.free
    | .error e s => .error e s.free)
  match recordProgram loaded {} with
  | .ok _ _ => pure (root, table)
  | .error e _ => throw e

end RacOS.Mm
