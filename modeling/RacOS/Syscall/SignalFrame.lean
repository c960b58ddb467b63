import Mathlib.Tactic.Common
import RacOS.Lib.Bytes
import RacOS.Lib.Runs
import RacOS.Syscall.Error

/-!
# Signal frames

The model of signal delivery and `sys_sigreturn` in `syscall/handlers.rs`, of the
accesses to user memory of `syscall/usercopy.rs` they make, and of the registers
that `syscall_entry` in `syscall/entry.rs` saves and reloads.  The last section
follows one process through any sequence of system calls and deliveries and looks
at the I/O privilege level that it is given back.
-/

namespace RacOS.Syscall

/-- The contents of a 64-bit register. -/
abbrev Word := BitVec 64

/-! ## User memory -/

/-- The direction of an access the kernel is about to make. -/
inductive Access
  | read
  | write
  deriving DecidableEq

/-- What `user_access_flags` reports of a present page. -/
structure PageRights where
  user : Bool
  writable : Bool

/-- The memory of a process: its bytes and the rights of its pages, by page number. -/
structure UserMemory where
  bytes : Bytes
  rights : ℕ → Option PageRights

namespace UserMemory

def userSpaceMax : ℕ := 0x00007FFFFFFFFFFF

def pageSize : ℕ := 4096

/-- Whether ring 3 itself could make the access to a page. -/
def allows (m : UserMemory) (access : Access) (page : ℕ) : Bool :=
  match m.rights page with
  | none => false
  | some r => r.user && (access == .read || r.writable)

def checkUserRange (m : UserMemory) (ptr len : ℕ) (access : Access) : Except SyscallError Unit :=
  if ptr = 0 ∨ userSpaceMax < ptr then .error .EFAULT
  else if 2 ^ 64 ≤ ptr + len ∨ userSpaceMax < ptr + len then .error .EFAULT
  else if len = 0 then .ok ()
  else
    let first := ptr / pageSize
    let last := (ptr + len - 1) / pageSize
    if (List.range (last - first + 1)).all fun i => m.allows access (first + i) then .ok ()
    else .error .EFAULT

end UserMemory

/-- The frame that a delivery writes on the user stack. -/
structure UserSignalFrame where
  signum : Word
  origRip : Word
  origRflags : Word
  origRsp : Word
  origRax : Word
  origSigmask : Word
  magic : Word
  pad : Word

namespace UserSignalFrame

def size : ℕ := 64

/-- The fields in the order of the layout. -/
def fields (f : UserSignalFrame) : List ℕ :=
  [f.signum.toNat, f.origRip.toNat, f.origRflags.toNat, f.origRsp.toNat, f.origRax.toNat,
    f.origSigmask.toNat, f.magic.toNat, f.pad.toNat]

/-- The frame in the bytes at an address. -/
def read (b : Bytes) (addr : ℕ) : UserSignalFrame where
  signum := .ofNat 64 (b.readLe 8 addr)
  origRip := .ofNat 64 (b.readLe 8 (addr + 8))
  origRflags := .ofNat 64 (b.readLe 8 (addr + 16))
  origRsp := .ofNat 64 (b.readLe 8 (addr + 24))
  origRax := .ofNat 64 (b.readLe 8 (addr + 32))
  origSigmask := .ofNat 64 (b.readLe 8 (addr + 40))
  magic := .ofNat 64 (b.readLe 8 (addr + 48))
  pad := .ofNat 64 (b.readLe 8 (addr + 56))

end UserSignalFrame

def sigFrameMagic : Word := 0x52474E495F534F52

def redZone : ℕ := 128

/-- `usercopy::get_user` at the type of signal frames. -/
def getUser (m : UserMemory) (ptr : ℕ) : Except SyscallError UserSignalFrame :=
  match m.checkUserRange ptr UserSignalFrame.size .read with
  | .error e => .error e
  | .ok () => .ok (.read m.bytes ptr)

/-- `usercopy::put_user` at the type of signal frames. -/
def putUser (m : UserMemory) (ptr : ℕ) (f : UserSignalFrame) : Except SyscallError UserMemory :=
  match m.checkUserRange ptr UserSignalFrame.size .write with
  | .error e => .error e
  | .ok () => .ok { m with bytes := m.bytes.writeArray 8 ptr f.fields }

/-! ## The frame on the kernel stack -/

/-- The registers of ring 3 that a system call saves. -/
structure UserRegs where
  rip : Word
  rflags : Word
  rsp : Word
  deriving DecidableEq

/-- The view over the saved triple on the kernel stack. -/
structure SyscallFrame where
  userRip : Word
  userRflags : Word
  userRsp : Word
  deriving DecidableEq, Inhabited

/-- What the entry stub pushes: `SYSCALL` has put the instruction pointer into `rcx`
and the flags into `r11`. -/
def SyscallFrame.push (regs : UserRegs) : SyscallFrame where
  userRip := regs.rip
  userRflags := regs.rflags
  userRsp := regs.rsp

/-- The exit path: the triple is popped into `rcx`, `r11` and `rsp`, and `SYSRETQ`
loads the flags it may from `r11`. -/
def SyscallFrame.sysret (frame : SyscallFrame) : UserRegs where
  rip := frame.userRip
  rflags := (frame.userRflags &&& 0x3C7FD7) ||| 2
  rsp := frame.userRsp

/-- What a delivery puts on the user stack. -/
def UserSignalFrame.ofDelivery (frame : SyscallFrame) (sig : ℕ) (rawResult : Word) :
    UserSignalFrame where
  signum := .ofNat 64 sig
  origRip := frame.userRip
  origRflags := frame.userRflags
  origRsp := frame.userRsp
  origRax := rawResult
  origSigmask := 0
  magic := sigFrameMagic
  pad := 0

/-- Deliver a signal to the handler of the process through the frame that
`syscall_frame_ptr` names; `none` is a delivery that did not take place. -/
def tryDeliverUserHandler (framePtr : ℕ) (frame : SyscallFrame) (sig : ℕ)
    (handlerAddr rawResult : Word) (m : UserMemory) : Option (SyscallFrame × UserMemory) :=
  if framePtr = 0 then none
  else if framePtr % 8 ≠ 0 then none
  else if frame.userRsp.toNat < redZone then none
  else if frame.userRsp.toNat - redZone < UserSignalFrame.size then none
  else
    let below := frame.userRsp.toNat - redZone - UserSignalFrame.size
    let frameAddr := below - below % 16
    if frameAddr = 0 then none
    else
      match putUser m frameAddr (.ofDelivery frame sig rawResult) with
      | .error _ => none
      | .ok m' =>
        some ({ frame with userRip := handlerAddr, userRsp := .ofNat 64 frameAddr }, m')

/-- Return from a signal handler: the saved triple is restored into the frame that
`syscall_frame_ptr` names. -/
def sysSigreturn (framePtr : ℕ) (frame : SyscallFrame) (m : UserMemory) :
    Except SyscallError (SyscallFrame × Word) :=
  if framePtr = 0 then .error .EFAULT
  else if framePtr % 8 ≠ 0 then .error .EFAULT
  else
    match getUser m frame.userRsp.toNat with
    | .error e => .error e
    | .ok usf =>
      if usf.magic ≠ sigFrameMagic then .error .EFAULT
      else
        .ok ({ userRip := usf.origRip, userRflags := usf.origRflags,
               userRsp := usf.origRsp }, usf.origRax)

/-- A delivery leaves the saved flags alone. -/
theorem tryDeliverUserHandler_rflags {framePtr sig : ℕ} {frame frame' : SyscallFrame}
    {handlerAddr rawResult : Word} {m m' : UserMemory}
    (h : tryDeliverUserHandler framePtr frame sig handlerAddr rawResult m =
      some (frame', m')) : frame'.userRflags = frame.userRflags := by
  unfold tryDeliverUserHandler at h
  split_ifs at h with h₀ h₁ h₂ h₃
  simp only at h
  split_ifs at h
  split at h
  · cases h
  · simp only [Option.some.injEq, Prod.mk.injEq] at h
    rw [← h.1]

/-- The flags that `sys_sigreturn` restores are those of the frame at the user's
stack pointer. -/
theorem sysSigreturn_rflags {framePtr : ℕ} {frame frame' : SyscallFrame} {rax : Word}
    {m : UserMemory} (h : sysSigreturn framePtr frame m = .ok (frame', rax)) :
    ∃ usf, getUser m frame.userRsp.toNat = .ok usf ∧ usf.magic = sigFrameMagic ∧
      frame'.userRflags = usf.origRflags := by
  unfold sysSigreturn at h
  split_ifs at h with h₀ h₁
  split at h
  · cases h
  · rename_i usf hget
    split_ifs at h with hmagic
    cases h
    exact ⟨usf, hget, not_not.mp hmagic, rfl⟩

/-! ## The I/O privilege level -/

/-- The I/O privilege level in a value of `RFLAGS`. -/
def iopl (rflags : Word) : BitVec 2 := rflags.extractLsb' 12 2

/-- The flags in the `IRETQ` frame of a new image. -/
def userRflags : Word := 0x200

def ioplMask : Word := 0x3000

/-- The flags after ring 3 has tried to load a value: the privilege level stays. -/
def ring3Flags (old new : Word) : Word := (new &&& ~~~ioplMask) ||| (old &&& ioplMask)

theorem iopl_userRflags : iopl userRflags = 0 := by decide

theorem iopl_ring3Flags (old new : Word) : iopl (ring3Flags old new) = iopl old := by
  have hset : ioplMask.extractLsb' 12 2 = BitVec.allOnes 2 := by decide
  have hclear : (~~~ioplMask).extractLsb' 12 2 = 0#2 := by decide
  simp only [iopl, ring3Flags, BitVec.extractLsb'_or, BitVec.extractLsb'_and, hset, hclear,
    BitVec.and_zero, BitVec.zero_or, BitVec.and_allOnes]

theorem iopl_sysret (frame : SyscallFrame) : iopl frame.sysret.rflags = iopl frame.userRflags := by
  have hkept : (0x3C7FD7 : Word).extractLsb' 12 2 = BitVec.allOnes 2 := by decide
  have hset : (2 : Word).extractLsb' 12 2 = 0#2 := by decide
  simp only [iopl, SyscallFrame.sysret, BitVec.extractLsb'_or, BitVec.extractLsb'_and, hkept,
    hset, BitVec.or_zero, BitVec.and_allOnes]

/-! ## A process and its system calls -/

/-- Where the process is: in ring 3, or inside a system call with its saved triple.
A child of `fork` or `clone` starts inside the call of its parent, on a copy of the
triple. -/
inductive Level
  | ring3 (regs : UserRegs)
  | syscall (frame : SyscallFrame)
  deriving DecidableEq

structure Session where
  level : Level
  memory : UserMemory

inductive SessionEvent
  /-- Ring 3 runs until its registers are `regs`. -/
  | compute (regs : UserRegs)
  /-- The memory is written or remapped, by the process or by one it shares it with. -/
  | store (memory : UserMemory)
  | syscall
  | deliver (sig : ℕ) (handlerAddr rawResult : Word)
  | sigreturn
  | sysret
  /-- `exec` leaves the call for a new image, through the frame of `from_elf`. -/
  | exec (entry stackTop : Word) (memory : UserMemory)

namespace Session

variable (framePtr : ℕ)

/-- One step of a process whose system calls push their triple at `framePtr`. -/
def step : SessionEvent → Session → Session
  | .compute regs, s =>
    match s.level with
    | .ring3 old =>
      { s with level := .ring3 { regs with rflags := ring3Flags old.rflags regs.rflags } }
    | .syscall _ => s
  | .store memory, s => { s with memory }
  | .syscall, s =>
    match s.level with
    | .ring3 regs => { s with level := .syscall (.push regs) }
    | .syscall _ => s
  | .deliver sig handlerAddr rawResult, s =>
    match s.level with
    | .ring3 _ => s
    | .syscall frame =>
      match tryDeliverUserHandler framePtr frame sig handlerAddr rawResult s.memory with
      | none => s
      | some (frame', memory) => { level := .syscall frame', memory }
  | .sigreturn, s =>
    match s.level with
    | .ring3 _ => s
    | .syscall frame =>
      match sysSigreturn framePtr frame s.memory with
      | .error _ => s
      | .ok (frame', _) => { s with level := .syscall frame' }
  | .sysret, s =>
    match s.level with
    | .ring3 _ => s
    | .syscall frame => { s with level := .ring3 frame.sysret }
  | .exec entry stackTop memory, s =>
    match s.level with
    | .ring3 _ => s
    | .syscall _ =>
      { level := .ring3 { rip := entry, rflags := userRflags, rsp := stackTop }, memory }

/-- The flags that ring 3 has or that the exit path reloads for it. -/
def rflags (s : Session) : Word :=
  match s.level with
  | .ring3 regs => regs.rflags
  | .syscall frame => frame.userRflags

/-- The flags in the frame that user memory offers to `sys_sigreturn`, if it is one
that the call accepts. -/
def offeredFlags (s : Session) : Option Word :=
  match s.level with
  | .ring3 _ => none
  | .syscall frame =>
    match getUser s.memory frame.userRsp.toNat with
    | .error _ => none
    | .ok usf => if usf.magic = sigFrameMagic then some usf.origRflags else none

/-- A call of `sys_sigreturn` is offered no flags with a privilege level. -/
def Harmless : SessionEvent → Session → Prop
  | .sigreturn, s => ∀ offered ∈ s.offeredFlags, iopl offered = 0
  | _, _ => True

variable {framePtr}

/-- No privilege for ring 3, now or on the way back to it. -/
def Unprivileged (s : Session) : Prop := iopl s.rflags = 0

theorem unprivileged_step (e : SessionEvent) (s : Session) (hs : s.Unprivileged)
    (he : Harmless e s) : (step framePtr e s).Unprivileged := by
  obtain ⟨level, memory⟩ := s
  cases e with
  | compute regs =>
    cases level with
    | ring3 old =>
      simp only [Unprivileged, step, rflags, iopl_ring3Flags]
      exact hs
    | syscall frame => exact hs
  | store memory => exact hs
  | syscall =>
    cases level with
    | ring3 regs => exact hs
    | syscall frame => exact hs
  | deliver sig handlerAddr rawResult =>
    cases level with
    | ring3 regs => exact hs
    | syscall frame =>
      simp only [step]
      split
      · exact hs
      · rename_i frame' memory' hdeliver
        have hkept := tryDeliverUserHandler_rflags hdeliver
        exact (congrArg iopl hkept).trans hs
  | sigreturn =>
    cases level with
    | ring3 regs => exact hs
    | syscall frame =>
      simp only [step]
      split
      · exact hs
      · rename_i frame' rax hreturn
        obtain ⟨usf, hget, hmagic, hrestored⟩ := sysSigreturn_rflags hreturn
        have hoffered : usf.origRflags ∈ offeredFlags ⟨.syscall frame, memory⟩ := by
          simp [offeredFlags, hget, hmagic]
        exact (congrArg iopl hrestored).trans (he usf.origRflags hoffered)
  | sysret =>
    cases level with
    | ring3 regs => exact hs
    | syscall frame =>
      simp only [Unprivileged, step, rflags, iopl_sysret]
      exact hs
  | exec entry stackTop memory =>
    cases level with
    | ring3 regs => exact hs
    | syscall frame =>
      simp only [Unprivileged, step, rflags]
      exact iopl_userRflags

/-- The exit path never reloads flags with a privilege level for ring 3, as long as no
`sys_sigreturn` accepts a frame that has one. -/
theorem reloaded_iopl_eq_zero (regs : UserRegs) (memory : UserMemory)
    (hstart : iopl regs.rflags = 0) (events : List SessionEvent)
    (hrun : Runs.Along (step framePtr) Harmless events { level := .ring3 regs, memory })
    (frame : SyscallFrame)
    (hframe : (Runs.run (step framePtr) events { level := .ring3 regs, memory }).level =
      .syscall frame) :
    iopl frame.userRflags = 0 := by
  have hinv : Unprivileged (Runs.run (step framePtr) events ⟨.ring3 regs, memory⟩) :=
    Runs.invariant_of_along unprivileged_step hstart hrun
  simpa only [Unprivileged, rflags, hframe] using hinv

/-- Registers of ring 3 with the stack in the middle of a page. -/
def callerRegs : UserRegs where
  rip := 0x400000
  rflags := userRflags
  rsp := 0x500800

/-- User memory of one page. -/
def callerMemory (bytes : Bytes) : UserMemory where
  bytes := bytes
  rights := fun page => if page = 0x500 then some ⟨true, true⟩ else none

/-- User memory with a frame at the stack pointer, as a delivery leaves it. -/
def deliveredMemory : UserMemory :=
  callerMemory (Bytes.zero.writeArray 8 0x500800
    (UserSignalFrame.ofDelivery ⟨0x400000, userRflags, 0x500C00⟩ 2 7).fields)

/-- What the handler of a delivered signal resumes. -/
def resumedFrame : SyscallFrame := ⟨0x400000, userRflags, 0x500C00⟩

/-- The handler of a delivered signal returns. -/
theorem reloaded_iopl_delivered :
    (Runs.run (step 0xFE8) [.syscall, .sigreturn] ⟨.ring3 callerRegs, deliveredMemory⟩).level =
      .syscall resumedFrame ∧ iopl resumedFrame.userRflags = 0 := by
  have hlevel : (Runs.run (step 0xFE8) [.syscall, .sigreturn]
      ⟨.ring3 callerRegs, deliveredMemory⟩).level = .syscall resumedFrame := by
    decide +kernel
  have hoffered : offeredFlags (step 0xFE8 .syscall ⟨.ring3 callerRegs, deliveredMemory⟩) =
      some userRflags := by
    decide +kernel
  have hharmless : Harmless .sigreturn
      (step 0xFE8 .syscall ⟨.ring3 callerRegs, deliveredMemory⟩) := by
    intro offered hmem
    rw [hoffered, Option.mem_some_iff] at hmem
    rw [← hmem, iopl_userRflags]
  exact ⟨hlevel, reloaded_iopl_eq_zero callerRegs deliveredMemory iopl_userRflags
    [.syscall, .sigreturn] ⟨trivial, hharmless, trivial⟩ resumedFrame hlevel⟩

/-- A signal frame that a process has written itself, with privilege level 3. -/
def forgedMemory : UserMemory :=
  callerMemory (Bytes.zero.writeArray 8 0x500800
    (UserSignalFrame.ofDelivery ⟨0x400000, 0x3202, 0x500C00⟩ 2 7).fields)

theorem reloaded_iopl_forged :
    ∃ frame, (Runs.run (step 0xFE8) [.syscall, .sigreturn]
      ⟨.ring3 callerRegs, forgedMemory⟩).level = .syscall frame ∧ iopl frame.userRflags = 3 := by
  refine ⟨⟨0x400000, 0x3202, 0x500C00⟩, ?_⟩
  decide +kernel

end Session

end RacOS.Syscall
