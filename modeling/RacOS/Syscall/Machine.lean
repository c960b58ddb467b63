import Mathlib.Logic.Function.Basic
import RacOS.Lib.Slots
import RacOS.Syscall.SignalFrame

/-!
# Entering and leaving the kernel

The tasks of one processor as they enter ring 3, make system calls, are preempted
and switched: the model of `syscall_entry` and `PER_CPU` in `syscall/entry.rs`, of
`user_entry_trampoline` in `task/process.rs`, of the return paths of forked and
cloned children in `syscall/handlers.rs`, and of what `schedule` and
`context_switch` do to the state that all tasks share: the base registers and the
block `PER_CPU`.
-/

namespace RacOS.Syscall

/-- The block that `gs` names inside a system call. -/
structure PerCpuData where
  kernelRsp : ℕ
  userRsp : Word
  syscallFramePtr : ℕ
  deriving Inhabited

/-- Where a task stands.  A task that is not running stays where it was interrupted. -/
inductive Place
  /-- A kernel task. -/
  | kernel
  /-- In `user_entry_trampoline`, before the first write to a base register. -/
  | trampoline
  /-- Before the write to `KERNEL_GS_BASE`. -/
  | kernelGsBase
  /-- Before the `IRETQ`. -/
  | iretq
  | ring3
  /-- Inside a system call that has pushed its triple at `frame`.  History: `saved` is
  the triple as this task's own calls leave it. -/
  | syscall (frame : ℕ) (saved : SyscallFrame)
  /-- In `fork_child_return` or `clone_child_return`, which run with interrupts on,
  before the `swapgs`. -/
  | childReturn
  /-- Between the `swapgs` and the `SYSRETQ` of a child. -/
  | sysretq

structure Thread where
  stackTop : ℕ
  place : Place
  regs : UserRegs

namespace Thread

def moveTo (place : Place) (t : Thread) : Thread := { t with place }

/-- Back to ring 3, or on the way, with the registers of a triple. -/
def resume (place : Place) (frame : SyscallFrame) (t : Thread) : Thread :=
  { t with place, regs := frame.sysret }

end Thread

/-- The tasks and what they share. -/
structure Machine where
  /-- `IA32_FS_BASE`, 0xC0000100. -/
  fsBase : ℕ
  /-- `IA32_GS_BASE`, 0xC0000101. -/
  gsBase : ℕ
  /-- `IA32_KERNEL_GS_BASE`, 0xC0000102. -/
  kernelGsBase : ℕ
  /-- The memory that `gs` can name, by base address. -/
  areas : ℕ → PerCpuData
  /-- The saved triples on the kernel stacks, by address. -/
  frames : ℕ → SyscallFrame
  threads : List (Option Thread)
  current : ℕ
  /-- History: the task that last entered a system call. -/
  lastEntry : Option ℕ

inductive MachineEvent
  /-- The next instruction of a trampoline or of a child's return path. -/
  | advance
  /-- Ring 3 runs; by loading selectors it may set the bases it sees. -/
  | compute (regs : UserRegs) (fsBase gsBase : ℕ)
  | syscall
  | sysret
  /-- `try_deliver_user_handler`, with the user memory it finds. -/
  | deliver (sig : ℕ) (handlerAddr rawResult : Word) (memory : UserMemory)
  | sigreturn (memory : UserMemory)
  /-- A new image, on a kernel stack that the allocator has given. -/
  | spawn (stackTop : ℕ) (regs : UserRegs)
  | spawnKernel (stackTop : ℕ)
  /-- `fork` or `clone`. -/
  | fork (stackTop : ℕ)
  | exec (stackTop : ℕ) (regs : UserRegs)
  /-- A switch by the timer, a blocking call or a yield. -/
  | switch (next : ℕ)
  | exit (next : ℕ)

namespace Machine

/-- Where `syscall_entry` puts the triple: the first three words on the stack. -/
def frameAddr (kernelRsp : ℕ) : ℕ := kernelRsp - 24

/-- The running task. -/
def thread (m : Machine) : Option Thread := Slots.get m.threads m.current

def swapgs (m : Machine) : Machine :=
  { m with gsBase := m.kernelGsBase, kernelGsBase := m.gsBase }

/-- Update the running task. -/
def modifyCurrent (f : Thread → Thread) (m : Machine) : Machine :=
  { m with threads := Slots.modify m.current f m.threads }

/-- `read_syscall_frame_ptr`: the word at `gs:[0x10]`. -/
def readSyscallFramePtr (m : Machine) : ℕ := (m.areas m.gsBase).syscallFramePtr

/-- The stack is one the allocator may give: it is in no task's use. -/
def freshStack (m : Machine) (stackTop : ℕ) : Bool :=
  24 ≤ stackTop && Slots.all (fun t => t.stackTop != stackTop) m.threads

/-- The entry stub, for ring 3 with the given registers. -/
def syscallEntry (regs : UserRegs) (m : Machine) : Machine :=
  let m := m.swapgs
  let area := m.areas m.gsBase
  let frame := frameAddr area.kernelRsp
  modifyCurrent (.moveTo (.syscall frame (.push regs)))
    { m with
      areas := Function.update m.areas m.gsBase
        { area with userRsp := regs.rsp, syscallFramePtr := frame }
      frames := Function.update m.frames frame (.push regs)
      lastEntry := some m.current }

/-- Rewrite the triple that `syscall_frame_ptr` names by an operation on triples that
may refuse, inside a call of the running task. -/
def patchFrame (op : ℕ → SyscallFrame → Option SyscallFrame) (frame : ℕ)
    (saved : SyscallFrame) (m : Machine) : Machine :=
  let ptr := m.readSyscallFramePtr
  match op ptr (m.frames ptr) with
  | none => m
  | some patched =>
    modifyCurrent (.moveTo (.syscall frame ((op frame saved).getD saved)))
      { m with frames := Function.update m.frames ptr patched }

variable (perCpu : ℕ)

def setKernelRsp (stackTop : ℕ) (m : Machine) : Machine :=
  { m with
    areas := Function.update m.areas perCpu { m.areas perCpu with kernelRsp := stackTop } }

/-- What `schedule` does to the shared state: the base registers are left alone. -/
def switchTo (next : ℕ) (m : Machine) : Machine :=
  if next = m.current then m
  else
    match Slots.get m.threads next with
    | none => m
    | some t =>
      let m := if t.stackTop ≠ 0 then setKernelRsp perCpu t.stackTop m else m
      { m with current := next }

def advance (t : Thread) (m : Machine) : Machine :=
  match t.place with
  -- The comment in the source names `GS_BASE`, the number is that of `FS_BASE`.
  | .trampoline => modifyCurrent (.moveTo .kernelGsBase) { m with fsBase := 0 }
  | .kernelGsBase => modifyCurrent (.moveTo .iretq) { m with kernelGsBase := perCpu }
  | .iretq => modifyCurrent (.moveTo .ring3) m
  | .childReturn =>
    modifyCurrent (.resume .sysretq (m.frames (frameAddr t.stackTop))) m.swapgs
  | .sysretq => modifyCurrent (.moveTo .ring3) m
  | .kernel => m
  | .ring3 => m
  | .syscall _ _ => m

/-- Ring 3 computes or enters the kernel. -/
def ring3Step (t : Thread) (m : Machine) : MachineEvent → Machine
  | .compute regs fsBase gsBase =>
    modifyCurrent (fun t => { t with regs }) { m with fsBase, gsBase }
  | .syscall => syscallEntry t.regs m
  | _ => m

/-- What happens inside a system call. -/
def syscallStep (t : Thread) (frame : ℕ) (saved : SyscallFrame) (m : Machine) :
    MachineEvent → Machine
  | .sysret => modifyCurrent (.resume .ring3 (m.frames frame)) m.swapgs
  | .deliver sig handlerAddr rawResult memory =>
    patchFrame (fun ptr f =>
      (tryDeliverUserHandler ptr f sig handlerAddr rawResult memory).map Prod.fst)
      frame saved m
  | .sigreturn memory =>
    patchFrame (fun ptr f => (sysSigreturn ptr f memory).toOption.map Prod.fst) frame saved m
  | .fork stackTop =>
    if m.freshStack stackTop then
      { m with
        frames := Function.update m.frames (frameAddr stackTop)
          (m.frames (frameAddr t.stackTop))
        threads := Slots.place { stackTop, place := .childReturn, regs := t.regs } m.threads }
    else m
  | .exec stackTop regs =>
    if m.freshStack stackTop then
      setKernelRsp perCpu stackTop
        (modifyCurrent (fun _ => { stackTop, place := .trampoline, regs }) m)
    else m
  | _ => m

/-- A new task, made by a kernel task or inside a system call. -/
def addThread (t : Thread) (m : Machine) : Machine :=
  if m.freshStack t.stackTop then { m with threads := Slots.place t m.threads } else m

/-- The running task ends, and another one is switched to. -/
def exitTo (next : ℕ) (m : Machine) : Machine :=
  let m' := switchTo perCpu next m
  if m'.current = m.current then m else { m' with threads := Slots.clear m.current m'.threads }

/-- One step of the machine. -/
def step (e : MachineEvent) (m : Machine) : Machine :=
  match e with
  | .switch next => switchTo perCpu next m
  | .exit next => exitTo perCpu next m
  | .spawn stackTop regs => addThread { stackTop, place := .trampoline, regs } m
  | .spawnKernel stackTop =>
    addThread { stackTop, place := .kernel, regs := ⟨0, 0, 0⟩ } m
  | .advance =>
    match m.thread with
    | none => m
    | some t => advance perCpu t m
  | e =>
    match m.thread with
    | none => m
    | some t =>
      match t.place with
      | .ring3 => ring3Step t m e
      | .syscall frame saved => syscallStep perCpu t frame saved m e
      | _ => m

/-- The machine after boot: the idle task runs, `percpu::init_for_this_cpu` has set
`GS_BASE` and `syscall::entry::init` has set `KERNEL_GS_BASE`. -/
def boot (slot : ℕ) (areas : ℕ → PerCpuData) (frames : ℕ → SyscallFrame) : Machine where
  fsBase := 0
  gsBase := slot
  kernelGsBase := perCpu
  areas := areas
  frames := frames
  threads := [some { stackTop := 0, place := .kernel, regs := ⟨0, 0, 0⟩ }]
  current := 0
  lastEntry := none

end Machine

end RacOS.Syscall
