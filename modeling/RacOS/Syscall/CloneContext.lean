import RacOS.Lib.StackMachine
import RacOS.Syscall.Machine

/-!
# The context of a cloned child

The registers that `syscall_entry` saves on the parent's kernel stack, the copy
that `sys_clone` makes of them on the child's, and what `clone_child_return` pops
there.  The stack that a thread is given is written over the saved `r14`: it is
put at offset 16 of the frame, and the user stack pointer stands at offset 72.
-/

namespace RacOS.Syscall

open StackMachine (wordAt)

/-! ## The instructions -/

inductive Reg
  | rax | rbx | rcx | rdx | rsi | rdi | rbp | rsp
  | r8 | r9 | r10 | r11 | r12 | r13 | r14 | r15
deriving DecidableEq, Repr

/-- The instructions of the naked functions. -/
inductive Instr
  | swapgs
  | movToGs (off : ℕ) (src : Reg)
  | movFromGs (dst : Reg) (off : ℕ)
  | pushGs (off : ℕ)
  | push (src : Reg)
  | pop (dst : Reg)
  | mov (dst src : Reg)
  /-- `lea dst, [rsp + off]`. -/
  | leaRsp (dst : Reg) (off : Word)
  | addRsp (n : Word)
  /-- `xor eax, eax`. -/
  | xorEax
  | sti
  | stac
  | sysretq
deriving DecidableEq, Repr

/-- A processor in one of the naked functions. -/
structure Processor extends StackMachine.State Reg where
  rip : Word
  rflags : Word
  gsBase : ℕ
  kernelGsBase : ℕ
  /-- The words that `gs` names, by address. -/
  gsWords : ℕ → Word
  interrupts : Bool
  ac : Bool

namespace Processor

/-- Change registers and memory. -/
def onStack (f : StackMachine.State Reg → StackMachine.State Reg) (p : Processor) : Processor :=
  { p with toState := f p.toState }

@[simp] theorem onStack_mem (f : StackMachine.State Reg → StackMachine.State Reg)
    (p : Processor) : (p.onStack f).mem = (f p.toState).mem := rfl

def exec (p : Processor) : Instr → Processor
  | .swapgs => { p with gsBase := p.kernelGsBase, kernelGsBase := p.gsBase }
  | .movToGs off src =>
    { p with gsWords := Function.update p.gsWords (p.gsBase + off) (p.regs src) }
  | .movFromGs dst off => p.onStack (·.set dst (p.gsWords (p.gsBase + off)))
  | .pushGs off => p.onStack (·.push .rsp (p.gsWords (p.gsBase + off)))
  | .push src => p.onStack (·.push .rsp (p.regs src))
  | .pop dst => p.onStack (·.pop .rsp dst)
  | .mov dst src => p.onStack (·.set dst (p.regs src))
  | .leaRsp dst off => p.onStack (·.set dst (p.regs .rsp + off))
  | .addRsp n => p.onStack (·.set .rsp (p.regs .rsp + n))
  | .xorEax => p.onStack (·.set .rax 0)
  | .sti => { p with interrupts := true }
  | .stac => { p with ac := true }
  | .sysretq => { p with rip := p.regs .rcx, rflags := (p.regs .r11 &&& 0x3C7FD7) ||| 2 }

def run (code : List Instr) (p : Processor) : Processor := code.foldl exec p

theorem run_append (code code' : List Instr) (p : Processor) :
    p.run (code ++ code') = (p.run code).run code' :=
  List.foldl_append

theorem run_pops (dsts : List Reg) (p : Processor) :
    p.run (dsts.map .pop) = p.onStack (·.popAll .rsp dsts) := by
  induction dsts generalizing p with
  | nil => rfl
  | cons dst dsts ih => exact ih (p.exec (.pop dst))

theorem run_pushes (srcs : List Reg) (p : Processor) (hsrcs : .rsp ∉ srcs) :
    p.run (srcs.map .push) = p.onStack (·.pushAll .rsp (srcs.map p.regs)) := by
  induction srcs generalizing p with
  | nil => rfl
  | cons src srcs ih =>
    rw [List.mem_cons, not_or] at hsrcs
    have hregs : srcs.map (p.exec (.push src)).regs = srcs.map p.regs := by
      apply List.map_congr_left
      intro r hr
      have hne : r ≠ .rsp := by
        rintro rfl
        exact hsrcs.2 hr
      exact StackMachine.State.push_regs_of_ne hne _ _
    have hrest := ih (p.exec (.push src)) hsrcs.2
    rw [hregs] at hrest
    exact hrest

end Processor

/-! ## Entering and the child's way out -/

/-- The registers that the entry stub saves above `arg6`, in the order of the pushes
after the user stack pointer. -/
def savedRegs : List Reg := [.r11, .rcx, .rbp, .rbx, .r12, .r13, .r14, .r15, .r9]

/-- The arguments of the dispatcher, and the address of the saved user `rip`. -/
def argMoves : List Instr :=
  [.leaRsp .rcx 56, .movToGs 0x10 .rcx, .mov .r9 .r8, .mov .r8 .r10, .mov .rcx .rdx,
    .mov .rdx .rsi, .mov .rsi .rdi, .mov .rdi .rax, .stac]

/-- `syscall_entry` up to the call of the dispatcher. -/
def syscallEntry : List Instr :=
  [.swapgs, .movToGs 0x08 .rsp, .movFromGs .rsp 0x00, .pushGs 0x08] ++
    savedRegs.map .push ++ argMoves

/-- The registers that a child pops before its stack pointer. -/
def poppedRegs : List Reg := [.r15, .r14, .r13, .r12, .rbx, .rbp, .rcx, .r11]

/-- `clone_child_return`. -/
def cloneChildReturn : List Instr :=
  [.xorEax, .sti, .addRsp 8] ++ poppedRegs.map .pop ++ [.pop .rsp, .swapgs, .sysretq]

/-! ## The copy of the frame -/

def cloneVm : UInt32 := 0x00000100

def frameSize : ℕ := 4096

def kernelStackGuardPages : ℕ := 1

def kernelStackPages : ℕ := 16

def kernelStackGuardByte : UInt8 := 0xCC

def kernelStackSize : ℕ := kernelStackPages * frameSize

def sysretFrameSize : ℕ := 80

/-- The top of the child's kernel stack in its allocation. -/
def childStackTop (allocBase : ℕ) : ℕ :=
  allocBase + kernelStackGuardPages * frameSize + kernelStackSize

/-- A thread is to run on a stack of its own. -/
def GivesStack (flags : UInt32) (stack : Word) : Prop := flags &&& cloneVm ≠ 0 ∧ stack ≠ 0

instance (flags : UInt32) (stack : Word) : Decidable (GivesStack flags stack) :=
  inferInstanceAs (Decidable (_ ∧ _))

/-- What `sys_clone` writes to the child's kernel stack. -/
def cloneStack (flags : UInt32) (stack : Word) (parentTop allocBase : ℕ) (mem : Bytes) : Bytes :=
  let stackBase := allocBase + kernelStackGuardPages * frameSize
  let stackTop := childStackTop allocBase
  let mem := mem.patch allocBase (kernelStackGuardPages * frameSize) fun _ => kernelStackGuardByte
  let mem := mem.patch stackBase kernelStackSize fun _ => 0
  let mem := mem.patch (stackTop - sysretFrameSize) sysretFrameSize fun _ => 0
  let mem := mem.patch (stackTop - sysretFrameSize) sysretFrameSize
    (mem.slice (parentTop - sysretFrameSize))
  if GivesStack flags stack then
    let userRspOffset := 16
    mem.writeLe 8 (stackTop - sysretFrameSize + userRspOffset) stack.toNat
  else mem

/-! ## Contexts -/

/-- The user registers that a call saves and a child gets back: `rcx` has the
instruction pointer and `r11` the flags. -/
structure Context where
  rax : Word
  r15 : Word
  r14 : Word
  r13 : Word
  r12 : Word
  rbx : Word
  rbp : Word
  rip : Word
  rflags : Word
  rsp : Word
deriving DecidableEq

def Processor.context (p : Processor) : Context where
  rax := p.regs .rax
  r15 := p.regs .r15
  r14 := p.regs .r14
  r13 := p.regs .r13
  r12 := p.regs .r12
  rbx := p.regs .rbx
  rbp := p.regs .rbp
  rip := p.regs .rcx
  rflags := p.regs .r11
  rsp := p.regs .rsp

/-- The context in a frame, with a result of zero. -/
def Context.ofFrame (mem : Bytes) (base : ℕ) : Context where
  rax := 0
  r15 := wordAt mem (base + 8)
  r14 := wordAt mem (base + 16)
  r13 := wordAt mem (base + 24)
  r12 := wordAt mem (base + 32)
  rbx := wordAt mem (base + 40)
  rbp := wordAt mem (base + 48)
  rip := wordAt mem (base + 56)
  rflags := wordAt mem (base + 64)
  rsp := wordAt mem (base + 72)

/-- The context the child is to have. -/
def Context.forChild (flags : UInt32) (stack : Word) (parent : Context) : Context :=
  { parent with rax := 0, rsp := if GivesStack flags stack then stack else parent.rsp }

theorem Context.ofFrame_congr {mem mem' : Bytes} {base base' : ℕ}
    (h : ∀ i < sysretFrameSize, mem (base + i) = mem' (base' + i)) :
    Context.ofFrame mem base = Context.ofFrame mem' base' := by
  have hword : ∀ off, off + 8 ≤ sysretFrameSize →
      wordAt mem (base + off) = wordAt mem' (base' + off) := by
    intro off hoff
    apply StackMachine.wordAt_congr
    intro i hi
    rw [Nat.add_assoc, Nat.add_assoc]
    exact h _ (by omega)
  unfold Context.ofFrame
  rw [hword 8 (by decide), hword 16 (by decide), hword 24 (by decide), hword 32 (by decide),
    hword 40 (by decide), hword 48 (by decide), hword 56 (by decide), hword 64 (by decide),
    hword 72 (by decide)]

/-- The stub as far as it takes up the stack of the kernel. -/
def switchStack : List Instr := syscallEntry.take 4

/-- The stack once the stub has saved the registers. -/
def Processor.saved (user : Processor) : StackMachine.State Reg :=
  (user.toState.set .rsp (user.gsWords user.kernelGsBase)).pushAll .rsp
    (user.regs .rsp :: savedRegs.map user.regs)

theorem entry_saves (user : Processor) :
    (user.run (switchStack ++ savedRegs.map .push)).toState = user.saved := by
  have hpushed : (user.run switchStack).toState =
      (user.toState.set .rsp (user.gsWords user.kernelGsBase)).push .rsp (user.regs .rsp) := by
    simp [switchStack, syscallEntry, Processor.run, Processor.exec, Processor.onStack]
  have hregs : savedRegs.map (user.run switchStack).regs = savedRegs.map user.regs := by
    apply List.map_congr_left
    intro r hr
    have hne : r ≠ .rsp := by
      rintro rfl
      exact absurd hr (by decide)
    rw [hpushed, StackMachine.State.push_regs_of_ne hne, StackMachine.State.set_of_ne hne]
  rw [Processor.run_append, Processor.run_pushes _ _ (by decide), hregs]
  change StackMachine.State.pushAll .rsp _ (user.run _).toState = _
  rw [hpushed, Processor.saved, StackMachine.State.pushAll_cons]

theorem run_entry (user : Processor) : user.run syscallEntry =
    (user.run (switchStack ++ savedRegs.map .push)).run argMoves :=
  Processor.run_append ..

theorem entry_mem (user : Processor) : (user.run syscallEntry).mem = user.saved.mem := by
  have hrest : ∀ p : Processor, (p.run argMoves).mem = p.mem := fun p => rfl
  rw [run_entry, hrest, entry_saves]

section Entry

variable (user : Processor) (top : ℕ) (hroom : sysretFrameSize ≤ top)
  (htop : (user.gsWords user.kernelGsBase).toNat = top)

include hroom htop

theorem saved_spec : (user.saved.regs .rsp).toNat = top - sysretFrameSize ∧
    ∀ k v, (user.regs .rsp :: savedRegs.map user.regs)[k]? = some v →
      wordAt (user.run syscallEntry).mem (top - 8 * (k + 1)) = v := by
  have hrsp : ((user.toState.set .rsp (user.gsWords user.kernelGsBase)).regs .rsp).toNat = top := by
    rw [StackMachine.State.set_self]
    exact htop
  obtain ⟨hsp, -, hwords, -⟩ := StackMachine.State.pushAll_spec
    (user.regs .rsp :: savedRegs.map user.regs) _ hrsp hroom
  rw [entry_mem]
  exact ⟨hsp, hwords⟩

/-- The entry stub leaves the user's registers in the frame below the top of the
kernel stack. -/
theorem entry_frame :
    Context.ofFrame (user.run syscallEntry).mem (top - sysretFrameSize) =
      { user.context with rax := 0 } := by
  have hsize : sysretFrameSize = 80 := rfl
  have hword : ∀ k v, (user.regs .rsp :: savedRegs.map user.regs)[k]? = some v →
      ∀ off, off + 8 * (k + 1) = sysretFrameSize →
        wordAt (user.run syscallEntry).mem (top - sysretFrameSize + off) = v := by
    intro k v hk off hoff
    rw [← (saved_spec user top hroom htop).2 k v hk]
    congr 1
    omega
  unfold Context.ofFrame Processor.context
  rw [hword 8 _ rfl 8 rfl, hword 7 _ rfl 16 rfl, hword 6 _ rfl 24 rfl, hword 5 _ rfl 32 rfl,
    hword 4 _ rfl 40 rfl, hword 3 _ rfl 48 rfl, hword 2 _ rfl 56 rfl, hword 1 _ rfl 64 rfl,
    hword 0 _ rfl 72 rfl]

/-- The stub leaves the address of the triple in `syscall_frame_ptr`. -/
theorem entry_framePtr :
    ((user.run syscallEntry).gsWords (user.kernelGsBase + 0x10)).toNat = Machine.frameAddr top := by
  obtain ⟨hsp, -⟩ := saved_spec user top hroom htop
  have hmoves (q : Processor) : (q.run argMoves).gsWords (q.gsBase + 0x10) = q.regs .rsp + 56 := by
    simp [Processor.run, argMoves, Processor.exec, Processor.onStack]
  have hlt := (user.gsWords user.kernelGsBase).isLt
  have hsize : sysretFrameSize = 80 := rfl
  have hbase : (user.run (switchStack ++ savedRegs.map .push)).gsBase = user.kernelGsBase := rfl
  rw [run_entry, ← hbase, hmoves, entry_saves, BitVec.toNat_add, hsp]
  simp only [Machine.frameAddr, BitVec.reduceToNat]
  omega

/-- The stub does what the machine of all tasks takes it to do: the base registers are swapped, and
`syscall_frame_ptr` is the address of the triple. -/
theorem entry_machine (m : Machine) (hgs : m.gsBase = user.gsBase)
    (hkernel : m.kernelGsBase = user.kernelGsBase)
    (harea : (m.areas m.kernelGsBase).kernelRsp = top) :
    let p := user.run syscallEntry
    let m' := m.syscallEntry ⟨user.regs .rcx, user.regs .r11, user.regs .rsp⟩
    let ptr := m'.readSyscallFramePtr
    p.gsBase = m'.gsBase ∧ p.kernelGsBase = m'.kernelGsBase ∧
      (p.gsWords (p.gsBase + 0x10)).toNat = ptr ∧
      m'.frames ptr = ⟨wordAt p.mem ptr, wordAt p.mem (ptr + 8), wordAt p.mem (ptr + 16)⟩ := by
  intro p m' ptr
  have hsize : sysretFrameSize = 80 := rfl
  obtain ⟨-, hwords⟩ := saved_spec user top hroom htop
  have hptr : ptr = Machine.frameAddr top := by
    simp [ptr, m', Machine.readSyscallFramePtr, Machine.syscallEntry, Machine.swapgs,
      Machine.modifyCurrent, harea]
  refine ⟨hkernel.symm, hgs.symm, (entry_framePtr user top hroom htop).trans hptr.symm, ?_⟩
  have hframe : m'.frames ptr = ⟨user.regs .rcx, user.regs .r11, user.regs .rsp⟩ := by
    simp only [m', Machine.syscallEntry, Machine.modifyCurrent, Machine.swapgs, hptr, harea,
      Function.update_self]
    rfl
  rw [hframe, hptr, ← hwords 2 _ rfl, ← hwords 1 _ rfl, ← hwords 0 _ rfl]
  simp only [Machine.frameAddr]
  congr 2 <;> omega

end Entry

/-- A child pops the context in its frame. -/
theorem cloneChildReturn_context (child : Processor) (base : ℕ)
    (hbase : (child.regs .rsp).toNat = base) (hroom : base + sysretFrameSize < 2 ^ 64) :
    (child.run cloneChildReturn).context = Context.ofFrame child.mem base := by
  have hsize : sysretFrameSize = 80 := rfl
  have hpop : ((child.run [.xorEax, .sti, .addRsp 8]).regs .rsp).toNat = base + 8 := by
    change (child.regs .rsp + 8).toNat = base + 8
    rw [BitVec.toNat_add, hbase]
    exact Nat.mod_eq_of_lt (by simp; omega)
  obtain ⟨hend, hmem, hregs, hwords⟩ := StackMachine.State.popAll_spec poppedRegs
    (child.run [.xorEax, .sti, .addRsp 8]).toState hpop (by
      change base + 8 + 64 < 2 ^ 64
      omega) (by decide) (by decide)
  have hmem' : (child.run [.xorEax, .sti, .addRsp 8]).mem = child.mem := rfl
  have hrax : (child.run [.xorEax, .sti, .addRsp 8]).regs .rax = 0 := by
    simp [Processor.run, Processor.exec, Processor.onStack, StackMachine.State.set]
  have hlast : ∀ p : Processor, ∀ r ≠ .rsp,
      (p.run [.pop .rsp, .swapgs, .sysretq]).regs r = p.regs r := by
    intro p r hr
    change ((p.toState.pop .rsp .rsp).regs r) = p.regs r
    rw [StackMachine.State.pop, StackMachine.State.set_of_ne hr, StackMachine.State.set_of_ne hr]
  have hrsp : ∀ p : Processor,
      (p.run [.pop .rsp, .swapgs, .sysretq]).regs .rsp = wordAt p.mem (p.regs .rsp).toNat := by
    intro p
    change ((p.toState.pop .rsp .rsp).regs .rsp) = _
    rw [StackMachine.State.pop, StackMachine.State.set_self]
  unfold cloneChildReturn
  rw [Processor.run_append, Processor.run_append, Processor.run_pops]
  generalize child.run [.xorEax, .sti, .addRsp 8] = p at *
  have hword : ∀ k r, poppedRegs[k]? = some r →
      (p.onStack (·.popAll .rsp poppedRegs)).regs r = wordAt child.mem (base + 8 + 8 * k) := by
    intro k r hk
    rw [← hmem']
    exact hwords k r hk
  have hstack : (p.onStack (·.popAll .rsp poppedRegs)).mem = child.mem := hmem.trans hmem'
  have htop : ((p.onStack (·.popAll .rsp poppedRegs)).regs .rsp).toNat = base + 72 := hend
  have hzero : (p.onStack (·.popAll .rsp poppedRegs)).regs .rax = 0 :=
    (hregs .rax (by decide) (by decide)).trans hrax
  generalize p.onStack (·.popAll .rsp poppedRegs) = q at hword hstack htop hzero ⊢
  unfold Processor.context Context.ofFrame
  rw [hrsp q, hstack, htop, hlast q .rax (by decide), hzero, hlast q .r15 (by decide),
    hword 0 .r15 rfl, hlast q .r14 (by decide), hword 1 .r14 rfl, hlast q .r13 (by decide),
    hword 2 .r13 rfl, hlast q .r12 (by decide), hword 3 .r12 rfl, hlast q .rbx (by decide),
    hword 4 .rbx rfl, hlast q .rbp (by decide), hword 5 .rbp rfl, hlast q .rcx (by decide),
    hword 6 .rcx rfl, hlast q .r11 (by decide), hword 7 .r11 rfl]

/-- The child's frame is the parent's, but for the stack given to a thread, which
stands where `r14` does. -/
theorem cloneStack_frame (flags : UInt32) (stack : Word) (parentTop allocBase : ℕ) (mem : Bytes)
    (hroom : sysretFrameSize ≤ parentTop)
    (hfresh : parentTop ≤ allocBase ∨ childStackTop allocBase ≤ parentTop - sysretFrameSize) :
    Context.ofFrame (cloneStack flags stack parentTop allocBase mem)
        (childStackTop allocBase - sysretFrameSize) =
      let parent := Context.ofFrame mem (parentTop - sysretFrameSize)
      if GivesStack flags stack then { parent with r14 := stack } else parent := by
  have hsize : sysretFrameSize = 80 := rfl
  have hguard : kernelStackGuardPages * frameSize = 4096 := rfl
  have hstack : kernelStackSize = 65536 := rfl
  have htop : childStackTop allocBase = allocBase + 4096 + 65536 := rfl
  unfold cloneStack
  dsimp only
  generalize hcopied : Bytes.patch _ _ _ (Bytes.slice _ _) = copied
  have hbytes : ∀ i < sysretFrameSize, copied (childStackTop allocBase - sysretFrameSize + i) =
      mem (parentTop - sysretFrameSize + i) := by
    intro i hi
    rw [← hcopied, Bytes.patch_of_mem (by omega), Nat.add_sub_cancel_left, Bytes.slice,
      Bytes.patch_of_disjoint (by omega), Bytes.patch_of_disjoint (by omega),
      Bytes.patch_of_disjoint (by omega)]
  have hframe := Context.ofFrame_congr hbytes
  by_cases hgives : GivesStack flags stack
  · rw [if_pos hgives, if_pos hgives, ← hframe]
    unfold Context.ofFrame
    dsimp only
    -- only the word of `r14` is written, and the other eight are disjoint from it
    simp (disch := omega) only [StackMachine.wordAt_writeLe_same,
      StackMachine.wordAt_writeLe_of_disjoint]
  · rw [if_neg hgives, if_neg hgives, hframe]

/-! ## The child's context -/

/-- The parent is in `sys_clone` and the child starts: `mem` is the memory in the
call, in which the frame of the entry stub is as it was; the child's kernel stack
is newly allocated, and its frame is as `sys_clone` has left it. -/
structure Cloned (user child : Processor) (flags : UInt32) (stack : Word) where
  parentTop : ℕ
  parentTop_eq : (user.gsWords user.kernelGsBase).toNat = parentTop
  room : sysretFrameSize ≤ parentTop
  mem : Bytes
  frame_kept : ∀ i < sysretFrameSize, mem (parentTop - sysretFrameSize + i) =
    (user.run syscallEntry).mem (parentTop - sysretFrameSize + i)
  allocBase : ℕ
  fresh : parentTop ≤ allocBase ∨ childStackTop allocBase ≤ parentTop - sysretFrameSize
  allocBase_lt : childStackTop allocBase < 2 ^ 64
  rsp_eq : (child.regs .rsp).toNat = childStackTop allocBase - sysretFrameSize
  copy_kept : ∀ i < sysretFrameSize, child.mem (childStackTop allocBase - sysretFrameSize + i) =
    cloneStack flags stack parentTop allocBase mem (childStackTop allocBase - sysretFrameSize + i)

theorem Cloned.context_eq {user child : Processor} {flags : UInt32} {stack : Word}
    (h : Cloned user child flags stack) :
    (child.run cloneChildReturn).context =
      if GivesStack flags stack then { user.context with rax := 0, r14 := stack }
      else { user.context with rax := 0 } := by
  have htop : childStackTop h.allocBase = h.allocBase + 4096 + 65536 := rfl
  have hsize : sysretFrameSize = 80 := rfl
  have hlt := h.allocBase_lt
  rw [cloneChildReturn_context child _ h.rsp_eq (by omega), Context.ofFrame_congr h.copy_kept,
    cloneStack_frame flags stack _ _ _ h.room h.fresh, Context.ofFrame_congr h.frame_kept,
    entry_frame user _ h.room h.parentTop_eq]

/-- A child gets the context it is to have exactly when it is given no stack, or
when that stack is already in the parent's stack pointer and in its `r14`. -/
theorem clone_context_iff {user child : Processor} {flags : UInt32} {stack : Word}
    (h : Cloned user child flags stack) :
    (child.run cloneChildReturn).context = user.context.forChild flags stack ↔
      (GivesStack flags stack → user.regs .r14 = stack ∧ user.regs .rsp = stack) := by
  rw [h.context_eq, Context.forChild]
  by_cases hgives : GivesStack flags stack
  · rw [if_pos hgives, if_pos hgives]
    constructor
    · intro heq _
      simp only [Context.mk.injEq, true_and] at heq
      exact ⟨heq.1.symm, heq.2⟩
    · intro hsame
      obtain ⟨hr14, hrsp⟩ := hsame hgives
      simp only [Context.mk.injEq, true_and]
      exact ⟨hr14.symm, hrsp⟩
  · rw [if_neg hgives, if_neg hgives]
    exact ⟨fun _ hgiven => absurd hgiven hgives, fun _ => rfl⟩

/-- A user with the stack pointer `0x8000` that has just made a system call. -/
def callingUser : Processor where
  regs := fun r => if r = .rsp then 0x8000 else 7
  mem := Bytes.zero
  rip := 0
  rflags := 0
  gsBase := 0
  kernelGsBase := 0x100
  gsWords := fun _ => 0x10000
  interrupts := false
  ac := false

/-- Its child, on the kernel stack allocated at `0x20000`. -/
def startedChild (flags : UInt32) (stack : Word) : Processor :=
  { callingUser with
    regs := fun _ => .ofNat 64 (childStackTop 0x20000 - sysretFrameSize)
    mem := cloneStack flags stack 0x10000 0x20000 (callingUser.run syscallEntry).mem }

def clonedExample (flags : UInt32) (stack : Word) :
    Cloned callingUser (startedChild flags stack) flags stack where
  parentTop := 0x10000
  parentTop_eq := rfl
  room := by decide
  mem := (callingUser.run syscallEntry).mem
  frame_kept := fun _ _ => rfl
  allocBase := 0x20000
  fresh := .inl (by decide)
  allocBase_lt := by decide
  rsp_eq := rfl
  copy_kept := fun _ _ => rfl

/-- A forked process. -/
theorem clone_context_fork :
    ((startedChild 0 0).run cloneChildReturn).context = callingUser.context.forChild 0 0 :=
  (clone_context_iff (clonedExample 0 0)).mpr fun h => absurd rfl h.1

/-- A thread that is to run on a stack of its own runs on its parent's. -/
theorem clone_context_thread :
    ((startedChild cloneVm 0x7000).run cloneChildReturn).context ≠
        callingUser.context.forChild cloneVm 0x7000 ∧
      ((startedChild cloneVm 0x7000).run cloneChildReturn).context.rsp = 0x8000 ∧
      ((startedChild cloneVm 0x7000).run cloneChildReturn).context.r14 = 0x7000 := by
  rw [(clonedExample cloneVm 0x7000).context_eq, if_pos (by decide)]
  decide

end RacOS.Syscall
