import Mathlib.Data.List.Basic
import Mathlib.Algebra.GroupWithZero.Nat
import RacOS.Syscall.CloneContext

/-!
# Interrupts on the way back to ring 3

The instruction sequences by which a task leaves the kernel: the end of `syscall_entry`, and
`fork_child_return`, `clone_child_return` and `user_entry_trampoline` behind the end of
`context_switch`.  An interrupt that arrives in ring 0 pushes its frame below the stack pointer,
whatever that is.  The end of a system call turns interrupts off before it takes the stack pointer
of the user from the frame; the return paths of children turn them on.
-/

namespace RacOS.Syscall

/-! ## The instructions -/

/-- Instructions that touch neither the stack pointer nor the interrupt flag. -/
inductive Inert
  | clac | swapgs | jmp | xorEax | xorEdx | movRaxRflags
  | movAx | movDs | movEs | movEcx | wrmsr | leaRax | movRdxRax | shrRdx
deriving DecidableEq

inductive ReturnInstr
  | inert (i : Inert)
  | cli
  | sti
  | addRsp (n : ℕ)
  | pushRax
  | popfq
  /-- Pop into a register other than the stack pointer and `r11`. -/
  | pop
  | popR11
  | popRsp
  | sysretq
  | iretq
deriving DecidableEq

/-- The part of the processor that decides where an interrupt frame goes. -/
structure ReturnState where
  rsp : ℕ
  rax : ℕ
  r11 : ℕ
  /-- The words of the kernel stack, by address. -/
  word : ℕ → ℕ
  interrupts : Bool
  /-- `sti` holds interrupts back for one more instruction. -/
  shadow : Bool
  ring3 : Bool
  /-- History: the stack pointer was taken from the saved registers of the user. -/
  userRsp : Bool

/-- The interrupt flag in a word of flags. -/
def interruptFlag (flags : ℕ) : Bool := flags.testBit 9

namespace ReturnState

/-- The effect of an instruction other than on the shadow of `sti`. -/
def effect (s : ReturnState) : ReturnInstr → ReturnState
  | .inert _ => s
  | .cli => { s with interrupts := false }
  | .sti => { s with interrupts := true }
  | .addRsp n => { s with rsp := s.rsp + n }
  | .pushRax =>
    { s with rsp := s.rsp - 8, word := Function.update s.word (s.rsp - 8) s.rax }
  | .popfq => { s with interrupts := interruptFlag (s.word s.rsp), rsp := s.rsp + 8 }
  | .pop => { s with rsp := s.rsp + 8 }
  | .popR11 => { s with r11 := s.word s.rsp, rsp := s.rsp + 8 }
  | .popRsp => { s with rsp := s.word s.rsp, userRsp := true }
  | .sysretq => { s with interrupts := interruptFlag s.r11, ring3 := true }
  | .iretq =>
    { s with
      interrupts := interruptFlag (s.word (s.rsp + 16))
      rsp := s.word (s.rsp + 24)
      userRsp := true
      ring3 := true }

def exec (s : ReturnState) (i : ReturnInstr) : ReturnState :=
  { s.effect i with shadow := decide (i = .sti) && !s.interrupts }

/-- A device interrupt can arrive before the next instruction. -/
def Interruptible (s : ReturnState) : Prop := s.interrupts = true ∧ s.shadow = false

/-- The states at the boundaries of the instructions. -/
def boundaries : ReturnState → List ReturnInstr → List ReturnState
  | s, [] => [s]
  | s, i :: code => s :: boundaries (s.exec i) code

end ReturnState

/-! ## The return paths -/

inductive ReturnPath
  | syscallExit
  | forkChild
  | cloneChild
  | firstEntry
deriving DecidableEq

/-- `context_switch` from the load of the new stack pointer on. -/
def contextSwitchEnd : List ReturnInstr := [.inert .movRaxRflags, .pushRax, .popfq, .inert .jmp]

/-- The pops of the callee-saved registers. -/
def popCalleeSaved : List ReturnInstr := List.replicate 6 .pop

/-- `syscall_entry` behind the call of the dispatcher. -/
def syscallExitCode : List ReturnInstr :=
  [.inert .clac, .addRsp 8] ++ popCalleeSaved ++
    [.cli, .pop, .popR11, .popRsp, .inert .swapgs, .sysretq]

/-- `fork_child_return` and `clone_child_return`. -/
def childReturnCode : List ReturnInstr :=
  [.inert .xorEax, .sti, .addRsp 8] ++ popCalleeSaved ++
    [.pop, .popR11, .popRsp, .inert .swapgs, .sysretq]

/-- What an instruction of the naked functions does on a return path. -/
def Instr.onReturn : Instr → Option ReturnInstr
  | .swapgs => some (.inert .swapgs)
  | .xorEax => some (.inert .xorEax)
  | .sti => some .sti
  | .addRsp n => some (.addRsp n.toNat)
  | .pop .rsp => some .popRsp
  | .pop .r11 => some .popR11
  | .pop _ => some .pop
  | .sysretq => some .sysretq
  | _ => none

/-- This is the code that gives a cloned child its context. -/
theorem cloneChildReturn_onReturn :
    cloneChildReturn.mapM Instr.onReturn = some childReturnCode := by
  decide

/-- `user_entry_trampoline`. -/
def userEntryTrampoline : List ReturnInstr :=
  [.movAx, .movDs, .movEs, .xorEax, .xorEdx, .movEcx, .wrmsr, .leaRax, .movRdxRax, .shrRdx,
    .movEcx, .wrmsr].map .inert ++ [.iretq]

namespace ReturnPath

def code : ReturnPath → List ReturnInstr
  | syscallExit => syscallExitCode
  | forkChild => contextSwitchEnd ++ childReturnCode
  | cloneChild => contextSwitchEnd ++ childReturnCode
  | firstEntry => contextSwitchEnd ++ userEntryTrampoline

/-- The size of the frame that a path finds at the top of the kernel stack. -/
def frameSize : ReturnPath → ℕ
  | syscallExit => 80
  | forkChild => 80
  | cloneChild => 80
  | firstEntry => 40

/-- The flags that a new task starts with. -/
def defaultRflags : ℕ := 0x202

/-- The state in which a path begins, with any frame and any other registers.  A new task is
reached from the scheduler, which has interrupts disabled, with `DEFAULT_RFLAGS` in its context; a
call may have left interrupts enabled or disabled. -/
def start (path : ReturnPath) (stackTop : ℕ) (word : ℕ → ℕ) (r11 rax : ℕ) (interrupts : Bool) :
    ReturnState where
  rsp := stackTop - path.frameSize
  rax := if path = syscallExit then rax else defaultRflags
  r11 := r11
  word := word
  interrupts := path == syscallExit && interrupts
  shadow := false
  ring3 := false
  userRsp := false

end ReturnPath

/-- The kernel stack of a task. -/
structure KernelStack where
  base : ℕ
  top : ℕ
  size : base + 65536 = top

/-- The words that an interrupt pushes from a stack pointer on, which the processor aligns first. -/
def interruptFrame (rsp : ℕ) : List ℕ := [1, 2, 3, 4, 5].map fun k => rsp / 16 * 16 - 8 * k

/-- An interrupt at this boundary is taken in ring 3, or its frame goes to the kernel stack of the
task and not to an address from the saved registers. -/
def SafeAt (stack : KernelStack) (s : ReturnState) : Prop :=
  s.Interruptible → s.ring3 = true ∨
    s.userRsp = false ∧ ∀ addr ∈ interruptFrame s.rsp, stack.base ≤ addr ∧ addr + 8 ≤ stack.top

/-- Interrupts are safe at every boundary of a path. -/
def InterruptSafe (path : ReturnPath) (stack : KernelStack) (word : ℕ → ℕ) (r11 rax : ℕ)
    (interrupts : Bool) : Prop :=
  ∀ s ∈ (path.start stack.top word r11 rax interrupts).boundaries path.code, SafeAt stack s

/-! ## Where interrupts are safe -/

variable {stack : KernelStack} {s : ReturnState}

/-- A stack pointer in the upper part of the kernel stack has room for a frame. -/
theorem safeAt_of_rsp (huser : s.userRsp = false) (hlow : stack.base + 64 ≤ s.rsp)
    (hhigh : s.rsp ≤ stack.top) : SafeAt stack s := by
  refine fun _ => .inr ⟨huser, fun addr haddr => ?_⟩
  simp only [interruptFrame, List.map_cons, List.map_nil, List.mem_cons, List.not_mem_nil,
    or_false] at haddr
  omega

theorem safeAt_of_interrupts (h : s.interrupts = false) : SafeAt stack s := by
  rintro ⟨hon, -⟩
  rw [h] at hon
  cases hon

theorem safeAt_of_ring3 (h : s.ring3 = true) : SafeAt stack s := fun _ => .inl h

/-- Instructions that leave the stack pointer on the kernel stack, with the change they make. -/
def moved : ReturnInstr → Option ℤ
  | .inert _ | .cli | .sti => some 0
  | .pushRax => some (-8)
  | .addRsp n => some n
  | .popfq | .pop | .popR11 => some 8
  | .popRsp | .sysretq | .iretq => none

/-- The stack pointer is one of the kernel stack, the given number of bytes below its top. -/
structure Below (stack : KernelStack) (depth : ℤ) (s : ReturnState) : Prop where
  userRsp : s.userRsp = false
  rsp : (s.rsp : ℤ) = stack.top - depth

theorem Below.safeAt {depth : ℤ} (h : Below stack depth s) (hpos : 0 ≤ depth)
    (hdeep : depth ≤ 1024) : SafeAt stack s := by
  have hsize := stack.size
  have hrsp := h.rsp
  exact safeAt_of_rsp h.userRsp (by omega) (by omega)

theorem Below.exec {depth change : ℤ} {i : ReturnInstr} (h : Below stack depth s)
    (hdeep : depth ≤ 1024) (hi : moved i = some change) :
    Below stack (depth - change) (s.exec i) := by
  have hsize := stack.size
  have hrsp := h.rsp
  have huser := h.userRsp
  cases i <;> simp only [moved, Option.some.injEq, reduceCtorEq] at hi <;>
    exact ⟨huser, by simp only [ReturnState.exec, ReturnState.effect]; omega⟩

/-- The depth after instructions that leave the stack pointer on the kernel stack. -/
def depthAfter : ℤ → List ReturnInstr → Option ℤ
  | depth, [] => if 0 ≤ depth ∧ depth ≤ 1024 then some depth else none
  | depth, i :: code =>
    if 0 ≤ depth ∧ depth ≤ 1024 then
      (moved i).bind fun change => depthAfter (depth - change) code
    else none

/-- As long as the stack pointer is one of the kernel stack, interrupts are safe. -/
theorem Below.boundaries {depth depth' : ℤ} {code : List ReturnInstr} (h : Below stack depth s)
    (hcode : depthAfter depth code = some depth') :
    (∀ t ∈ s.boundaries code, SafeAt stack t) ∧
      Below stack depth' (code.foldl ReturnState.exec s) := by
  induction code generalizing s depth with
  | nil =>
    rw [depthAfter, Option.ite_none_right_eq_some] at hcode
    obtain ⟨hdepth, hcode⟩ := hcode
    obtain rfl := Option.some.inj hcode
    refine ⟨fun t ht => ?_, h⟩
    rw [List.mem_singleton.mp ht]
    exact h.safeAt hdepth.1 hdepth.2
  | cons i code ih =>
    rw [depthAfter, Option.ite_none_right_eq_some] at hcode
    obtain ⟨hdepth, hcode⟩ := hcode
    obtain ⟨change, hmoved, hcode⟩ := Option.bind_eq_some_iff.mp hcode
    obtain ⟨hsafe, hend⟩ := ih (h.exec hdepth.2 hmoved) hcode
    refine ⟨fun t ht => ?_, hend⟩
    rcases List.mem_cons.mp ht with rfl | ht
    · exact h.safeAt hdepth.1 hdepth.2
    · exact hsafe t ht

theorem mem_boundaries_append {code rest : List ReturnInstr} {s t : ReturnState} :
    t ∈ s.boundaries (code ++ rest) ↔
      t ∈ s.boundaries code ∨ t ∈ (code.foldl ReturnState.exec s).boundaries rest := by
  induction code generalizing s with
  | nil =>
    cases rest with
    | nil => simp [ReturnState.boundaries]
    | cons i rest => simp [ReturnState.boundaries]
  | cons i code ih =>
    simp only [List.cons_append, ReturnState.boundaries, List.mem_cons, ih, List.foldl_cons,
      or_assoc]

theorem foldl_mem_boundaries (code : List ReturnInstr) (s : ReturnState) :
    code.foldl ReturnState.exec s ∈ s.boundaries code := by
  induction code generalizing s with
  | nil => exact List.mem_singleton.mpr rfl
  | cons i code ih => exact List.mem_cons_of_mem _ (ih (s.exec i))

variable (path : ReturnPath) (stack : KernelStack) (word : ℕ → ℕ) (r11 rax : ℕ) (interrupts : Bool)

theorem below_start :
    Below stack path.frameSize (path.start stack.top word r11 rax interrupts) := by
  have hsize := stack.size
  refine ⟨rfl, ?_⟩
  simp only [ReturnPath.start]
  cases path <;> simp only [ReturnPath.frameSize] <;> omega

/-- The end of a system call takes the user's stack pointer with interrupts off. -/
theorem syscallExit_safe :
    InterruptSafe .syscallExit stack word r11 rax interrupts := by
  obtain ⟨hsafe, -⟩ := (below_start .syscallExit stack word r11 rax interrupts).boundaries
    (show depthAfter 80 ([.inert .clac, .addRsp 8] ++ popCalleeSaved ++ [.cli]) = some 24 by
      decide)
  intro t ht
  have hsplit : ReturnPath.syscallExit.code =
      ([.inert .clac, .addRsp 8] ++ popCalleeSaved ++ [.cli]) ++
        [.pop, .popR11, .popRsp, .inert .swapgs, .sysretq] := rfl
  rw [hsplit, mem_boundaries_append, List.foldl_concat] at ht
  rcases ht with ht | ht
  · exact hsafe t ht
  · generalize List.foldl ReturnState.exec _ _ = s at ht
    have hoff : (s.exec .cli).interrupts = false := rfl
    generalize s.exec .cli = s at ht hoff
    simp only [ReturnState.boundaries, List.mem_cons, List.not_mem_nil, or_false] at ht
    rcases ht with rfl | rfl | rfl | rfl | rfl | rfl
    · exact safeAt_of_interrupts hoff
    · exact safeAt_of_interrupts hoff
    · exact safeAt_of_interrupts hoff
    · exact safeAt_of_interrupts hoff
    · exact safeAt_of_interrupts hoff
    · exact safeAt_of_ring3 rfl

/-- The first entry leaves the kernel stack and ring 0 in one instruction. -/
theorem firstEntry_safe :
    InterruptSafe .firstEntry stack word r11 rax interrupts := by
  obtain ⟨hsafe, -⟩ := (below_start .firstEntry stack word r11 rax interrupts).boundaries
    (show depthAfter 40 (ReturnPath.firstEntry.code.take 16) = some 40 by decide)
  intro t ht
  rw [← List.take_append_drop 16 ReturnPath.firstEntry.code, mem_boundaries_append] at ht
  rcases ht with ht | ht
  · exact hsafe t ht
  · have hlast : ReturnPath.firstEntry.code.drop 16 = [.iretq] := rfl
    rw [hlast, ReturnState.boundaries, List.mem_cons] at ht
    rcases ht with rfl | ht
    · exact hsafe _ (foldl_mem_boundaries _ _)
    · rw [List.mem_singleton.mp ht]
      exact safeAt_of_ring3 rfl

/-- A child's return up to its pops, and the pops. -/
def childPrologue : List ReturnInstr := contextSwitchEnd ++ [.inert .xorEax, .sti, .addRsp 8]

def childPops : List ReturnInstr := popCalleeSaved ++ [.pop, .popR11, .popRsp]

theorem foldl_childPops (s : ReturnState) : childPops.foldl ReturnState.exec s =
    { s with
      rsp := s.word (s.rsp + 8 + 8 + 8 + 8 + 8 + 8 + 8 + 8)
      r11 := s.word (s.rsp + 8 + 8 + 8 + 8 + 8 + 8 + 8), shadow := false, userRsp := true } := rfl

/-- A child takes the user's stack pointer with interrupts on. -/
theorem child_unsafe (hpath : path = .forkChild ∨ path = .cloneChild) :
    ∃ t ∈ (path.start stack.top word r11 rax interrupts).boundaries path.code,
      t.Interruptible ∧ t.ring3 = false ∧ t.userRsp = true ∧ t.rsp = word (stack.top - 8) := by
  have hsize := stack.size
  have hcode : path.code = childPrologue ++ childPops ++ [.inert .swapgs, .sysretq] := by
    rcases hpath with rfl | rfl <;> rfl
  have hstart : childPrologue.foldl ReturnState.exec
      (path.start stack.top word r11 rax interrupts) =
      { path.start stack.top word r11 rax interrupts with
        rsp := stack.top - 80 - 8 + 8 + 8, rax := ReturnPath.defaultRflags, interrupts := true
        word := Function.update word (stack.top - 80 - 8) ReturnPath.defaultRflags } := by
    rcases hpath with rfl | rfl <;> rfl
  have hmem := foldl_mem_boundaries (childPrologue ++ childPops)
    (path.start stack.top word r11 rax interrupts)
  refine ⟨_, by rw [hcode, mem_boundaries_append]; exact .inl hmem, ?_⟩
  rw [List.foldl_append, hstart, foldl_childPops]
  refine ⟨⟨rfl, rfl⟩, rfl, rfl, ?_⟩
  -- the word pushed by the switch is far below the saved stack pointer
  dsimp only
  rw [Function.update_of_ne (by omega)]
  congr 1
  omega

/-- Whatever the saved frame, interrupts are safe at every boundary exactly on the paths of a system
call and of a first entry. -/
theorem interruptSafe_iff :
    InterruptSafe path stack word r11 rax interrupts ↔
      path = .syscallExit ∨ path = .firstEntry := by
  constructor
  · intro hsafe
    by_contra hpath
    have hchild : path = .forkChild ∨ path = .cloneChild := by
      cases path <;> simp at hpath ⊢
    obtain ⟨t, ht, hint, hring, huser, -⟩ := child_unsafe path stack word r11 rax interrupts hchild
    rcases hsafe t ht hint with h | ⟨h, -⟩
    · rw [hring] at h
      cases h
    · rw [huser] at h
      cases h
  · rintro (rfl | rfl)
    · exact syscallExit_safe stack word r11 rax interrupts
    · exact firstEntry_safe stack word r11 rax interrupts

/-- A kernel stack, and a saved user stack pointer of `0x7000`. -/
def childStack : KernelStack := ⟨0x10000, 0x20000, rfl⟩

def childFrame : ℕ → ℕ := Function.update (fun _ => 0) 0x1FFF8 0x7000

/-- An interrupt before the `swapgs` of a forked child is pushed below `0x7000`. -/
theorem not_interruptSafe_forkChild :
    ¬InterruptSafe .forkChild childStack childFrame 0 0 true ∧
      ∃ t ∈ (ReturnPath.forkChild.start childStack.top childFrame 0 0 true).boundaries
          ReturnPath.forkChild.code,
        t.Interruptible ∧ t.ring3 = false ∧ t.rsp = 0x7000 := by
  obtain ⟨t, ht, hint, hring, huser, hrsp⟩ :=
    child_unsafe .forkChild childStack childFrame 0 0 true (.inl rfl)
  refine ⟨fun hsafe => ?_, t, ht, hint, hring, hrsp.trans rfl⟩
  rcases hsafe t ht hint with h | ⟨h, -⟩
  · rw [hring] at h
    cases h
  · rw [huser] at h
    cases h

end RacOS.Syscall
