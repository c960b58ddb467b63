import RacOS.Syscall.Machine

/-!
# The base registers at the entry of a system call

The two `gs` bases are exchanged on the way into the kernel and on the way back, and
no switch of tasks saves or restores them.  The schedule tells which of them holds the
address of `PER_CPU`: it is exchanged by every `swapgs`, and `user_entry_trampoline`
writes it.  So the entry stub finds `PER_CPU` as long as every switch goes to a task
whose place suits what was executed before.
-/

namespace RacOS.Syscall

/-- The pair of bases is as a task at this place needs it to go on. -/
def Place.Ready (perCpu gsBase kernelGsBase : ℕ) : Place → Prop
  | .kernel => True
  | .trampoline => True
  | .kernelGsBase => True
  | .iretq => kernelGsBase = perCpu
  | .ring3 => kernelGsBase = perCpu
  | .syscall _ _ => gsBase = perCpu
  | .childReturn => gsBase = perCpu
  | .sysretq => kernelGsBase = perCpu

namespace Machine

variable (perCpu : ℕ)

/-- The pair of bases is as the task in a slot needs it. -/
def ReadyFor (i : ℕ) (m : Machine) : Prop :=
  ∀ t, Slots.get m.threads i = some t → t.place.Ready perCpu m.gsBase m.kernelGsBase

/-- The pair of bases is as the running task needs it. -/
abbrev Ready (m : Machine) : Prop := m.ReadyFor perCpu m.current

/-- A switch finds the pair of bases as the incoming task needs it. -/
def ReadySwitch : MachineEvent → Machine → Prop
  | .switch next, m => m.ReadyFor perCpu next
  | .exit next, m => m.ReadyFor perCpu next
  | _, _ => True

variable {perCpu}

@[simp] theorem thread_modifyCurrent (f : Thread → Thread) (m : Machine) :
    (m.modifyCurrent f).thread = m.thread.map f := by
  simp [thread, modifyCurrent, Slots.get_modify]

@[simp] theorem current_modifyCurrent (f : Thread → Thread) (m : Machine) :
    (m.modifyCurrent f).current = m.current := rfl

@[simp] theorem gsBase_modifyCurrent (f : Thread → Thread) (m : Machine) :
    (m.modifyCurrent f).gsBase = m.gsBase := rfl

@[simp] theorem kernelGsBase_modifyCurrent (f : Thread → Thread) (m : Machine) :
    (m.modifyCurrent f).kernelGsBase = m.kernelGsBase := rfl

variable {m : Machine}

theorem readyFor_current :
    m.Ready perCpu ↔
      ∀ t, m.thread = some t → t.place.Ready perCpu m.gsBase m.kernelGsBase :=
  Iff.rfl

variable {t : Thread}

/-- After an update of the running task, the bases have to suit its new place. -/
theorem readyFor_modifyCurrent {f : Thread → Thread} (ht : m.thread = some t)
    (hready : (f t).place.Ready perCpu m.gsBase m.kernelGsBase) :
    (m.modifyCurrent f).Ready perCpu := by
  rw [readyFor_current]
  intro t' ht'
  rw [thread_modifyCurrent, ht] at ht'
  cases ht'
  exact hready

theorem gsBase_switchTo (perCpu next : ℕ) (m : Machine) :
    (m.switchTo perCpu next).gsBase = m.gsBase ∧
      (m.switchTo perCpu next).kernelGsBase = m.kernelGsBase ∧
        (m.switchTo perCpu next).threads = m.threads := by
  unfold switchTo
  split_ifs
  · exact ⟨rfl, rfl, rfl⟩
  · split
    · exact ⟨rfl, rfl, rfl⟩
    · dsimp only
      split_ifs <;> exact ⟨rfl, rfl, rfl⟩

theorem current_switchTo (perCpu next : ℕ) (m : Machine) :
    (m.switchTo perCpu next).current = m.current ∨ (m.switchTo perCpu next).current = next := by
  unfold switchTo
  split_ifs
  · exact Or.inl rfl
  · split
    · exact Or.inl rfl
    · exact Or.inr rfl

section Kept

variable (hm : m.Ready perCpu)

include hm

/-- A new task in an empty slot does not run yet. -/
theorem readyFor_place {m' : Machine}
    (ht : t.place = .trampoline ∨ t.place = .kernel ∨ m.thread ≠ none)
    (hthreads : m'.threads = Slots.place t m.threads) (hcurrent : m'.current = m.current)
    (hgs : m'.gsBase = m.gsBase) (hkernelGs : m'.kernelGsBase = m.kernelGsBase) :
    m'.Ready perCpu := by
  intro t' ht'
  rw [hthreads, hcurrent] at ht'
  rw [hgs, hkernelGs]
  rcases Slots.get_place_cases ht' with ⟨hslot, rfl⟩ | ht'
  · rcases ht with ht | ht | ht
    · rw [ht]
      trivial
    · rw [ht]
      trivial
    · exact absurd (by rw [thread, hslot, Slots.get_firstEmpty]) ht
  · exact hm t' ht'

theorem ready_addThread (ht : t.place = .trampoline ∨ t.place = .kernel) :
    (m.addThread t).Ready perCpu := by
  unfold addThread
  split
  · exact readyFor_place hm (ht.imp_right Or.inl) rfl rfl rfl rfl
  · exact hm

theorem ready_switchTo {next : ℕ} (hnext : m.ReadyFor perCpu next) :
    (m.switchTo perCpu next).Ready perCpu := by
  obtain ⟨hgs, hkernelGs, hthreads⟩ := gsBase_switchTo perCpu next m
  intro t ht
  rw [hthreads] at ht
  rw [hgs, hkernelGs]
  rcases current_switchTo perCpu next m with hcurrent | hcurrent
  · exact hm t (hcurrent ▸ ht)
  · exact hnext t (hcurrent ▸ ht)

theorem ready_exitTo {next : ℕ} (hnext : m.ReadyFor perCpu next) :
    (m.exitTo perCpu next).Ready perCpu := by
  have hready := ready_switchTo hm hnext
  unfold exitTo
  dsimp only
  split
  · exact hm
  · intro t ht
    simp only [Slots.get_clear] at ht
    split at ht
    · cases ht
    · exact hready t ht

theorem ready_advance (ht : m.thread = some t) : (m.advance perCpu t).Ready perCpu := by
  have hplace := hm t ht
  unfold advance
  split
  · exact readyFor_modifyCurrent ht trivial
  · exact readyFor_modifyCurrent ht rfl
  · rename_i hiretq
    rw [hiretq] at hplace
    exact readyFor_modifyCurrent ht hplace
  · rename_i hchild
    rw [hchild] at hplace
    exact readyFor_modifyCurrent ht hplace
  · rename_i hsysretq
    rw [hsysretq] at hplace
    exact readyFor_modifyCurrent ht hplace
  all_goals exact hm

theorem ready_ring3Step (ht : m.thread = some t) (hplace : t.place = .ring3) (e : MachineEvent) :
    (m.ring3Step t e).Ready perCpu := by
  have hready : m.kernelGsBase = perCpu := by
    have := hm t ht
    rwa [hplace] at this
  unfold ring3Step
  split
  · refine readyFor_modifyCurrent ht ?_
    dsimp only
    rw [hplace]
    exact hready
  · exact readyFor_modifyCurrent ht hready
  · exact hm

theorem ready_patchFrame (ht : m.thread = some t) {op : ℕ → SyscallFrame → Option SyscallFrame}
    {frame : ℕ} {saved : SyscallFrame} (hready : m.gsBase = perCpu) :
    (m.patchFrame op frame saved).Ready perCpu := by
  unfold patchFrame
  dsimp only
  split
  · exact hm
  · exact readyFor_modifyCurrent ht hready

theorem ready_syscallStep {frame : ℕ} {saved : SyscallFrame} (ht : m.thread = some t)
    (hplace : t.place = .syscall frame saved) (e : MachineEvent) :
    (m.syscallStep perCpu t frame saved e).Ready perCpu := by
  have hready : m.gsBase = perCpu := by
    have := hm t ht
    rwa [hplace] at this
  unfold syscallStep
  split
  · exact readyFor_modifyCurrent ht hready
  · exact ready_patchFrame hm ht hready
  · exact ready_patchFrame hm ht hready
  · split
    · exact readyFor_place hm (Or.inr (Or.inr (by simp [ht]))) rfl rfl rfl rfl
    · exact hm
  · split
    · rename_i stackTop regs _
      have hexec : (m.modifyCurrent fun _ => ⟨stackTop, .trampoline, regs⟩).ReadyFor perCpu
          m.current := readyFor_modifyCurrent ht trivial
      exact hexec
    · exact hm
  · exact hm

end Kept

theorem ready_step (e : MachineEvent) (m : Machine) (hm : m.Ready perCpu)
    (he : ReadySwitch perCpu e m) : (m.step perCpu e).Ready perCpu := by
  unfold step
  split
  · exact ready_switchTo hm he
  · exact ready_exitTo hm he
  · exact ready_addThread hm (Or.inl rfl)
  · exact ready_addThread hm (Or.inr rfl)
  · split
    · exact hm
    · rename_i t ht
      exact ready_advance hm ht
  · split
    · exact hm
    · rename_i t ht
      split
      · rename_i hplace
        exact ready_ring3Step hm ht hplace e
      · rename_i hplace
        exact ready_syscallStep hm ht hplace e
      · exact hm

theorem ready_boot (slot : ℕ) (areas : ℕ → PerCpuData) (frames : ℕ → SyscallFrame) :
    (boot perCpu slot areas frames).Ready perCpu := by
  intro t ht
  cases ht
  trivial

end Machine

/-! ## What the schedule tells -/

/-- Which of the two bases hold the address of `PER_CPU`, as far as the instructions
executed so far tell. -/
structure Holders where
  gs : Bool
  kernelGs : Bool

namespace Holders

def swapgs (h : Holders) : Holders := ⟨h.kernelGs, h.gs⟩

/-- What an event means for the bases, given the place of the running task. -/
def after (h : Holders) : MachineEvent → Option Place → Holders
  | .syscall, some .ring3 => h.swapgs
  | .sysret, some (.syscall _ _) => h.swapgs
  | .advance, some .childReturn => h.swapgs
  | .advance, some .kernelGsBase => { h with kernelGs := true }
  -- Ring 3 may set the base that it sees.
  | .compute _ _ _, some .ring3 => { h with gs := false }
  | _, _ => h

/-- A task at this place may go on: outside a system call, on the way to ring 3 or in
it, the base that the next `swapgs` brings holds the address, inside a call the one in
use. -/
def Suits (h : Holders) : Place → Bool
  | .kernel | .trampoline | .kernelGsBase => true
  | .iretq | .ring3 | .sysretq => h.kernelGs
  | .syscall _ _ | .childReturn => h.gs

/-- The machine's bases are as the schedule tells. -/
structure Sound (perCpu : ℕ) (h : Holders) (m : Machine) : Prop where
  gs : h.gs = true → m.gsBase = perCpu
  kernelGs : h.kernelGs = true → m.kernelGsBase = perCpu

variable {perCpu : ℕ} {h : Holders} {m m' : Machine} (hm : h.Sound perCpu m)

include hm

theorem Sound.of_same (hgs : m'.gsBase = m.gsBase) (hkernelGs : m'.kernelGsBase = m.kernelGsBase) :
    h.Sound perCpu m' :=
  ⟨fun hb => hgs.trans (hm.gs hb), fun hb => hkernelGs.trans (hm.kernelGs hb)⟩

theorem Sound.swapgs (hgs : m'.gsBase = m.kernelGsBase) (hkernelGs : m'.kernelGsBase = m.gsBase) :
    h.swapgs.Sound perCpu m' :=
  ⟨fun hb => hgs.trans (hm.kernelGs hb), fun hb => hkernelGs.trans (hm.gs hb)⟩

theorem Sound.ready {place : Place} (hsuits : h.Suits place = true) :
    place.Ready perCpu m.gsBase m.kernelGsBase := by
  cases place with
  | kernel | trampoline | kernelGsBase => trivial
  | iretq | ring3 | sysretq => exact hm.kernelGs hsuits
  | syscall | childReturn => exact hm.gs hsuits

theorem Sound.advance (t : Thread) :
    (h.after .advance (some t.place)).Sound perCpu (m.advance perCpu t) := by
  unfold Machine.advance
  cases t.place with
  | kernelGsBase => exact ⟨hm.gs, fun _ => rfl⟩
  | childReturn => exact hm.swapgs rfl rfl
  | trampoline | iretq | sysretq | kernel | ring3 | syscall => exact hm.of_same rfl rfl

theorem Sound.ring3Step (t : Thread) (e : MachineEvent) :
    (h.after e (some .ring3)).Sound perCpu (m.ring3Step t e) := by
  cases e with
  | compute => exact ⟨fun hb => Bool.noConfusion hb, hm.kernelGs⟩
  | syscall => exact hm.swapgs rfl rfl
  | advance | sysret | deliver | sigreturn | spawn | spawnKernel | fork | exec | switch | exit =>
    exact hm

theorem Sound.patchFrame (op : ℕ → SyscallFrame → Option SyscallFrame) (frame : ℕ)
    (saved : SyscallFrame) : h.Sound perCpu (m.patchFrame op frame saved) := by
  unfold Machine.patchFrame
  dsimp only
  split
  · exact hm
  · exact hm.of_same rfl rfl

theorem Sound.syscallStep (t : Thread) (frame : ℕ) (saved : SyscallFrame) (e : MachineEvent) :
    (h.after e (some (.syscall frame saved))).Sound perCpu
      (m.syscallStep perCpu t frame saved e) := by
  unfold Machine.syscallStep
  cases e with
  | sysret => exact hm.swapgs rfl rfl
  | deliver => exact hm.patchFrame _ _ _
  | sigreturn => exact hm.patchFrame _ _ _
  | fork =>
    dsimp only
    split <;> exact hm.of_same rfl rfl
  | exec =>
    dsimp only
    split <;> exact hm.of_same rfl rfl
  | advance | compute | syscall | spawn | spawnKernel | switch | exit => exact hm

end Holders

/-- The machine beside what its schedule tells. -/
structure Tracked where
  machine : Machine
  holders : Holders

namespace Tracked

open Machine

variable (perCpu : ℕ)

def step (e : MachineEvent) (s : Tracked) : Tracked where
  machine := s.machine.step perCpu e
  holders := s.holders.after e (s.machine.thread.map Thread.place)

/-- After boot `KERNEL_GS_BASE` holds the address. -/
def boot (slot : ℕ) (areas : ℕ → PerCpuData) (frames : ℕ → SyscallFrame) : Tracked where
  machine := Machine.boot perCpu slot areas frames
  holders := ⟨false, true⟩

/-- A switch goes to a task whose place suits what was executed before. -/
def SuitedSwitch : MachineEvent → Tracked → Prop
  | .switch next, s | .exit next, s =>
    ∀ t, Slots.get s.machine.threads next = some t → s.holders.Suits t.place = true
  | _, _ => True

variable {perCpu}

/-- One step, whatever it is, leaves the bases as the schedule tells. -/
theorem sound_step (e : MachineEvent) (s : Tracked) (hs : s.holders.Sound perCpu s.machine) :
    (s.step perCpu e).holders.Sound perCpu (s.step perCpu e).machine := by
  have hadd (t : Thread) : s.holders.Sound perCpu (s.machine.addThread t) := by
    unfold addThread
    split
    · exact hs.of_same rfl rfl
    · exact hs
  cases e with
  | switch next =>
    obtain ⟨hgs, hkernelGs, -⟩ := gsBase_switchTo perCpu next s.machine
    exact hs.of_same hgs hkernelGs
  | exit next =>
    obtain ⟨hgs, hkernelGs, -⟩ := gsBase_switchTo perCpu next s.machine
    change s.holders.Sound perCpu (s.machine.exitTo perCpu next)
    unfold exitTo
    dsimp only
    split
    · exact hs
    · exact hs.of_same hgs hkernelGs
  | spawn stackTop regs => exact hadd _
  | spawnKernel stackTop => exact hadd _
  | advance =>
    simp only [step, Machine.step]
    cases s.machine.thread with
    | none => exact hs
    | some t => exact hs.advance t
  | compute | syscall | sysret | deliver | sigreturn | fork | exec =>
    simp only [step, Machine.step]
    cases s.machine.thread with
    | none => exact hs
    | some t =>
      dsimp only [Option.map_some]
      cases t.place with
      | ring3 => exact hs.ring3Step t _
      | syscall frame saved => exact hs.syscallStep t frame saved _
      | kernel | trampoline | kernelGsBase | iretq | childReturn | sysretq => exact hs

/-- A switch that suits the schedule finds the bases as the incoming task needs them. -/
theorem readySwitch_of_suitedSwitch {e : MachineEvent} {s : Tracked}
    (hs : s.holders.Sound perCpu s.machine) (he : SuitedSwitch e s) :
    ReadySwitch perCpu e s.machine := by
  cases e with
  | switch next => exact fun t ht => hs.ready (he t ht)
  | exit next => exact fun t ht => hs.ready (he t ht)
  | spawn | spawnKernel | advance | compute | syscall | sysret | deliver | sigreturn | fork
  | exec => trivial

/-- The invariant of the runs whose switches suit the schedule: the bases are as the
schedule tells and as the running task needs them. -/
def Ready (perCpu : ℕ) (s : Tracked) : Prop :=
  s.holders.Sound perCpu s.machine ∧ s.machine.Ready perCpu

theorem ready_step (e : MachineEvent) (s : Tracked) (hs : s.Ready perCpu)
    (he : SuitedSwitch e s) : (s.step perCpu e).Ready perCpu :=
  ⟨sound_step e s hs.1, Machine.ready_step e s.machine hs.2 (readySwitch_of_suitedSwitch hs.1 he)⟩

theorem machine_run (events : List MachineEvent) (s : Tracked) :
    (Runs.run (step perCpu) events s).machine =
      Runs.run (Machine.step perCpu) events s.machine := by
  induction events generalizing s with
  | nil => rfl
  | cons e events ih => exact ih (s.step perCpu e)

end Tracked

namespace Machine

variable {perCpu : ℕ}

/-- Every `SYSCALL` finds `PER_CPU` behind the entry stub's `swapgs`, in every run whose
switches go to tasks whose places suit the instructions executed before. -/
theorem swapgs_finds_perCpu (slot : ℕ) (areas : ℕ → PerCpuData)
    (frames : ℕ → SyscallFrame) (events : List MachineEvent)
    (hrun : Runs.Along (Tracked.step perCpu) Tracked.SuitedSwitch events
      (.boot perCpu slot areas frames)) (t : Thread)
    (ht : (Runs.run (step perCpu) events (boot perCpu slot areas frames)).thread = some t)
    (hring3 : t.place = .ring3) :
    (Runs.run (step perCpu) events (boot perCpu slot areas frames)).swapgs.gsBase = perCpu := by
  have hboot : (Tracked.boot perCpu slot areas frames).Ready perCpu :=
    ⟨⟨fun hb => Bool.noConfusion hb, fun _ => rfl⟩, ready_boot slot areas frames⟩
  have hready := (Runs.invariant_of_along Tracked.ready_step hboot hrun).2
  rw [Tracked.machine_run] at hready
  have hplace := hready t ht
  rwa [hring3] at hplace

/-- A processor with `PER_CPU` at 0x1000, booted with the slot at 0x2000. -/
def bootExample : Machine := boot 0x1000 0x2000 (fun _ => default) (fun _ => default)

/-- Registers of a new image. -/
def imageRegs : UserRegs := ⟨0x400000, userRflags, 0x500800⟩

/-- Two tasks take turns in ring 3, and the first has made a system call. -/
def turnEvents : List MachineEvent :=
  [.spawn 0x10000 imageRegs, .spawn 0x20000 imageRegs, .switch 1, .advance, .advance, .advance,
    .syscall, .sysret, .switch 2, .advance, .advance, .advance, .switch 1]

theorem swapgs_finds_perCpu_turns :
    (Runs.run (step 0x1000) turnEvents bootExample).swapgs.gsBase = 0x1000 := by
  refine swapgs_finds_perCpu 0x2000 _ _ turnEvents ?_ _ rfl rfl
  refine ⟨trivial, trivial, fun t ht => ?_, trivial, trivial, trivial, trivial, trivial,
    fun t ht => ?_, trivial, trivial, trivial, fun t ht => ?_, trivial⟩
  all_goals
    cases ht
    rfl

/-- A task is preempted in ring 3, and the task switched to makes a system call that
yields. -/
def preemptEvents : List MachineEvent :=
  [.spawn 0x10000 imageRegs, .spawn 0x20000 imageRegs, .switch 1, .advance, .advance, .advance,
    .switch 2, .advance, .advance, .advance, .syscall, .switch 1]

/-- The first task resumes in ring 3 with the bases exchanged. -/
theorem swapgs_misses_perCpu :
    ∃ t, (Runs.run (step 0x1000) preemptEvents bootExample).thread = some t ∧
      t.place = .ring3 ∧
        (Runs.run (step 0x1000) preemptEvents bootExample).swapgs.gsBase = 0x2000 :=
  ⟨_, rfl, rfl, rfl⟩

end Machine

end RacOS.Syscall
