import RacOS.Syscall.KernelEntry

/-!
# Whose frame a signal patches

Signal delivery and `sys_sigreturn` find the saved registers of the running task
through the one pointer in `PER_CPU` that every system call of every task overwrites.
It names the running task's own frame as long as no other task has entered a system
call since.
-/

namespace RacOS.Syscall

/-- The event runs `try_deliver_user_handler` or `sys_sigreturn`. -/
def MachineEvent.isSignal : MachineEvent → Bool
  | .deliver _ _ _ _ => true
  | .sigreturn _ => true
  | _ => false

namespace Machine

variable (perCpu : ℕ)

/-- The triple that signal delivery and `sys_sigreturn` read and overwrite is the one
that the running task's current system call has pushed, as its own calls have left it. -/
def PatchesOwnFrame (m : Machine) : Prop :=
  ∀ t frame saved, m.thread = some t → t.place = .syscall frame saved →
    m.readSyscallFramePtr = frame ∧ m.frames frame = saved

/-- A signal is delivered or returned from only when no other task has entered a system
call since the running task's current one, and switches suit the base registers. -/
def Undisturbed : MachineEvent → Machine → Prop
  | .deliver _ _ _ _, m => m.lastEntry = some m.current
  | .sigreturn _, m => m.lastEntry = some m.current
  | e, m => ReadySwitch perCpu e m

/-- Every task inside a system call has its triple at the top of its own stack, and the
pointer names the triple of the task that entered last. -/
structure Framed (m : Machine) : Prop where
  running : m.thread ≠ none
  ready : m.Ready perCpu
  distinct : ∀ i j t u, Slots.get m.threads i = some t → Slots.get m.threads j = some u →
    t.stackTop = u.stackTop → i = j
  tall : ∀ i t, Slots.get m.threads i = some t → t.place = .kernel ∨ 24 ≤ t.stackTop
  kernelRsp : ∀ t, m.thread = some t → t.stackTop ≠ 0 → (m.areas perCpu).kernelRsp = t.stackTop
  own : ∀ i t frame saved, Slots.get m.threads i = some t →
    t.place = .syscall frame saved → frame = frameAddr t.stackTop ∧ m.frames frame = saved
  last : ∀ i t frame saved, m.lastEntry = some i → Slots.get m.threads i = some t →
    t.place = .syscall frame saved → (m.areas perCpu).syscallFramePtr = frame

namespace Framed

variable {perCpu} {m m' : Machine} {t : Thread} {i stackTop : ℕ} {f : Thread → Thread}

theorem get_modify_cases {t u : Thread} (ht : m.thread = some t)
    (h : Slots.get (Slots.modify m.current f m.threads) i = some u) :
    i = m.current ∧ u = f t ∨ i ≠ m.current ∧ Slots.get m.threads i = some u := by
  rw [Slots.get_modify] at h
  by_cases hi : m.current = i
  · subst hi
    have hthread : Slots.get m.threads m.current = some t := ht
    rw [if_pos rfl, hthread] at h
    cases h
    exact Or.inl ⟨rfl, rfl⟩
  · rw [if_neg hi] at h
    exact Or.inr ⟨Ne.symm hi, h⟩

/-- The allocator gives a stack that no task has. -/
theorem stackTop_ne_of_freshStack (hfresh : m.freshStack stackTop = true)
    (ht : Slots.get m.threads i = some t) : t.stackTop ≠ stackTop := by
  simp only [freshStack, Bool.and_eq_true] at hfresh
  simpa using Slots.all_get hfresh.2 ht

theorem le_of_freshStack (hfresh : m.freshStack stackTop = true) : 24 ≤ stackTop := by
  simp only [freshStack, Bool.and_eq_true, decide_eq_true_eq] at hfresh
  exact hfresh.1

section Kept

variable (hm : m.Framed perCpu)

include hm

/-- Inside an undisturbed call, the pointer names the caller's frame. -/
theorem patchesOwnFrame (hlast : m.lastEntry = some m.current) : m.PatchesOwnFrame := by
  intro t frame saved ht hplace
  have hgs : m.gsBase = perCpu := by
    have := hm.ready t ht
    rwa [hplace] at this
  refine ⟨?_, (hm.own m.current t frame saved ht hplace).2⟩
  rw [readSyscallFramePtr, hgs]
  exact hm.last m.current t frame saved hlast ht hplace

theorem tall_of_thread (ht : m.thread = some t) (hplace : t.place ≠ .kernel) : 24 ≤ t.stackTop :=
  (hm.tall m.current t ht).resolve_left hplace

/-- The triples of two tasks lie apart. -/
theorem frameAddr_ne {t u : Thread} (ht : m.thread = some t) (hplace : t.place ≠ .kernel)
    (hi : i ≠ m.current) (hu : Slots.get m.threads i = some u) (huplace : u.place ≠ .kernel) :
    frameAddr u.stackTop ≠ frameAddr t.stackTop := by
  intro heq
  have htall := hm.tall_of_thread ht hplace
  have hutall := (hm.tall i u hu).resolve_left huplace
  unfold frameAddr at heq
  exact hi (hm.distinct i m.current u t hu ht (by omega))

/-- A step of the running task that keeps its stack and changes no other triple. -/
theorem ofCurrent (ht : m.thread = some t) (hplace : t.place ≠ .kernel)
    (hstack : (f t).stackTop = t.stackTop)
    (hthreads : m'.threads = Slots.modify m.current f m.threads)
    (hcurrent : m'.current = m.current) (hready : m'.Ready perCpu)
    (hrsp : (m'.areas perCpu).kernelRsp = (m.areas perCpu).kernelRsp)
    (hframes : ∀ a, a ≠ frameAddr t.stackTop → m'.frames a = m.frames a)
    (hown : ∀ frame saved, (f t).place = .syscall frame saved →
      frame = frameAddr t.stackTop ∧ m'.frames frame = saved ∧
        (m'.lastEntry = some m.current → (m'.areas perCpu).syscallFramePtr = frame))
    (hlast : ∀ i, i ≠ m.current → m'.lastEntry = some i → m.lastEntry = some i ∧
      (m'.areas perCpu).syscallFramePtr = (m.areas perCpu).syscallFramePtr) : m'.Framed perCpu := by
  have hget (i : ℕ) (t' : Thread) (h : Slots.get m'.threads i = some t') :
      i = m.current ∧ t' = f t ∨ i ≠ m.current ∧ Slots.get m.threads i = some t' :=
    get_modify_cases ht (hthreads ▸ h)
  have hrunning : m'.thread ≠ none := by
    have hthread : Slots.get m.threads m.current = some t := ht
    simp [thread, hthreads, hcurrent, Slots.get_modify, hthread]
  refine ⟨hrunning, hready, ?_, ?_, ?_, ?_, ?_⟩
  · intro i j u v hu hv huv
    rcases hget i u hu with ⟨rfl, rfl⟩ | ⟨-, hu⟩ <;> rcases hget j v hv with ⟨rfl, rfl⟩ | ⟨-, hv⟩
    · rfl
    · exact hm.distinct _ _ _ _ ht hv (hstack.symm.trans huv)
    · exact hm.distinct _ _ _ _ hu ht (huv.trans hstack)
    · exact hm.distinct _ _ _ _ hu hv huv
  · intro i u hu
    rcases hget i u hu with ⟨rfl, rfl⟩ | ⟨-, hu⟩
    · exact Or.inr (hstack ▸ hm.tall_of_thread ht hplace)
    · exact hm.tall i u hu
  · intro u hu hne
    rw [thread, hcurrent] at hu
    rcases hget m.current u hu with ⟨-, rfl⟩ | ⟨hne', -⟩
    · rw [hrsp, hstack]
      exact hm.kernelRsp t ht (hstack ▸ hne)
    · exact absurd rfl hne'
  · intro i u frame saved hu hsyscall
    rcases hget i u hu with ⟨rfl, rfl⟩ | ⟨hi, hu⟩
    · exact ⟨hstack ▸ (hown frame saved hsyscall).1, (hown frame saved hsyscall).2.1⟩
    · obtain ⟨haddr, hsaved⟩ := hm.own i u frame saved hu hsyscall
      have hapart := hm.frameAddr_ne ht hplace hi hu (by simp [hsyscall])
      exact ⟨haddr, (hframes frame (haddr ▸ hapart)).trans hsaved⟩
  · intro i u frame saved hentry hu hsyscall
    rcases hget i u hu with ⟨rfl, rfl⟩ | ⟨hi, hu⟩
    · exact (hown frame saved hsyscall).2.2 hentry
    · obtain ⟨hentry', hptr⟩ := hlast i hi hentry
      exact hptr.trans (hm.last i u frame saved hentry' hu hsyscall)

/-- A move of the running task to a place outside system calls. -/
theorem moved (ht : m.thread = some t) (hplace : t.place ≠ .kernel)
    (hstack : (f t).stackTop = t.stackTop)
    (hout : ∀ frame saved, (f t).place ≠ .syscall frame saved)
    (hthreads : m'.threads = Slots.modify m.current f m.threads)
    (hcurrent : m'.current = m.current) (hready : m'.Ready perCpu) (hareas : m'.areas = m.areas)
    (hframes : m'.frames = m.frames) (hlast : m'.lastEntry = m.lastEntry) : m'.Framed perCpu :=
  hm.ofCurrent ht hplace hstack hthreads hcurrent hready (by rw [hareas])
    (fun a _ => by rw [hframes]) (fun frame saved h => absurd h (hout frame saved))
    (fun i _ h => ⟨hlast ▸ h, by rw [hareas]⟩)

theorem advance (ht : m.thread = some t) : (m.advance perCpu t).Framed perCpu := by
  have hready := ready_advance hm.ready ht
  revert hready
  unfold Machine.advance
  cases hplace : t.place with
  | kernel => exact fun _ => hm
  | ring3 => exact fun _ => hm
  | syscall frame saved => exact fun _ => hm
  | childReturn =>
    intro hready
    exact hm.moved ht (by simp [hplace]) rfl (by simp [Thread.resume]) rfl rfl hready rfl rfl rfl
  | trampoline | kernelGsBase | iretq | sysretq =>
    intro hready
    exact hm.moved ht (by simp [hplace]) rfl (by simp [Thread.moveTo]) rfl rfl hready rfl rfl rfl

/-- The entry stub pushes its triple at the top of the caller's stack. -/
theorem syscallEntry (ht : m.thread = some t) (hplace : t.place = .ring3)
    (hready : (m.syscallEntry t.regs).Ready perCpu) : (m.syscallEntry t.regs).Framed perCpu := by
  have hgs : m.kernelGsBase = perCpu := by
    have := hm.ready t ht
    rwa [hplace] at this
  have htall := hm.tall_of_thread ht (by simp [hplace])
  have hrsp : (m.areas perCpu).kernelRsp = t.stackTop := hm.kernelRsp t ht (by omega)
  refine hm.ofCurrent ht (by simp [hplace]) rfl rfl rfl hready ?_ ?_ ?_ ?_
  · simp [Machine.syscallEntry, modifyCurrent, swapgs, hgs]
  · intro a ha
    simp [Machine.syscallEntry, modifyCurrent, swapgs, hgs, hrsp, Function.update_of_ne ha]
  · intro frame saved h
    simp only [Thread.moveTo, Place.syscall.injEq] at h
    obtain ⟨rfl, rfl⟩ := h
    simp [Machine.syscallEntry, modifyCurrent, swapgs, hgs, hrsp]
  · intro i hi hentry
    simp only [Machine.syscallEntry, modifyCurrent, swapgs, Option.some.injEq] at hentry
    exact absurd hentry.symm hi

theorem ring3Step (ht : m.thread = some t) (hplace : t.place = .ring3) (e : MachineEvent) :
    (m.ring3Step t e).Framed perCpu := by
  have hready := ready_ring3Step hm.ready ht hplace e
  revert hready
  unfold Machine.ring3Step
  split
  · intro hready
    exact hm.moved ht (by simp [hplace]) rfl (by simp [hplace]) rfl rfl hready rfl rfl rfl
  · intro hready
    exact hm.syscallEntry ht hplace hready
  · exact fun _ => hm

theorem patchFrame (ht : m.thread = some t) {op : ℕ → SyscallFrame → Option SyscallFrame}
    {frame : ℕ} {saved : SyscallFrame} (hplace : t.place = .syscall frame saved)
    (hlast : m.lastEntry = some m.current) : (m.patchFrame op frame saved).Framed perCpu := by
  have hgs : m.gsBase = perCpu := by
    have := hm.ready t ht
    rwa [hplace] at this
  have hready : (m.patchFrame op frame saved).Ready perCpu := ready_patchFrame hm.ready ht hgs
  obtain ⟨hptr, hsaved⟩ := hm.patchesOwnFrame hlast t frame saved ht hplace
  obtain ⟨haddr, -⟩ := hm.own m.current t frame saved ht hplace
  revert hready
  unfold Machine.patchFrame
  dsimp only
  rw [hptr, hsaved]
  cases hop : op frame saved with
  | none => exact fun _ => hm
  | some patched =>
    intro hready
    refine hm.ofCurrent ht (by simp [hplace]) rfl rfl rfl hready rfl ?_ ?_ ?_
    · intro a ha
      exact Function.update_of_ne (haddr ▸ ha) _ _
    · intro frame' saved' h
      simp only [Thread.moveTo, Option.getD_some, Place.syscall.injEq] at h
      obtain ⟨rfl, rfl⟩ := h
      exact ⟨haddr, Function.update_self _ _ _, fun _ =>
        hm.last m.current t frame saved hlast ht hplace⟩
    · intro i hi hentry
      exact ⟨hentry, rfl⟩

theorem placed (hfresh : m.freshStack t.stackTop = true)
    (hout : ∀ frame saved, t.place ≠ .syscall frame saved)
    (hthreads : m'.threads = Slots.place t m.threads) (hcurrent : m'.current = m.current)
    (hgs : m'.gsBase = m.gsBase) (hkernelGs : m'.kernelGsBase = m.kernelGsBase)
    (hareas : m'.areas = m.areas) (hlast : m'.lastEntry = m.lastEntry)
    (hframes : ∀ a, a ≠ frameAddr t.stackTop → m'.frames a = m.frames a) : m'.Framed perCpu := by
  have hget (i : ℕ) (u : Thread) (h : Slots.get m'.threads i = some u) :
      i = Slots.firstEmpty m.threads ∧ u = t ∨ Slots.get m.threads i = some u := by
    rw [hthreads] at h
    exact Slots.get_place_cases h
  have htall := le_of_freshStack hfresh
  obtain ⟨r, hr⟩ := Option.ne_none_iff_exists'.mp hm.running
  have hrunning : m'.thread ≠ none := by
    rw [thread, hthreads, hcurrent, Slots.get_place_of_get t hr]
    exact Option.some_ne_none r
  refine ⟨hrunning, readyFor_place hm.ready (Or.inr (Or.inr hm.running)) hthreads hcurrent hgs
    hkernelGs, ?_, ?_, ?_, ?_, ?_⟩
  · intro i j u v hu hv huv
    rcases hget i u hu with ⟨rfl, rfl⟩ | hu <;> rcases hget j v hv with ⟨rfl, rfl⟩ | hv
    · rfl
    · exact absurd huv.symm (stackTop_ne_of_freshStack hfresh hv)
    · exact absurd huv (stackTop_ne_of_freshStack hfresh hu)
    · exact hm.distinct i j u v hu hv huv
  · intro i u hu
    rcases hget i u hu with ⟨-, rfl⟩ | hu
    · exact Or.inr htall
    · exact hm.tall i u hu
  · intro u hu hne
    rw [thread, hcurrent] at hu
    rcases hget m.current u hu with ⟨hslot, -⟩ | hu
    · exact absurd hslot (Slots.ne_firstEmpty hr)
    · rw [hareas]
      exact hm.kernelRsp u hu hne
  · intro i u frame saved hu hsyscall
    rcases hget i u hu with ⟨-, rfl⟩ | hu
    · exact absurd hsyscall (hout frame saved)
    · obtain ⟨haddr, hsaved⟩ := hm.own i u frame saved hu hsyscall
      have hutall : 24 ≤ u.stackTop := (hm.tall i u hu).resolve_left (by simp [hsyscall])
      have hne := stackTop_ne_of_freshStack hfresh hu
      refine ⟨haddr, (hframes frame ?_).trans hsaved⟩
      rw [haddr]
      unfold frameAddr
      omega
  · intro i u frame saved hentry hu hsyscall
    rcases hget i u hu with ⟨-, rfl⟩ | hu
    · exact absurd hsyscall (hout frame saved)
    · rw [hareas]
      exact hm.last i u frame saved (hlast ▸ hentry) hu hsyscall

theorem exec (ht : m.thread = some t) {regs : UserRegs} (hfresh : m.freshStack stackTop = true) :
    (setKernelRsp perCpu stackTop
      (m.modifyCurrent fun _ => ⟨stackTop, .trampoline, regs⟩)).Framed perCpu := by
  have hready : (m.modifyCurrent fun _ => ⟨stackTop, .trampoline, regs⟩).ReadyFor perCpu
      m.current := readyFor_modifyCurrent ht trivial
  have hthread : (m.modifyCurrent fun _ => (⟨stackTop, .trampoline, regs⟩ : Thread)).thread =
      some ⟨stackTop, .trampoline, regs⟩ := by
    rw [thread_modifyCurrent, ht]
    rfl
  have hrunning : (m.modifyCurrent fun _ => (⟨stackTop, .trampoline, regs⟩ : Thread)).thread ≠
      none := by simp [hthread]
  refine ⟨hrunning, hready, ?_, ?_, ?_, ?_, ?_⟩
  · intro i j u v hu hv huv
    rcases get_modify_cases ht hu with ⟨rfl, rfl⟩ | ⟨-, hu⟩ <;>
      rcases get_modify_cases ht hv with ⟨rfl, rfl⟩ | ⟨-, hv⟩
    · rfl
    · exact absurd huv.symm (stackTop_ne_of_freshStack hfresh hv)
    · exact absurd huv (stackTop_ne_of_freshStack hfresh hu)
    · exact hm.distinct i j u v hu hv huv
  · intro i u hu
    rcases get_modify_cases ht hu with ⟨-, rfl⟩ | ⟨-, hu⟩
    · exact Or.inr (le_of_freshStack hfresh)
    · exact hm.tall i u hu
  · intro u hu _
    have hu' : some u = some (⟨stackTop, .trampoline, regs⟩ : Thread) := hu.symm.trans hthread
    cases hu'
    simp [setKernelRsp]
  · intro i u frame saved hu hsyscall
    rcases get_modify_cases ht hu with ⟨-, rfl⟩ | ⟨-, hu⟩
    · cases hsyscall
    · exact hm.own i u frame saved hu hsyscall
  · intro i u frame saved hentry hu hsyscall
    rcases get_modify_cases ht hu with ⟨-, rfl⟩ | ⟨-, hu⟩
    · cases hsyscall
    · have hlast := hm.last i u frame saved hentry hu hsyscall
      simpa [setKernelRsp, modifyCurrent] using hlast

/-- A switch leaves the triples and the pointer alone. -/
theorem switchTo {next : ℕ} (hnext : m.ReadyFor perCpu next) :
    (m.switchTo perCpu next).Framed perCpu := by
  have hready := ready_switchTo hm.ready hnext
  revert hready
  unfold Machine.switchTo
  split
  · exact fun _ => hm
  · split
    · exact fun _ => hm
    · rename_i t ht
      by_cases htop : t.stackTop = 0
      · simp only [htop, ne_eq, not_true_eq_false, if_false]
        intro hready
        have hrunning : Slots.get m.threads next ≠ none := by simp [ht]
        refine ⟨hrunning, hready, hm.distinct, hm.tall, ?_, hm.own, hm.last⟩
        intro u hu hne
        have hut : some u = some t := hu.symm.trans ht
        cases hut
        exact absurd htop hne
      · simp only [htop, ne_eq, not_false_eq_true, if_true]
        intro hready
        have hrunning : Slots.get m.threads next ≠ none := by simp [ht]
        refine ⟨hrunning, hready, hm.distinct, hm.tall, ?_, hm.own, ?_⟩
        · intro u hu _
          have hut : some u = some t := hu.symm.trans ht
          cases hut
          simp [setKernelRsp]
        · intro i u frame saved hentry hu hsyscall
          have hlast := hm.last i u frame saved hentry hu hsyscall
          simpa [setKernelRsp] using hlast

theorem cleared (hi : i ≠ m.current) :
    ({ m with threads := Slots.clear i m.threads } : Machine).Framed perCpu := by
  have hget (j : ℕ) (t : Thread) (h : Slots.get (Slots.clear i m.threads) j = some t) :
      Slots.get m.threads j = some t := by
    rw [Slots.get_clear] at h
    split at h
    · cases h
    · exact h
  have hrunning : Slots.get (Slots.clear i m.threads) m.current ≠ none := by
    rw [Slots.get_clear, if_neg hi]
    exact hm.running
  exact
    { running := hrunning
      ready := fun t ht => hm.ready t (hget _ t ht)
      distinct := fun j k t u ht hu => hm.distinct j k t u (hget j t ht) (hget k u hu)
      tall := fun j t ht => hm.tall j t (hget j t ht)
      kernelRsp := fun t ht => hm.kernelRsp t (hget _ t ht)
      own := fun j t frame saved ht => hm.own j t frame saved (hget j t ht)
      last := fun j t frame saved hentry ht => hm.last j t frame saved hentry (hget j t ht) }

theorem exitTo {next : ℕ} (hnext : m.ReadyFor perCpu next) :
    (m.exitTo perCpu next).Framed perCpu := by
  unfold Machine.exitTo
  dsimp only
  split
  · exact hm
  · rename_i hmoved
    exact (hm.switchTo hnext).cleared (Ne.symm hmoved)

theorem syscallStep (ht : m.thread = some t) {frame : ℕ} {saved : SyscallFrame}
    (hplace : t.place = .syscall frame saved) (e : MachineEvent) (he : Undisturbed perCpu e m) :
    (m.syscallStep perCpu t frame saved e).Framed perCpu := by
  have hready := ready_syscallStep hm.ready ht hplace e
  revert hready
  unfold Machine.syscallStep
  split
  · intro hready
    exact hm.moved ht (by simp [hplace]) rfl (by simp [Thread.resume]) rfl rfl hready rfl rfl rfl
  · exact fun _ => hm.patchFrame ht hplace he
  · exact fun _ => hm.patchFrame ht hplace he
  · split
    · rename_i hfresh
      refine fun _ => hm.placed hfresh (by simp) rfl rfl rfl rfl rfl rfl ?_
      intro a ha
      exact Function.update_of_ne ha _ _
    · exact fun _ => hm
  · split
    · rename_i hfresh
      exact fun _ => hm.exec ht hfresh
    · exact fun _ => hm
  · exact fun _ => hm

theorem addThread (hout : ∀ frame saved, t.place ≠ .syscall frame saved) :
    (m.addThread t).Framed perCpu := by
  unfold Machine.addThread
  split
  · rename_i hfresh
    exact hm.placed hfresh hout rfl rfl rfl rfl rfl rfl (fun _ _ => rfl)
  · exact hm

end Kept

theorem step (e : MachineEvent) (m : Machine) (hm : m.Framed perCpu)
    (he : Undisturbed perCpu e m) : (m.step perCpu e).Framed perCpu := by
  unfold Machine.step
  split
  · exact hm.switchTo he
  · exact hm.exitTo he
  · exact hm.addThread (by simp)
  · exact hm.addThread (by simp)
  · split
    · exact hm
    · rename_i t ht
      exact hm.advance ht
  · split
    · exact hm
    · rename_i t ht
      split
      · rename_i hplace
        exact hm.ring3Step ht hplace e
      · rename_i hplace
        exact hm.syscallStep ht hplace e he
      · exact hm

theorem boot (slot : ℕ) (areas : ℕ → PerCpuData) (frames : ℕ → SyscallFrame) :
    (boot perCpu slot areas frames).Framed perCpu := by
  have honly (i : ℕ) (t : Thread)
      (ht : Slots.get (Machine.boot perCpu slot areas frames).threads i = some t) :
      i = 0 ∧ t = ⟨0, .kernel, ⟨0, 0, 0⟩⟩ := by
    cases i with
    | zero =>
      cases ht
      exact ⟨rfl, rfl⟩
    | succ i => simp [Machine.boot] at ht
  refine ⟨nofun, ready_boot slot areas frames, ?_, ?_, ?_, ?_, ?_⟩
  · intro i j t u ht hu _
    rw [(honly i t ht).1, (honly j u hu).1]
  · intro i t ht
    rw [(honly i t ht).2]
    exact Or.inl rfl
  · intro t ht hne
    rw [(honly 0 t ht).2] at hne
    exact absurd rfl hne
  · intro i t frame saved ht hplace
    rw [(honly i t ht).2] at hplace
    cases hplace
  · intro i t frame saved hentry
    cases hentry

end Framed

variable {perCpu}

/-- Signal delivery and `sys_sigreturn` touch only the frame of their caller, in every run
whose switches suit the base registers and whose signals are delivered and returned from
in undisturbed calls. -/
theorem signal_patchesOwnFrame (slot : ℕ) (areas : ℕ → PerCpuData)
    (frames : ℕ → SyscallFrame) (events : List MachineEvent)
    (hrun : Runs.Along (step perCpu) (Undisturbed perCpu) events
      (boot perCpu slot areas frames)) (e : MachineEvent) (hsignal : e.isSignal = true)
    (he : Undisturbed perCpu e (Runs.run (step perCpu) events (boot perCpu slot areas frames))) :
    (Runs.run (step perCpu) events (boot perCpu slot areas frames)).PatchesOwnFrame := by
  have hframed := Runs.invariant_of_along Framed.step (Framed.boot slot areas frames) hrun
  cases e with
  | deliver sig handlerAddr rawResult memory => exact hframed.patchesOwnFrame he
  | sigreturn memory => exact hframed.patchesOwnFrame he
  | _ => cases hsignal

/-- A task makes a system call, at whose end a signal is delivered. -/
theorem signal_patchesOwnFrame_call :
    (Runs.run (step 0x1000) [.spawn 0x10000 imageRegs, .switch 1, .advance, .advance, .advance,
      .syscall] bootExample).PatchesOwnFrame := by
  refine signal_patchesOwnFrame 0x2000 _ _ _ ?_
    (.deliver 2 0x401000 7 ⟨Bytes.zero, fun _ => none⟩) rfl rfl
  refine ⟨trivial, ?_, trivial, trivial, trivial, trivial, trivial⟩
  intro t ht
  cases ht
  trivial

/-- A task blocks in a system call, another one makes a system call and yields, and the
first one resumes. -/
def blockEvents : List MachineEvent :=
  [.spawn 0x10000 imageRegs, .spawn 0x20000 imageRegs, .switch 1, .advance, .advance, .advance,
    .syscall, .switch 2, .advance, .advance, .advance, .syscall, .switch 1]

/-- The signal of the first task is delivered through the frame of the second. -/
theorem not_patchesOwnFrame_block :
    ¬ (Runs.run (step 0x1000) blockEvents bootExample).PatchesOwnFrame := by
  intro h
  have hptr := (h _ _ _ rfl rfl).1
  have hread : (Runs.run (step 0x1000) blockEvents bootExample).readSyscallFramePtr =
      frameAddr 0x20000 := rfl
  have hne : frameAddr 0x20000 ≠ frameAddr 0x10000 := by decide
  exact hne (hread.symm.trans hptr)

end Machine

end RacOS.Syscall
