import RacOS.Task.Steps
import Mathlib.Tactic.Common

/-!
# Scheduling and identity

Exactly one task is running, it is the current one, and the idle task can always
run: this holds in every state of every run.  Process identifiers are distinct
in every run in which no task is given an identifier that is in use.
-/

namespace RacOS.Tasks

open Program Security TaskTable

/-! ## What the scheduler does -/

variable {t : Task} {s s' : TaskTable}

namespace TaskTable

theorem mem_scanOrder {i : ℕ} (h : i < s.tasks.length) : i ∈ s.scanOrder := by
  let n := s.tasks.length
  let r := (s.current + 1) % n
  have hr : r < n := Nat.mod_lt _ (by omega)
  refine List.mem_map.mpr
    ⟨(i + (n - r)) % n, List.mem_range.mpr (Nat.mod_lt _ (by omega)), ?_⟩
  calc (s.current + 1 + (i + (n - r)) % n) % n
      = (r + (i + (n - r))) % n := by
        rw [Nat.add_mod_mod, Nat.add_mod, ← Nat.add_mod_mod r, Nat.add_mod r]
        simp [r]
    _ = (i + n) % n := by congr 1; omega
    _ = i := by rw [Nat.add_mod_right, Nat.mod_eq_of_lt h]

/-- The scheduler stays where it is and no other task is ready, or it switches
to a ready task. -/
theorem schedule_cases (ht : s.currentTask = some t) (hstate : t.state ≠ .ready) :
    (s.schedule = { s with ticksRemaining := timeQuantum } ∧
      ∀ i u, s.task i = some u → u.state = .ready → i = s.current) ∨
      ∃ next u, next ≠ s.current ∧ s.task next = some u ∧ u.state = .ready ∧
        s.schedule = s.switchTo next := by
  have hcurrent := Slots.lt_length_of_get ht
  unfold schedule
  split
  · rename_i hlen
    refine Or.inl ⟨rfl, fun i u hu _ => ?_⟩
    have := Slots.lt_length_of_get hu
    omega
  · cases hnext : s.nextReady with
    | none =>
      refine Or.inl ⟨rfl, fun i u hu hready => ?_⟩
      have hmem := mem_scanOrder (Slots.lt_length_of_get hu)
      have := List.find?_eq_none.mp hnext i hmem
      simp [hu, hready] at this
    | some next =>
      have hready := List.find?_some hnext
      cases hu : s.task next with
      | none => simp [hu] at hready
      | some u =>
        have huready : u.state = .ready := by simpa [hu] using hready
        have hne : next ≠ s.current := by
          rintro rfl
          cases ht.symm.trans hu
          exact hstate huready
        dsimp only
        rw [if_neg hne]
        exact Or.inr ⟨next, u, hne, hu, huready, rfl⟩

theorem task_switchTo {next i : ℕ} (h : next ≠ s.current) :
    (s.switchTo next).task i = if i = next then (s.task i).map Task.enter
      else if i = s.current then (s.task i).map Task.leave
      else s.task i := by
  simp only [task, switchTo, Slots.get_modify]
  by_cases hi : i = next
  · subst hi
    simp [Ne.symm h]
  · by_cases hc : i = s.current
    · subst hc
      simp [h, hi]
    · simp [hi, hc, Ne.symm hi, Ne.symm hc]

end TaskTable

namespace Task

theorem pid_leave (t : Task) : t.leave.pid = t.pid := by
  unfold leave
  split <;> rfl

/-- The same task, perhaps woken. -/
structure Alike (t t' : Task) : Prop where
  pid : t'.pid = t.pid
  user : t'.user = t.user
  state : t'.state = t.state ∨ t.state = .blocked ∧ t'.state = .ready

theorem Alike.refl : Alike t t := ⟨rfl, rfl, Or.inl rfl⟩

theorem Alike.trans {t t' t'' : Task} (h : Alike t t') (h' : Alike t' t'') : Alike t t'' := by
  refine ⟨h'.pid.trans h.pid, h'.user.trans h.user, ?_⟩
  rcases h'.state with hs' | ⟨hb, hr⟩
  · rw [hs']
    exact h.state
  · rcases h.state with hs | ⟨-, hs⟩
    · exact Or.inr ⟨hs.symm.trans hb, hr⟩
    · rw [hs] at hb
      cases hb

theorem Touched.alike {e : Event} {s : TaskTable} {i : ℕ} {t t' : Task}
    (h : Touched e s i t t') : Alike t t' := ⟨h.pid, h.user, h.state⟩

theorem alike_wake : Alike t t.wake := by
  unfold wake
  split
  · rename_i hblocked
    exact ⟨rfl, rfl, Or.inr ⟨hblocked, rfl⟩⟩
  · exact .refl

theorem alike_notify {sig : Signal} : Alike t (t.notify sig) := by
  have h : Alike { t with signals := t.signals.send sig } (t.notify sig) := alike_wake
  exact ⟨h.pid, h.user, h.state⟩

end Task

/-! ## Exactly one task is running -/

/-- The current task is the one that is running, and the idle task can run. -/
structure Scheduled (s : TaskTable) : Prop where
  current : ∃ t, s.currentTask = some t ∧ t.state = .running
  only : ∀ i t, s.task i = some t → t.state = .running → i = s.current
  idle : ∃ t, s.task 0 = some t ∧ t.pid = 0 ∧ t.user = false ∧
    (t.state = .ready ∨ t.state = .running)

/-- The state in which the scheduler is called: the current task may have been
blocked or ended, unless it is the idle task. -/
structure Leaving (s : TaskTable) : Prop where
  current : ∃ t, s.currentTask = some t ∧ t.state ≠ .ready
  only : ∀ i t, s.task i = some t → t.state = .running → i = s.current
  idle : ∃ t, s.task 0 = some t ∧ t.pid = 0 ∧ t.user = false ∧
    t.state = if s.current = 0 then .running else .ready

theorem scheduled_boot : Scheduled boot where
  current := ⟨idle, rfl, rfl⟩
  only i t ht _ := by
    have := Slots.lt_length_of_get ht
    simp only [boot, List.length_singleton] at this
    exact Nat.lt_one_iff.mp this
  idle := ⟨idle, rfl, rfl, rfl, Or.inr rfl⟩

theorem Scheduled.leaving (h : Scheduled s) : Leaving s := by
  obtain ⟨t, ht, hrunning⟩ := h.current
  obtain ⟨u, hu, hpid, huser, hstate⟩ := h.idle
  refine ⟨⟨t, ht, by simp [hrunning]⟩, h.only, u, hu, hpid, huser, ?_⟩
  split
  · rename_i hzero
    rw [currentTask, hzero] at ht
    cases ht.symm.trans hu
    exact hrunning
  · rename_i hne
    rcases hstate with hready | hrun
    · exact hready
    · exact absurd (h.only 0 u hu hrun).symm hne

/-- After the scheduler was called, exactly one task is running. -/
theorem Leaving.schedule (h : Leaving s) : Scheduled s.schedule := by
  obtain ⟨t, ht, hstate⟩ := h.current
  obtain ⟨u, hu, hpid, huser, hidle⟩ := h.idle
  rcases schedule_cases ht hstate with ⟨hstay, hnone⟩ |
    ⟨next, v, hne, hv, hready, hswitch⟩
  · -- Nothing else is ready, so the current task is the idle task.
    have hzero : s.current = 0 := by
      by_contra hne
      rw [if_neg hne] at hidle
      exact hne (hnone 0 u hu hidle).symm
    rw [if_pos hzero] at hidle
    rw [hstay]
    refine ⟨⟨u, ?_, hidle⟩, h.only, u, hu, hpid, huser, Or.inr hidle⟩
    simpa [hzero] using hu
  · rw [hswitch]
    refine ⟨⟨v.enter, ?_, rfl⟩, fun i w hw hrunning => ?_, ?_⟩
    · show (s.switchTo next).task next = _
      simp [task_switchTo hne, hv]
    · rw [task_switchTo hne] at hw
      by_contra hi
      have hi' : i ≠ next := hi
      rw [if_neg hi'] at hw
      split at hw
      · obtain ⟨w₀, -, rfl⟩ := Option.map_eq_some_iff.mp hw
        unfold Task.leave at hrunning
        split at hrunning <;> simp_all
      · rename_i hcurrent
        exact hcurrent (h.only i w hw hrunning)
    · rw [task_switchTo hne]
      by_cases hnext : 0 = next
      · exact ⟨u.enter, by rw [if_pos hnext, hu]; rfl, hpid, huser, Or.inr rfl⟩
      · rw [if_neg hnext]
        by_cases hcurrent : 0 = s.current
        · rw [if_pos hcurrent.symm] at hidle
          refine ⟨u.leave, by rw [if_pos hcurrent, hu]; rfl, ?_⟩
          simp [Task.leave, hidle, hpid, huser]
        · rw [if_neg (Ne.symm hcurrent)] at hidle
          exact ⟨u, by simp [hcurrent, hu], hpid, huser, Or.inl hidle⟩

/-- Waking tasks other than the current one does not matter to the scheduler. -/
theorem Leaving.of_alike (h : Leaving s) (hcurrent : s'.current = s.current)
    (hblocked : ∀ t, s.currentTask = some t → t.state ≠ .blocked)
    (halike : Slots.Related (fun _ => Task.Alike) s.tasks s'.tasks) : Leaving s' := by
  refine ⟨?_, fun i t' ht' hrunning => ?_, ?_⟩
  · obtain ⟨t, ht, hstate⟩ := h.current
    obtain ⟨t', ht', hal⟩ := halike.of_get ht
    refine ⟨t', by rwa [currentTask, hcurrent], ?_⟩
    rcases hal.state with hsame | ⟨hb, -⟩
    · rwa [hsame]
    · exact absurd hb (hblocked t ht)
  · obtain ⟨t, ht, hal⟩ := halike.of_get' ht'
    rw [hcurrent]
    refine h.only i t ht ?_
    rcases hal.state with hsame | ⟨-, hready⟩
    · rwa [← hsame]
    · rw [hready] at hrunning
      cases hrunning
  · obtain ⟨u, hu, hpid, huser, hstate⟩ := h.idle
    obtain ⟨u', hu', hal⟩ := halike.of_get hu
    refine ⟨u', hu', hal.pid.trans hpid, hal.user.trans huser, ?_⟩
    rw [hcurrent, ← hstate]
    rcases hal.state with hsame | ⟨hb, -⟩
    · exact hsame
    · rw [hstate] at hb
      split at hb <;> cases hb

theorem Scheduled.of_alike (h : Scheduled s) (hcurrent : s'.current = s.current)
    (halike : Slots.Related (fun _ => Task.Alike) s.tasks s'.tasks) : Scheduled s' := by
  obtain ⟨t, ht, hrunning⟩ := h.current
  have hblocked (t' : Task) (ht' : s.currentTask = some t') : t'.state ≠ .blocked := by
    cases ht.symm.trans ht'
    simp [hrunning]
  have hleaving := h.leaving.of_alike hcurrent hblocked halike
  obtain ⟨t', ht', hal⟩ := halike.of_get ht
  refine ⟨⟨t', by rwa [currentTask, hcurrent], ?_⟩, hleaving.only, ?_⟩
  · rcases hal.state with hsame | ⟨hb, -⟩
    · rwa [hsame]
    · exact absurd hb (hblocked t ht)
  · obtain ⟨u, hu, hpid, huser, hstate⟩ := hleaving.idle
    refine ⟨u, hu, hpid, huser, ?_⟩
    rw [hstate]
    split
    · exact Or.inr rfl
    · exact Or.inl rfl

theorem Touching.alike {e : Event} (h : Touching e s s') :
    Slots.Related (fun _ => Task.Alike) s.tasks s'.tasks :=
  h.tasks.mono fun _ _ _ hal => hal.alike

theorem Scheduled.touching {e : Event} (h : Scheduled s)
    (ht : Touching e s s') : Scheduled s' :=
  h.of_alike ht.current ht.alike

/-- A user task that gives up the processor is not the idle task. -/
theorem Scheduled.leaving_modifyCurrent (h : Scheduled s)
    (huser : s.currentTask.any Task.user) {f : Task → Task}
    (hf : ∀ t, (f t).state = .blocked ∨ (f t).state = .zombie) : Leaving (s.modifyCurrent f) := by
  obtain ⟨t, ht, hrunning⟩ := h.current
  have hne : s.current ≠ 0 := by
    intro hzero
    obtain ⟨u, hu, -, hidle, -⟩ := h.idle
    rw [currentTask, hzero] at huser
    simp [hu, hidle] at huser
  have hstate : (f t).state ≠ .ready ∧ (f t).state ≠ .running := by
    rcases hf t with hs | hs <;> simp [hs]
  refine ⟨⟨f t, ?_, hstate.1⟩, fun i u hu hrun => ?_, ?_⟩
  · rw [currentTask_modifyCurrent, ht]
    rfl
  · by_contra hi
    have hi' : s.current ≠ i := Ne.symm hi
    rw [task_modifyCurrent, if_neg hi'] at hu
    exact hi (h.only i u hu hrun)
  · obtain ⟨u, hu, hpid, hidle, hustate⟩ := h.leaving.idle
    refine ⟨u, ?_, hpid, hidle, hustate⟩
    rw [task_modifyCurrent, if_neg hne]
    exact hu

theorem Scheduled.blockAndReschedule (h : Scheduled s)
    (huser : s.currentTask.any Task.user) (waiting : Option Wait) :
    Scheduled (s.blockAndReschedule waiting) :=
  (h.leaving_modifyCurrent huser fun _ => Or.inl rfl).schedule

/-- Giving a task's children to init and waking its parent leaves every task
what it is. -/
theorem alike_reparent (pid : Pid) (s : TaskTable) :
    Slots.Related (fun _ => Task.Alike) s.tasks (s.reparent pid).tasks := by
  unfold reparent
  dsimp only
  split
  · exact .refl fun _ _ => .refl
  · refine Slots.related_map fun _ t => ?_
    split
    · exact ⟨rfl, rfl, Or.inl rfl⟩
    · exact .refl

/-- Waking the parent does to a task what waking and notifying do. -/
theorem related_wakeParent {R : Task → Task → Prop} (hrefl : ∀ t, R t t)
    (htrans : ∀ t u v, R t u → R u v → R t v) (hwake : ∀ t, R t t.wake)
    (hnotify : ∀ t, R t (t.notify .SIGCHLD)) (pid : Pid) (s : TaskTable) :
    Slots.Related (fun _ => R) s.tasks (s.wakeParent pid).tasks := by
  unfold wakeParent
  split
  · exact .refl fun _ => hrefl
  · exact (Slots.related_modifyFirst (fun _ => hrefl) fun _ t _ => hwake t).trans
      (Slots.related_modifyFirst (fun _ => hrefl) fun _ t _ => hnotify t) fun _ => htrans

theorem alike_wakeParent (pid : Pid) (s : TaskTable) :
    Slots.Related (fun _ => Task.Alike) s.tasks (s.wakeParent pid).tasks :=
  related_wakeParent (fun _ => .refl) (fun _ _ _ => .trans) (fun _ => Task.alike_wake)
    (fun _ => Task.alike_notify) pid s

@[simp] theorem current_reparent (pid : Pid) (s : TaskTable) :
    (s.reparent pid).current = s.current := by
  unfold reparent
  dsimp only
  split <;> rfl

@[simp] theorem current_wakeParent (pid : Pid) (s : TaskTable) :
    (s.wakeParent pid).current = s.current := by
  unfold wakeParent
  split <;> rfl

theorem Scheduled.exitCurrent (h : Scheduled s)
    (huser : s.currentTask.any Task.user) (status : Int32) : Scheduled (s.exitCurrent status) := by
  obtain ⟨t, ht, -⟩ := h.current
  simp only [TaskTable.exitCurrent, ht]
  refine Leaving.schedule ?_
  let ended := s.modifyCurrent fun t => { t with state := .zombie, exitStatus := status }
  have hended : Leaving ended := h.leaving_modifyCurrent huser fun _ => Or.inr rfl
  refine hended.of_alike (by simp [ended]) (fun u hu => ?_)
    ((alike_reparent _ _).trans (alike_wakeParent _ _) fun _ _ _ _ => .trans)
  rw [currentTask_modifyCurrent, ht] at hu
  cases hu
  simp

theorem Scheduled.place (h : Scheduled s) (ht : t.state = .ready)
    (hcurrent : s'.current = s.current) (htasks : s'.tasks = Slots.place t s.tasks) :
    Scheduled s' := by
  have hkeep {i : ℕ} {u : Task} (hu : s.task i = some u) : s'.task i = some u := by
    rw [task, htasks]
    exact Slots.get_place_of_get t hu
  obtain ⟨c, hc, hrunning⟩ := h.current
  obtain ⟨u, hu, hidle⟩ := h.idle
  refine ⟨⟨c, ?_, hrunning⟩, fun i v hv hrun => ?_, u, hkeep hu, hidle⟩
  · rw [currentTask, hcurrent]
    exact hkeep hc
  · rw [task, htasks] at hv
    rw [hcurrent]
    rcases Slots.get_place_cases hv with ⟨-, rfl⟩ | hv
    · rw [ht] at hrun
      cases hrun
    · exact h.only i v hv hrun

theorem Scheduled.clear (h : Scheduled s) {i : ℕ} (ht : s.task i = some t)
    (hzombie : t.state = .zombie) : Scheduled { s with tasks := Slots.clear i s.tasks } := by
  have hkeep {j : ℕ} {u : Task} (hu : s.task j = some u) (hstate : u.state ≠ .zombie) :
      Slots.get (Slots.clear i s.tasks) j = some u := by
    rw [Slots.get_clear, if_neg]
    · exact hu
    · rintro rfl
      cases ht.symm.trans hu
      exact hstate hzombie
  obtain ⟨c, hc, hrunning⟩ := h.current
  obtain ⟨u, hu, hpid, huser, hstate⟩ := h.idle
  refine ⟨⟨c, hkeep hc (by simp [hrunning]), hrunning⟩, fun j v hv hrun => ?_,
    u, hkeep hu ?_, hpid, huser, hstate⟩
  · rw [task, Slots.get_clear] at hv
    split at hv
    · cases hv
    · exact h.only j v hv hrun
  · rcases hstate with hs | hs <;> simp [hs]

/-- One step keeps exactly one task running. -/
theorem Scheduled.step (h : Scheduled s) (e : Event) : Scheduled (s.step e) := by
  obtain ⟨t, ht, hrunning⟩ := h.current
  have huser₀ {s₀ : TaskTable} (htouch : Touching e s s₀)
      (huser : s.currentTask.any Task.user) : s₀.currentTask.any Task.user := by
    obtain ⟨t', ht', hal⟩ := htouch.tasks.of_get ht
    have hcurrent : s₀.currentTask = some t' := by rwa [currentTask, htouch.current]
    rw [ht] at huser
    rw [hcurrent]
    simpa [hal.user] using huser
  cases step_outcome ht hrunning e with
  | touched htouch => exact h.touching htouch
  | born t hbirth hcurrent htasks =>
    refine h.place ?_ hcurrent htasks
    cases hbirth <;> rfl
  | scheduled s₀ htouch hs' =>
    rw [hs']
    exact (h.touching htouch).leaving.schedule
  | blocked waiting s₀ htouch huser hnone hparent hs' =>
    rw [hs']
    exact (h.touching htouch).blockAndReschedule (huser₀ htouch huser) waiting
  | exited status s₀ htouch huser hends hs' =>
    rw [hs']
    exact (h.touching htouch).exitCurrent (huser₀ htouch huser) status
  | reaped i child s₀ htouch hchild hzombie hs' =>
    rw [hs']
    exact (h.touching htouch).clear hchild hzombie

/-- In every state of every run exactly one task is running. -/
theorem scheduled_run (events : List Event) : Scheduled (boot.run events) :=
  Runs.invariant (fun e _ h => h.step e) events scheduled_boot

/-! ## Identifiers are distinct -/

/-- No two tasks have the same identifier. -/
def DistinctPids (s : TaskTable) : Prop :=
  ∀ i j t u, s.task i = some t → s.task j = some u → t.pid = u.pid → i = j

/-- No task in the table has the identifier. -/
def Unused (pid : Pid) (s : TaskTable) : Prop :=
  Slots.all (·.pid ≠ pid) s.tasks

instance (pid : Pid) (s : TaskTable) : Decidable (Unused pid s) :=
  inferInstanceAs (Decidable (_ = true))

theorem Unused.pid_ne {pid : Pid} (h : Unused pid s) {i : ℕ}
    (ht : s.task i = some t) : t.pid ≠ pid := by
  simpa using Slots.all_get h ht

/-- The event gives no task an identifier that is in use: a clone is no thread,
and the counter it takes an identifier from has not come back to one that is in
the table. -/
def Event.GivesUnused (e : Event) (s : TaskTable) : Prop :=
  match e with
  | .spawn _ => Unused s.nextPid s
  | .spawnUser _ => Unused s.nextUserPid s
  | .fork _ _ => Unused s.nextUserPid s
  | .clone flags _ _ => flags.thread = false ∧ Unused s.nextUserPid s
  | .spawnChild _ => Unused s.nextUserPid s
  | _ => True

instance (e : Event) (s : TaskTable) : Decidable (e.GivesUnused s) :=
  match e with
  | .spawn _ => inferInstanceAs (Decidable (Unused s.nextPid s))
  | .spawnUser _ => inferInstanceAs (Decidable (Unused s.nextUserPid s))
  | .fork _ _ => inferInstanceAs (Decidable (Unused s.nextUserPid s))
  | .clone _ _ _ => inferInstanceAs (Decidable (_ = false ∧ Unused s.nextUserPid s))
  | .spawnChild _ => inferInstanceAs (Decidable (Unused s.nextUserPid s))
  | .timerTick | .yield | .terminalSignal _ _ | .serialCtrlC | .exec _ | .exit _
  | .wait _ _ _ | .resumeWait | .kill _ _ | .sigaction _ _ | .setpgid _ _ | .setsid
  | .setuid _ | .setgid _ | .deliverSignal _ => isTrue trivial

theorem DistinctPids.of_pids (h : DistinctPids s)
    (hpids : ∀ i t', s'.task i = some t' → ∃ t, s.task i = some t ∧ t.pid = t'.pid) :
    DistinctPids s' := by
  intro i j t' u' ht' hu' hpid
  obtain ⟨t, ht, htpid⟩ := hpids i t' ht'
  obtain ⟨u, hu, hupid⟩ := hpids j u' hu'
  exact h i j t u ht hu (by rw [htpid, hupid, hpid])

theorem DistinctPids.of_alike (h : DistinctPids s)
    (halike : Slots.Related (fun _ => Task.Alike) s.tasks s'.tasks) : DistinctPids s' :=
  h.of_pids fun _ _ ht' =>
    let ⟨t, ht, hal⟩ := halike.of_get' ht'
    ⟨t, ht, hal.pid.symm⟩

theorem DistinctPids.modifyCurrent (h : DistinctPids s) {f : Task → Task}
    (hf : ∀ t, (f t).pid = t.pid) : DistinctPids (s.modifyCurrent f) := by
  refine h.of_pids fun i t' ht' => ?_
  rw [task_modifyCurrent] at ht'
  split at ht'
  · obtain ⟨t, ht, rfl⟩ := Option.map_eq_some_iff.mp ht'
    exact ⟨t, ht, (hf t).symm⟩
  · exact ⟨t', ht', rfl⟩

theorem DistinctPids.schedule (h : DistinctPids s) : DistinctPids s.schedule := by
  refine h.of_pids fun i t' ht' => ?_
  obtain ⟨t, ht, hchange⟩ := (related_schedule s).of_get' ht'
  refine ⟨t, ht, ?_⟩
  rcases hchange with rfl | rfl | rfl
  · rfl
  · rfl
  · exact (Task.pid_leave t).symm

theorem DistinctPids.place (h : DistinctPids s) (ht : Unused t.pid s)
    (htasks : s'.tasks = Slots.place t s.tasks) : DistinctPids s' := by
  intro i j u v hu hv hpid
  rw [task, htasks] at hu hv
  rcases Slots.get_place_cases hu with ⟨rfl, rfl⟩ | hold <;>
    rcases Slots.get_place_cases hv with ⟨rfl, rfl⟩ | hold'
  · rfl
  · exact absurd hpid.symm (ht.pid_ne hold')
  · exact absurd hpid (ht.pid_ne hold)
  · exact h i j u v hold hold' hpid

theorem DistinctPids.exitCurrent (h : DistinctPids s) (status : Int32) :
    DistinctPids (s.exitCurrent status) := by
  unfold TaskTable.exitCurrent
  split
  · have hended := h.modifyCurrent
      (f := fun t => { t with state := .zombie, exitStatus := status }) fun _ => rfl
    exact (((hended.of_alike (alike_reparent _ _)).of_alike
      (alike_wakeParent _ _))).schedule
  · exact h.schedule

theorem DistinctPids.clear (h : DistinctPids s) (i : ℕ) :
    DistinctPids { s with tasks := Slots.clear i s.tasks } := by
  refine h.of_pids fun j t ht => ?_
  rw [task, Slots.get_clear] at ht
  split at ht
  · cases ht
  · exact ⟨t, ht, rfl⟩

/-- One step keeps the identifiers distinct if it gives none that is in use. -/
theorem DistinctPids.step (hs : Scheduled s) (h : DistinctPids s)
    {e : Event} (he : e.GivesUnused s) : DistinctPids (s.step e) := by
  obtain ⟨t, ht, hrunning⟩ := hs.current
  cases step_outcome ht hrunning e with
  | touched htouch => exact h.of_alike htouch.alike
  | born t hbirth hcurrent htasks =>
    refine h.place ?_ htasks
    cases hbirth with
    | kernel stack hkernel => exact he
    | booted image hkernel => exact he
    | forked parent pageTable stack hparent => exact he
    | cloned parent flags copy pageTable stack hparent htable =>
      obtain ⟨hthread, hunused⟩ := he
      simp only [hthread]
      exact hunused
    | spawned parent image hparent => exact he
  | scheduled s₀ htouch hs' =>
    rw [hs']
    exact (h.of_alike htouch.alike).schedule
  | blocked waiting s₀ htouch huser hnone hparent hs' =>
    rw [hs']
    refine DistinctPids.schedule ?_
    exact (h.of_alike htouch.alike).modifyCurrent fun _ => rfl
  | exited status s₀ htouch huser hends hs' =>
    rw [hs']
    exact (h.of_alike htouch.alike).exitCurrent status
  | reaped i child s₀ htouch hchild hzombie hs' =>
    rw [hs']
    exact (h.of_alike htouch.alike).clear i

/-- The scheduling and identity invariant: the running task is the current one,
the idle task is ready or running, and identifiers are distinct. -/
structure Sound (s : TaskTable) : Prop where
  current : ∃ t, s.currentTask = some t
  running : ∀ i t, s.task i = some t → (t.state = .running ↔ i = s.current)
  idle : ∃ t, s.task 0 = some t ∧ t.pid = 0 ∧ (t.state = .ready ∨ t.state = .running)
  distinct : DistinctPids s

theorem Scheduled.sound (h : Scheduled s) (hpids : DistinctPids s) : Sound s := by
  obtain ⟨t, ht, hrunning⟩ := h.current
  obtain ⟨u, hu, hpid, -, hstate⟩ := h.idle
  refine ⟨⟨t, ht⟩, fun i v hv => ⟨h.only i v hv, ?_⟩, ⟨u, hu, hpid, hstate⟩, hpids⟩
  rintro rfl
  cases ht.symm.trans hv
  exact hrunning

theorem distinctPids_boot : DistinctPids boot := by
  intro i j t u ht hu _
  have hi := Slots.lt_length_of_get ht
  have hj := Slots.lt_length_of_get hu
  simp only [boot, List.length_singleton] at hi hj
  omega

/-- In every run in which no event gives an identifier that is in use, the
scheduling and identity invariant holds in every state. -/
theorem sound_of_givesUnused (events : List Event)
    (h : Runs.Along step Event.GivesUnused events boot) : Sound (boot.run events) := by
  have hstep (e : Event) (s : TaskTable) (hs : Scheduled s ∧ DistinctPids s)
      (he : e.GivesUnused s) : Scheduled (s.step e) ∧ DistinctPids (s.step e) :=
    ⟨hs.1.step e, hs.2.step hs.1 he⟩
  obtain ⟨hscheduled, hpids⟩ :=
    Runs.invariant_of_along hstep ⟨scheduled_boot, distinctPids_boot⟩ h
  exact hscheduled.sound hpids

/-- Init is started, runs, and forks. -/
def bootAndFork : List Event :=
  [.spawnUser (.ok (some ⟨0x200000, 0x300000⟩)), .yield, .fork (some 0x400000) (some 0x500000)]

theorem sound_bootAndFork : Sound (boot.run bootAndFork) :=
  sound_of_givesUnused bootAndFork (by decide)

/-- A thread of init has init's identifier. -/
theorem not_sound_thread :
    ¬Sound (boot.run [.spawnUser (.ok (some ⟨0x200000, 0x300000⟩)), .yield,
      .clone ⟨true, true⟩ none (some 0x500000)]) := by
  intro h
  exact absurd (h.distinct 1 2 _ _ rfl rfl rfl) (by decide)

end RacOS.Tasks
