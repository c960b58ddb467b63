import RacOS.Lib.Runs
import RacOS.Task.Table

/-!
# Steps of the task table

Everything that can happen to the task table: the timer, kernel code that
creates tasks or yields, signals from the terminal, and the system calls and
faults of the current user task.  One theorem says what a step can do; the
invariants are derived from it.
-/

namespace RacOS.Tasks

open Program Security TaskTable

/-- What can happen. -/
inductive Event
  | timerTick
  | yield
  | spawn (stack : Option ℕ)
  | spawnUser (program : Except SyscallError (Option Image))
  | terminalSignal (pgid : Pid) (sig : Signal)
  | serialCtrlC
  | fork (pageTable stack : Option ℕ)
  | clone (flags : CloneFlags) (pageTable stack : Option ℕ)
  | spawnChild (program : Except SyscallError (Option Image))
  | exec (program : Except SyscallError (Option Image))
  | exit (status : Int32)
  | wait (pid : Int32) (statusPtr : Bool) (options : UInt32)
  | resumeWait
  | kill (pid sig : Int32)
  | sigaction (signum : Int32) (handler : UInt64)
  | setpgid (pid pgid : Pid)
  | setsid
  | setuid (uid : UInt32)
  | setgid (gid : UInt32)
  | deliverSignal (written : Bool)

/-- The event sends a signal to the tasks it names. -/
def Event.sends : Event → Bool
  | .kill _ _ | .terminalSignal _ _ | .serialCtrlC => true
  | _ => false

/-- A user task that Ctrl-C on the serial line may find. -/
def Task.isForeground (t : Task) : Bool :=
  100 ≤ t.pid && (t.state = .running || t.state = .ready || t.state = .blocked)

namespace TaskTable

/-- Send a signal to the current user task, or else to the first one there is. -/
def signalForeground (sig : Signal) (s : TaskTable) : TaskTable :=
  if 100 ≤ s.currentPid then s.modifyCurrent (Task.notify sig)
  else { s with tasks := Slots.modifyFirst Task.isForeground (Task.notify sig) s.tasks }

/-- A step that only kernel code makes. -/
def byKernel (f : TaskTable → TaskTable) (s : TaskTable) : TaskTable :=
  if s.currentTask.any fun t => !t.user then f s else s

/-- A step that a user task makes by a system call or a fault, when it is not
inside `sys_wait`. -/
def byUser (f : TaskTable → TaskTable) (s : TaskTable) : TaskTable :=
  if s.currentTask.any fun t => t.user && t.waiting.isNone then f s else s

/-- The table after an event. -/
def step : Event → TaskTable → TaskTable
  | .timerTick => timerTick
  | .yield => yieldCurrent
  | .spawn stack => byKernel (final (spawn stack))
  | .spawnUser program => byKernel (final (spawnUser program))
  | .terminalSignal pgid sig => sendSignalToGroup pgid sig
  | .serialCtrlC => signalForeground .SIGINT
  | .fork pageTable stack => byUser (final (sysFork pageTable stack))
  | .clone flags pageTable stack => byUser (final (sysClone flags pageTable stack))
  | .spawnChild program => byUser (final (sysSpawn program))
  | .exec program => byUser (final (sysExec program))
  | .exit status => byUser (exitCurrent status)
  | .wait pid statusPtr options => byUser (final (sysWait pid statusPtr options))
  | .resumeWait => fun s =>
    match s.currentTask.bind fun t => if t.user then t.waiting else none with
    | some w => final (resumeWait w) s
    | none => s
  | .kill pid sig => byUser (final (sysKill pid sig))
  | .sigaction signum handler => byUser (final (sysSigaction signum handler))
  | .setpgid pid pgid => byUser (final (sysSetpgid pid pgid))
  | .setsid => byUser (final sysSetsid)
  | .setuid uid => byUser (final (sysSetuid uid))
  | .setgid gid => byUser (final (sysSetgid gid))
  | .deliverSignal written => byUser (deliverPendingSignal written)

/-- The table after a sequence of events. -/
def run (events : List Event) (s : TaskTable) : TaskTable :=
  Runs.run step events s

end TaskTable

/-- The slot of the task that the event puts into another process group. -/
def Event.regroups (e : Event) (s : TaskTable) : Option ℕ :=
  match e with
  | .setpgid pid _ => Slots.find (·.pid = s.named pid) s.tasks
  | .setsid => some s.current
  | _ => none

/-- How the record of a task that stays in its slot can change, short of being
scheduled, blocked or ended: a signal wakes it, it is put into another group, and
the current task changes its own credentials or image. -/
structure Task.Touched (e : Event) (s : TaskTable) (i : ℕ) (t t' : Task) : Prop where
  pid : t'.pid = t.pid
  parentPid : t'.parentPid = t.parentPid
  pgid : t'.pgid = t.pgid ∨ e.regroups s = some i
  user : t'.user = t.user
  state : t'.state = t.state ∨ t.state = .blocked ∧ t'.state = .ready
  woken : t'.state = t.state ∨ e.sends = true
  waiting : t'.waiting = t.waiting ∨ t'.state ≠ .blocked ∧ t'.waiting = none
  creds : t'.creds = t.creds ∨ i = s.current ∧
    ((∃ uid, e = .setuid uid ∧ setuid uid t.creds = .ok t'.creds) ∨
      ∃ gid, e = .setgid gid ∧ setgid gid t.creds = .ok t'.creds)
  pageTable : t'.pageTablePhys = t.pageTablePhys ∨ i = s.current ∧
    ∃ image, e = .exec (.ok (some image)) ∧ t'.pageTablePhys = image.pageTablePhys

/-- Does the event end the current task?  A signal does if its default action is
taken and is to terminate. -/
def Event.terminates (e : Event) (s : TaskTable) : Bool :=
  match e with
  | .exit _ => true
  | .deliverSignal written =>
    match s.currentTask.bind fun t => t.signals.takePending with
    | none => false
    | some (sig, signals) =>
      SignalState.defaultAction sig = .terminate &&
        match signals.getHandler sig with
        | .ign => false
        | .dfl => true
        | .user _ => !written
  | _ => false

/-- The table after some tasks were touched. -/
structure Touching (e : Event) (s s' : TaskTable) : Prop where
  current : s'.current = s.current
  tasks : Slots.Related (Task.Touched e s) s.tasks s'.tasks
  length : s'.tasks.length = s.tasks.length

/-- The task that an event puts into the table. -/
inductive Birth (s : TaskTable) : Event → Task → Prop
  | kernel (stack : ℕ) (hkernel : s.currentTask.any (!·.user)) :
      Birth s (.spawn (some stack))
        { newKernel s.nextPid stack with state := .ready }
  | booted (image : Image) (hkernel : s.currentTask.any (!·.user)) :
      Birth s (.spawnUser (.ok (some image)))
        { fromElf s.currentPid s.nextUserPid image with state := .ready }
  | forked (parent : Task) (pageTable stack : ℕ)
      (hparent : s.currentTask = some parent) :
      Birth s (.fork (some pageTable) (some stack))
        { childOf parent s.nextUserPid ⟨stack, pageTable⟩ with state := .ready }
  | cloned (parent : Task) (flags : CloneFlags) (copy : Option ℕ)
      (pageTable stack : ℕ) (hparent : s.currentTask = some parent)
      (htable : if flags.vm then pageTable = parent.pageTablePhys
        else copy = some pageTable) :
      Birth s (.clone flags copy (some stack))
        { childOf parent (if flags.thread then parent.pid else s.nextUserPid)
            ⟨stack, pageTable⟩ with state := .ready }
  | spawned (parent : Task) (image : Image)
      (hparent : s.currentTask = some parent) :
      Birth s (.spawnChild (.ok (some image)))
        { fromElf parent.pid s.nextUserPid image with
          creds := parent.creds
          state := .ready }

/-- What a step can do. -/
inductive Outcome (e : Event) (s s' : TaskTable) : Prop
  | touched (h : Touching e s s')
  | born (t : Task) (hbirth : Birth s e t) (hcurrent : s'.current = s.current)
      (htasks : s'.tasks = Slots.place t s.tasks)
  | scheduled (s₀ : TaskTable) (h : Touching e s s₀) (hs' : s' = s₀.schedule)
  | blocked (waiting : Option Wait) (s₀ : TaskTable) (h : Touching e s s₀)
      (huser : s.currentTask.any Task.user)
      (hnone : ∀ w, waiting = some w → Slots.find (reapable w) s₀.tasks = none)
      (hparent : ∀ w t, waiting = some w → s.currentTask = some t →
        w.parent = t.pid ∨ t.waiting = some w)
      (hs' : s' = s₀.blockAndReschedule waiting)
  | exited (status : Int32) (s₀ : TaskTable) (h : Touching e s s₀)
      (huser : s.currentTask.any Task.user) (hends : e.terminates s = true)
      (hs' : s' = s₀.exitCurrent status)
  | reaped (i : ℕ) (child : Task) (s₀ : TaskTable) (h : Touching e s s₀)
      (hchild : s₀.task i = some child) (hzombie : child.state = .zombie)
      (hs' : s' = { s₀ with tasks := Slots.clear i s₀.tasks })

variable {sig : Signal} {e : Event} {s s' : TaskTable}

namespace Task

variable {i : ℕ} {t : Task}

theorem Touched.refl : Touched e s i t t :=
  ⟨rfl, rfl, Or.inl rfl, rfl, Or.inl rfl, Or.inl rfl, Or.inl rfl, Or.inl rfl, Or.inl rfl⟩

theorem touched_wake (hsends : e.sends = true) : Touched e s i t t.wake := by
  unfold wake
  split
  · rename_i hblocked
    exact ⟨rfl, rfl, Or.inl rfl, rfl, Or.inr ⟨hblocked, rfl⟩, Or.inr hsends, Or.inl rfl,
      Or.inl rfl, Or.inl rfl⟩
  · exact .refl

theorem touched_signals {signals : SignalState} : Touched e s i t { t with signals } :=
  ⟨rfl, rfl, Or.inl rfl, rfl, Or.inl rfl, Or.inl rfl, Or.inl rfl, Or.inl rfl, Or.inl rfl⟩

theorem touched_regroup {sessionId pgid : Pid} (hslot : e.regroups s = some i) :
    Touched e s i t { t with sessionId, pgid } :=
  ⟨rfl, rfl, Or.inr hslot, rfl, Or.inl rfl, Or.inl rfl, Or.inl rfl, Or.inl rfl, Or.inl rfl⟩

theorem touched_notify (hsends : e.sends = true) : Touched e s i t (t.notify sig) := by
  unfold notify
  have h : Touched e s i { t with signals := t.signals.send sig }
      (wake { t with signals := t.signals.send sig }) := touched_wake hsends
  exact ⟨h.pid, h.parentPid, h.pgid, h.user, h.state, h.woken, h.waiting, h.creds, h.pageTable⟩

end Task

namespace Touching

theorem refl : Touching e s s := ⟨rfl, .refl fun _ _ => .refl, rfl⟩

theorem of_tasks (hcurrent : s'.current = s.current) (htasks : s'.tasks = s.tasks) :
    Touching e s s' := by
  refine ⟨hcurrent, ?_, by rw [htasks]⟩
  rw [htasks]
  exact .refl fun _ _ => .refl

theorem modifyCurrent {f : Task → Task}
    (hf : ∀ t, s.currentTask = some t → Task.Touched e s s.current t (f t)) :
    Touching e s (s.modifyCurrent f) :=
  ⟨rfl, Slots.related_modify (fun _ _ => .refl) hf, Slots.length_modify _ _ _⟩

theorem notifyFirst (hsends : e.sends = true) (p : Task → Bool) :
    Touching e s { s with tasks := Slots.modifyFirst p (Task.notify sig) s.tasks } :=
  ⟨rfl, Slots.related_modifyFirst (fun _ _ => .refl) fun _ _ _ => Task.touched_notify hsends,
    Slots.length_modifyFirst _ _ _⟩

theorem sendSignalToGroup (hsends : e.sends = true) {pgid : Pid} :
    Touching e s (s.sendSignalToGroup pgid sig) := by
  refine ⟨rfl, Slots.related_map fun i t => ?_, Slots.length_map _ _⟩
  split
  · exact Task.touched_notify hsends
  · exact .refl

theorem signalForeground (hsends : e.sends = true) : Touching e s (s.signalForeground sig) := by
  unfold TaskTable.signalForeground
  split
  · exact .modifyCurrent fun _ _ => Task.touched_notify hsends
  · exact .notifyFirst hsends _

end Touching

/-! ## What the scheduler does -/

/-- A change of state by the scheduler. -/
def Task.Rescheduled (t t' : Task) : Prop := t' = t ∨ t' = t.enter ∨ t' = t.leave

/-- The scheduler changes states only. -/
theorem related_schedule (s : TaskTable) :
    Slots.Related (fun _ => Task.Rescheduled) s.tasks s.schedule.tasks := by
  have hrefl : Slots.Related (fun _ => Task.Rescheduled) s.tasks s.tasks :=
    .refl fun _ _ => Or.inl rfl
  unfold schedule
  split
  · exact hrefl
  · split
    · exact hrefl
    · rename_i next hnext
      split
      · exact hrefl
      · rename_i hne
        intro i
        by_cases hi : next = i
        · subst hi
          simp only [switchTo, Slots.get_modify, Ne.symm hne, if_true, if_false]
          cases Slots.get s.tasks next with
          | none => exact .none
          | some t => exact .some (Or.inr (Or.inl rfl))
        · simp only [switchTo, Slots.get_modify, hi, if_false]
          split
          · cases Slots.get s.tasks i with
            | none => exact .none
            | some t => exact .some (Or.inr (Or.inr rfl))
          · exact hrefl i

/-! ## What the calls do -/

namespace TaskTable

theorem userTask_cases (s : TaskTable) :
    userTask s = .error .EPERM s ∨ ∃ t, s.currentTask = some t ∧ userTask s = .ok t s := by
  rw [userTask, get_bind_run]
  cases hcurrent : s.currentTask with
  | none => exact Or.inl rfl
  | some t =>
    simp only [require_bind_run]
    split
    · exact Or.inr ⟨t, rfl, rfl⟩
    · exact Or.inl rfl

theorem allocated_cases (x : Option ℕ) (s : TaskTable) :
    allocated x s = .error .ENOMEM s ∨ ∃ addr, x = some addr ∧ allocated x s = .ok addr s := by
  cases x with
  | none => exact Or.inl rfl
  | some addr => exact Or.inr ⟨addr, rfl, rfl⟩

/-- Installing a task fails and changes nothing, or places it. -/
theorem final_install (t : Task) (s : TaskTable) :
    final (install t) s = s ∨
      final (install t) s = { s with tasks := Slots.place { t with state := .ready } s.tasks } := by
  by_cases hroom : s.tasks.length < maxTasks
  · refine Or.inr (final_of_ok (a := t.pid) ?_)
    rw [install, get_bind_run, require_bind_run, if_pos hroom]
    rfl
  · refine Or.inl (final_of_error (e := .EAGAIN) ?_)
    rw [install, get_bind_run, require_bind_run, if_neg hroom]

/-- The event ends with a task being installed, if it gets that far. -/
theorem outcome_install {s s₀ : TaskTable} {t : Task}
    (hcurrent : s₀.current = s.current) (htasks : s₀.tasks = s.tasks)
    (hbirth : Birth s e { t with state := .ready }) : Outcome e s (final (install t) s₀) := by
  rcases final_install t s₀ with h | h
  · rw [h]
    exact .touched (.of_tasks hcurrent htasks)
  · rw [h]
    refine .born _ hbirth hcurrent ?_
    rw [htasks]

/-- A call that fails at once has touched nothing. -/
theorem outcome_of_error {α β : Type} {x : Call α} {f : α → Call β}
    {err : SyscallError} (h : x s = .error err s) : Outcome e s (final (x >>= f) s) := by
  rw [final_of_error (bind_of_error h)]
  exact .touched .refl

theorem outcome_fork (pageTable stack : Option ℕ) :
    Outcome (.fork pageTable stack) s (final (sysFork pageTable stack) s) := by
  rcases userTask_cases s with h | ⟨parent, hparent, h⟩
  · exact outcome_of_error h
  rw [sysFork, final_congr (bind_of_ok h)]
  rcases allocated_cases pageTable s with h | ⟨pageTable, rfl, h⟩
  · exact outcome_of_error h
  rw [final_congr (bind_of_ok h)]
  rcases allocated_cases stack s with h | ⟨stack, rfl, h⟩
  · exact outcome_of_error h
  rw [final_congr (bind_of_ok h)]
  exact outcome_install rfl rfl (.forked parent pageTable stack hparent)

theorem clonePageTable_cases (flags : CloneFlags) (parent : Task)
    (copy : Option ℕ) (s : TaskTable) :
    clonePageTable flags parent copy s = .error .ENOMEM s ∨
      ∃ pageTable, (if flags.vm then pageTable = parent.pageTablePhys
        else copy = some pageTable) ∧
        clonePageTable flags parent copy s = .ok pageTable s := by
  unfold clonePageTable
  cases flags.vm with
  | true => exact Or.inr ⟨parent.pageTablePhys, rfl, rfl⟩
  | false =>
    rcases allocated_cases copy s with h | ⟨pageTable, hcopy, h⟩
    · exact Or.inl h
    · exact Or.inr ⟨pageTable, hcopy, h⟩

/-- The identifier of a clone is taken without touching a task. -/
theorem clonePid_run (flags : CloneFlags) (parent : Task) (s : TaskTable) :
    ∃ s₀, s₀.current = s.current ∧ s₀.tasks = s.tasks ∧
      clonePid flags parent s = .ok (if flags.thread then parent.pid else s.nextUserPid) s₀ := by
  unfold clonePid
  cases flags.thread with
  | true => exact ⟨s, rfl, rfl, rfl⟩
  | false => exact ⟨{ s with nextUserPid := s.nextUserPid + 1 }, rfl, rfl, rfl⟩

theorem outcome_clone (flags : CloneFlags) (copy stack : Option ℕ) :
    Outcome (.clone flags copy stack) s (final (sysClone flags copy stack) s) := by
  rcases userTask_cases s with h | ⟨parent, hparent, h⟩
  · exact outcome_of_error h
  rw [sysClone, final_congr (bind_of_ok h)]
  rcases clonePageTable_cases flags parent copy s with h | ⟨pageTable, htable, h⟩
  · exact outcome_of_error h
  rw [final_congr (bind_of_ok h)]
  rcases allocated_cases stack s with h | ⟨stack, rfl, h⟩
  · exact outcome_of_error h
  obtain ⟨s₀, hcurrent, htasks, hpid⟩ := clonePid_run flags parent s
  rw [final_congr (bind_of_ok h), final_congr (bind_of_ok hpid)]
  exact outcome_install hcurrent htasks
    (.cloned parent flags copy pageTable stack hparent htable)

/-- Loading a program fails and touches no task, or takes an identifier. -/
theorem loadProgram_cases (program : Except SyscallError (Option Image)) (s : TaskTable) :
    (∃ err s₀, s₀.current = s.current ∧ s₀.tasks = s.tasks ∧
      loadProgram program s = .error err s₀) ∨
      ∃ image, program = .ok (some image) ∧
        loadProgram program s = .ok (s.nextUserPid, image)
          { s with nextUserPid := s.nextUserPid + 1 } := by
  match program with
  | .error e => exact Or.inl ⟨e, s, rfl, rfl, rfl⟩
  | .ok none =>
    exact Or.inl ⟨.ENOMEM, { s with nextUserPid := s.nextUserPid + 1 }, rfl, rfl, rfl⟩
  | .ok (some image) => exact Or.inr ⟨image, rfl, rfl⟩

theorem outcome_spawn (stack : Option ℕ) (hkernel : s.currentTask.any (!·.user)) :
    Outcome (.spawn stack) s (final (spawn stack) s) := by
  by_cases hroom : s.tasks.length < maxTasks
  · have hrun : spawn stack s =
        (allocated stack >>= fun base => install (newKernel s.nextPid base) : Call Pid)
          { s with nextPid := s.nextPid + 1 } := by
      rw [spawn, get_bind_run, require_bind_run, if_pos hroom]
      rfl
    rw [final_congr hrun]
    rcases allocated_cases stack { s with nextPid := s.nextPid + 1 } with
      h | ⟨stack, rfl, h⟩
    · rw [final_of_error (bind_of_error h)]
      exact .touched (.of_tasks rfl rfl)
    · rw [final_congr (bind_of_ok h)]
      exact outcome_install rfl rfl (.kernel stack hkernel)
  · have hrun : spawn stack s = .error .EAGAIN s := by
      rw [spawn, get_bind_run, require_bind_run, if_neg hroom]
    rw [final_of_error hrun]
    exact .touched .refl

/-- A call that loads a program goes on if there is one. -/
theorem outcome_loadProgram {α : Type} {program : Except SyscallError (Option Image)}
    {next : Pid × Image → Call α} (hnext : ∀ image, program = .ok (some image) → Outcome e s
      (final (next (s.nextUserPid, image)) { s with nextUserPid := s.nextUserPid + 1 })) :
    Outcome e s (final (loadProgram program >>= next) s) := by
  rcases loadProgram_cases program s with ⟨err, s₀, hcurrent, htasks, h⟩ |
    ⟨image, himage, h⟩
  · rw [final_of_error (bind_of_error h)]
    exact .touched (.of_tasks hcurrent htasks)
  · rw [final_congr (bind_of_ok h)]
    exact hnext image himage

theorem outcome_spawnUser (program : Except SyscallError (Option Image))
    (hkernel : s.currentTask.any (!·.user)) :
    Outcome (.spawnUser program) s (final (spawnUser program) s) := by
  refine outcome_loadProgram ?_
  rintro image rfl
  exact outcome_install rfl rfl (.booted image hkernel)

theorem outcome_spawnChild {parent : Task} (hparent : s.currentTask = some parent)
    (program : Except SyscallError (Option Image)) :
    Outcome (.spawnChild program) s (final (sysSpawn program) s) := by
  refine outcome_loadProgram ?_
  rintro image rfl
  have hcreds : (s.currentTask.map Task.creds).getD rootCredentials = parent.creds := by
    rw [hparent]
    rfl
  have hpid : s.currentPid = parent.pid := by
    rw [currentPid, hparent]
    rfl
  have hbirth := Birth.spawned parent image hparent
  rw [← hcreds, ← hpid] at hbirth
  exact outcome_install rfl rfl hbirth

theorem outcome_exec (program : Except SyscallError (Option Image)) :
    Outcome (.exec program) s (final (sysExec program) s) := by
  refine outcome_loadProgram ?_
  rintro image rfl
  rw [final_modify]
  refine .touched ⟨rfl, Slots.related_modify (fun _ _ => .refl) fun t _ => ?_,
    Slots.length_modify _ _ _⟩
  exact ⟨rfl, rfl, Or.inl rfl, rfl, Or.inl rfl, Or.inl rfl, Or.inl rfl, Or.inl rfl,
    Or.inr ⟨rfl, image, rfl, rfl⟩⟩

/-- Reaping finds no child, or takes a zombie out of its slot. -/
theorem reapZombieChildFiltered_cases (w : Wait) (s : TaskTable) :
    (s.reapZombieChildFiltered w = none ∧ Slots.find (reapable w) s.tasks = none) ∨
      ∃ i child, s.task i = some child ∧ child.state = .zombie ∧
        s.reapZombieChildFiltered w = some (child, { s with tasks := Slots.clear i s.tasks }) := by
  unfold reapZombieChildFiltered
  cases hfind : Slots.find (reapable w) s.tasks with
  | none => exact Or.inl ⟨rfl, rfl⟩
  | some i =>
    obtain ⟨child, hchild, hmatch, -⟩ := Slots.find_eq_some hfind
    refine Or.inr ⟨i, child, hchild, ?_, ?_⟩
    · simpa [reapable] using (Bool.and_eq_true_iff.mp hmatch).2
    · simp only [Option.bind_eq_bind, Option.bind_some]
      rw [show s.task i = some child from hchild]
      rfl

theorem outcome_waitRound {s s₀ : TaskTable} (w : Wait) (nohang : Bool)
    (h : Touching e s s₀) (huser : s.currentTask.any Task.user)
    (hw : ∀ t, s.currentTask = some t → w.parent = t.pid ∨ t.waiting = some w) :
    Outcome e s (final (waitRound w nohang) s₀) := by
  rcases reapZombieChildFiltered_cases w s₀ with ⟨hreap, hnone⟩ |
    ⟨i, child, hchild, hzombie, hreap⟩
  · cases nohang with
    | true =>
      have hrun : waitRound w true s₀ = .ok .nothing s₀ := by
        rw [waitRound, get_bind_run, hreap]
        rfl
      rw [final_of_ok hrun]
      exact .touched h
    | false =>
      have hrun : waitRound w false s₀ = .ok .blocked (s₀.blockAndReschedule (some w)) := by
        rw [waitRound, get_bind_run, hreap]
        rfl
      rw [final_of_ok hrun]
      refine .blocked (some w) s₀ h huser (fun w' hw' => ?_) (fun w' t hw' ht => ?_) rfl
      · rwa [← Option.some_inj.mp hw']
      · rw [← Option.some_inj.mp hw']
        exact hw t ht
  · have hrun : waitRound w nohang s₀ =
        .ok (.child child.pid child.exitStatus)
          { s₀ with tasks := Slots.clear i s₀.tasks } := by
      rw [waitRound, get_bind_run, hreap]
      rfl
    rw [final_of_ok hrun]
    exact .reaped i child s₀ h hchild hzombie rfl

theorem outcome_wait (pid : Int32) (statusPtr : Bool) (options : UInt32)
    (huser : s.currentTask.any Task.user) :
    Outcome (.wait pid statusPtr options) s
      (final (sysWait pid statusPtr options) s) := by
  refine final_require_rule (.touched .refl) fun _ => ?_
  refine final_require_rule (.touched .refl) fun _ => ?_
  rw [final_congr (get_bind_run _ s)]
  refine final_require_rule (.touched .refl) fun _ => ?_
  refine final_require_rule (.touched .refl) fun _ => ?_
  refine outcome_waitRound _ _ .refl huser fun t ht => Or.inl ?_
  rw [currentPid, ht]
  rfl

theorem outcome_resumeWait {t : Task} (ht : s.currentTask = some t)
    (hrunning : t.state ≠ .blocked) (huser : t.user = true) {w : Wait}
    (hw : t.waiting = some w) : Outcome e s (final (resumeWait w) s) := by
  have htouch : Touching e s
      (s.modifyCurrent fun t => { t with waiting := none }) := by
    refine .modifyCurrent fun t' ht' => ?_
    cases ht.symm.trans ht'
    exact ⟨rfl, rfl, Or.inl rfl, rfl, Or.inl rfl, Or.inl rfl, Or.inr ⟨hrunning, rfl⟩,
      Or.inl rfl, Or.inl rfl⟩
  rw [resumeWait, final_congr (modify_bind_run _ _ s), final_congr (get_bind_run _ _)]
  refine final_require_rule (.touched htouch) fun _ => ?_
  refine outcome_waitRound _ _ htouch (by simpa [ht] using huser) fun t' ht' => ?_
  cases ht.symm.trans ht'
  exact Or.inr hw

theorem outcome_kill (pid sig : Int32) : Outcome (.kill pid sig) s (final (sysKill pid sig) s) := by
  refine final_require_rule (.touched .refl) fun _ => ?_
  cases signalToJudge sig with
  | none => exact .touched .refl
  | some signal =>
    dsimp only
    rw [final_congr (get_bind_run _ s)]
    cases (Slots.find (·.pid = pid.toUInt32) s.tasks).bind s.task with
    | none => exact .touched .refl
    | some target =>
      dsimp only
      refine final_require_rule (.touched .refl) fun _ => ?_
      rw [final_modify]
      split
      · exact .touched .refl
      · exact .touched (.notifyFirst rfl _)

theorem outcome_sigaction (signum : Int32) (handler : UInt64) :
    Outcome (.sigaction signum handler) s (final (sysSigaction signum handler) s) := by
  refine final_require_rule (.touched .refl) fun _ => ?_
  refine final_require_rule (.touched .refl) fun _ => ?_
  exact .touched (.modifyCurrent fun _ _ => Task.touched_signals)

theorem outcome_setpgid (pid pgid : Pid) :
    Outcome (.setpgid pid pgid) s (final (sysSetpgid pid pgid) s) := by
  rw [sysSetpgid, final_congr (get_bind_run _ s)]
  refine final_require_rule (.touched .refl) fun _ => ?_
  refine .touched ⟨rfl, ?_, Slots.length_modifyFirst _ _ _⟩
  exact Slots.related_modifyFirst (fun _ _ => .refl) fun _ _ hfirst => Task.touched_regroup hfirst

variable {f : Credentials → Except SyscallError Credentials}

theorem changeCreds_of_ok {t : Task} (ht : s.currentTask = some t) {creds : Credentials}
    (h : f t.creds = .ok creds) :
    changeCreds f s = .ok () (s.modifyCurrent fun t => { t with creds }) := by
  rw [changeCreds, get_bind_run, ht]
  simp only [h]
  rfl

theorem outcome_changeCreds (hf : ∀ t t' : Task, f t.creds = .ok t'.creds →
      (∃ uid, e = .setuid uid ∧ setuid uid t.creds = .ok t'.creds) ∨
        ∃ gid, e = .setgid gid ∧ setgid gid t.creds = .ok t'.creds) :
    Outcome e s (final (changeCreds f) s) := by
  cases ht : s.currentTask with
  | none =>
    have hrun : changeCreds f s = .error .ESRCH s := by
      rw [changeCreds, get_bind_run, ht]
      rfl
    rw [final_of_error hrun]
    exact .touched .refl
  | some t =>
    cases hcreds : f t.creds with
    | error err =>
      have hrun : changeCreds f s = .error err s := by
        rw [changeCreds, get_bind_run, ht]
        simp only [hcreds]
        rfl
      rw [final_of_error hrun]
      exact .touched .refl
    | ok creds =>
      rw [final_of_ok (changeCreds_of_ok ht hcreds)]
      refine .touched (.modifyCurrent fun t' ht' => ?_)
      cases ht.symm.trans ht'
      exact ⟨rfl, rfl, Or.inl rfl, rfl, Or.inl rfl, Or.inl rfl, Or.inl rfl,
        Or.inr ⟨rfl, hf t { t with creds } hcreds⟩, Or.inl rfl⟩

theorem outcome_takeDefaultAction {s s₀ : TaskTable} (h : Touching e s s₀)
    (huser : s.currentTask.any Task.user)
    (hends : SignalState.defaultAction sig = .terminate → e.terminates s = true) :
    Outcome e s (s₀.takeDefaultAction sig) := by
  unfold takeDefaultAction
  cases hact : SignalState.defaultAction sig with
  | terminate => exact .exited (-1) s₀ h huser (hends hact) rfl
  | stop => exact .blocked none s₀ h huser nofun nofun rfl
  | ignore => exact .touched h

theorem outcome_deliverSignal (written : Bool) (huser : s.currentTask.any Task.user) :
    Outcome (.deliverSignal written) s (s.deliverPendingSignal written) := by
  unfold deliverPendingSignal
  cases htake : s.currentTask.bind fun t => t.signals.takePending with
  | none => exact .touched .refl
  | some taken =>
    obtain ⟨sig, signals⟩ := taken
    have htouch : Touching (.deliverSignal written) s
        (s.modifyCurrent fun t => { t with signals }) :=
      .modifyCurrent fun _ _ => Task.touched_signals
    dsimp only
    cases hhandler : signals.getHandler sig with
    | ign => exact .touched htouch
    | dfl =>
      refine outcome_takeDefaultAction htouch huser fun hact => ?_
      simp [Event.terminates, htake, hact, hhandler]
    | user addr =>
      cases written with
      | true => exact .touched htouch
      | false =>
        refine outcome_takeDefaultAction htouch huser fun hact => ?_
        simp [Event.terminates, htake, hact, hhandler]

theorem outcome_scheduled {s₀ : TaskTable} (hcurrent : s₀.current = s.current)
    (htasks : s₀.tasks = s.tasks) : Outcome e s s₀.schedule :=
  .scheduled s₀ (.of_tasks hcurrent htasks) rfl

theorem outcome_byKernel {f : TaskTable → TaskTable}
    (h : s.currentTask.any (!·.user) → Outcome e s (f s)) : Outcome e s (byKernel f s) := by
  unfold byKernel
  split
  · rename_i hkernel
    exact h hkernel
  · exact .touched .refl

theorem outcome_byUser {f : TaskTable → TaskTable}
    (h : ∀ t, s.currentTask = some t → t.user = true → Outcome e s (f s)) :
    Outcome e s (byUser f s) := by
  unfold byUser
  cases ht : s.currentTask with
  | none => exact .touched .refl
  | some t =>
    split
    · rename_i hactive
      have huser : t.user = true ∧ t.waiting.isNone = true := by
        simpa using hactive
      exact h t ht huser.1
    · exact .touched .refl

/-- What a step can do, if the current task is running. -/
theorem step_outcome {t : Task} (ht : s.currentTask = some t)
    (hrunning : t.state = .running) (e : Event) : Outcome e s (step e s) := by
  have hany (t' : Task) (ht' : s.currentTask = some t') (huser : t'.user = true) :
      s.currentTask.any Task.user := by simpa [ht'] using huser
  cases e with
  | timerTick =>
    unfold step timerTick
    dsimp only
    split
    · exact outcome_scheduled rfl rfl
    · exact .touched (.of_tasks rfl rfl)
  | yield => exact outcome_scheduled rfl rfl
  | spawn stack => exact outcome_byKernel (outcome_spawn stack)
  | spawnUser program => exact outcome_byKernel (outcome_spawnUser program)
  | terminalSignal pgid sig => exact .touched (.sendSignalToGroup rfl)
  | serialCtrlC => exact .touched (.signalForeground rfl)
  | fork pageTable stack =>
    exact outcome_byUser fun _ _ _ => outcome_fork pageTable stack
  | clone flags copy stack =>
    exact outcome_byUser fun _ _ _ => outcome_clone flags copy stack
  | spawnChild program =>
    exact outcome_byUser fun _ ht _ => outcome_spawnChild ht program
  | exec program => exact outcome_byUser fun _ _ _ => outcome_exec program
  | exit status =>
    exact outcome_byUser fun t ht huser => .exited status s .refl (hany t ht huser) rfl rfl
  | wait pid statusPtr options =>
    exact outcome_byUser fun t ht huser =>
      outcome_wait pid statusPtr options (hany t ht huser)
  | resumeWait =>
    simp only [step, ht, Option.bind_some]
    cases huser : t.user with
    | false => exact .touched .refl
    | true =>
      cases hw : t.waiting with
      | none => exact .touched .refl
      | some w => exact outcome_resumeWait ht (by simp [hrunning]) huser hw
  | kill pid sig => exact outcome_byUser fun _ _ _ => outcome_kill pid sig
  | sigaction signum handler =>
    exact outcome_byUser fun _ _ _ => outcome_sigaction signum handler
  | setpgid pid pgid => exact outcome_byUser fun _ _ _ => outcome_setpgid pid pgid
  | setsid =>
    exact outcome_byUser fun _ _ _ => .touched (.modifyCurrent fun _ _ => Task.touched_regroup rfl)
  | setuid uid =>
    exact outcome_byUser fun _ _ _ =>
      outcome_changeCreds fun _ _ h => Or.inl ⟨uid, rfl, h⟩
  | setgid gid =>
    exact outcome_byUser fun _ _ _ =>
      outcome_changeCreds fun _ _ h => Or.inr ⟨gid, rfl, h⟩
  | deliverSignal written =>
    exact outcome_byUser fun t ht huser =>
      outcome_deliverSignal written (hany t ht huser)

end TaskTable

end RacOS.Tasks
