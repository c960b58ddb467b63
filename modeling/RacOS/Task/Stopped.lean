import RacOS.Task.Waiting

/-!
# Stopped tasks

A stop signal whose default action is taken blocks the current task, in the same
state as a task that waits for a child.  Whatever is sent to a blocked task wakes
it, and so does the end of a child: a stopped task stays so exactly as long as
nothing reaches it.
-/

namespace RacOS.Tasks

open Program TaskTable

/-! ## What can reach a task -/

namespace TaskTable

variable {i : ℕ} {s : TaskTable}

/-- The current task may send the signal to the target. -/
def maySignal (target : Task) (signal : Signal) (s : TaskTable) : Bool :=
  canSignal ((s.currentTask.map Task.creds).getD rootCredentials) target.creds
    (target.sessionId = (s.currentTask.map Task.sessionId).getD 0) signal

/-- The slot and the signal of a call of `sys_kill` that sends one. -/
def killed (pid sig : Int32) (s : TaskTable) : Option (ℕ × Signal) :=
  if 0 < pid ∧ sig ≠ 0 then
    (signalToJudge sig).bind fun signal =>
      (Slots.find (·.pid = pid.toUInt32) s.tasks).bind fun i =>
        if (s.task i).any fun target => s.maySignal target signal then some (i, signal) else none
  else none

/-- The end of `child` wakes the task in a slot or tells it. -/
def ToldOf (child : Task) (i : ℕ) (s : TaskTable) : Prop :=
  child.parentPid ≠ 0 ∧
    (Slots.find (Task.sleepsAs child.parentPid) s.tasks = some i ∨
      Slots.find (·.pid = child.parentPid) s.tasks = some i)

instance (child : Task) (i : ℕ) (s : TaskTable) : Decidable (ToldOf child i s) :=
  inferInstanceAs (Decidable (_ ∧ _))

/-- The current task makes a system call outside `sys_wait`. -/
def inCall (s : TaskTable) : Bool := s.currentTask.any fun t => t.user && t.waiting.isNone

/-- The signal that an event sends to the task in a slot; the end of a child sends
it `SIGCHLD`. -/
def eventSignal (e : Event) (i : ℕ) (s : TaskTable) : Option Signal :=
  match e with
  | .terminalSignal pgid sig => if (s.task i).any (·.pgid = pgid) then some sig else none
  | .serialCtrlC =>
    if 100 ≤ s.currentPid then if s.current = i then some .SIGINT else none
    else if Slots.find Task.isForeground s.tasks = some i then some .SIGINT
    else none
  | .kill pid sig =>
    if s.inCall then
      (s.killed pid sig).bind fun (j, signal) => if j = i then some signal else none
    else none
  | _ =>
    match s.currentTask with
    | some child =>
      if s.inCall ∧ e.terminates s ∧ ToldOf child i s then some .SIGCHLD else none
    | none => none

/-! ## Blocked tasks -/

/-- The task in the slot is blocked. -/
def IsBlocked (i : ℕ) (s : TaskTable) : Prop := ∃ t, s.task i = some t ∧ t.state = .blocked

/-- The task in the slot is blocked and another one is the current task. -/
structure Asleep (i : ℕ) (s : TaskTable) : Prop where
  blocked : IsBlocked i s
  other : s.current ≠ i

theorem asleep_of_scheduled (h : Scheduled s) (hi : IsBlocked i s) :
    Asleep i s := by
  refine ⟨hi, ?_⟩
  rintro rfl
  obtain ⟨t, ht, hrunning⟩ := h.current
  obtain ⟨t', ht', hblocked⟩ := hi
  cases ht.symm.trans ht'
  rw [hrunning] at hblocked
  cases hblocked

/-- The scheduler keeps the current task or chooses one that is ready. -/
theorem schedule_current (s : TaskTable) :
    s.schedule.current = s.current ∨
      (s.task s.schedule.current).any (fun t => t.state = .ready) = true := by
  unfold schedule
  split
  · exact .inl rfl
  · split
    · exact .inl rfl
    · rename_i next hnext
      split
      · exact .inl rfl
      · have hready := List.find?_some hnext
        exact .inr hready

/-- The scheduler leaves blocked tasks alone, the current one too. -/
theorem isBlocked_schedule (h : IsBlocked i s) :
    IsBlocked i s.schedule := by
  obtain ⟨t, ht, hblocked⟩ := h
  unfold schedule
  split
  · exact ⟨t, ht, hblocked⟩
  · split
    · exact ⟨t, ht, hblocked⟩
    · rename_i next hnext
      split
      · exact ⟨t, ht, hblocked⟩
      · have hready := List.find?_some hnext
        have hne : next ≠ i := by
          rintro rfl
          rw [ht] at hready
          simp [hblocked] at hready
        have hleave : t.leave = t := if_neg (by rw [hblocked]; decide)
        refine ⟨t, ?_, hblocked⟩
        simp only [task, switchTo, Slots.get_modify, if_neg hne]
        rw [show Slots.get s.tasks i = some t from ht]
        split
        · rw [Option.map_some, hleave]
        · rfl

namespace Asleep

/-- A change that leaves the slot and the current task as they are. -/
theorem of_task (h : Asleep i s) {s' : TaskTable} (hcurrent : s'.current = s.current)
    (htask : s'.task i = s.task i) : Asleep i s' := by
  obtain ⟨t, ht, hblocked⟩ := h.blocked
  exact ⟨⟨t, htask.trans ht, hblocked⟩, hcurrent ▸ h.other⟩

theorem modifyCurrent (h : Asleep i s) (f : Task → Task) : Asleep i (s.modifyCurrent f) := by
  refine h.of_task rfl ?_
  rw [task_modifyCurrent, if_neg h.other]

theorem place (h : Asleep i s) (t : Task) : Asleep i { s with tasks := Slots.place t s.tasks } := by
  obtain ⟨u, hu, hblocked⟩ := h.blocked
  refine h.of_task rfl ?_
  rw [task, Slots.get_place, if_neg (Slots.ne_firstEmpty hu)]

theorem clear (h : Asleep i s) {j : ℕ} {child : Task} (hchild : s.task j = some child)
    (hzombie : child.state = .zombie) : Asleep i { s with tasks := Slots.clear j s.tasks } := by
  obtain ⟨u, hu, hblocked⟩ := h.blocked
  refine h.of_task rfl ?_
  have hne : j ≠ i := by
    rintro rfl
    cases hchild.symm.trans hu
    rw [hzombie] at hblocked
    cases hblocked
  rw [task, Slots.get_clear, if_neg hne]

/-- The scheduler does not choose a blocked task. -/
theorem schedule (h : Asleep i s) : Asleep i s.schedule := by
  refine ⟨isBlocked_schedule h.blocked, ?_⟩
  rcases schedule_current s with hstay | hready
  · rw [hstay]
    exact h.other
  · intro hcurrent
    obtain ⟨t, ht, hblocked⟩ := h.blocked
    rw [hcurrent, ht] at hready
    simp [hblocked] at hready

theorem blockAndReschedule (h : Asleep i s) (waiting : Option Wait) :
    Asleep i (s.blockAndReschedule waiting) :=
  (h.modifyCurrent _).schedule

end Asleep

/-- What the scheduler leaves blocked was blocked. -/
theorem isBlocked_of_schedule (h : IsBlocked i s.schedule) :
    IsBlocked i s := by
  obtain ⟨t', ht', hblocked⟩ := h
  obtain ⟨t, ht, rfl | rfl | rfl⟩ := (related_schedule s).of_get' ht'
  · exact ⟨t', ht, hblocked⟩
  · cases hblocked
  · unfold Task.leave at hblocked
    split at hblocked
    · cases hblocked
    · exact ⟨t, ht, hblocked⟩

/-- A step that sends no signal and does not end the current task leaves a blocked
one so. -/
theorem Asleep.step {e : Event} (h : Asleep i s) {t : Task}
    (ht : s.currentTask = some t) (hrunning : t.state = .running) (hsends : e.sends = false)
    (hterminates : e.terminates s = false) : Asleep i (s.step e) := by
  have htouched {s' : TaskTable} (htouch : Touching e s s') : Asleep i s' := by
    obtain ⟨u, hu, hblocked⟩ := h.blocked
    obtain ⟨u', hu', hwoken⟩ := htouch.tasks.of_get hu
    refine ⟨⟨u', hu', ?_⟩, by rw [htouch.current]; exact h.other⟩
    rcases hwoken.woken with hsame | hsent
    · rw [hsame, hblocked]
    · rw [hsends] at hsent
      cases hsent
  cases step_outcome ht hrunning e with
  | touched htouch => exact htouched htouch
  | born t hbirth hcurrent htasks =>
    exact (h.place t).of_task hcurrent (by rw [task, task, htasks])
  | scheduled s₀ htouch hs' =>
    rw [hs']
    exact (htouched htouch).schedule
  | blocked waiting s₀ htouch huser hnone hparent hs' =>
    rw [hs']
    exact (htouched htouch).blockAndReschedule waiting
  | exited status s₀ htouch huser hends hs' =>
    rw [hterminates] at hends
    cases hends
  | reaped j child s₀ htouch hchild hzombie hs' =>
    rw [hs']
    exact (htouched htouch).clear hchild hzombie

/-! ## Signals wake -/

variable {t : Task}

section Waking

theorem not_blocked_notify (sig : Signal) (t : Task) : (t.notify sig).state ≠ .blocked :=
  Task.wake_not_blocked _

theorem isBlocked_ite_iff {s' : TaskTable} (h : IsBlocked i s) {p : Prop} [Decidable p]
    {f : Task → Task} (hf : ∀ t, (f t).state ≠ .blocked)
    (htask : s'.task i = if p then (s.task i).map f else s.task i) : IsBlocked i s' ↔ ¬p := by
  obtain ⟨t, ht, hblocked⟩ := h
  rw [ht] at htask
  by_cases hp : p
  · rw [if_pos hp] at htask
    refine ⟨?_, fun hnot => absurd hp hnot⟩
    rintro ⟨t', ht', hblocked'⟩
    cases htask.symm.trans ht'
    exact absurd hblocked' (hf t)
  · rw [if_neg hp] at htask
    exact ⟨fun _ => hp, fun _ => ⟨t, htask, hblocked⟩⟩

theorem isBlocked_sendSignalTo_iff (h : IsBlocked i s) (pid : Pid) (sig : Signal) :
    IsBlocked i (s.sendSignalTo pid sig) ↔ Slots.find (·.pid = pid) s.tasks ≠ some i :=
  isBlocked_ite_iff h (not_blocked_notify sig) (Slots.get_modifyFirst _ _ _ _)

theorem isBlocked_sendSignalToGroup_iff (h : IsBlocked i s) (pgid : Pid) (sig : Signal) :
    IsBlocked i (s.sendSignalToGroup pgid sig) ↔ ¬(s.task i).any (·.pgid = pgid) = true := by
  refine isBlocked_ite_iff h (not_blocked_notify sig) ?_
  obtain ⟨t, ht, -⟩ := h
  rw [task, sendSignalToGroup, Slots.get_map, show Slots.get s.tasks i = some t from ht]
  rw [ht]
  by_cases hgroup : t.pgid = pgid
  · simp [hgroup]
  · simp [hgroup]

theorem isBlocked_signalForeground_iff (h : Asleep i s) (sig : Signal) :
    IsBlocked i (s.signalForeground sig) ↔
      100 ≤ s.currentPid ∨ Slots.find Task.isForeground s.tasks ≠ some i := by
  unfold signalForeground
  by_cases huser : 100 ≤ s.currentPid
  · rw [if_pos huser]
    exact ⟨fun _ => .inl huser, fun _ => (h.modifyCurrent _).blocked⟩
  · rw [if_neg huser]
    have htask : ({ s with tasks := Slots.modifyFirst Task.isForeground (Task.notify sig) s.tasks }
        : TaskTable).task i = if Slots.find Task.isForeground s.tasks = some i then
          (s.task i).map (Task.notify sig) else s.task i :=
      Slots.get_modifyFirst _ _ _ _
    exact (isBlocked_ite_iff h.blocked (not_blocked_notify sig) htask).trans
      ⟨.inr, fun hor => hor.resolve_left huser⟩

theorem final_sysKill (pid sig : Int32) (s : TaskTable) :
    final (sysKill pid sig) s =
      match s.killed pid sig with
      | some (_, signal) => s.sendSignalTo pid.toUInt32 signal
      | none => s := by
  unfold killed
  rw [sysKill, final_require_bind]
  by_cases hpid : 0 < pid
  swap
  · rw [if_neg hpid, if_neg fun h => hpid h.1]
  rw [if_pos hpid]
  cases hjudge : signalToJudge sig with
  | none =>
    dsimp only
    by_cases hsig : sig = 0 <;> simp [hpid, hsig]
  | some signal =>
    dsimp only
    rw [final_congr (get_bind_run _ s)]
    cases hfind : Slots.find (·.pid = pid.toUInt32) s.tasks with
    | none => by_cases hsig : sig = 0 <;> simp [hpid, hsig]
    | some j =>
      obtain ⟨target, htarget, -⟩ := Slots.find_eq_some hfind
      have hslot : s.task j = some target := htarget
      rw [Option.bind_some, hslot]
      dsimp only
      rw [final_require_bind, final_modify]
      change (if s.maySignal target signal = true then _ else s) = _
      by_cases hsig : sig = 0
      · simp [hsig]
      · by_cases hmay : s.maySignal target signal = true
        · rw [if_pos hmay]
          simp [hpid, hsig, hslot, hmay]
        · rw [if_neg hmay]
          simp [hpid, hsig, hslot, hmay]

/-- The signal of `sys_kill` goes to the first task with the identifier. -/
theorem find_of_killed {pid sig : Int32} {j : ℕ} {signal : Signal}
    (h : s.killed pid sig = some (j, signal)) :
    Slots.find (·.pid = pid.toUInt32) s.tasks = some j := by
  unfold killed at h
  split at h
  swap
  · cases h
  obtain ⟨signal', -, h⟩ := Option.bind_eq_some_iff.mp h
  obtain ⟨j', hfind, h⟩ := Option.bind_eq_some_iff.mp h
  split at h
  · cases h
    exact hfind
  · cases h

theorem isBlocked_kill_iff (h : IsBlocked i s) (pid sig : Int32) :
    IsBlocked i (final (sysKill pid sig) s) ↔
      ((s.killed pid sig).bind fun (j, signal) => if j = i then some signal else none) = none := by
  rw [final_sysKill]
  cases hkilled : s.killed pid sig with
  | none => exact ⟨fun _ => rfl, fun _ => h⟩
  | some target =>
    obtain ⟨j, signal⟩ := target
    dsimp only
    rw [isBlocked_sendSignalTo_iff h, find_of_killed hkilled, Option.bind_some]
    by_cases hj : j = i
    · simp [hj]
    · simp [hj]

/-! ## Ends of children -/

theorem length_adopted (t : Task) (status : Int32) (s : TaskTable) :
    (s.adopted t status).tasks.length = s.tasks.length := by
  unfold adopted reparent modifyCurrent
  dsimp only
  split
  · exact Slots.length_modify _ _ _
  · rw [Slots.length_map, Slots.length_modify]

/-- The end of a task does not change who is found by identifier and state. -/
theorem find_adopted (ht : s.currentTask = some t) (status : Int32) {p : Task → Bool}
    (hzombie : p { t with state := .zombie, exitStatus := status } = p t)
    (hleft : ∀ u, p (t.leftBy u) = p u) :
    Slots.find p (s.adopted t status).tasks = Slots.find p s.tasks := by
  refine Slots.find_congr (length_adopted t status s) fun j => ?_
  rw [show Slots.get (s.adopted t status).tasks j = _ from task_adopted ht status j, task]
  by_cases hj : s.current = j
  · rw [if_pos hj, ← hj, show Slots.get s.tasks s.current = some t from ht]
    exact hzombie
  · rw [if_neg hj]
    cases Slots.get s.tasks j with
    | none => rfl
    | some u => exact hleft u

/-- A blocked task sleeps on when a parent is woken exactly if it is neither the
first sleeper nor the first task with the parent's identifier. -/
theorem isBlocked_wakeParent_iff (h : IsBlocked i s) (pid : Pid) :
    IsBlocked i (s.wakeParent pid) ↔
      ¬(pid ≠ 0 ∧ (Slots.find (Task.sleepsAs pid) s.tasks = some i ∨
        Slots.find (·.pid = pid) s.tasks = some i)) := by
  by_cases hpid : pid = 0
  · rw [wakeParent, if_pos hpid]
    exact ⟨fun _ hne => hne.1 hpid, fun _ => h⟩
  by_cases hsleeper : Slots.find (Task.sleepsAs pid) s.tasks = some i
  · refine ⟨?_, fun hnot => absurd ⟨hpid, .inl hsleeper⟩ hnot⟩
    rintro ⟨u, hu, hblocked⟩
    exact absurd hsleeper ((blocked_wakeParent hu hblocked).2 hpid)
  -- Another sleeper is woken first, which does not change who is found by identifier.
  have hwoken : IsBlocked i
      { s with tasks := Slots.modifyFirst (Task.sleepsAs pid) Task.wake s.tasks } ↔ _ :=
    isBlocked_ite_iff h Task.wake_not_blocked (Slots.get_modifyFirst _ _ _ _)
  have hfind : Slots.find (·.pid = pid)
      (Slots.modifyFirst (Task.sleepsAs pid) Task.wake s.tasks) =
        Slots.find (·.pid = pid) s.tasks := by
    refine Slots.find_congr (Slots.length_modifyFirst _ _ _) fun j => ?_
    rw [Slots.get_modifyFirst]
    split
    · cases Slots.get s.tasks j with
      | none => rfl
      | some t =>
        have hsame : t.wake.pid = t.pid := Task.alike_wake.pid
        simp [hsame]
    · rfl
  rw [wakeParent, if_neg hpid, isBlocked_sendSignalTo_iff (hwoken.mpr hsleeper), hfind]
  exact ⟨fun hne hor => hor.2.elim hsleeper hne, fun hnot hfirst => hnot ⟨hpid, .inr hfirst⟩⟩

/-- The end of the current task leaves a blocked one so exactly if it is not told. -/
theorem isBlocked_exitCurrent_iff (h : Asleep i s) (ht : s.currentTask = some t)
    (hrunning : t.state = .running) (status : Int32) :
    IsBlocked i (s.exitCurrent status) ↔ ¬ToldOf t i s := by
  have hadopted : Asleep i (s.adopted t status) := by
    obtain ⟨u, hu, hblocked⟩ := h.blocked
    refine ⟨⟨t.leftBy u, ?_, by rw [Task.state_leftBy, hblocked]⟩, ?_⟩
    · rw [task_adopted ht, if_neg h.other, hu]
      rfl
    · have hcurrent : (s.adopted t status).current = s.current := by
        unfold adopted reparent
        dsimp only
        split <;> rfl
      rw [hcurrent]
      exact h.other
  have hsleeper : Slots.find (Task.sleepsAs t.parentPid) (s.adopted t status).tasks =
      Slots.find (Task.sleepsAs t.parentPid) s.tasks := by
    refine find_adopted ht status ?_ fun u => ?_
    · simp [Task.sleepsAs, hrunning]
    · simp [Task.sleepsAs]
  have hpid : Slots.find (·.pid = t.parentPid) (s.adopted t status).tasks =
      Slots.find (·.pid = t.parentPid) s.tasks :=
    find_adopted ht status rfl fun u => by simp
  have hwake := isBlocked_wakeParent_iff hadopted.blocked t.parentPid
  rw [hsleeper, hpid] at hwake
  rw [exitCurrent_eq ht]
  refine ⟨fun hblocked => hwake.mp (isBlocked_of_schedule hblocked), fun hnot => ?_⟩
  have hasleep : Asleep i (wakeParent t.parentPid (s.adopted t status)) :=
    ⟨hwake.mpr hnot, by rw [current_wakeParent]; exact hadopted.other⟩
  exact hasleep.schedule.blocked

/-- The current task's signals do not matter to who is told of its end. -/
theorem toldOf_signals_iff (t : Task) (signals : SignalState) :
    ToldOf { t with signals } i (s.modifyCurrent fun t => { t with signals }) ↔ ToldOf t i s := by
  have hfind {p : Task → Bool} (hp : ∀ u : Task, p { u with signals } = p u) :
      Slots.find p (s.modifyCurrent fun t => { t with signals }).tasks = Slots.find p s.tasks := by
    refine Slots.find_congr (Slots.length_modify _ _ _) fun j => ?_
    rw [modifyCurrent, Slots.get_modify]
    split
    · cases Slots.get s.tasks j with
      | none => rfl
      | some u => exact hp u
    · rfl
  unfold ToldOf
  rw [hfind fun u => rfl, hfind fun u => rfl]

theorem isBlocked_deliver_iff (h : Asleep i s) (ht : s.currentTask = some t)
    (hrunning : t.state = .running) (written : Bool) :
    IsBlocked i (s.deliverPendingSignal written) ↔
      ¬((Event.deliverSignal written).terminates s = true ∧ ToldOf t i s) := by
  unfold deliverPendingSignal Event.terminates
  cases htake : s.currentTask.bind fun t => t.signals.takePending with
  | none => exact ⟨fun _ hnot => absurd hnot.1 (by simp), fun _ => h.blocked⟩
  | some taken =>
    obtain ⟨sig, signals⟩ := taken
    have hmodified := h.modifyCurrent fun t => { t with signals }
    have hcurrent : (s.modifyCurrent fun t => { t with signals }).currentTask =
        some { t with signals } := by
      rw [currentTask_modifyCurrent, ht]
      rfl
    have hdefault : IsBlocked i
        ((s.modifyCurrent fun t => { t with signals }).takeDefaultAction sig) ↔
          ¬(SignalState.defaultAction sig = .terminate ∧ ToldOf t i s) := by
      unfold takeDefaultAction
      cases SignalState.defaultAction sig with
      | terminate =>
        dsimp only
        rw [isBlocked_exitCurrent_iff hmodified hcurrent hrunning, toldOf_signals_iff t]
        simp
      | stop => exact ⟨fun _ hnot => absurd hnot.1 (by simp),
          fun _ => (hmodified.blockAndReschedule none).blocked⟩
      | ignore => exact ⟨fun _ hnot => absurd hnot.1 (by simp), fun _ => hmodified.blocked⟩
    dsimp only
    cases signals.getHandler sig with
    | ign => exact ⟨fun _ hnot => absurd hnot.1 (by simp), fun _ => hmodified.blocked⟩
    | dfl => simpa using hdefault
    | user addr =>
      cases written with
      | true => exact ⟨fun _ hnot => absurd hnot.1 (by simp), fun _ => hmodified.blocked⟩
      | false => simpa using hdefault

theorem isBlocked_byUser_iff (h : IsBlocked i s) {f : TaskTable → TaskTable} {p : Prop}
    (hf : IsBlocked i (f s) ↔ p) : IsBlocked i (byUser f s) ↔ (s.inCall = true → p) := by
  have hby : s.byUser f = if s.inCall = true then f s else s := rfl
  rw [hby]
  by_cases hcall : s.inCall = true
  · rw [if_pos hcall]
    exact hf.trans ⟨fun hp _ => hp, fun hp => hp hcall⟩
  · rw [if_neg hcall]
    exact ⟨fun _ hnot => absurd hnot hcall, fun _ => h⟩

end Waking

theorem eventSignal_of_not_terminates {e : Event}
    (hterminates : e.terminates s = false) (hsends : e.sends = false) :
    eventSignal e i s = none := by
  unfold eventSignal
  split
  · cases hsends
  · cases hsends
  · cases hsends
  · split
    · simp [hterminates]
    · rfl

/-- A blocked task stays blocked exactly if the event sends it no signal. -/
theorem isBlocked_step_iff (hs : Scheduled s) (hi : IsBlocked i s)
    (e : Event) : IsBlocked i (step e s) ↔ eventSignal e i s = none := by
  have h := asleep_of_scheduled hs hi
  obtain ⟨t, ht, hrunning⟩ := hs.current
  have hquiet (hsends : e.sends = false) (hterminates : e.terminates s = false) :
      IsBlocked i (step e s) ↔ eventSignal e i s = none :=
    ⟨fun _ => eventSignal_of_not_terminates hterminates hsends,
      fun _ => (h.step ht hrunning hsends hterminates).blocked⟩
  cases e with
  | terminalSignal pgid sig =>
    refine (isBlocked_sendSignalToGroup_iff hi pgid sig).trans ?_
    unfold eventSignal
    by_cases hgroup : (s.task i).any (·.pgid = pgid) = true
    · simp [hgroup]
    · simp [hgroup]
  | serialCtrlC =>
    refine (isBlocked_signalForeground_iff h .SIGINT).trans ?_
    unfold eventSignal
    by_cases huser : 100 ≤ s.currentPid
    · simp [huser, h.other]
    · simp [huser]
  | exit status =>
    refine (isBlocked_byUser_iff hi (isBlocked_exitCurrent_iff h ht hrunning status)).trans ?_
    unfold eventSignal
    simp [ht, Event.terminates]
  | kill pid sig =>
    refine (isBlocked_byUser_iff hi (isBlocked_kill_iff hi pid sig)).trans ?_
    unfold eventSignal
    by_cases hcall : s.inCall = true
    · simp [hcall]
    · simp [hcall]
  | deliverSignal written =>
    refine (isBlocked_byUser_iff hi (isBlocked_deliver_iff h ht hrunning written)).trans ?_
    unfold eventSignal
    simp [ht]
  | timerTick | yield | spawn | spawnUser | fork | clone | spawnChild | exec | wait | resumeWait
  | sigaction | setpgid | setsid | setuid | setgid => exact hquiet rfl rfl

/-! ## Stopped tasks -/

/-- The signal that is delivered next stops the current task: its default action is
to stop and is taken. -/
def stops (written : Bool) (s : TaskTable) : Bool :=
  s.inCall &&
    match s.currentTask.bind fun t => t.signals.takePending with
    | none => false
    | some (sig, signals) =>
      SignalState.defaultAction sig = .stop &&
        match signals.getHandler sig with
        | .ign => false
        | .dfl => true
        | .user _ => !written

theorem isBlocked_of_stops (ht : s.currentTask = some t) {written : Bool}
    (h : s.stops written = true) : IsBlocked s.current (step (.deliverSignal written) s) := by
  have hby : step (.deliverSignal written) s =
      if s.inCall = true then s.deliverPendingSignal written else s := rfl
  unfold stops at h
  rw [Bool.and_eq_true] at h
  rw [hby, if_pos h.1, deliverPendingSignal]
  obtain ⟨-, h⟩ := h
  cases htake : s.currentTask.bind fun t => t.signals.takePending with
  | none =>
    rw [htake] at h
    cases h
  | some taken =>
    obtain ⟨sig, signals⟩ := taken
    rw [htake] at h
    dsimp only at h ⊢
    rw [Bool.and_eq_true, decide_eq_true_eq] at h
    have hblocked : IsBlocked s.current
        ((s.modifyCurrent fun t => { t with signals }).takeDefaultAction sig) := by
      rw [takeDefaultAction, h.1]
      refine isBlocked_schedule ⟨{ t with signals, state := .blocked, waiting := none }, ?_, rfl⟩
      refine (currentTask_modifyCurrent _ (s.modifyCurrent fun t => { t with signals })).trans ?_
      rw [currentTask_modifyCurrent, ht]
      rfl
    obtain ⟨-, h⟩ := h
    cases hhandler : signals.getHandler sig with
    | ign =>
      rw [hhandler] at h
      cases h
    | dfl => exact hblocked
    | user addr =>
      rw [hhandler] at h
      cases written with
      | true => cases h
      | false => exact hblocked

/-- The event sends the task in the slot a signal that is to end its stop. -/
def resumes (e : Event) (i : ℕ) (s : TaskTable) : Bool :=
  (eventSignal e i s).any fun sig => sig = .SIGCONT || sig = .SIGKILL

/-- The task in the slot is stopped, and stays so until it is sent `SIGCONT` or
`SIGKILL`. -/
def StaysStopped (i : ℕ) : List Event → TaskTable → Prop
  | [], s => IsBlocked i s
  | e :: later, s => IsBlocked i s ∧ (resumes e i s = true ∨ StaysStopped i later (step e s))

/-- Until it is sent `SIGCONT` or `SIGKILL`, the task in the slot is sent no signal:
not by another task, not to its group, and not by the end of a child. -/
def Undisturbed (i : ℕ) : List Event → TaskTable → Prop
  | [], _ => True
  | e :: later, s =>
    resumes e i s = true ∨ eventSignal e i s = none ∧ Undisturbed i later (step e s)

theorem StaysStopped.isBlocked {later : List Event}
    (h : StaysStopped i later s) : IsBlocked i s := by
  cases later with
  | nil => exact h
  | cons _ _ => exact h.1

theorem staysStopped_iff_undisturbed (hs : Scheduled s)
    (hi : IsBlocked i s) (later : List Event) : StaysStopped i later s ↔ Undisturbed i later s := by
  induction later generalizing s with
  | nil => exact ⟨fun _ => trivial, fun _ => hi⟩
  | cons e later ih =>
    have hstep := isBlocked_step_iff hs hi e
    constructor
    · rintro ⟨-, hresumes | hrest⟩
      · exact .inl hresumes
      · have hblocked := hrest.isBlocked
        exact .inr ⟨hstep.mp hblocked, (ih (hs.step e) hblocked).mp hrest⟩
    · rintro (hresumes | ⟨hnone, hrest⟩)
      · exact ⟨hi, .inl hresumes⟩
      · exact ⟨hi, .inr ((ih (hs.step e) (hstep.mpr hnone)).mpr hrest)⟩

/-- A task that a stop signal has stopped, in any run, stays stopped until `SIGCONT`
or `SIGKILL` exactly if nothing else is sent to it. -/
theorem staysStopped_iff (events later : List Event) (written : Bool)
    (hstop : (run events boot).stops written = true) :
    StaysStopped (run events boot).current later
        (step (.deliverSignal written) (run events boot)) ↔
      Undisturbed (run events boot).current later
        (step (.deliverSignal written) (run events boot)) := by
  have hs : Scheduled (run events boot) := scheduled_run events
  obtain ⟨t, ht, -⟩ := hs.current
  exact staysStopped_iff_undisturbed (hs.step _) (isBlocked_of_stops ht hstop) later

/-- Init is started, runs, and is sent `SIGTSTP` by the terminal. -/
def suspendInit : List Event :=
  [.spawnUser (.ok (some ⟨0x200000, 0x300000⟩)), .yield, .terminalSignal 100 .SIGTSTP]

/-- Init stays stopped while the clock ticks, until it is continued. -/
theorem staysStopped_ticks :
    StaysStopped 1 [.timerTick, .terminalSignal 100 .SIGCONT]
      (step (.deliverSignal false) (run suspendInit boot)) :=
  (staysStopped_iff suspendInit [.timerTick, .terminalSignal 100 .SIGCONT] false
    (by decide)).mpr (.inr ⟨by decide, .inl (by decide)⟩)

/-- A change of the window's size resumes it. -/
theorem not_staysStopped_windowSize :
    ¬StaysStopped 1 [.terminalSignal 100 .SIGWINCH]
      (step (.deliverSignal false) (run suspendInit boot)) := by
  rintro ⟨-, hresumes | ⟨t, ht, hblocked⟩⟩
  · exact absurd hresumes (by decide)
  · cases ht
    exact absurd hblocked (by decide)

end TaskTable

end RacOS.Tasks
