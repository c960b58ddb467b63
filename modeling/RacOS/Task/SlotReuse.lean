import RacOS.Task.Identity

/-!
# Reuse of task slots

A task that is reaped leaves an empty slot, and the table never gets shorter.
The calls that create a task compare the number of slots, not of tasks, with the
maximum, so empty slots are of no use once the table has its full length.  The
table stays short of that in every run in which every task is created while at
least two tasks more would be allowed.
-/

namespace RacOS.Tasks

open Program TaskTable

/-- The table's length is below the maximum. -/
def TaskTable.Short (s : TaskTable) : Prop := s.tasks.length < maxTasks

namespace TaskTable

variable {s : TaskTable}

/-! ## The length is kept -/

@[simp] theorem length_modifyCurrent (f : Task → Task) (s : TaskTable) :
    (s.modifyCurrent f).tasks.length = s.tasks.length :=
  Slots.length_modify _ _ _

@[simp] theorem length_schedule (s : TaskTable) : s.schedule.tasks.length = s.tasks.length := by
  unfold schedule
  split
  · rfl
  split
  · rfl
  split
  · rfl
  · simp [switchTo]

@[simp] theorem length_blockAndReschedule (w : Option Wait) (s : TaskTable) :
    (s.blockAndReschedule w).tasks.length = s.tasks.length := by
  simp [blockAndReschedule]

@[simp] theorem length_sendSignalTo (pid : Pid) (sig : Signal) (s : TaskTable) :
    (s.sendSignalTo pid sig).tasks.length = s.tasks.length :=
  Slots.length_modifyFirst _ _ _

@[simp] theorem length_exitCurrent (status : Int32) (s : TaskTable) :
    (s.exitCurrent status).tasks.length = s.tasks.length := by
  unfold exitCurrent
  split
  · simp only [length_schedule, wakeParent, reparent]
    split <;> split <;> simp
  · exact length_schedule s

end TaskTable

/-! ## Runs -/

/-- Does the event create a task? -/
def Event.creates : Event → Bool
  | .spawn _ | .spawnUser _ | .fork _ _ | .clone _ _ _ | .spawnChild _ => true
  | _ => false

/-- A task is created only while the table holds at least two tasks fewer than the
maximum. -/
def Roomy (e : Event) (s : TaskTable) : Prop :=
  e.creates = true → Slots.count s.tasks + 1 < maxTasks

instance (e : Event) (s : TaskTable) : Decidable (Roomy e s) :=
  inferInstanceAs (Decidable (_ → _))

namespace TaskTable

variable {s : TaskTable}

/-- One step keeps the table short if there is room for what it creates. -/
theorem Short.step {e : Event} (hs : s.Short) (hscheduled : Scheduled s) (hroom : Roomy e s) :
    (s.step e).Short := by
  obtain ⟨t, ht, hrunning⟩ := hscheduled.current
  have hsame {s' : TaskTable} (hlength : s'.tasks.length = s.tasks.length) : s'.Short := by
    rw [Short, hlength]
    exact hs
  cases step_outcome ht hrunning e with
  | touched htouch => exact hsame htouch.length
  | born t hbirth hcurrent htasks =>
    have hcreates : e.creates = true := by cases hbirth <;> rfl
    rw [Short, htasks, Slots.length_place]
    exact max_lt hs (hroom hcreates)
  | scheduled s₀ htouch hs' => exact hsame (by rw [hs', length_schedule, htouch.length])
  | blocked waiting s₀ htouch huser hnone hparent hs' =>
    exact hsame (by rw [hs', length_blockAndReschedule, htouch.length])
  | exited status s₀ htouch huser hends hs' =>
    exact hsame (by rw [hs', length_exitCurrent, htouch.length])
  | reaped i child s₀ htouch hchild hzombie hs' =>
    exact hsame (by rw [hs', Slots.length_clear, htouch.length])

/-- In a table below the maximum length a task is installed. -/
theorem install_of_short (t : Task) (hs : s.Short) :
    install t s = .ok t.pid { s with tasks := Slots.place { t with state := .ready } s.tasks } := by
  rw [install, get_bind_run, require_bind_run, if_pos (show s.tasks.length < maxTasks from hs)]
  rfl

end TaskTable

/-- In every run that creates tasks only while at least two more would be allowed,
there is always room for another task, and it is installed. -/
theorem install_ok_of_roomy (events : List Event)
    (hroomy : Runs.Along step Roomy events boot) (t : Task) :
    Slots.count (run events boot).tasks < maxTasks ∧
      install t (run events boot) =
        .ok t.pid { run events boot with
          tasks := Slots.place { t with state := .ready } (run events boot).tasks } := by
  have hshort : (run events boot).Short :=
    (Runs.invariant_of_along (I := fun s => Scheduled s ∧ s.Short)
      (fun e _ h hroom => ⟨h.1.step e, h.2.step h.1 hroom⟩)
      ⟨scheduled_boot, show boot.tasks.length < maxTasks by decide⟩ hroomy).2
  refine ⟨lt_of_le_of_lt List.countP_le_length hshort, install_of_short t hshort⟩

/-- A process that forks until the table has its full length, waits, and reaps the
first child that exits. -/
def reapedOnce : List Event :=
  [.spawnUser (.ok (some ⟨1, 1⟩)), .yield] ++ List.replicate 62 (.fork (some 1) (some 1)) ++
    [.wait (-1) true 0, .exit 0] ++ List.replicate 62 .yield ++ [.resumeWait]

/-- A slot is empty, and no task can be put into it. -/
theorem install_refused_after_reaping :
    Slots.count (run reapedOnce boot).tasks < maxTasks ∧
      install idle (run reapedOnce boot) = .error .EAGAIN (run reapedOnce boot) := by
  obtain ⟨hcount, hlength⟩ : (fun tasks : List (Option Task) =>
      Slots.count tasks = 63 ∧ tasks.length = 64) (run reapedOnce boot).tasks := by decide +kernel
  refine ⟨by rw [hcount]; decide, ?_⟩
  rw [install, get_bind_run, require_bind_run, if_neg (by rw [hlength]; decide)]

/-- The condition and the conclusion at a process that forks twice and reaps a
child. -/
theorem install_ok_of_roomy_reaped :
    ∃ s', install idle (run [.spawnUser (.ok (some ⟨1, 1⟩)), .yield,
      .fork (some 1) (some 1), .fork (some 1) (some 1), .wait (-1) true 0, .exit 0,
      .yield, .yield, .resumeWait] boot) = .ok 0 s' :=
  ⟨_, (install_ok_of_roomy _ (by decide +kernel) idle).2⟩

end RacOS.Tasks
