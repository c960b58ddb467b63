import RacOS.Task.Identity

/-!
# Waiting for children

A task that is blocked in `sys_wait` has no zombie child it asks for.  When it
blocks, it has just looked for one; afterwards a zombie can become its child only
when a task exits, which wakes the parent of that task.  The orphans that an
exiting task leaves to init are not announced, so an exit needs care when some of
them are already zombies.
-/

namespace RacOS.Tasks

open Program TaskTable

/-- The task is blocked in `sys_wait`, and its filter asks for the other task. -/
def Task.asksFor (u z : Task) : Bool :=
  u.state = .blocked && u.waiting.any fun w => childMatchesWaitFilter w z

/-- No task is blocked in `sys_wait` while it has a zombie child that matches its
filter. -/
def NoLostWakeup (s : TaskTable) : Prop :=
  ∀ i j u z w, s.task i = some u → u.state = .blocked → u.waiting = some w →
    s.task j = some z → z.state = .zombie →
    childMatchesWaitFilter { w with parent := u.pid } z = false

/-- The invariant: no blocked task asks for a zombie, and the tasks in `sys_wait`
wait for children of their own. -/
structure Attended (s : TaskTable) : Prop where
  noLost : ∀ i j u z, s.task i = some u → s.task j = some z → z.state = .zombie →
    u.asksFor z = false
  parent : ∀ i u w, s.task i = some u → u.waiting = some w → w.parent = u.pid

variable {s s' : TaskTable}

theorem Attended.noLostWakeup (h : Attended s) : NoLostWakeup s := by
  intro i j u z w hu hblocked hw hz hzombie
  have hsame : { w with parent := u.pid } = w := by rw [← h.parent i u w hu hw]
  rw [hsame]
  simpa [Task.asksFor, hblocked, hw] using h.noLost i j u z hu hz hzombie

theorem childMatchesWaitFilter_congr {w : Wait} {t t' : Task} (hpid : t'.pid = t.pid)
    (hparent : t'.parentPid = t.parentPid) (hpgid : t'.pgid = t.pgid) :
    childMatchesWaitFilter w t' = childMatchesWaitFilter w t := by
  simp only [childMatchesWaitFilter, hpid, hparent, hpgid]

variable {t : Task} {e : Event}

namespace Task

/-- The task neither falls asleep nor dies, and stays the child it is. -/
structure Quiet (t t' : Task) : Prop where
  pid : t'.pid = t.pid
  parentPid : t'.parentPid = t.parentPid
  pgid : t'.state = .zombie → t'.pgid = t.pgid
  blocked : t'.state = .blocked → t.state = .blocked ∧ t'.waiting = t.waiting
  zombie : t'.state = .zombie → t.state = .zombie
  waiting : t'.waiting = t.waiting ∨ t'.waiting = none

theorem Quiet.refl : Quiet t t :=
  ⟨rfl, rfl, fun _ => rfl, fun h => ⟨h, rfl⟩, id, Or.inl rfl⟩

theorem Touched.quiet {i : ℕ} {t t' : Task} (h : Touched e s i t t')
    (hspared : e.regroups s = some i → t.state ≠ .zombie) : Quiet t t' := by
  have hzombie : t'.state = .zombie → t.state = .zombie := by
    intro hz
    rcases h.state with hs | ⟨-, hs⟩
    · rwa [← hs]
    · rw [hs] at hz
      cases hz
  refine ⟨h.pid, h.parentPid, fun hz => ?_, fun hb => ?_, hzombie, ?_⟩
  · exact h.pgid.resolve_right fun hslot => hspared hslot (hzombie hz)
  · have hstate : t.state = .blocked := by
      rcases h.state with hs | ⟨hs, -⟩
      · rwa [← hs]
      · exact hs
    rcases h.waiting with hw | ⟨hne, -⟩
    · exact ⟨hstate, hw⟩
    · exact absurd hb hne
  · rcases h.waiting with hw | ⟨-, hw⟩
    · exact Or.inl hw
    · exact Or.inr hw

theorem Rescheduled.quiet {t t' : Task} (h : Rescheduled t t') : Quiet t t' := by
  rcases h with rfl | rfl | rfl
  · exact .refl
  · exact ⟨rfl, rfl, nofun, nofun, nofun, Or.inl rfl⟩
  · unfold leave
    split
    · exact ⟨rfl, rfl, nofun, nofun, nofun, Or.inl rfl⟩
    · exact .refl

theorem Quiet.asksFor {u u' z z' : Task} (hu : Quiet u u') (hz : Quiet z z')
    (hzombie : z'.state = .zombie) (h : u.asksFor z = false) : u'.asksFor z' = false := by
  by_cases hb : u'.state = .blocked
  · obtain ⟨hblocked, hwaiting⟩ := hu.blocked hb
    have hmatch (w : Wait) := childMatchesWaitFilter_congr (w := w) hz.pid hz.parentPid
      (hz.pgid hzombie)
    simpa [Task.asksFor, hb, hblocked, hwaiting, hmatch] using h
  · simp [Task.asksFor, hb]

end Task

/-- The invariant is kept if every task that is still there is quiet. -/
theorem Attended.of_quiet (h : Attended s)
    (hquiet : ∀ i t', s'.task i = some t' → ∃ t, s.task i = some t ∧ t.Quiet t') : Attended s' := by
  refine ⟨fun i j u' z' hu' hz' hzombie => ?_, fun i u' w hu' hw => ?_⟩
  · obtain ⟨u, hu, hqu⟩ := hquiet i u' hu'
    obtain ⟨z, hz, hqz⟩ := hquiet j z' hz'
    exact hqu.asksFor hqz hzombie (h.noLost i j u z hu hz (hqz.zombie hzombie))
  · obtain ⟨u, hu, hqu⟩ := hquiet i u' hu'
    rcases hqu.waiting with hsame | hnone
    · rw [hqu.pid]
      exact h.parent i u w hu (hsame.symm.trans hw)
    · rw [hnone] at hw
      cases hw

/-- The event puts no zombie into another group. -/
def Event.sparesZombies (e : Event) (s : TaskTable) : Bool :=
  ((e.regroups s).bind s.task).all (·.state ≠ .zombie)

theorem Touching.quiet (h : Touching e s s') (he : e.sparesZombies s) {i : ℕ} {t' : Task}
    (ht' : s'.task i = some t') : ∃ t, s.task i = some t ∧ t.Quiet t' := by
  obtain ⟨t, ht, hchange⟩ := h.tasks.of_get' ht'
  have htask : s.task i = some t := ht
  refine ⟨t, ht, hchange.quiet fun hslot => ?_⟩
  simpa [Event.sparesZombies, hslot, htask] using he

theorem Attended.touching (h : Attended s) (he : e.sparesZombies s) (ht : Touching e s s') :
    Attended s' :=
  h.of_quiet fun _ _ ht' => ht.quiet he ht'

theorem Attended.schedule (h : Attended s) : Attended s.schedule :=
  h.of_quiet fun _ _ ht' =>
    let ⟨t, hget, hchange⟩ := (related_schedule s).of_get' ht'
    ⟨t, hget, hchange.quiet⟩

theorem Attended.clear (h : Attended s) (i : ℕ) :
    Attended { s with tasks := Slots.clear i s.tasks } := by
  refine h.of_quiet fun j t ht => ?_
  rw [task, Slots.get_clear] at ht
  split at ht
  · cases ht
  · exact ⟨t, ht, .refl⟩

theorem Attended.place (h : Attended s) (hstate : t.state = .ready)
    (hwaiting : t.waiting = none) (htasks : s'.tasks = Slots.place t s.tasks) : Attended s' := by
  have hnew {i : ℕ} {u : Task} (hu : s'.task i = some u) : u = t ∨ s.task i = some u := by
    rw [task, htasks] at hu
    exact (Slots.get_place_cases hu).imp_left And.right
  refine ⟨fun i j u z hu hz hzombie => ?_, fun i u w hu hw => ?_⟩
  · rcases hnew hz with rfl | hz
    · rw [hstate] at hzombie
      cases hzombie
    · rcases hnew hu with rfl | hu
      · simp [Task.asksFor, hstate]
      · exact h.noLost i j u z hu hz hzombie
  · rcases hnew hu with rfl | hu
    · rw [hwaiting] at hw
      cases hw
    · exact h.parent i u w hu hw

/-- A task that blocks in `sys_wait` has just found no zombie. -/
theorem Attended.blockAndReschedule (h : Attended s) (ht : s.currentTask = some t)
    {waiting : Option Wait}
    (hnone : ∀ w, waiting = some w → Slots.find (reapable w) s.tasks = none)
    (hparent : ∀ w, waiting = some w → w.parent = t.pid) :
    Attended (s.blockAndReschedule waiting) := by
  refine Attended.schedule ⟨fun i j u z hu hz hzombie => ?_, fun i u w hu hw => ?_⟩
  · -- The zombie is not the task that blocks, and was there before.
    have hz₀ : s.task j = some z := by
      rw [task_modifyCurrent] at hz
      split at hz
      · obtain ⟨z₀, -, rfl⟩ := Option.map_eq_some_iff.mp hz
        cases hzombie
      · exact hz
    rw [task_modifyCurrent] at hu
    split at hu
    · obtain ⟨u₀, -, rfl⟩ := Option.map_eq_some_iff.mp hu
      cases hw : waiting with
      | none => simp [Task.asksFor]
      | some w =>
        have hreap := Slots.find_eq_none (hnone w hw) hz₀
        simpa [Task.asksFor, reapable, hzombie] using hreap
    · exact h.noLost i j u z hu hz₀ hzombie
  · rw [task_modifyCurrent] at hu
    split at hu
    · rename_i hi
      obtain ⟨u₀, hu₀, rfl⟩ := Option.map_eq_some_iff.mp hu
      subst hi
      cases ht.symm.trans hu₀
      exact hparent w hw
    · exact h.parent i u w hu hw

/-! ## Exits -/

/-- The exiting task leaves the other one to init. -/
def Task.orphans (t z : Task) : Bool :=
  z.parentPid = t.pid && z.pid ≠ t.pid && t.pid ≠ 0

/-- The other task when the task has exited. -/
def Task.leftBy (t z : Task) : Task :=
  if t.orphans z then { z with parentPid := initPid } else z

@[simp] theorem Task.pid_leftBy (t z : Task) : (t.leftBy z).pid = z.pid := by
  unfold leftBy
  split <;> rfl

@[simp] theorem Task.state_leftBy (t z : Task) : (t.leftBy z).state = z.state := by
  unfold leftBy
  split <;> rfl

@[simp] theorem Task.waiting_leftBy (t z : Task) : (t.leftBy z).waiting = z.waiting := by
  unfold leftBy
  split <;> rfl

/-- What an exit must find so that it leaves nobody asleep: at most one blocked
task has the identifier of the exiting task's parent, and none if that is 0; and
unless the parent is init, no zombie that is left to init is asked for. -/
def ExitHeeded (s : TaskTable) (t : Task) : Prop :=
  Slots.AtMostOne (Task.sleepsAs t.parentPid) s.tasks ∧
    (t.parentPid = 0 → Slots.all (!Task.sleepsAs 0 ·) s.tasks) ∧
    (t.parentPid ≠ initPid → Slots.all (fun z =>
      !(z.state = .zombie && t.orphans z) ||
        Slots.all (!Task.asksFor · { z with parentPid := initPid }) s.tasks) s.tasks)

instance (s : TaskTable) (t : Task) : Decidable (ExitHeeded s t) :=
  inferInstanceAs (Decidable (_ ∧ _ ∧ _))

/-- The event puts no zombie into another group, and if it ends the current task, the
exit leaves nobody asleep. -/
def Event.Heeded (e : Event) (s : TaskTable) : Prop :=
  e.sparesZombies s ∧ (e.terminates s = true → match s.currentTask with
    | some t => ExitHeeded s t
    | none => True)

instance (e : Event) (s : TaskTable) : Decidable (e.Heeded s) :=
  have : Decidable (match s.currentTask with
      | some t => ExitHeeded s t
      | none => True) :=
    match s.currentTask with
    | some t => inferInstanceAs (Decidable (ExitHeeded s t))
    | none => isTrue trivial
  inferInstanceAs (Decidable (_ ∧ (_ → _)))

/-- The table between the end of a task and the call of the scheduler. -/
def TaskTable.adopted (t : Task) (status : Int32) (s : TaskTable) : TaskTable :=
  reparent t.pid
    (s.modifyCurrent fun t => { t with state := .zombie, exitStatus := status })

theorem exitCurrent_eq (ht : s.currentTask = some t) (status : Int32) :
    s.exitCurrent status = (wakeParent t.parentPid (s.adopted t status)).schedule := by
  simp only [TaskTable.exitCurrent, ht, adopted]

theorem task_reparent (pid : Pid) (s : TaskTable) (i : ℕ) :
    (s.reparent pid).task i = (s.task i).map fun z =>
      if z.parentPid = pid ∧ z.pid ≠ pid ∧ pid ≠ 0 then { z with parentPid := initPid }
      else z := by
  unfold reparent
  dsimp only
  split
  · rename_i hzero
    simp [hzero]
  · rename_i hne
    simp only [task, Slots.get_map, hne, ne_eq, not_false_eq_true, and_true]

/-- The table between the end of a task and the waking of its parent. -/
theorem task_adopted (ht : s.currentTask = some t) (status : Int32) (i : ℕ) :
    (s.adopted t status).task i =
      if s.current = i then some { t with state := .zombie, exitStatus := status }
      else (s.task i).map t.leftBy := by
  rw [adopted, task_reparent, task_modifyCurrent]
  split
  · rename_i hi
    subst hi
    rw [show s.task s.current = some t from ht]
    simp
  · congr 1
    funext z
    simp [Task.leftBy, Task.orphans, and_assoc]

theorem Task.wake_not_blocked (t : Task) : t.wake.state ≠ .blocked := by
  unfold wake
  split
  · simp
  · assumption

theorem Task.quiet_wake : t.Quiet t.wake :=
  (touched_wake rfl : Touched .serialCtrlC boot 0 t t.wake).quiet nofun

theorem Task.quiet_notify {sig : Signal} : t.Quiet (t.notify sig) :=
  (touched_notify rfl : Touched .serialCtrlC boot 0 t (t.notify sig)).quiet nofun

theorem Task.Quiet.trans {t t' t'' : Task} (h : t.Quiet t') (h' : t'.Quiet t'') : t.Quiet t'' := by
  refine ⟨h'.pid.trans h.pid, h'.parentPid.trans h.parentPid,
    fun hz => (h'.pgid hz).trans (h.pgid (h'.zombie hz)), fun hb => ?_,
    fun hz => h.zombie (h'.zombie hz), ?_⟩
  · obtain ⟨hb', hw'⟩ := h'.blocked hb
    obtain ⟨hb, hw⟩ := h.blocked hb'
    exact ⟨hb, hw'.trans hw⟩
  · rcases h'.waiting with hw' | hw'
    · rw [hw']
      exact h.waiting
    · exact Or.inr hw'

theorem quiet_wakeParent (pid : Pid) (s : TaskTable) :
    Slots.Related (fun _ => Task.Quiet) s.tasks (s.wakeParent pid).tasks :=
  related_wakeParent (fun _ => .refl) (fun _ _ _ => .trans) (fun _ => Task.quiet_wake)
    (fun _ => Task.quiet_notify) pid s

variable {i : ℕ} {u : Task}

/-- A task that is still blocked after the parent was woken is as it was, and is
not the first sleeper with the parent's identifier. -/
theorem blocked_wakeParent {pid : Pid} (hu : (s.wakeParent pid).task i = some u)
    (hblocked : u.state = .blocked) :
    s.task i = some u ∧ (pid ≠ 0 → Slots.find (Task.sleepsAs pid) s.tasks ≠ some i) := by
  unfold wakeParent at hu
  split at hu
  · rename_i hzero
    exact ⟨hu, fun hne => absurd hzero hne⟩
  · simp only [task, sendSignalTo, Slots.get_modifyFirst] at hu
    split at hu
    · obtain ⟨v, -, rfl⟩ := Option.map_eq_some_iff.mp hu
      exact absurd hblocked (Task.wake_not_blocked _)
    · split at hu
      · obtain ⟨v, -, rfl⟩ := Option.map_eq_some_iff.mp hu
        exact absurd hblocked (Task.wake_not_blocked _)
      · rename_i hfirst
        exact ⟨hu, fun _ => hfirst⟩

theorem parent_of_childMatchesWaitFilter {w : Wait} {z : Task}
    (h : childMatchesWaitFilter w z = true) : z.parentPid = w.parent := by
  by_contra hne
  simp [childMatchesWaitFilter, hne] at h

/-- The blocked tasks after an exit were blocked before. -/
theorem blocked_adopted (ht : s.currentTask = some t) {status : Int32}
    (hu : (s.adopted t status).task i = some u) (hblocked : u.state = .blocked) :
    ∃ u₀, s.task i = some u₀ ∧ u₀.state = .blocked ∧ u₀.waiting = u.waiting ∧ u₀.pid = u.pid := by
  rw [task_adopted ht] at hu
  split at hu
  · cases hu
    cases hblocked
  · obtain ⟨u₀, hu₀, rfl⟩ := Option.map_eq_some_iff.mp hu
    exact ⟨u₀, hu₀, by simpa using hblocked, by simp, by simp⟩

/-- The only sleeper with the identifier of the parent is the one that is
woken. -/
theorem find_sleeper (ht : s.currentTask = some t) {status : Int32}
    (hone : Slots.AtMostOne (Task.sleepsAs t.parentPid) s.tasks)
    (hu : (s.adopted t status).task i = some u) (hsleeps : u.sleepsAs t.parentPid = true) :
    Slots.find (Task.sleepsAs t.parentPid) (s.adopted t status).tasks = some i := by
  have hback {k : ℕ} {v : Task} (hv : (s.adopted t status).task k = some v)
      (hv' : v.sleepsAs t.parentPid = true) :
      ∃ v₀, s.task k = some v₀ ∧ v₀.sleepsAs t.parentPid = true := by
    simp only [Task.sleepsAs, Bool.and_eq_true, decide_eq_true_eq] at hv'
    obtain ⟨v₀, hv₀, hblocked, -, hpid⟩ := blocked_adopted ht hv hv'.2
    exact ⟨v₀, hv₀, by simp [Task.sleepsAs, hblocked, hpid, hv'.1]⟩
  cases hfind : Slots.find (Task.sleepsAs t.parentPid) (s.adopted t status).tasks with
  | none =>
    have := Slots.find_eq_none hfind hu
    rw [hsleeps] at this
    cases this
  | some k =>
    obtain ⟨v, hv, hvs, -⟩ := Slots.find_eq_some hfind
    obtain ⟨u₀, hu₀, hus₀⟩ := hback hu hsleeps
    obtain ⟨v₀, hv₀, hvs₀⟩ := hback hv hvs
    rw [hone.eq hv₀ hu₀ hvs₀ hus₀]

/-- An exit that is heeded leaves nobody asleep who should be awake. -/
theorem Attended.exitCurrent (h : Attended s) (ht : s.currentTask = some t)
    (hheeded : ExitHeeded s t) (status : Int32) : Attended (s.exitCurrent status) := by
  obtain ⟨hone, hzero, horphans⟩ := hheeded
  rw [exitCurrent_eq ht]
  refine Attended.schedule ⟨fun i j u z' hu hz' hzombie' => ?_, fun i u' w hu' hw => ?_⟩
  · by_contra hasks
    obtain ⟨hblocked, hany⟩ : u.state = .blocked ∧
        (u.waiting.any fun w => childMatchesWaitFilter w z') = true := by
      simpa [Task.asksFor] using hasks
    obtain ⟨hu, hfirst⟩ := blocked_wakeParent hu hblocked
    obtain ⟨u₀, hu₀, hblocked₀, hwaiting, hpid⟩ := blocked_adopted ht hu hblocked
    obtain ⟨z, hz, hquiet⟩ := (quiet_wakeParent _ _).of_get' hz'
    have hzombie := hquiet.zombie hzombie'
    cases hw : u.waiting with
    | none => simp [hw] at hany
    | some w =>
      have hmatch : childMatchesWaitFilter w z = true := by
        rw [← childMatchesWaitFilter_congr hquiet.pid hquiet.parentPid (hquiet.pgid hzombie')]
        simpa [hw] using hany
      have hparent := h.parent i u₀ w hu₀ (hwaiting.trans hw)
      -- A sleeper with the identifier of the exiting task's parent is woken.
      have hwoken (hwp : w.parent = t.parentPid) : False := by
        have hsleeps : u.sleepsAs t.parentPid = true := by
          simp [Task.sleepsAs, hblocked, ← hpid, ← hparent, hwp]
        have hne : t.parentPid ≠ 0 := by
          intro hp
          have := Slots.all_get (hzero hp) hu₀
          simp [Task.sleepsAs, hblocked₀, ← hparent, hwp, hp] at this
        exact hfirst hne (find_sleeper ht hone hu hsleeps)
      have hzparent := parent_of_childMatchesWaitFilter hmatch
      rw [show Slots.get (s.adopted t status).tasks j = _ from
        task_adopted ht status j] at hz
      split at hz
      · cases hz
        exact hwoken hzparent.symm
      · obtain ⟨z₀, hz₀, rfl⟩ := Option.map_eq_some_iff.mp hz
        have hz₀zombie : z₀.state = .zombie := by simpa using hzombie
        have hasks₀ : u₀.asksFor (t.leftBy z₀) = true := by
          simp [Task.asksFor, hblocked₀, hwaiting, hw, hmatch]
        by_cases horphan : t.orphans z₀ = true
        · have hleft : t.leftBy z₀ = { z₀ with parentPid := initPid } := if_pos horphan
          rw [hleft] at hasks₀ hzparent
          by_cases hinit : t.parentPid = initPid
          · exact hwoken (hzparent.symm.trans hinit.symm)
          · rcases Bool.or_eq_true_iff.mp (Slots.all_get (horphans hinit) hz₀) with
              hno | hall
            · simp [hz₀zombie, horphan] at hno
            · have := Slots.all_get hall hu₀
              rw [hasks₀] at this
              cases this
        · have hleft : t.leftBy z₀ = z₀ := if_neg horphan
          rw [hleft, h.noLost i j u₀ z₀ hu₀ hz₀ hz₀zombie] at hasks₀
          cases hasks₀
  · obtain ⟨u, hu, hquiet⟩ := (quiet_wakeParent _ _).of_get' hu'
    have hwu : u.waiting = some w := by
      rcases hquiet.waiting with hsame | hnone
      · exact hsame.symm.trans hw
      · rw [hnone] at hw
        cases hw
    rw [hquiet.pid]
    rw [show Slots.get (s.adopted t status).tasks i = _ from
      task_adopted ht status i] at hu
    split at hu
    · cases hu
      exact h.parent s.current t w ht hwu
    · obtain ⟨u₀, hu₀, rfl⟩ := Option.map_eq_some_iff.mp hu
      rw [Task.waiting_leftBy] at hwu
      rw [Task.pid_leftBy]
      exact h.parent i u₀ w hu₀ hwu

/-- The condition on exits is about nothing that touching a task changes. -/
theorem ExitHeeded.touching (h : Touching e s s') (he : e.sparesZombies s) {t t' : Task}
    (ht : s.currentTask = some t) (ht' : s'.currentTask = some t') (hheeded : ExitHeeded s t) :
    ExitHeeded s' t' := by
  obtain ⟨hone, hzero, horphans⟩ := hheeded
  obtain ⟨t₁, ht₁, htt⟩ := h.tasks.of_get ht
  have hsame : t₁ = t' := by
    rw [currentTask, h.current] at ht'
    exact Option.some_inj.mp (ht₁.symm.trans ht')
  subst hsame
  have hsleeps {i : ℕ} {u' : Task} (pid : Pid) (hu' : s'.task i = some u')
      (hs : u'.sleepsAs pid = true) : ∃ u, s.task i = some u ∧ u.sleepsAs pid = true := by
    obtain ⟨u, hu, hq⟩ := h.quiet he hu'
    simp only [Task.sleepsAs, Bool.and_eq_true, decide_eq_true_eq] at hs ⊢
    exact ⟨u, hu, hq.pid.symm.trans hs.1, (hq.blocked hs.2).1⟩
  rw [ExitHeeded, htt.parentPid]
  refine ⟨hone.of_get fun i u' hu' => hsleeps _ hu', fun hp => ?_, fun hp => ?_⟩
  · refine Slots.all_of_get fun i u' hu' => ?_
    cases hs : u'.sleepsAs 0 with
    | false => rfl
    | true =>
      obtain ⟨u, hu, hus⟩ := hsleeps 0 hu' hs
      have := Slots.all_get (hzero hp) hu
      simp [hus] at this
  · refine Slots.all_of_get fun j z' hz' => ?_
    obtain ⟨z, hz, hqz⟩ := h.quiet he hz'
    by_cases hzombie : z'.state = .zombie
    swap
    · simp [hzombie]
    have horphan : t₁.orphans z' = t.orphans z := by
      simp [Task.orphans, htt.pid, hqz.pid, hqz.parentPid]
    rcases Bool.or_eq_true_iff.mp (Slots.all_get (horphans hp) hz) with hno | hall
    · refine Bool.or_eq_true_iff.mpr (Or.inl ?_)
      rw [horphan]
      simpa [hzombie, hqz.zombie hzombie] using hno
    · refine Bool.or_eq_true_iff.mpr (Or.inr (Slots.all_of_get fun i u' hu' => ?_))
      obtain ⟨u, hu, hqu⟩ := h.quiet he hu'
      have hasks := Slots.all_get hall hu
      have hqz' : Task.Quiet { z with parentPid := initPid }
          { z' with parentPid := initPid } :=
        ⟨hqz.pid, rfl, hqz.pgid, hqz.blocked, hqz.zombie, hqz.waiting⟩
      simp only [Bool.not_eq_eq_eq_not, Bool.not_true] at hasks ⊢
      exact hqu.asksFor hqz' hzombie hasks

theorem Attended.step (hs : Scheduled s) (h : Attended s) (he : e.Heeded s) :
    Attended (s.step e) := by
  obtain ⟨t, ht, hrunning⟩ := hs.current
  cases step_outcome ht hrunning e with
  | touched htouch => exact h.touching he.1 htouch
  | born t hbirth hcurrent htasks =>
    refine h.place ?_ ?_ htasks
    · cases hbirth <;> rfl
    · cases hbirth <;> rfl
  | scheduled s₀ htouch hs' =>
    rw [hs']
    exact (h.touching he.1 htouch).schedule
  | blocked waiting s₀ htouch huser hnone hparent hs' =>
    rw [hs']
    obtain ⟨t₀, ht₀, hchange⟩ := htouch.tasks.of_get ht
    have hcurrent : s₀.currentTask = some t₀ := by rwa [currentTask, htouch.current]
    refine (h.touching he.1 htouch).blockAndReschedule hcurrent hnone fun w hw => ?_
    rw [hchange.pid]
    rcases hparent w t hw ht with hp | hp
    · exact hp
    · exact h.parent s.current t w ht hp
  | exited status s₀ htouch huser hends hs' =>
    rw [hs']
    obtain ⟨t₀, ht₀, hchange⟩ := htouch.tasks.of_get ht
    have hcurrent : s₀.currentTask = some t₀ := by rwa [currentTask, htouch.current]
    have hheeded : ExitHeeded s t := by simpa [ht] using he.2 hends
    exact (h.touching he.1 htouch).exitCurrent hcurrent
      (hheeded.touching htouch he.1 ht hcurrent) status
  | reaped i child s₀ htouch hchild hzombie hs' =>
    rw [hs']
    exact (h.touching he.1 htouch).clear i

theorem attended_boot : Attended boot := by
  have hidle {i : ℕ} {u : Task} (hu : boot.task i = some u) : u = idle := by
    have := Slots.lt_length_of_get hu
    simp only [boot, List.length_singleton] at this
    obtain rfl := Nat.lt_one_iff.mp this
    exact (Option.some_inj.mp hu).symm
  refine ⟨fun i j u z hu hz hzombie => ?_, fun i u w hu hw => ?_⟩
  · rw [hidle hz] at hzombie
    cases hzombie
  · rw [hidle hu] at hw
    cases hw

/-- In every run whose exits are heeded, no task stays blocked in `sys_wait` while
it has a zombie child that it waits for. -/
theorem noLostWakeup_of_heeded (events : List Event)
    (h : Runs.Along step Event.Heeded events boot) : NoLostWakeup (boot.run events) := by
  have hstep (e : Event) (s : TaskTable) (hs : Scheduled s ∧ Attended s)
      (he : e.Heeded s) : Scheduled (s.step e) ∧ Attended (s.step e) :=
    ⟨hs.1.step e, hs.2.step hs.1 he⟩
  exact (Runs.invariant_of_along hstep ⟨scheduled_boot, attended_boot⟩ h).2.noLostWakeup

/-- Init forks a child and waits for it, and the child exits. -/
def waitForChild : List Event :=
  [.spawnUser (.ok (some ⟨0x200000, 0x300000⟩)), .yield,
    .fork (some 0x400000) (some 0x500000), .wait (-1) true 0, .exit 0]

theorem noLostWakeup_waitForChild : NoLostWakeup (boot.run waitForChild) :=
  noLostWakeup_of_heeded waitForChild (by decide)

/-- Init's grandchild exits after its own child has: init, already blocked, is
given the dead child without being told. -/
def deadGrandchild : List Event :=
  [.spawnUser (.ok (some ⟨0x200000, 0x300000⟩)), .yield,
    .fork (some 0x400000) (some 0x500000), .yield,
    .fork (some 0x600000) (some 0x700000), .yield,
    .fork (some 0x800000) (some 0x900000), .yield,
    .exit 0, .yield, .wait (-1) true 0, .yield, .exit 0]

theorem not_noLostWakeup_deadGrandchild : ¬NoLostWakeup (boot.run deadGrandchild) := by
  intro h
  exact absurd (h 1 4 _ _ ⟨100, -1, 100⟩ rfl rfl rfl rfl rfl) (by decide)

end RacOS.Tasks
