import RacOS.Task.SlotReuse

/-!
# Every ready task gets its turn

The scheduler scans the slots in cyclic order, from the current one on.  Whenever a turn ends, the
current slot moves on, but never past a task that is ready.  So a ready task waits for fewer turns
than the table has slots, whatever else happens meanwhile.
-/

namespace RacOS.Tasks

open TaskTable

/-- How many slots of a table of `n` lie between the current one and another in cyclic order. -/
def distance (n current i : ℕ) : ℕ :=
  if current < i then i - current - 1 else n + i - current - 1

/-- The turn of the current task ends: it yields, or its time is up. -/
def Event.endsTurn (e : Event) (s : TaskTable) : Bool :=
  match e with
  | .yield => true
  | .timerTick => s.ticksRemaining ≤ 1
  | _ => false

namespace TaskTable

/-- The task in a slot is ready. -/
def readyAt (s : TaskTable) (i : ℕ) : Bool := (s.task i).any fun t => t.state = .ready

/-- How many turns end in a run. -/
def turns : List Event → TaskTable → ℕ
  | [], _ => 0
  | e :: events, s => (e.endsTurn s).toNat + turns events (step e s)

end TaskTable

variable {s s' : TaskTable} {i n : ℕ} {e : Event}

theorem lt_length_of_readyAt (hi : s.readyAt i) : i < s.tasks.length := by
  obtain ⟨t, ht, -⟩ := (Option.any_eq_true _ _).mp hi
  exact Slots.lt_length_of_get ht

/-- The scan finds the task in the slot, or one that is nearer. -/
theorem nextReady_distance (hcurrent : s.current < s.tasks.length) (hn : s.tasks.length ≤ n)
    (hi : s.readyAt i) :
    ∃ next, s.nextReady = some next ∧ s.readyAt next ∧
      (next = i ∨ distance n next i < distance n s.current i) := by
  obtain ⟨k, hk, hslot⟩ := List.mem_map.mp (mem_scanOrder (lt_length_of_readyAt hi))
  let slot : ℕ → ℕ := fun k => (s.current + 1 + k) % s.tasks.length
  have hready : (s.readyAt ∘ slot) k := by rwa [Function.comp_apply, show slot k = i from hslot]
  obtain ⟨m, hm⟩ := Option.isSome_iff_exists.mp (List.find?_isSome.mpr ⟨k, hk, hready⟩)
  obtain ⟨hnext, hlt, hfirst⟩ := List.find?_range_eq_some.mp hm
  have hle : m ≤ k := by
    by_contra hgt
    have := hfirst k (not_le.mp hgt)
    rw [hready] at this
    cases this
  have hslots (k : ℕ) (hk : k ∈ List.range s.tasks.length) : slot k < s.tasks.length ∧
      (slot k = s.current + 1 + k ∨ slot k + s.tasks.length = s.current + 1 + k) := by
    rw [List.mem_range] at hk
    refine ⟨Nat.mod_lt _ (by omega), ?_⟩
    by_cases hwrap : s.current + 1 + k < s.tasks.length
    · exact .inl (Nat.mod_eq_of_lt hwrap)
    · have hmod : slot k = s.current + 1 + k - s.tasks.length :=
        (Nat.mod_eq_sub_mod (not_lt.mp hwrap)).trans (Nat.mod_eq_of_lt (by omega))
      omega
  refine ⟨slot m, List.find?_map.trans (congrArg (Option.map slot) hm), hnext, ?_⟩
  have hm' := hslots m hlt
  have hk' := hslots k hk
  rw [show slot k = i from hslot] at hk'
  rw [List.mem_range] at hk
  unfold distance
  split <;> split <;> omega

/-- The scheduler comes nearer to a ready task, unless the current task is ready itself. -/
theorem distance_schedule (hcurrent : s.current < s.tasks.length) (hi : s.readyAt i)
    (hne : i ≠ s.current) (hn : s.schedule.tasks.length ≤ n) (hi' : s.schedule.readyAt i) :
    distance n s.schedule.current i < distance n s.current i ∨
      s.readyAt s.current ∧ s.schedule.current = s.current := by
  have hlt := lt_length_of_readyAt hi
  rw [length_schedule] at hn
  obtain ⟨next, hnext, hready, hnear⟩ := nextReady_distance hcurrent hn hi
  unfold schedule at hi' ⊢
  rw [if_neg (by omega), hnext] at hi' ⊢
  dsimp only at hi' ⊢
  split
  · rename_i heq
    exact .inr ⟨heq ▸ hready, rfl⟩
  · rename_i hnew
    rw [if_neg hnew] at hi'
    refine .inl (hnear.resolve_left ?_)
    rintro rfl
    rw [readyAt, task_switchTo hnew, if_pos rfl] at hi'
    cases htask : s.task next <;> rw [htask] at hi' <;> cases hi'

theorem Scheduled.current_lt (hs : Scheduled s) : s.current < s.tasks.length := by
  obtain ⟨t, ht, -⟩ := hs.current
  exact Slots.lt_length_of_get ht

theorem Scheduled.ne_current (hs : Scheduled s) (hi : s.readyAt i) : i ≠ s.current := by
  rintro rfl
  obtain ⟨t, ht, hrunning⟩ := hs.current
  rw [readyAt, show s.task s.current = some t from ht] at hi
  cases hrunning.symm.trans (of_decide_eq_true hi)

/-- A ready task stays ready. -/
def Task.Patient (t t' : Task) : Prop := t.state = .ready → t'.state = .ready

theorem Task.Alike.patient {t t' : Task} (h : Alike t t') : Patient t t' := by
  intro hready
  rcases h.state with hsame | ⟨-, hwoken⟩
  · exact hsame.trans hready
  · exact hwoken

/-- The scheduler is called after a change that lets ready tasks wait. -/
theorem distance_schedule_le (hs : Scheduled s) (hi : s.readyAt i)
    (hcurrent : s'.current = s.current)
    (hrel : Slots.Related (fun _ => Task.Patient) s.tasks s'.tasks)
    (hn : s'.schedule.tasks.length ≤ n) (hi' : s'.schedule.readyAt i) :
    distance n s'.schedule.current i ≤ distance n s.current i := by
  obtain ⟨t, ht, -⟩ := hs.current
  obtain ⟨t', ht', -⟩ := hrel.of_get ht
  obtain ⟨u, hu, hready⟩ := (Option.any_eq_true _ _).mp hi
  obtain ⟨u', hu', hkept⟩ := hrel.of_get hu
  have hi₁ : s'.readyAt i := (Option.any_eq_true _ _).mpr
    ⟨u', hu', decide_eq_true (hkept (of_decide_eq_true hready))⟩
  have hne := hs.ne_current hi
  rw [← hcurrent] at ht' hne ⊢
  have hlt := Slots.lt_length_of_get ht'
  rcases distance_schedule hlt hi₁ hne hn hi' with hnear | ⟨-, heq⟩
  · exact hnear.le
  · rw [heq]

/-- When a turn ends, the current slot comes nearer. -/
theorem distance_endsTurn (hs : Scheduled s) (he : e.endsTurn s) (hi : s.readyAt i)
    (hn : (s.step e).tasks.length ≤ n) (hi' : (s.step e).readyAt i) :
    distance n (s.step e).current i < distance n s.current i := by
  obtain ⟨ticks, hstep⟩ : ∃ ticks, s.step e = schedule { s with ticksRemaining := ticks } := by
    cases e with
    | yield => exact ⟨0, rfl⟩
    | timerTick =>
      have hzero : s.ticksRemaining - 1 = 0 := Nat.sub_eq_zero_of_le (of_decide_eq_true he)
      refine ⟨s.ticksRemaining - 1, ?_⟩
      simp only [step, timerTick, hzero, if_true]
    | _ => cases he
  rw [hstep] at hn hi' ⊢
  exact (@distance_schedule { s with ticksRemaining := ticks } i n hs.current_lt hi
    (hs.ne_current hi) hn hi').resolve_right fun h => hs.ne_current h.1 rfl

/-- No step passes a ready task. -/
theorem distance_step (hs : Scheduled s) (hi : s.readyAt i) (hn : (s.step e).tasks.length ≤ n)
    (hi' : (s.step e).readyAt i) : distance n (s.step e).current i ≤ distance n s.current i := by
  obtain ⟨t, ht, hrunning⟩ := hs.current
  have htouch {s₀ : TaskTable} (h : Touching e s s₀) :
      Slots.Related (fun _ => Task.Patient) s.tasks s₀.tasks :=
    h.alike.mono fun _ _ _ hal => hal.patient
  -- a task that gives up the processor was running
  have hleave {s₀ : TaskTable} (h : Touching e s s₀) (f : Task → Task) :
      Slots.Related (fun _ => Task.Patient) s.tasks (s₀.modifyCurrent f).tasks := by
    obtain ⟨u, hu, hrun⟩ := (hs.touching h).current
    refine (htouch h).trans (Slots.related_modify (fun _ _ => id) fun a ha => ?_)
      fun _ _ _ _ hab hbc => hbc ∘ hab
    cases hu.symm.trans ha
    exact fun hready => by cases hrun.symm.trans hready
  cases step_outcome ht hrunning e with
  | touched h => rw [h.current]
  | born _ _ hcurrent _ => rw [hcurrent]
  | scheduled s₀ h hs' =>
    rw [hs'] at hn hi' ⊢
    exact distance_schedule_le hs hi h.current (htouch h) hn hi'
  | blocked waiting s₀ h _ _ _ hs' =>
    rw [hs'] at hn hi' ⊢
    exact @distance_schedule_le s (s₀.modifyCurrent _) i n hs hi h.current (hleave h _) hn hi'
  | exited status s₀ h _ _ hs' =>
    obtain ⟨t₀, ht₀, -⟩ := h.tasks.of_get ht
    have hcurrent : s₀.currentTask = some t₀ := by rwa [currentTask, h.current]
    rw [hs', exitCurrent, hcurrent] at hn hi' ⊢
    have halike := (alike_reparent t₀.pid (s₀.modifyCurrent fun t =>
      { t with state := .zombie, exitStatus := status })).trans
        (alike_wakeParent t₀.parentPid _) fun _ _ _ _ h h' => h.trans h'
    have hrel := (hleave h _).trans halike fun _ _ _ _ h h' => h'.patient ∘ h
    refine distance_schedule_le hs hi ?_ hrel hn hi'
    rw [current_wakeParent, current_reparent]
    exact h.current
  | reaped j child s₀ h _ _ hs' => rw [hs', h.current]

/-- **Bounded waiting.**  In every run, as long as a task stays ready and the table has at most `n`
slots, at most `n - 2` turns end. -/
theorem turns_lt (before : List Event) {events : List Event} {i n : ℕ}
    (hi : (boot.run before).readyAt i) (hn : (boot.run before).tasks.length ≤ n)
    (hready : Runs.Along step (fun e s => (s.step e).readyAt i ∧ (s.step e).tasks.length ≤ n)
      events (boot.run before)) :
    turns events (boot.run before) + 2 ≤ n := by
  have hs := scheduled_run before
  have hle : turns events (boot.run before) ≤ distance n (boot.run before).current i := by
    clear hn
    generalize boot.run before = s at *
    induction events generalizing s with
    | nil => exact Nat.zero_le _
    | cons e events ih =>
      obtain ⟨⟨hi', hn⟩, hrest⟩ := hready
      have hle := ih (s.step e) hi' hrest (hs.step e)
      rw [turns]
      cases he : e.endsTurn s with
      | true =>
        have hlt := distance_endsTurn hs he hi hn hi'
        rw [Bool.toNat_true]
        omega
      | false =>
        rw [Bool.toNat_false, Nat.zero_add]
        exact hle.trans (distance_step hs hi hn hi')
  have hlt := lt_length_of_readyAt hi
  have hcurrent := hs.current_lt
  have hne := hs.ne_current hi
  unfold distance at hle
  split at hle <;> omega

/-- Of three tasks the last waits for one turn. -/
theorem turns_lt_three : turns [.yield] (boot.run [.spawn (some 1), .spawn (some 2)]) + 2 ≤ 3 :=
  @turns_lt [.spawn (some 1), .spawn (some 2)] [.yield] 2 3 (by decide) (by decide) (by decide)

end RacOS.Tasks
