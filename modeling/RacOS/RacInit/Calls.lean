import RacOS.RacInit.Engine

/-!
# Calls of the init engine

`start_unit`, `start_all` and `on_child_exit` of `init/src/engine.rs` run to their ends.  The steps
are those of the engine beside its children; here only the engine is left, and what `spawn` and
`wait` return is given with each call.
-/

namespace RacOS.RacInit

/-- What the system calls of `start_unit` return: a process or none, and the status that `wait`
leaves for a oneshot unit. -/
structure StartOutcome where
  spawned : Option ℕ
  waited : ℤ

/-- The exit of a child: its process and status, the time, and how a restart goes. -/
structure ExitCall where
  pid : ℕ
  status : ℤ
  now : ℕ
  outcome : StartOutcome

namespace Engine

/-- Init between two calls of its engine. -/
def idle (e : Engine) : System where
  engine := e
  control := .supervise
  children := []
  reaped := []
  applied := []

def startUnit (o : StartOutcome) (idx : ℕ) (e : Engine) : Engine :=
  let s := e.idle.startUnit idx o.spawned [] []
  match s.control with
  | .oneshot idx _ queue cycle => (s.finishOneshot idx o.waited queue cycle).engine
  | _ => s.engine

def startAll (outcomes : ℕ → StartOutcome) (e : Engine) : Engine :=
  let resolve := resolveStartOrder e.units
  let e := resolve.order.foldl (fun e idx => e.startUnit (outcomes idx) idx) e
  resolve.cycle.foldl (fun e idx => e.setState idx .failed) e

/-- The unit that an exit starts again. -/
def restarted (c : ExitCall) (e : Engine) : Option ℕ :=
  match (e.idle.onChildExit c.pid c.status c.now).control with
  | .starting queue _ => queue.head?
  | _ => none

def onChildExit (c : ExitCall) (e : Engine) : Engine :=
  let engine := (e.idle.onChildExit c.pid c.status c.now).engine
  match e.restarted c with
  | some idx => engine.startUnit c.outcome idx
  | none => engine

/-- The engine with its units loaded and none of them started. -/
def loaded (units : List UnitFile) : Engine where
  units := units.map fun u => { u with state := .loaded }
  pids := []
  restartTrackers := units.map fun _ => []

/-! ## What a start changes -/

theorem length_setState (e : Engine) (idx : ℕ) (state : UnitState) :
    (e.setState idx state).units.length = e.units.length :=
  List.length_modify _ _ _

/-- A start sets the state of the unit.  A process that goes on running is recorded; the entries
of a oneshot unit are removed. -/
theorem startUnit_cases (o : StartOutcome) (idx : ℕ) (e : Engine) :
    (e.startUnit o idx).restartTrackers = e.restartTrackers ∧
      (e.startUnit o idx).units.length = e.units.length ∧
      ((e.startUnit o idx).pids = e.pids ∨
        idx < e.units.length ∧ ∃ pid, (e.startUnit o idx).pids = e.pids ++ [(idx, pid)] ∨
        (e.startUnit o idx).pids = e.pids.filter fun entry => entry.1 ≠ idx) := by
  cases hunit : e.units[idx]? with
  | none => simp [startUnit, System.startUnit, idle, hunit]
  | some unit =>
    have hidx : idx < e.units.length := (List.getElem?_eq_some_iff.mp hunit).1
    cases htype : unit.unitType with
    | service =>
      by_cases hexec : unit.execStart = ""
      · simp [startUnit, System.startUnit, idle, hunit, htype, hexec, setState]
      · cases hspawn : o.spawned with
        | none =>
          simp [startUnit, System.startUnit, idle, hunit, htype, hexec, hspawn, setState]
        | some pid =>
          by_cases hone : unit.serviceType = .oneshot
          · refine ⟨?_, ?_, .inr ⟨hidx, pid, .inr ?_⟩⟩ <;>
              simp [startUnit, System.startUnit, System.finishOneshot, idle, hunit, htype,
                hexec, hspawn, hone, setState]
          · refine ⟨?_, ?_, .inr ⟨hidx, pid, .inl ?_⟩⟩ <;>
              simp [startUnit, System.startUnit, idle, hunit, htype, hexec, hspawn, hone, setState]
    | target | timer | mount | device =>
      simp [startUnit, System.startUnit, idle, hunit, htype, setState]

/-- Every unit has a tracker and at most one entry in the list of processes. -/
structure Tidy (e : Engine) : Prop where
  trackers : e.restartTrackers.length = e.units.length
  entries : (e.pids.map Prod.fst).Nodup
  bound : ∀ entry ∈ e.pids, entry.1 < e.units.length

theorem Tidy.loaded (units : List UnitFile) : (loaded units).Tidy where
  trackers := by simp [Engine.loaded]
  entries := List.nodup_nil
  bound := by simp [Engine.loaded]

variable {e : Engine}

theorem Tidy.setState (h : e.Tidy) (idx : ℕ) (state : UnitState) : (e.setState idx state).Tidy where
  trackers := by rw [length_setState]; exact h.trackers
  entries := h.entries
  bound := by rw [length_setState]; exact h.bound

/-- The engine with new times in the tracker of a unit. -/
def recorded (e : Engine) (idx : ℕ) (kept : RestartTracker) : Engine :=
  { e with restartTrackers := e.restartTrackers.set idx kept }

theorem Tidy.recorded (h : e.Tidy) (idx : ℕ) (kept : RestartTracker) :
    (e.recorded idx kept).Tidy where
  trackers := by rw [Engine.recorded, List.length_set]; exact h.trackers
  entries := h.entries
  bound := h.bound

theorem Tidy.startUnit (h : e.Tidy) (o : StartOutcome) {idx : ℕ}
    (hnew : idx ∉ e.pids.map Prod.fst) : (e.startUnit o idx).Tidy := by
  obtain ⟨htrackers, hunits, hpids⟩ := startUnit_cases o idx e
  refine ⟨by rw [htrackers, hunits, h.trackers], ?_, ?_⟩
  · rcases hpids with hpids | ⟨-, pid, hpids | hpids⟩
    · rw [hpids]
      exact h.entries
    · rw [hpids, List.map_append, List.nodup_append]
      refine ⟨h.entries, List.nodup_singleton _, ?_⟩
      rintro a ha b hb rfl
      rw [List.map_singleton, List.mem_singleton] at hb
      rw [hb] at ha
      exact hnew ha
    · rw [hpids]
      exact h.entries.sublist (List.filter_sublist.map _)
  · rw [hunits]
    rcases hpids with hpids | ⟨hidx, pid, hpids | hpids⟩
    · rw [hpids]
      exact h.bound
    · rw [hpids]
      intro entry hentry
      rcases List.mem_append.mp hentry with hentry | hentry
      · exact h.bound entry hentry
      · rw [List.mem_singleton.mp hentry]
        exact hidx
    · rw [hpids]
      exact fun entry hentry => h.bound entry (List.mem_of_mem_filter hentry)

theorem mem_startUnit {o : StartOutcome} {idx i : ℕ}
    (h : i ∈ (e.startUnit o idx).pids.map Prod.fst) : i ∈ e.pids.map Prod.fst ∨ i = idx := by
  obtain ⟨-, -, hpids⟩ := startUnit_cases o idx e
  rcases hpids with hpids | ⟨-, pid, hpids | hpids⟩
  · rw [hpids] at h
    exact .inl h
  · rw [hpids, List.map_append, List.mem_append] at h
    exact h.imp_right List.mem_singleton.mp
  · rw [hpids] at h
    exact .inl ((List.filter_sublist.map _).subset h)

/-- The loop of `start_all`: units that are started once each have at most one entry. -/
theorem Tidy.startEach (outcomes : ℕ → StartOutcome) {order : List ℕ} (horder : order.Nodup)
    (h : e.Tidy) (hnew : ∀ idx ∈ order, idx ∉ e.pids.map Prod.fst) :
    (order.foldl (fun e idx => e.startUnit (outcomes idx) idx) e).Tidy ∧
      (order.foldl (fun e idx => e.startUnit (outcomes idx) idx) e).restartTrackers =
        e.restartTrackers := by
  induction order generalizing e with
  | nil => exact ⟨h, rfl⟩
  | cons idx order ih =>
    obtain ⟨hout, horder⟩ := List.nodup_cons.mp horder
    have hstart := h.startUnit (outcomes idx) (hnew idx (by simp))
    obtain ⟨htidy, htrackers⟩ := ih horder hstart fun i hi hmem => by
      rcases mem_startUnit hmem with hold | rfl
      · exact hnew i (by simp [hi]) hold
      · exact hout hi
    exact ⟨htidy, htrackers.trans (startUnit_cases _ _ _).1⟩

theorem Tidy.failAll (h : e.Tidy) (cycle : List ℕ) :
    (cycle.foldl (fun e idx => e.setState idx .failed) e).Tidy ∧
      (cycle.foldl (fun e idx => e.setState idx .failed) e).restartTrackers =
        e.restartTrackers := by
  induction cycle generalizing e with
  | nil => exact ⟨h, rfl⟩
  | cons idx cycle ih => exact ih (h.setState idx .failed)

end Engine

end RacOS.RacInit
