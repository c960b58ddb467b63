import RacOS.RacInit.StartOrder

/-!
# The init engine and its children

The service engine of `init/src/engine.rs` beside the processes that are
children of init.  Init starts units one by one, blocks in `wait` where it
starts a oneshot unit, and otherwise waits for any child and handles its exit.
Children exit, and orphans become children of init, at any moment.  `wait`
reports any child that has exited.

The steps of init between two of its blocking calls are one step here.  Three
histories are kept that the code does not have: which units were started, which
exits of processes started for a unit were reaped, and which exits were applied
to a unit.
-/

namespace RacOS.RacInit

/-! ## The engine -/

/-- The times of the recent restarts of a unit. -/
abbrev RestartTracker := List ℕ

def burstWindowSec : ℕ := 30

def burstLimit : ℕ := 5

/-- Record a restart and say whether the unit has used up its budget. -/
def recordAndCheck (now : ℕ) (timestamps : RestartTracker) : RestartTracker × Bool :=
  let timestamps := timestamps.filter (fun t => now - t ≤ burstWindowSec) ++ [now]
  (timestamps, timestamps.length > burstLimit)

/-- The loaded units, the processes of the running ones, the restarts, and the
history of the starts. -/
structure Engine where
  units : List UnitFile
  pids : List (ℕ × ℕ)
  restartTrackers : List RestartTracker
  started : List ℕ := []
  deriving DecidableEq

def Engine.setState (idx : ℕ) (state : UnitState) (e : Engine) : Engine :=
  { e with units := e.units.modify idx fun u => { u with state := state } }

theorem Engine.getElem?_setState (e : Engine) (idx : ℕ) (state : UnitState) (i : ℕ) :
    (e.setState idx state).units[i]? =
      (e.units[i]?).map fun u => if idx = i then { u with state := state } else u := by
  rw [setState, List.getElem?_modify]
  split <;> simp

/-- The policy of a unit asks for a restart. -/
def UnitFile.shouldRestart (unit : UnitFile) (status : ℤ) : Bool :=
  match unit.restart with
  | .always => true
  | .onFailure | .onAbnormal => status ≠ 0
  | .no => false

/-! ## The system -/

/-- A child of init: the unit it was started for, if any, and its status once
it has exited. -/
structure Child where
  pid : ℕ
  owner : Option ℕ
  status : Option ℤ
  deriving DecidableEq

/-- An exit of a process, with the unit it concerns. -/
structure Exit where
  unit : ℕ
  pid : ℕ
  status : ℤ
  deriving DecidableEq

/-- Where init is: about to wait for any child, starting the units of a queue
(and then failing those of a cycle), or waiting where it has just started a
oneshot unit. -/
inductive Control
  | supervise
  | starting (queue cycle : List ℕ)
  | oneshot (idx pid : ℕ) (queue cycle : List ℕ)
  deriving DecidableEq

structure System where
  engine : Engine
  control : Control
  children : List Child
  reaped : List Exit
  applied : List Exit
  deriving DecidableEq

namespace System

/-- The part of `start_unit` up to its wait; `outcome` is what `spawn`
returns. -/
def startUnit (idx : ℕ) (outcome : Option ℕ) (queue cycle : List ℕ) (s : System) : System :=
  let s := { s with control := .starting queue cycle }
  match s.engine.units[idx]? with
  | none => s
  | some unit =>
    let s := { s with engine.started := s.engine.started ++ [idx] }
    match unit.unitType with
    | .target => { s with engine := s.engine.setState idx .active }
    | .service =>
      if unit.execStart = "" then
        { s with engine := s.engine.setState idx .active }
      else
        let s := { s with engine := s.engine.setState idx .starting }
        match outcome with
        | some pid =>
          let engine := s.engine.setState idx .active
          { s with
            engine := { engine with pids := engine.pids ++ [(idx, pid)] }
            children := s.children ++ [⟨pid, some idx, none⟩]
            control := if unit.serviceType = .oneshot then
              .oneshot idx pid queue cycle else s.control }
        | none => { s with engine := s.engine.setState idx .failed }
    | _ => { s with engine := s.engine.setState idx .active }

/-- Write into the history that an exit is applied to a unit. -/
def record (unit pid : ℕ) (status : ℤ) (s : System) : System :=
  { s with applied := s.applied ++ [⟨unit, pid, status⟩] }

/-- The rest of `start_unit` for a oneshot unit.  The status is that of the
child reported by `wait`, whichever it is. -/
def finishOneshot (idx : ℕ) (status : ℤ) (queue cycle : List ℕ) (s : System) : System :=
  let engine := s.engine.setState idx (if status ≠ 0 then .failed else .active)
  { s with
    engine := { engine with pids := engine.pids.filter fun e => e.1 ≠ idx }
    control := .starting queue cycle }

/-- `on_child_exit`.  A restart goes on in `start_unit`. -/
def onChildExit (pid : ℕ) (status : ℤ) (now : ℕ) (s : System) : System :=
  match s.engine.pids.find? fun e => e.2 == pid with
  | none => s
  | some (unitIdx, _) =>
    let engine :=
      { s.engine with pids := s.engine.pids.eraseP fun e => e.2 == pid }
    let s := s.record unitIdx pid status
    match engine.units[unitIdx]? with
    | none => { s with engine := engine }
    | some unit =>
      if unit.shouldRestart status = false then
        { s with
          engine := engine.setState unitIdx
            (if status = 0 then .stopped else .failed) }
      else
        let (tracker, burst) :=
          recordAndCheck now (engine.restartTrackers.getD unitIdx [])
        let engine :=
          { engine with
            restartTrackers := engine.restartTrackers.set unitIdx tracker }
        if burst then
          { s with engine := engine.setState unitIdx .failed }
        else
          { s with
            engine := engine.setState unitIdx .stopped
            control := .starting [unitIdx] [] }

/-- `wait` hands a child that has exited to init and forgets it. -/
def reap (c : Child) (status : ℤ) (s : System) : System :=
  { s with
    children := s.children.filter fun d => d.pid ≠ c.pid
    reaped := match c.owner with
      | some idx => s.reaped ++ [⟨idx, c.pid, status⟩]
      | none => s.reaped }

@[simp] theorem engine_reap (c : Child) (status : ℤ) (s : System) :
    (s.reap c status).engine = s.engine := rfl

@[simp] theorem control_reap (c : Child) (status : ℤ) (s : System) :
    (s.reap c status).control = s.control := rfl

@[simp] theorem children_reap (c : Child) (status : ℤ) (s : System) :
    (s.reap c status).children = s.children.filter fun d => d.pid ≠ c.pid := rfl

@[simp] theorem applied_reap (c : Child) (status : ℤ) (s : System) :
    (s.reap c status).applied = s.applied := rfl

end System

/-- What happens next: a call of the engine, init going on with its queue, an
exit, an orphan, or a return of `wait`. -/
inductive Event
  | startAll
  | startUnit (idx : ℕ)
  | next (outcome : Option ℕ)
  | exit (pid : ℕ) (status : ℤ)
  | adopt (pid : ℕ)
  | wait (pid : ℕ) (now : ℕ)
  | noChildren

namespace System

/-- The process identifier is not that of a child. -/
def Fresh (s : System) (pid : ℕ) : Prop := ∀ c ∈ s.children, c.pid ≠ pid

instance (s : System) (pid : ℕ) : Decidable (s.Fresh pid) :=
  inferInstanceAs (Decidable (∀ c ∈ s.children, c.pid ≠ pid))

/-- A child that has exited, with its status. -/
def zombie (s : System) (pid : ℕ) : Option (Child × ℤ) :=
  s.children.findSome? fun c =>
    if c.pid = pid then c.status.map fun status => (c, status) else none

/-- One step.  An event that cannot happen in the state changes nothing. -/
def step : Event → System → System
  | .startAll, s =>
    match s.control with
    | .supervise =>
      let resolve := resolveStartOrder s.engine.units
      { s with control := .starting resolve.order resolve.cycle }
    | _ => s
  | .startUnit idx, s =>
    match s.control with
    | .supervise => { s with control := .starting [idx] [] }
    | _ => s
  | .next outcome, s =>
    match s.control with
    | .starting [] cycle =>
      { s with
        engine := cycle.foldl (fun e idx => e.setState idx .failed) s.engine
        control := .supervise }
    | .starting (idx :: queue) cycle =>
      -- the kernel gives a new process an identifier no child has
      if ∀ pid ∈ outcome, s.Fresh pid then s.startUnit idx outcome queue cycle
      else s
    | _ => s
  | .exit pid status, s =>
    { s with
      children := s.children.map fun c =>
        if c.pid = pid ∧ c.status = none then { c with status := some status }
        else c }
  | .adopt pid, s =>
    if s.Fresh pid then
      { s with children := s.children ++ [⟨pid, none, none⟩] }
    else s
  | .wait pid now, s =>
    match s.zombie pid, s.control with
    | some (c, status), .supervise =>
      (s.reap c status).onChildExit pid status now
    | some (c, status), .oneshot idx _ queue cycle =>
      ((s.reap c status).record idx pid status).finishOneshot idx status queue
        cycle
    | _, _ => s
  | .noChildren, s =>
    match s.children, s.control with
    | [], .oneshot idx _ queue cycle => s.finishOneshot idx 0 queue cycle
    | _, _ => s

/-- Init before it starts anything, with the orphans it has by then. -/
def boot (units : List UnitFile) (orphans : List ℕ) : System where
  engine :=
    { units := units.map fun u => { u with state := .loaded }
      pids := []
      restartTrackers := units.map fun _ => [] }
  control := .supervise
  children := orphans.dedup.map fun pid => ⟨pid, none, none⟩
  reaped := []
  applied := []

end System

end RacOS.RacInit
