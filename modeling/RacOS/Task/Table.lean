import RacOS.Lib.Slots
import RacOS.Lib.Program
import RacOS.Security.Access
import RacOS.Syscall.Error
import RacOS.Task.Signal

/-!
# The task table

The model of `task/task.rs` and `task/scheduler.rs`, and of the system calls
that create, end, replace, signal and wait for tasks.  What the table does not
decide is an input of the call: which frames an allocation gives, whether the
program file can be loaded, and whether a signal frame could be written to the
user stack.
-/

namespace RacOS.Tasks

open Program Security

abbrev Pid := UInt32

inductive TaskState
  | created
  | ready
  | running
  | blocked
  | zombie
  deriving DecidableEq

/-- The variables of the loop of `sys_wait`, in which a task is blocked. -/
structure Wait where
  parent : Pid
  filter : Int32
  parentPgid : Pid
  deriving DecidableEq

/-- A task.  `user` tells whether its context leads to ring 3, and `waiting`
where in `sys_wait` it continues when it runs again. -/
structure Task where
  pid : Pid
  parentPid : Pid
  state : TaskState := .created
  user : Bool
  kernelStackBase : ℕ
  pageTablePhys : ℕ
  exitStatus : Int32 := 0
  signals : SignalState := {}
  pgid : Pid
  sessionId : Pid
  creds : Credentials
  waiting : Option Wait := none

namespace Task

/-- What becomes of a running task that the scheduler leaves. -/
def leave (t : Task) : Task :=
  if t.state = .running then { t with state := .ready } else t

def enter (t : Task) : Task := { t with state := .running }

/-- Wake a blocked task. -/
def wake (t : Task) : Task :=
  if t.state = .blocked then { t with state := .ready } else t

/-- The task is blocked and has the identifier. -/
def sleepsAs (pid : Pid) (t : Task) : Bool := t.pid = pid && t.state = .blocked

/-- Post a signal, waking the task so that it can handle it. -/
def notify (sig : Signal) (t : Task) : Task :=
  wake { t with signals := t.signals.send sig }

end Task

/-- The credentials of root. -/
def rootCredentials : Credentials where
  uid := 0
  gid := 0
  euid := 0
  egid := 0
  capPermitted := 0xFFFFFFFFFFFFFFFF
  capEffective := 0xFFFFFFFFFFFFFFFF
  capInheritable := 0xFFFFFFFFFFFFFFFF

/-- Time quantum in ticks. -/
abbrev timeQuantum : ℕ := 10

/-- Maximum number of tasks. -/
abbrev maxTasks : ℕ := 64

/-- The task that orphans are given to. -/
abbrev initPid : Pid := 100

/-- The scheduler's record, with the two counters that process identifiers are
taken from: one for kernel tasks and one for user tasks. -/
structure TaskTable where
  tasks : List (Option Task)
  current : ℕ := 0
  ticksRemaining : ℕ := timeQuantum
  nextPid : Pid := 1
  nextUserPid : Pid := 100

/-- The idle task, which stands for the boot context. -/
def idle : Task where
  pid := 0
  parentPid := 0
  state := .running
  user := false
  kernelStackBase := 0
  pageTablePhys := 0
  pgid := 0
  sessionId := 0
  creds := rootCredentials

/-- The table after `init`. -/
def boot : TaskTable where
  tasks := [some idle]

namespace TaskTable

/-- The task in a slot. -/
abbrev task (s : TaskTable) (i : ℕ) : Option Task := Slots.get s.tasks i

/-- The current task. -/
abbrev currentTask (s : TaskTable) : Option Task := s.task s.current

/-- Change the current task's record. -/
def modifyCurrent (f : Task → Task) (s : TaskTable) : TaskTable :=
  { s with tasks := Slots.modify s.current f s.tasks }

theorem task_modifyCurrent (f : Task → Task) (s : TaskTable) (i : ℕ) :
    (s.modifyCurrent f).task i = if s.current = i then (s.task i).map f else s.task i :=
  Slots.get_modify _ _ _ _

theorem currentTask_modifyCurrent (f : Task → Task) (s : TaskTable) :
    (s.modifyCurrent f).currentTask = s.currentTask.map f := by
  rw [currentTask, task_modifyCurrent]
  exact if_pos rfl

/-! ## Scheduling -/

/-- The slots in the order in which the scan for the next task visits them. -/
def scanOrder (s : TaskTable) : List ℕ :=
  (List.range s.tasks.length).map fun k => (s.current + 1 + k) % s.tasks.length

/-- The next ready task in round-robin order. -/
def nextReady (s : TaskTable) : Option ℕ :=
  s.scanOrder.find? fun i => (s.task i).any fun t => t.state = .ready

/-- Make another task the current one. -/
def switchTo (next : ℕ) (s : TaskTable) : TaskTable :=
  { s with
    current := next
    ticksRemaining := timeQuantum
    tasks := Slots.modify next Task.enter (Slots.modify s.current Task.leave s.tasks) }

/-- Select the next task and switch to it. -/
def schedule (s : TaskTable) : TaskTable :=
  if s.tasks.length ≤ 1 then { s with ticksRemaining := timeQuantum }
  else
    match s.nextReady with
    | none => { s with ticksRemaining := timeQuantum }
    | some next =>
      if next = s.current then { s with ticksRemaining := timeQuantum }
      else s.switchTo next

/-- The timer interrupt. -/
def timerTick (s : TaskTable) : TaskTable :=
  let s := { s with ticksRemaining := s.ticksRemaining - 1 }
  if s.ticksRemaining = 0 then s.schedule else s

def yieldCurrent (s : TaskTable) : TaskTable :=
  schedule { s with ticksRemaining := 0 }

/-- Block the current task and reschedule; `waiting` is where in `sys_wait` it
will continue. -/
def blockAndReschedule (waiting : Option Wait) (s : TaskTable) : TaskTable :=
  schedule (s.modifyCurrent fun t => { t with state := .blocked, waiting })

/-! ## Signals -/

/-- Deliver a signal to the task with the given identifier. -/
def sendSignalTo (pid : Pid) (sig : Signal) (s : TaskTable) : TaskTable :=
  { s with tasks := Slots.modifyFirst (·.pid = pid) (Task.notify sig) s.tasks }

/-- Send a signal to all tasks in a process group. -/
def sendSignalToGroup (pgid : Pid) (sig : Signal) (s : TaskTable) : TaskTable :=
  let signalled := fun t : Task => if t.pgid = pgid then t.notify sig else t
  { s with tasks := Slots.map signalled s.tasks }

/-- May the sender signal the target? -/
def canSignal (sender target : Credentials) (sameSession : Bool) (sig : Signal) : Bool :=
  hasCap sender 7 ||
    (sender.uid = target.uid || sender.uid = target.euid ||
      sender.euid = target.uid || sender.euid = target.euid) ||
    (sameSession && sig = .SIGCONT)

/-! ## The end of a task -/

/-- Give the children of an exiting task to init. -/
def reparent (pid : Pid) (s : TaskTable) : TaskTable :=
  let adopted := fun t : Task =>
    if t.parentPid = pid ∧ t.pid ≠ pid then { t with parentPid := initPid } else t
  if pid = 0 then s else { s with tasks := Slots.map adopted s.tasks }

/-- Wake the parent of an exiting task if it is blocked, and notify it. -/
def wakeParent (parentPid : Pid) (s : TaskTable) : TaskTable :=
  if parentPid = 0 then s
  else
    sendSignalTo parentPid .SIGCHLD
      { s with tasks :=
          Slots.modifyFirst (Task.sleepsAs parentPid) Task.wake s.tasks }

/-- Terminate the current task. -/
def exitCurrent (status : Int32) (s : TaskTable) : TaskTable :=
  match s.currentTask with
  | some t =>
    schedule <| wakeParent t.parentPid <| reparent t.pid <|
      s.modifyCurrent fun t => { t with state := .zombie, exitStatus := status }
  | none => s.schedule

/-- Does a task match a wait filter? -/
def childMatchesWaitFilter (w : Wait) (t : Task) : Bool :=
  if t.parentPid ≠ w.parent then false
  else if w.filter = -1 then true
  else if w.filter = 0 then t.pgid = w.parentPgid
  else if 0 < w.filter then t.pid = w.filter.toUInt32
  else if w.filter = Int32.minValue then false
  else t.pgid = (-w.filter).toUInt32

/-- Is a task a zombie child that a wait filter asks for? -/
def reapable (w : Wait) (t : Task) : Bool :=
  childMatchesWaitFilter w t && t.state = .zombie

/-- Take the first zombie child that matches a filter out of the table. -/
def reapZombieChildFiltered (w : Wait) (s : TaskTable) : Option (Task × TaskTable) := do
  let i ← Slots.find (reapable w) s.tasks
  let child ← s.task i
  some (child, { s with tasks := Slots.clear i s.tasks })

/-- Is there a child, in any state, that matches a filter? -/
def hasChildrenFiltered (w : Wait) (s : TaskTable) : Bool :=
  (Slots.find (childMatchesWaitFilter w) s.tasks).isSome

/-! ## System calls -/

/-- A program that calls the table: it may fail with an error. -/
abbrev Call (α : Type) := EStateM SyscallError TaskTable α

/-- What the allocations of a new user image gave. -/
structure Image where
  kernelStackBase : ℕ
  pageTablePhys : ℕ

/-- The current task's record, as the calls that only user processes may make
get it. -/
def userTask : Call Task := do
  match (← get).currentTask with
  | some t =>
    require (t.pageTablePhys ≠ 0) .EPERM
    return t
  | none => throw .EPERM

/-- Take the next identifier of a user task. -/
def allocUserPid : Call Pid := do
  let s ← get
  set { s with nextUserPid := s.nextUserPid + 1 }
  return s.nextUserPid

/-- Put a task that was built into the table, ready to run. -/
def install (t : Task) : Call Pid := do
  let s ← get
  require (s.tasks.length < maxTasks) .EAGAIN
  set { s with tasks := Slots.place { t with state := .ready } s.tasks }
  return t.pid

/-- An allocation's result, or the error when there is no memory. -/
def allocated (x : Option ℕ) : Call ℕ :=
  match x with
  | some addr => return addr
  | none => throw .ENOMEM

/-- The task that fork and clone build from their caller. -/
def childOf (parent : Task) (pid : Pid) (image : Image) : Task where
  pid
  parentPid := parent.pid
  user := true
  kernelStackBase := image.kernelStackBase
  pageTablePhys := image.pageTablePhys
  pgid := parent.pgid
  sessionId := parent.sessionId
  creds := parent.creds

/-- Fork the current process; the inputs are the copy of its page table and the
child's kernel stack. -/
def sysFork (pageTable stack : Option ℕ) : Call Pid := do
  let parent ← userTask
  let pageTablePhys ← allocated pageTable
  let kernelStackBase ← allocated stack
  let pid ← allocUserPid
  install (childOf parent pid { kernelStackBase, pageTablePhys })

/-- The flags of `sys_clone` that are looked at. -/
structure CloneFlags where
  vm : Bool
  thread : Bool

/-- The page table of a clone: its caller's, or a copy. -/
def clonePageTable (flags : CloneFlags) (parent : Task) (copy : Option ℕ) : Call ℕ :=
  if flags.vm then return parent.pageTablePhys else allocated copy

/-- The identifier of a clone: a thread gets its caller's. -/
def clonePid (flags : CloneFlags) (parent : Task) : Call Pid :=
  if flags.thread then return parent.pid else allocUserPid

/-- Clone the current process. -/
def sysClone (flags : CloneFlags) (copy stack : Option ℕ) : Call Pid := do
  let parent ← userTask
  let pageTablePhys ← clonePageTable flags parent copy
  let kernelStackBase ← allocated stack
  let pid ← clonePid flags parent
  install (childOf parent pid { kernelStackBase, pageTablePhys })

/-- The task that is built from a program file. -/
def fromElf (creator pid : Pid) (image : Image) : Task where
  pid
  parentPid := creator
  user := true
  kernelStackBase := image.kernelStackBase
  pageTablePhys := image.pageTablePhys
  pgid := pid
  sessionId := creator
  creds := rootCredentials

/-- Build a task from a program: finding the file may fail, and building the
image may fail after the identifier was taken. -/
def loadProgram (program : Except SyscallError (Option Image)) : Call (Pid × Image) := do
  match program with
  | .error e => throw e
  | .ok image =>
    let pid ← allocUserPid
    match image with
    | some image => return (pid, image)
    | none => throw .ENOMEM

/-- The identifier of the current task. -/
def currentPid (s : TaskTable) : Pid := (s.currentTask.map Task.pid).getD 0

/-- Create a child process from a program; it has its creator's credentials. -/
def sysSpawn (program : Except SyscallError (Option Image)) : Call Pid := do
  let (pid, image) ← loadProgram program
  let s ← get
  let creds := (s.currentTask.map Task.creds).getD rootCredentials
  install { fromElf s.currentPid pid image with creds }

/-- The boot code's creation of the first user process. -/
def spawnUser (program : Except SyscallError (Option Image)) : Call Pid := do
  let (pid, image) ← loadProgram program
  let s ← get
  install (fromElf s.currentPid pid image)

/-- The task that is built for kernel code. -/
def newKernel (pid : Pid) (kernelStackBase : ℕ) : Task where
  pid
  parentPid := 0
  user := false
  kernelStackBase
  pageTablePhys := 0
  pgid := pid
  sessionId := pid
  creds := rootCredentials

/-- Spawn a kernel task; the input is its stack. -/
def spawn (stack : Option ℕ) : Call Pid := do
  let s ← get
  require (s.tasks.length < maxTasks) .EAGAIN
  set { s with nextPid := s.nextPid + 1 }
  let kernelStackBase ← allocated stack
  install (newKernel s.nextPid kernelStackBase)

/-- Replace the current task's execution image in place. -/
def replaceCurrentImage (image : Image) (s : TaskTable) : TaskTable :=
  s.modifyCurrent fun t =>
    { t with
      kernelStackBase := image.kernelStackBase
      pageTablePhys := image.pageTablePhys
      signals := {} }

/-- Replace the current process with a new program. -/
def sysExec (program : Except SyscallError (Option Image)) : Call Unit := do
  let (_, image) ← loadProgram program
  modify (replaceCurrentImage image)

/-- What `sys_wait` has come to: a child's identifier and status, nothing to
report, or it is blocked. -/
inductive WaitResult
  | child (pid : Pid) (status : Int32)
  | nothing
  | blocked

/-- One round of the loop of `sys_wait`. -/
def waitRound (w : Wait) (nohang : Bool) : Call WaitResult := do
  match (← get).reapZombieChildFiltered w with
  | some (child, s) =>
    set s
    return .child child.pid child.exitStatus
  | none =>
    if nohang then return .nothing
    modify (blockAndReschedule (some w))
    return .blocked

/-- Wait for a child process to exit.  `statusPtr` is whether the pointer for
the status is null or passes its check. -/
def sysWait (pid : Int32) (statusPtr : Bool) (options : UInt32) : Call WaitResult := do
  require (pid ≠ Int32.minValue) .EINVAL
  require (options &&& ~~~1 = 0) .EINVAL
  let s ← get
  let w : Wait :=
    { parent := s.currentPid
      filter := pid
      parentPgid := (s.currentTask.map Task.pgid).getD 0 }
  require statusPtr .EFAULT
  require (s.hasChildrenFiltered w) .ECHILD
  waitRound w (options &&& 1 ≠ 0)

/-- What `sys_wait` does when its task runs again after it was blocked. -/
def resumeWait (w : Wait) : Call WaitResult := do
  modify fun s => s.modifyCurrent fun t => { t with waiting := none }
  require ((← get).hasChildrenFiltered w) .ECHILD
  waitRound w false

/-- The signal a permission is judged for: signal 0 sends nothing and is judged
as SIGTERM. -/
def signalToJudge (sig : Int32) : Option Signal :=
  if sig = 0 then some .SIGTERM else Signal.fromU8 sig.toUInt32.toUInt8.toNat

/-- Send a signal on behalf of the current task, or only ask whether it could
be sent. -/
def sysKill (pid sig : Int32) : Call Unit := do
  require (0 < pid) .EINVAL
  match signalToJudge sig with
  | none => throw .EINVAL
  | some signal =>
    let s ← get
    let creds := (s.currentTask.map Task.creds).getD rootCredentials
    let session := (s.currentTask.map Task.sessionId).getD 0
    match (Slots.find (·.pid = pid.toUInt32) s.tasks).bind s.task with
    | none => throw .ESRCH
    | some target =>
      require (canSignal creds target.creds (target.sessionId = session) signal)
        .EPERM
      modify fun s => if sig = 0 then s else s.sendSignalTo pid.toUInt32 signal

/-- Install a signal handler. -/
def sysSigaction (signum : Int32) (handler : UInt64) : Call Unit := do
  require (0 < signum ∧ signum ≤ 31) .EINVAL
  require (signum ≠ 9 ∧ signum ≠ 19) .EINVAL
  modify fun s => s.modifyCurrent fun t =>
    { t with signals :=
        t.signals.setHandler (Fin.ofNat 32 signum.toUInt32.toNat) (.ofAddr handler) }

/-- The identifier that a call means; zero is the caller's. -/
def named (pid : Pid) (s : TaskTable) : Pid := if pid = 0 then s.currentPid else pid

/-- Put a task into a process group; zero is its own. -/
def sysSetpgid (pid pgid : Pid) : Call Unit := do
  let s ← get
  let pid := s.named pid
  let pgid := if pgid = 0 then pid else pgid
  require (Slots.find (·.pid = pid) s.tasks).isSome .ESRCH
  modify fun s =>
    { s with tasks := Slots.modifyFirst (·.pid = pid) (fun t => { t with pgid }) s.tasks }

/-- The caller becomes the leader of a new session and of a new group. -/
def sysSetsid : Call Pid := do
  modify fun s => s.modifyCurrent fun t => { t with sessionId := t.pid, pgid := t.pid }
  return (← get).currentPid

/-- What a signal does to the current task by default. -/
def takeDefaultAction (sig : Signal) (s : TaskTable) : TaskTable :=
  match SignalState.defaultAction sig with
  | .terminate => s.exitCurrent (-1)
  | .stop => s.blockAndReschedule none
  | .ignore => s

/-- One round of the loop that delivers pending signals before a system call
returns; `written` is whether the frame for a user handler could be written. -/
def deliverPendingSignal (written : Bool) (s : TaskTable) : TaskTable :=
  match s.currentTask.bind fun t => t.signals.takePending with
  | none => s
  | some (sig, signals) =>
    let s := s.modifyCurrent fun t => { t with signals }
    match signals.getHandler sig with
    | .ign => s
    | .dfl => s.takeDefaultAction sig
    | .user _ => bif written then s else s.takeDefaultAction sig

end TaskTable

/-! ## Changing the credentials -/

/-- The capabilities after a change of user identifier. -/
def dropForUidChange (oldUid oldEuid : UInt32) (creds : Credentials) : Credentials :=
  if oldUid = 0 ∧ creds.uid ≠ 0 then
    { creds with capPermitted := 0, capInheritable := 0, capEffective := 0 }
  else if oldEuid = 0 ∧ creds.euid ≠ 0 then { creds with capEffective := 0 }
  else if oldEuid ≠ 0 ∧ creds.euid = 0 then
    { creds with capEffective := creds.capPermitted }
  else creds

abbrev capSetuid : UInt8 := 3
abbrev capSetgid : UInt8 := 4

/-- The credentials after `setuid`, or the refusal. -/
def setuid (uid : UInt32) (creds : Credentials) : Except SyscallError Credentials :=
  if hasCap creds capSetuid then
    .ok (dropForUidChange creds.uid creds.euid { creds with uid, euid := uid })
  else if uid = creds.uid ∨ uid = creds.euid then
    .ok (dropForUidChange creds.uid creds.euid { creds with euid := uid })
  else .error .EPERM

/-- The credentials after `setgid`, or the refusal. -/
def setgid (gid : UInt32) (creds : Credentials) : Except SyscallError Credentials :=
  if hasCap creds capSetgid then .ok { creds with gid, egid := gid }
  else if gid = creds.gid ∨ gid = creds.egid then .ok { creds with egid := gid }
  else .error .EPERM

namespace TaskTable

/-- Change the current task's credentials. -/
def changeCreds (f : Credentials → Except SyscallError Credentials) : Call Unit := do
  match (← get).currentTask with
  | none => throw .ESRCH
  | some t =>
    match f t.creds with
    | .error e => throw e
    | .ok creds => modify fun s => s.modifyCurrent fun t => { t with creds }

def sysSetuid (uid : UInt32) : Call Unit := changeCreds (setuid uid)

def sysSetgid (gid : UInt32) : Call Unit := changeCreds (setgid gid)

end TaskTable

end RacOS.Tasks
