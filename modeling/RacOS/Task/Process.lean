import RacOS.Task.InitialStack
import RacOS.Task.Table

/-!
# Starting a program

The model of `UserProcess::from_elf` in `task/process.rs`, and of what `sys_exec` and
`sys_spawn` do once they have read the file: they load it, collect the arguments and the
environment, and build a process.
-/

namespace RacOS.Process

open Program
open Mm (pageSize Pml4)
open Elf (Machine Loaded)
open UserCopy (UserMemory)
open Tasks (TaskTable)

abbrev kernelStackPages : ℕ := 16
abbrev kernelStackGuardPages : ℕ := 1
abbrev kernelStackGuardByte : UInt8 := 0xCC

abbrev userCs : ℕ := 0x23
abbrev userDs : ℕ := 0x1B

/-- The interrupt flag. -/
abbrev userRflags : ℕ := 0x200

/-- What is new of a process: its kernel stack, its page table, and where its first run
begins. -/
structure UserProcess where
  kernelStackBase : ℕ
  pageTablePhys : ℕ
  contextRsp : ℕ

abbrev ProcessM := EStateM String Machine

def writeMemory (f : Bytes → Bytes) : ProcessM Unit :=
  modify fun m => { m with memory := f m.memory }

/-- Allocate the kernel stack with its guard page below it. -/
def allocKernelStack : ProcessM ℕ := do
  let first ← focus id (fun _ m => m) (fun _ => "Failed to allocate kernel stack + guard")
    (Elf.allocContiguous .kernelStack (kernelStackPages + kernelStackGuardPages))
  let kernelStackBase := (first + kernelStackGuardPages) * pageSize
  writeMemory fun b =>
    (b.patch (first * pageSize) (kernelStackGuardPages * pageSize)
      fun _ => kernelStackGuardByte).patch kernelStackBase (kernelStackPages * pageSize)
        Bytes.zero
  return kernelStackBase

/-- Write the arguments and the environment to the user stack. -/
def writeStack (loaded : Loaded) (argv envp : List (List UInt8)) : ProcessM ℕ := do
  let w := Tasks.prepareStack (loaded.program.stackFirst * pageSize) argv envp (← get).memory
  writeMemory fun _ => w.memory
  return w.sp

/-- Write the frame that the first return to user mode pops; the result is its address. -/
def writeIretFrame (entryPoint userRsp kernelStackBase : ℕ) : ProcessM ℕ := do
  let iretFrameStart := kernelStackBase + kernelStackPages * pageSize - 5 * 8
  writeMemory fun b =>
    b.writeArray 8 iretFrameStart [entryPoint, userCs, userRflags, userRsp, userDs]
  return iretFrameStart

/-- Create a process from a program in memory. -/
def fromElf (kernel : Pml4) (loaded : Loaded) (argv envp : List (List UInt8)) :
    ProcessM UserProcess := do
  let kernelStackBase ← allocKernelStack
  let userRsp ← writeStack loaded argv envp
  let contextRsp ← writeIretFrame loaded.entryPoint userRsp kernelStackBase
  let (root, _) ← focus Machine.free (fun m free => { m with free }) id
    (Mm.buildPageTable kernel loaded.program)
  return ⟨kernelStackBase, root * pageSize, contextRsp⟩

/-! ## The calls -/

/-- What the calls work on. -/
structure System where
  machine : Machine
  user : UserMemory
  tasks : TaskTable

abbrev SystemM := EStateM SyscallError System

def onUser {α : Type} (x : UserCopy.UserM α) : SystemM α :=
  focus System.user (fun s user => { s with user }) id x

def onTasks {α : Type} (x : Tasks.TaskTable.Call α) : SystemM α :=
  focus System.tasks (fun s tasks => { s with tasks }) id x

/-- Load the image. -/
def loadImage (image : Elf.Image) : SystemM Loaded :=
  focus System.machine (fun s machine => { s with machine }) (fun _ => .ENOEXEC)
    (Elf.loadElf image)

/-- Collect the strings and build the process, once the image is loaded.  The identifier
is taken before anything is built. -/
def buildProcess (kernel : Pml4) (path : List UInt8) (argvPtr envpPtr : ℕ) (loaded : Loaded) :
    SystemM (Tasks.Pid × UserProcess) := do
  let argv ← onUser (UserCopy.collectUserArgv path argvPtr)
  let envp ← onUser (UserCopy.collectUserEnvp envpPtr)
  let pid ← onTasks Tasks.TaskTable.allocUserPid
  let process ← focus System.machine (fun s machine => { s with machine }) (fun _ => .ENOMEM)
    (fromElf kernel loaded argv envp)
  return (pid, process)

/-- The task of a process that inherits the credentials of its creator. -/
def installTask (pid : Tasks.Pid) (process : UserProcess) : Tasks.TaskTable.Call Tasks.Pid := do
  let s ← get
  let creds := (s.currentTask.map Tasks.Task.creds).getD Tasks.rootCredentials
  Tasks.TaskTable.install { Tasks.TaskTable.fromElf s.currentPid pid
    ⟨process.kernelStackBase, process.pageTablePhys⟩ with creds }

/-- `sys_exec` up to the point of no return: what follows cannot fail. -/
def sysExec (kernel : Pml4) (image : Elf.Image) (path : List UInt8) (argvPtr envpPtr : ℕ) :
    SystemM UserProcess := do
  let loaded ← loadImage image
  let (_, process) ← buildProcess kernel path argvPtr envpPtr loaded
  return process

def sysSpawn (kernel : Pml4) (image : Elf.Image) (path : List UInt8) (argvPtr envpPtr : ℕ) :
    SystemM Tasks.Pid := do
  let loaded ← loadImage image
  let (pid, process) ← buildProcess kernel path argvPtr envpPtr loaded
  onTasks (installTask pid process)

end RacOS.Process
