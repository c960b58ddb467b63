import Mathlib.Algebra.GroupWithZero.Nat
import Mathlib.Data.Nat.Notation

/-!
# Signals

The model of `task/signal.rs`: pending and masked signals as bit masks, the
handler of every signal, and what a signal does by default.
-/

namespace RacOS.Tasks

inductive Signal
  | SIGHUP
  | SIGINT
  | SIGQUIT
  | SIGILL
  | SIGTRAP
  | SIGABRT
  | SIGFPE
  | SIGKILL
  | SIGUSR1
  | SIGSEGV
  | SIGUSR2
  | SIGPIPE
  | SIGALRM
  | SIGTERM
  | SIGCHLD
  | SIGCONT
  | SIGSTOP
  | SIGTSTP
  | SIGTTIN
  | SIGTTOU
  | SIGWINCH
  deriving DecidableEq

namespace Signal

/-- There are signal numbers. -/
instance neZero_numbers : NeZero 32 := ⟨by decide⟩

def number : Signal → Fin 32
  | SIGHUP => 1
  | SIGINT => 2
  | SIGQUIT => 3
  | SIGILL => 4
  | SIGTRAP => 5
  | SIGABRT => 6
  | SIGFPE => 8
  | SIGKILL => 9
  | SIGUSR1 => 10
  | SIGSEGV => 11
  | SIGUSR2 => 12
  | SIGPIPE => 13
  | SIGALRM => 14
  | SIGTERM => 15
  | SIGCHLD => 17
  | SIGCONT => 18
  | SIGSTOP => 19
  | SIGTSTP => 20
  | SIGTTIN => 21
  | SIGTTOU => 22
  | SIGWINCH => 28

/-- The signal with a number; not every number below 32 is one. -/
def fromU8 : ℕ → Option Signal
  | 1 => some SIGHUP
  | 2 => some SIGINT
  | 3 => some SIGQUIT
  | 4 => some SIGILL
  | 5 => some SIGTRAP
  | 6 => some SIGABRT
  | 8 => some SIGFPE
  | 9 => some SIGKILL
  | 10 => some SIGUSR1
  | 11 => some SIGSEGV
  | 12 => some SIGUSR2
  | 13 => some SIGPIPE
  | 14 => some SIGALRM
  | 15 => some SIGTERM
  | 17 => some SIGCHLD
  | 18 => some SIGCONT
  | 19 => some SIGSTOP
  | 20 => some SIGTSTP
  | 21 => some SIGTTIN
  | 22 => some SIGTTOU
  | 28 => some SIGWINCH
  | _ => none

end Signal

inductive SignalAction
  | terminate
  | ignore
  | stop
  deriving DecidableEq

/-- A signal's handler: the default action, none, or a function of the
process. -/
inductive Handler
  | dfl
  | ign
  | user (addr : UInt64)
  deriving DecidableEq

/-- A handler address as `sys_sigaction` stores it. -/
def Handler.ofAddr (addr : UInt64) : Handler :=
  if addr = 0 then dfl else if addr = 1 then ign else user addr

/-- Per-process signal state; the masks have bit `n` for signal `n`. -/
structure SignalState where
  pending : BitVec 32 := 0
  blocked : BitVec 32 := 0
  handlers : Fin 32 → Handler := fun _ => .dfl

namespace SignalState

/-- Post a signal. -/
def send (sig : Signal) (s : SignalState) : SignalState :=
  { s with pending := s.pending ||| BitVec.twoPow 32 sig.number }

/-- Take the lowest-numbered pending signal that is not masked.  A bit that
names no signal ends the search and stays. -/
def takePending (s : SignalState) : Option (Signal × SignalState) := do
  let deliverable := s.pending &&& ~~~s.blocked
  let bit ← (List.range 32).find? fun n => deliverable.getLsbD n
  let sig ← Signal.fromU8 bit
  some (sig, { s with pending := s.pending &&& ~~~BitVec.twoPow 32 sig.number })

def getHandler (sig : Signal) (s : SignalState) : Handler :=
  s.handlers sig.number

def setHandler (n : Fin 32) (handler : Handler) (s : SignalState) : SignalState :=
  { s with handlers := fun m => if m = n then handler else s.handlers m }

def defaultAction : Signal → SignalAction
  | .SIGCHLD | .SIGCONT | .SIGWINCH => .ignore
  | .SIGSTOP | .SIGTSTP | .SIGTTIN | .SIGTTOU => .stop
  | _ => .terminate

end SignalState

end RacOS.Tasks
