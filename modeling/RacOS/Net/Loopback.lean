import RacOS.Lib.Program
import RacOS.Lib.Slots

/-!
# Loopback sockets

The in-kernel stream sockets of `net/mod.rs`.  Sockets live in a table of
slots and are reached from a process through its descriptors.  Closing a
descriptor drops its binding and shuts the socket down; the socket itself
stays in the table.
-/

namespace RacOS.Net

open Program

inductive NetError
  | Inval
  | NotSup
  | BadFd
  | AddrInUse
  | NotConn
  | ConnRefused
  | Again
  | Pipe
  deriving DecidableEq

/-- The loopback sockets; `AF_INET` and `SOCK_STREAM` are the only kind. -/
def AF_INET : ℤ := 2

def SOCK_STREAM : ℤ := 1

/-- A descriptor of a process and the socket it stands for. -/
structure FdBinding where
  pid : ℕ
  fd : ℤ
  sid : ℕ
  deriving DecidableEq

structure Socket where
  domain : ℤ
  stype : ℤ
  protocol : ℤ
  localPort : Option UInt16
  peer : Option ℕ
  listening : Bool
  backlog : ℕ
  pending : List ℕ
  recvBuf : List UInt8
  shutdownRead : Bool
  shutdownWrite : Bool
  peerWriteClosed : Bool
  deriving DecidableEq

def Socket.new (domain stype protocol : ℤ) : Socket where
  domain := domain
  stype := stype
  protocol := protocol
  localPort := none
  peer := none
  listening := false
  backlog := 0
  pending := []
  recvBuf := []
  shutdownRead := false
  shutdownWrite := false
  peerWriteClosed := false

/-- The state of the loopback sockets. -/
structure NetState where
  sockets : List (Option Socket)
  bindings : List FdBinding
  nextEphemeralPort : UInt16
  deriving DecidableEq

def NetState.new : NetState where
  sockets := []
  bindings := []
  nextEphemeralPort := 49152

abbrev NetM := EStateM NetError NetState

/-! ## Tables -/

/-- Put a socket into the first free slot of the table. -/
def allocSid (sock : Socket) : NetM ℕ := do
  let sid := Slots.firstEmpty (← get).sockets
  modify fun st => { st with sockets := Slots.place sock st.sockets }
  pure sid

def socketRef (sid : ℕ) : NetM Socket := do
  match Slots.get (← get).sockets sid with
  | some sock => pure sock
  | none => throw .BadFd

/-- Change a socket in place. -/
def socketMut (sid : ℕ) (f : Socket → Socket) : NetM Unit := do
  let _ ← socketRef sid
  modify fun st => { st with sockets := Slots.modify sid f st.sockets }

/-- The binding of a descriptor. -/
def NetState.binding (st : NetState) (pid : ℕ) (fd : ℤ) : Option FdBinding :=
  st.bindings.find? fun b => b.pid == pid && b.fd == fd

def sidByFd (pid : ℕ) (fd : ℤ) : NetM ℕ := do
  match (← get).binding pid fd with
  | some b => pure b.sid
  | none => throw .BadFd

/-- The socket listens on the port. -/
def Socket.listensOn (sock : Socket) (port : UInt16) : Bool :=
  sock.localPort == some port && sock.listening

def NetState.isPortInUse (st : NetState) (port : UInt16) : Bool :=
  st.sockets.any fun slot => slot.any fun sock => sock.listensOn port

/-- The search of `alloc_ephemeral`, with the number of ports left to try. -/
def ephemeralFrom : ℕ → NetM UInt16
  | 0 => pure 55000
  | left + 1 => do
    let p := (← get).nextEphemeralPort
    modify fun st =>
      { st with
        nextEphemeralPort := if p + 1 < 49152 then 49152 else p + 1 }
    if (← get).isPortInUse p then ephemeralFrom left else pure p

/-- The search for a port changes nothing but the place it starts from. -/
theorem ephemeralFrom_run (left : ℕ) (st : NetState) :
    ∃ port next, ephemeralFrom left st = .ok port { st with nextEphemeralPort := next } := by
  induction left generalizing st with
  | zero => exact ⟨55000, st.nextEphemeralPort, rfl⟩
  | succ left ih =>
    rw [ephemeralFrom, get_bind_run, modify_bind_run, get_bind_run]
    generalize (if st.nextEphemeralPort + 1 < 49152 then 49152
      else st.nextEphemeralPort + 1) = next₀
    split
    · obtain ⟨port, next, hrun⟩ := ih { st with nextEphemeralPort := next₀ }
      exact ⟨port, next, hrun⟩
    · exact ⟨_, _, rfl⟩

def allocEphemeral : NetM UInt16 := ephemeralFrom 4096

/-- Remove an element by moving the last one into its place. -/
def swapRemove {α : Type} (i : ℕ) (l : List α) : List α :=
  match l.getLast? with
  | some last => (l.set i last).dropLast
  | none => l

variable {α : Type} {i : ℕ} {l : List α} {x : α}

theorem mem_of_mem_swapRemove (h : x ∈ swapRemove i l) : x ∈ l := by
  rw [swapRemove] at h
  cases hlast : l.getLast? with
  | none => simpa [hlast] using h
  | some last =>
    rw [hlast] at h
    rcases List.mem_or_eq_of_mem_set (List.dropLast_subset _ h) with h | rfl
    · exact h
    · exact List.mem_of_getLast? hlast

/-- Only the element removed is lost. -/
theorem mem_swapRemove_of_ne (hi : i < l.length) (hx : x ∈ l) (hne : l[i]? ≠ some x) :
    x ∈ swapRemove i l := by
  obtain ⟨k, hk, rfl⟩ := List.mem_iff_getElem.mp hx
  have hki : k ≠ i := by
    rintro rfl
    exact hne (List.getElem?_eq_getElem hk)
  have hlast : l.getLast? = some (l[l.length - 1]) := by
    rw [List.getLast?_eq_getElem?, List.getElem?_eq_getElem]
  rw [swapRemove, hlast]
  -- the last element is found where the removed one was
  by_cases hend : k = l.length - 1
  · subst hend
    refine List.mem_iff_getElem.mpr ⟨i, ?_, ?_⟩
    · simp only [List.length_dropLast, List.length_set]
      omega
    · rw [List.getElem_dropLast, List.getElem_set_self]
  · refine List.mem_iff_getElem.mpr ⟨k, ?_, ?_⟩
    · simp only [List.length_dropLast, List.length_set]
      omega
    · rw [List.getElem_dropLast, List.getElem_set_ne (Ne.symm hki)]

variable {st : NetState}

theorem sidByFd_run {pid : ℕ} {fd : ℤ} {b : FdBinding} (h : st.binding pid fd = some b) :
    sidByFd pid fd st = .ok b.sid st := by
  rw [sidByFd, get_bind_run, h]
  rfl

variable {sid : ℕ} {sock : Socket}

theorem socketRef_run (h : Slots.get st.sockets sid = some sock) :
    socketRef sid st = .ok sock st := by
  rw [socketRef, get_bind_run, h]
  rfl

theorem socketMut_run {f : Socket → Socket} (h : Slots.get st.sockets sid = some sock) :
    socketMut sid f st = .ok () { st with sockets := Slots.modify sid f st.sockets } := by
  rw [socketMut, bind_of_ok (socketRef_run h)]
  rfl

/-! ## Calls -/

def createSocket (domain stype protocol : ℤ) : NetM ℕ := do
  require (domain = AF_INET ∧ stype = SOCK_STREAM) .NotSup
  allocSid (Socket.new domain stype protocol)

def bindFd (pid : ℕ) (fd : ℤ) (sid : ℕ) : NetM Unit :=
  modify fun st => { st with bindings := st.bindings ++ [⟨pid, fd, sid⟩] }

/-- Mark one or both directions of a socket closed and tell its peer. -/
def shutdownSid (sid : ℕ) (how : ℤ) : NetM Unit := do
  require (how = 0 ∨ how = 1 ∨ how = 2) .Inval
  let setRd : Bool := how = 0 ∨ how = 2
  let setWr : Bool := how = 1 ∨ how = 2
  socketMut sid fun sock =>
    { sock with
      shutdownRead := sock.shutdownRead || setRd
      shutdownWrite := sock.shutdownWrite || setWr }
  let sock ← socketRef sid
  if setWr then
    match sock.peer with
    | some psid =>
      ignore (socketMut psid fun peer => { peer with peerWriteClosed := true })
    | none => pure ()
  else pure ()

def closeFd (pid : ℕ) (fd : ℤ) : NetM Unit := do
  let st ← get
  match st.binding pid fd with
  | some b =>
    modify fun st =>
      { st with
        bindings := swapRemove
          (st.bindings.findIdx fun b => b.pid == pid && b.fd == fd) st.bindings }
    ignore (shutdownSid b.sid 2)
  | none => pure ()

def bind (pid : ℕ) (fd : ℤ) (port : UInt16) : NetM Unit := do
  require ((← get).isPortInUse port = false) .AddrInUse
  let sid ← sidByFd pid fd
  socketMut sid fun sock => { sock with localPort := some port }

def listen (pid : ℕ) (fd : ℤ) (backlog : ℤ) : NetM Unit := do
  let sid ← sidByFd pid fd
  let sock ← socketRef sid
  require (sock.localPort ≠ none) .Inval
  socketMut sid fun sock =>
    { sock with
      listening := true
      backlog := min (max backlog 1).toNat 128 }

/-- Give a connecting socket that has no port an ephemeral one. -/
def ensurePort (sid : ℕ) (client : Socket) : NetM Unit :=
  if client.localPort = none then do
    let eph ← allocEphemeral
    socketMut sid fun client => { client with localPort := some eph }
  else pure ()

def connect (pid : ℕ) (fd : ℤ) (port : UInt16) : NetM Unit := do
  let clientSid ← sidByFd pid fd
  match Slots.find (fun sock => sock.listening && sock.localPort == some port)
      (← get).sockets with
  | none => throw .ConnRefused
  | some listenerSid =>
    let client ← socketRef clientSid
    require (client.peer = none ∧ client.listening = false) .Inval
    ensurePort clientSid client
    let serverSid ← allocSid (Socket.new AF_INET SOCK_STREAM 0)
    socketMut serverSid fun server =>
      { server with localPort := some port, peer := some clientSid }
    socketMut clientSid fun client => { client with peer := some serverSid }
    -- a full queue leaves the two ends connected to each other
    let listener ← socketRef listenerSid
    require (listener.pending.length < listener.backlog) .Again
    socketMut listenerSid fun listener =>
      { listener with pending := listener.pending ++ [serverSid] }

def accept (pid : ℕ) (fd : ℤ) : NetM ℕ := do
  let listenerSid ← sidByFd pid fd
  let listener ← socketRef listenerSid
  require (listener.listening = true) .Inval
  match listener.pending with
  | [] => throw .Again
  | sid :: rest =>
    socketMut listenerSid fun listener => { listener with pending := rest }
    pure sid

def send (pid : ℕ) (fd : ℤ) (data : List UInt8) : NetM ℕ := do
  let sid ← sidByFd pid fd
  let sock ← socketRef sid
  require (sock.shutdownWrite = false) .Pipe
  match sock.peer with
  | none => throw .NotConn
  | some peerSid =>
    let peer ← socketRef peerSid
    require (peer.shutdownRead = false) .Pipe
    socketMut peerSid fun peer => { peer with recvBuf := peer.recvBuf ++ data }
    pure data.length

def recv (pid : ℕ) (fd : ℤ) (len : ℕ) : NetM (List UInt8) := do
  let sid ← sidByFd pid fd
  let sock ← socketRef sid
  if sock.shutdownRead then
    pure []
  else if sock.recvBuf = [] then
    if sock.peerWriteClosed then pure [] else throw .Again
  else
    socketMut sid fun sock => { sock with recvBuf := sock.recvBuf.drop len }
    pure (sock.recvBuf.take len)

def shutdown (pid : ℕ) (fd : ℤ) (how : ℤ) : NetM Unit := do
  let sid ← sidByFd pid fd
  shutdownSid sid how

/-! ## The calls a process makes -/

/-- A socket call of a process.  The descriptors that `socket` and `accept`
hand out come from the process's descriptor table, which may be full. -/
inductive SocketCall
  | socket (pid : ℕ) (newFd : Option ℤ) (domain stype protocol : ℤ)
  | bind (pid : ℕ) (fd : ℤ) (port : UInt16)
  | listen (pid : ℕ) (fd : ℤ) (backlog : ℤ)
  | connect (pid : ℕ) (fd : ℤ) (port : UInt16)
  | accept (pid : ℕ) (fd : ℤ) (newFd : Option ℤ)
  | send (pid : ℕ) (fd : ℤ) (data : List UInt8)
  | recv (pid : ℕ) (fd : ℤ) (len : ℕ)
  | shutdown (pid : ℕ) (fd : ℤ) (how : ℤ)
  | close (pid : ℕ) (fd : ℤ)

/-- Give a socket the descriptor found for it. -/
def allocFdForSocket (pid : ℕ) (newFd : Option ℤ) (sid : ℕ) : NetM Unit :=
  match newFd with
  | some fd => bindFd pid fd sid
  | none => pure ()

def SocketCall.program : SocketCall → NetM Unit
  | socket pid newFd domain stype protocol => do
    let sid ← createSocket domain stype protocol
    allocFdForSocket pid newFd sid
  | bind pid fd port => Net.bind pid fd port
  | listen pid fd backlog => Net.listen pid fd backlog
  | connect pid fd port => Net.connect pid fd port
  | accept pid fd newFd => do
    let sid ← Net.accept pid fd
    allocFdForSocket pid newFd sid
  | send pid fd data => do let _ ← Net.send pid fd data
  | recv pid fd len => do let _ ← Net.recv pid fd len
  | shutdown pid fd how => Net.shutdown pid fd how
  | close pid fd => closeFd pid fd

/-- The state after a call, whatever its outcome. -/
def SocketCall.step (c : SocketCall) (st : NetState) : NetState :=
  final c.program st

end RacOS.Net
