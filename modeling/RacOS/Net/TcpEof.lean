import RacOS.Lib.Runs
import RacOS.Net.TcpOutput
import RacOS.Syscall.Error

/-!
# The end of a stream at `sys_recv`

The model of the loop of `sys_recv` on a TCP connection.  Each round looks into the receive
buffer and then at the state of the connection; these are two critical sections, and between
any two steps of the call segments arrive and the timer runs.  Returning no bytes tells the
process that the stream has ended.  That is true unless data arrives between the two looks,
or a closed connection leaves the table with data in its buffer.
-/

namespace RacOS.Net.Recv

open Tcp

/-! ## The call -/

/-- Where a call is: before it reads the buffer, before it looks at the state, before it
looks at the clock. -/
inductive Pc
  | read
  | check
  | clock
  deriving DecidableEq

/-- A call of `sys_recv` with a buffer of `chunk` bytes, made at time `start`. -/
structure Call where
  pc : Pc
  chunk : ℕ
  start : ℕ

/-- The connection of the call, if it is in the table.  Two things are recorded on the way:
`unread` has the bytes that have been taken into the receive buffer and not been returned
to the process, and `ended` says that the peer's FIN or RST has been processed or the
connection has been given up. -/
structure Receiver where
  slot : Option TcpConn
  unread : List UInt8
  ended : Bool
  call : Option Call

/-- The states in which an empty buffer is taken for the end of the stream. -/
def endsStream : Option State → Bool
  | none => true
  | some .closed => true
  | some .timeWait => true
  | some .closeWait => true
  | some .lastAck => true
  | some _ => false

/-- What happens to the connection, and the steps of the process. -/
inductive Event
  | segment (hdr : TcpHeader) (options data : List UInt8)
  | tick (now : ℕ)
  | send (data : List UInt8) (now : ℕ)
  | close (now : ℕ)
  | recv (len now : ℕ)
  | go (now : ℕ)

/-- The process calls `sys_recv`, unless it is in a call. -/
def Receiver.recv (s : Receiver) (len now : ℕ) : Receiver :=
  if s.call.isNone then { s with call := some ⟨.read, min len userIoChunk, now⟩ } else s

/-- What is there to be read into a buffer of `n` bytes. -/
def Receiver.available (s : Receiver) (n : ℕ) : List UInt8 :=
  (s.slot.map fun conn => (conn.read n).1).getD []

/-- What a step of the call returns, if it returns. -/
def Receiver.returns (s : Receiver) (now : ℕ) : Option (Except SyscallError (List UInt8)) :=
  s.call.bind fun call =>
    match call.pc with
    | .read =>
      if s.available call.chunk ≠ [] then some (.ok (s.available call.chunk)) else none
    | .check => if endsStream (s.slot.map TcpConn.state) then some (.ok []) else none
    | .clock => if 5000 < now - call.start then some (.error .EAGAIN) else none

/-- A step of the call. -/
def Receiver.go (s : Receiver) (now : ℕ) : Receiver :=
  match s.call with
  | none => s
  | some call =>
    match call.pc with
    | .read =>
      { s with
        slot := s.slot.map fun conn => (conn.read call.chunk).2
        unread := s.unread.drop (s.available call.chunk).length
        call := if s.available call.chunk ≠ [] then none
          else some { call with pc := .check } }
    | .check =>
      { s with
        call := if endsStream (s.slot.map TcpConn.state) then none
          else some { call with pc := .clock } }
    | .clock =>
      { s with
        call := if 5000 < now - call.start then none else some { call with pc := .read } }

/-- A segment for the connection. -/
def Receiver.segment (s : Receiver) (conn : TcpConn) (hdr : TcpHeader)
    (options data : List UInt8) : Receiver :=
  let conn' := (processSegment conn hdr options data).2
  { s with
    slot := some conn'
    unread := s.unread ++ conn'.recvBuf.drop conn.recvBuf.length
    ended := s.ended || hdr.has Flag.rst || conn'.peerFinSeen }

/-- The timer: a closed connection leaves the table. -/
def Receiver.tick (s : Receiver) (conn : TcpConn) (now : ℕ) : Receiver :=
  if conn.state = .closed then { s with slot := none }
  else
    { s with
      slot := some (conn.tick now).2
      ended := s.ended || decide (∃ p ∈ conn.pending, p.expired now) }

/-- A connection after a call on it; the system does not go on after a panic. -/
def settled (conn : TcpConn) (r : Except (Failure TcpError) (List Segment × TcpConn)) : TcpConn :=
  (conn.settle r).getD conn

def Receiver.step (e : Event) (s : Receiver) : Receiver :=
  match e, s.slot with
  | .segment hdr options data, some conn => s.segment conn hdr options data
  | .tick now, some conn => s.tick conn now
  | .send data now, some conn => { s with slot := some (settled conn (conn.send data now)) }
  | .close now, some conn => { s with slot := some (settled conn (conn.close now)) }
  | .recv len now, _ => s.recv len now
  | .go now, _ => s.go now
  | _, none => s

/-- A connection that has just been opened. -/
def Receiver.opening (localPort : UInt16) (remoteIp : Ip) (remotePort : UInt16)
    (peerMac : Mac) (iss : UInt32) (now : ℕ) : Receiver where
  slot := some (TcpConn.opening localPort remoteIp remotePort peerMac iss now)
  unread := []
  ended := false
  call := none

/-- A call with room for some bytes returns none only at the end of the stream. -/
def Truthful (e : Event) (s : Receiver) : Prop :=
  ∀ now call, e = .go now → s.call = some call → 0 < call.chunk →
    s.returns now = some (.ok []) → s.unread = [] ∧ s.ended

/-- No data is taken in while a call is between its two looks, and no connection leaves the
table with data in its buffer. -/
def Undisturbed (e : Event) (s : Receiver) : Prop :=
  ∀ conn, s.slot = some conn →
    match e with
    | .segment hdr _ data => (∃ call, s.call = some call ∧ call.pc = .check) →
        ¬(data ≠ [] ∧ hdr.seq = conn.rcvNxt ∧ conn.recvBuf.length < recvBufLimit)
    | .tick _ => conn.state = .closed → conn.recvBuf = []
    | _ => True

/-! ## What segments do -/

theorem processSegment_recvBuf (conn : TcpConn) (hdr : TcpHeader) (options data : List UInt8) :
    (processSegment conn hdr options data).2.recvBuf = conn.recvBuf ∨
      (processSegment conn hdr options data).2.recvBuf =
        conn.recvBuf ++ data.take (conn.taken hdr data) := by
  rcases processSegment_cases conn hdr options data with ⟨-, -, heq⟩ | ⟨-, heq⟩ | ⟨hsame, -, -⟩
  · rw [heq, processOpen_recvBuf]
    exact .inr rfl
  · rw [heq]
    rcases processSynSent_cases conn hdr options with hsame | ⟨_, _, hnew, -⟩
    · rw [hsame]
      exact .inl rfl
    · rw [hnew]
      exact .inl rfl
  · exact .inl hsame.recvBuf

variable {conn : TcpConn}

/-- A segment closes a connection by its RST flag, or as the answer to our FIN behind the
peer's. -/
theorem closed_of_processSegment {hdr : TcpHeader} {options data : List UInt8}
    (h : (processSegment conn hdr options data).2.state = .closed) :
    hdr.has Flag.rst ∨ conn.state = .closed ∨ conn.state = .lastAck := by
  by_cases hrst : hdr.has Flag.rst
  · exact .inl hrst
  · refine .inr ?_
    rcases processSegment_cases conn hdr options data with
      ⟨hopen, -, heq⟩ | ⟨-, heq⟩ | ⟨-, -, hnot⟩
    · rw [heq] at h
      exact absurd h (processOpen_state_ne hopen rfl (by decide))
    · rw [heq] at h
      rcases processSynSent_cases conn hdr options with hsame | ⟨_, _, hnew, -⟩
      · rw [hsame] at h
        exact .inl h
      · rw [hnew] at h
        cases h
    · have hopen := hnot.resolve_left hrst
      by_cases hsyn : conn.state = .synSent
      · rw [processSegment_synSent hsyn hrst] at h
        rcases processSynSent_cases conn hdr options with hsame | ⟨_, _, hnew, -⟩
        · rw [hsame] at h
          exact .inl h
        · rw [hnew] at h
          cases h
      · rw [(processSegment_behind hopen hsyn hrst).2] at h
        split at h
        · rename_i hlast
          exact .inr hlast.1
        · exact .inl h

/-! ## The invariant -/

/-- What is known of a connection in the table. -/
structure Held (conn : TcpConn) (unread : List UInt8) (ended : Bool) : Prop where
  recvBuf : conn.recvBuf = unread
  closed : conn.state = .closed → ended
  fin : FinSeen conn
  seen : conn.peerFinSeen → ended

variable {unread : List UInt8} {ended : Bool}

theorem Held.ended_of_endsStream (h : Held conn unread ended)
    (hends : endsStream (some conn.state)) : ended := by
  cases hst : conn.state with
  | closed => exact h.closed hst
  | closeWait => exact h.seen (h.fin (.inl hst))
  | lastAck => exact h.seen (h.fin (.inr (.inl hst)))
  | timeWait => exact h.seen (h.fin (.inr (.inr hst)))
  | synSent | established | finWait1 | finWait2 =>
    rw [hst] at hends
    cases hends

theorem Held.segment (h : Held conn unread ended) (hdr : TcpHeader) (options data : List UInt8) :
    Held (processSegment conn hdr options data).2
      (unread ++ (processSegment conn hdr options data).2.recvBuf.drop conn.recvBuf.length)
      (ended || hdr.has Flag.rst || (processSegment conn hdr options data).2.peerFinSeen) where
  recvBuf := by
    rcases processSegment_recvBuf conn hdr options data with heq | heq
    · rw [heq, List.drop_length, List.append_nil, h.recvBuf]
    · rw [heq, List.drop_left, h.recvBuf]
  closed hclosed := by
    rcases closed_of_processSegment hclosed with hrst | hold | hold
    · simp [hrst]
    · simp [h.closed hold]
    · simp [h.seen (h.fin (.inr (.inl hold)))]
  fin := h.fin.step (e := .segment hdr options data) rfl
  seen hseen := by simp [hseen]

theorem Held.tick (h : Held conn unread ended) (now : ℕ) (hopen : conn.state ≠ .closed) :
    Held (conn.tick now).2 unread (ended || decide (∃ p ∈ conn.pending, p.expired now)) where
  recvBuf := h.recvBuf
  closed hclosed := by
    by_cases hexp : ∃ p ∈ conn.pending, p.expired now
    · simp [hexp]
    · refine absurd ?_ hopen
      have hstate : (conn.tick now).2.state = conn.state := if_neg hexp
      rw [← hstate, hclosed]
  fin := h.fin.step (e := .tick now) (if_neg hopen)
  seen hseen := by simp [h.seen hseen]

theorem settled_cases (conn : TcpConn) (r : Except (Failure TcpError) (List Segment × TcpConn)) :
    settled conn r = conn ∨ ∃ frames, r = .ok (frames, settled conn r) := by
  cases r with
  | ok r => exact .inr ⟨r.1, rfl⟩
  | error e =>
    cases e with
    | error e => exact .inl rfl
    | panic => exact .inl rfl

theorem Held.send (h : Held conn unread ended) (data : List UInt8) (now : ℕ) :
    Held (settled conn (conn.send data now)) unread ended := by
  rcases settled_cases conn (conn.send data now) with heq | ⟨frames, heq⟩
  · rw [heq]
    exact h
  · generalize settled conn (conn.send data now) = conn' at heq
    unfold TcpConn.send at heq
    split at heq
    · cases heq
    · split at heq
      · cases heq
      · rename_i r hloop
        cases heq
        obtain ⟨hsame, hstate⟩ := sendLoop_same hloop
        refine ⟨hsame.recvBuf.trans h.recvBuf, fun hclosed => h.closed (hstate ▸ hclosed),
          ?_, fun hseen => h.seen (hsame.peerFinSeen ▸ hseen)⟩
        unfold FinSeen
        rw [hstate, hsame.peerFinSeen]
        exact h.fin

theorem Held.close (h : Held conn unread ended) (now : ℕ) :
    Held (settled conn (conn.close now)) unread ended := by
  rcases settled_cases conn (conn.close now) with heq | ⟨frames, heq⟩
  · rw [heq]
    exact h
  · generalize settled conn (conn.close now) = conn' at heq
    unfold TcpConn.close at heq
    split at heq
    · cases heq
    · rename_i hst
      cases heq
      by_cases hest : conn.state = .established
      · simp only [if_pos hest]
        exact ⟨h.recvBuf, (by intro h; cases h), (by rintro (h | h | h) <;> cases h), h.seen⟩
      · have hwait : conn.state = .closeWait := by
          by_contra hwait
          exact hst ⟨hest, hwait⟩
        simp only [if_neg hest]
        exact ⟨h.recvBuf, (by intro h; cases h), fun _ => h.fin (.inl hwait), h.seen⟩

/-- What is known at every moment: all that has been taken in is in the buffer or has been
returned, and a call that is about to look at the state has found the buffer empty. -/
structure Receiver.Ok (s : Receiver) : Prop where
  held : ∀ conn, s.slot = some conn → Held conn s.unread s.ended
  gone : s.slot = none → s.unread = [] ∧ s.ended
  empty : ∀ call, s.call = some call → call.pc = .check → 0 < call.chunk → s.unread = []

theorem Receiver.Ok.opening (localPort : UInt16) (remoteIp : Ip) (remotePort : UInt16)
    (peerMac : Mac) (iss : UInt32) (now : ℕ) :
    (Receiver.opening localPort remoteIp remotePort peerMac iss now).Ok where
  held conn hconn := by
    obtain rfl := Option.some.inj hconn
    exact ⟨rfl, nofun, (by rintro (h | h | h) <;> cases h), nofun⟩
  gone := nofun
  empty := nofun

variable {s : Receiver}

/-- With nothing unread, an end of the stream is a true one. -/
theorem Receiver.Ok.truthful (h : s.Ok) (e : Event) : Truthful e s := by
  intro now call _ hcall hchunk hreturns
  unfold Receiver.returns at hreturns
  rw [hcall, Option.bind_some] at hreturns
  cases hpc : call.pc with
  | read =>
    rw [hpc] at hreturns
    simp only at hreturns
    split at hreturns
    · rename_i hbytes
      rw [Option.some.injEq, Except.ok.injEq] at hreturns
      exact absurd hreturns hbytes
    · cases hreturns
  | check =>
    rw [hpc] at hreturns
    simp only at hreturns
    split at hreturns
    · rename_i hends
      refine ⟨h.empty call hcall hpc hchunk, ?_⟩
      cases hslot : s.slot with
      | none => exact (h.gone hslot).2
      | some conn =>
        rw [hslot] at hends
        exact (h.held conn hslot).ended_of_endsStream hends
    · cases hreturns
  | clock =>
    rw [hpc] at hreturns
    simp only at hreturns
    split at hreturns <;> cases hreturns

/-- The first look takes out of the buffer what it returns. -/
theorem Receiver.Ok.read (h : s.Ok) (call : Call) :
    (Receiver.mk (s.slot.map fun conn => (conn.read call.chunk).2)
      (s.unread.drop (s.available call.chunk).length) s.ended
      (if s.available call.chunk ≠ [] then none else some { call with pc := .check })).Ok := by
  cases hslot : s.slot with
  | none =>
    obtain ⟨hunread, hover⟩ := h.gone hslot
    refine ⟨nofun, fun _ => ⟨?_, hover⟩, fun _ _ _ _ => ?_⟩ <;>
    · change s.unread.drop _ = []
      rw [hunread, List.drop_nil]
  | some conn =>
    have hheld := h.held conn hslot
    have havail : s.available call.chunk = s.unread.take call.chunk := by
      rw [Receiver.available, hslot, ← hheld.recvBuf]
      rfl
    have hdrop : s.unread.drop (s.available call.chunk).length = s.unread.drop call.chunk := by
      rw [havail, List.length_take]
      exact List.drop_eq_drop_iff.mpr (by omega)
    refine ⟨fun conn' hconn' => ?_, nofun, fun call' hcall' _ hchunk => ?_⟩
    · obtain rfl := Option.some.inj hconn'
      refine ⟨?_, hheld.closed, hheld.fin, hheld.seen⟩
      change conn.recvBuf.drop call.chunk = s.unread.drop _
      rw [hdrop, hheld.recvBuf]
    · change (if _ then _ else _) = _ at hcall'
      split at hcall'
      · cases hcall'
      · rename_i hnone
        obtain rfl := Option.some.inj hcall'
        rw [not_not, havail, List.take_eq_nil_iff] at hnone
        change s.unread.drop _ = []
        rcases hnone with hzero | hnil
        · exact absurd hzero (Nat.pos_iff_ne_zero.mp hchunk)
        · rw [hnil, List.drop_nil]

theorem Receiver.Ok.go (h : s.Ok) (now : ℕ) : (s.go now).Ok := by
  unfold Receiver.go
  cases hcall : s.call with
  | none => exact h
  | some call =>
    simp only
    cases hpc : call.pc with
    | read => exact h.read call
    | check | clock =>
      -- neither goes on to the check
      refine ⟨h.held, h.gone, fun call' hcall' hpc' => ?_⟩
      simp only at hcall'
      split at hcall'
      · cases hcall'
      · cases hcall'
        cases hpc'

theorem Receiver.Ok.segment (h : s.Ok) (hslot : s.slot = some conn) {hdr : TcpHeader}
    {options data : List UInt8} (hquiet : Undisturbed (.segment hdr options data) s) :
    (s.segment conn hdr options data).Ok := by
  refine ⟨fun conn' hconn' => ?_, nofun, fun call hcall hpc hchunk => ?_⟩
  · obtain rfl := Option.some.inj hconn'
    exact (h.held conn hslot).segment hdr options data
  · have hzero : conn.taken hdr data = 0 := by
      have hnot := hquiet conn hslot ⟨call, hcall, hpc⟩
      unfold TcpConn.taken
      split
      · rename_i hin
        have hfull : ¬conn.recvBuf.length < recvBufLimit := fun hroom =>
          hnot ⟨hin.1, hin.2, hroom⟩
        omega
      · rfl
    have hsame : (processSegment conn hdr options data).2.recvBuf = conn.recvBuf := by
      rcases processSegment_recvBuf conn hdr options data with heq | heq
      · exact heq
      · rw [heq, hzero, List.take_zero, List.append_nil]
    change s.unread ++ (processSegment conn hdr options data).2.recvBuf.drop _ = []
    rw [hsame, List.drop_length, List.append_nil]
    exact h.empty call hcall hpc hchunk

theorem Receiver.Ok.tick (h : s.Ok) (hslot : s.slot = some conn) {now : ℕ}
    (hquiet : Undisturbed (.tick now) s) : (s.tick conn now).Ok := by
  have hheld := h.held conn hslot
  unfold Receiver.tick
  split
  · rename_i hclosed
    refine ⟨nofun, fun _ => ⟨?_, hheld.closed hclosed⟩, h.empty⟩
    rw [← hheld.recvBuf]
    exact hquiet conn hslot hclosed
  · rename_i hopen
    refine ⟨fun conn' hconn' => ?_, nofun, h.empty⟩
    obtain rfl := Option.some.inj hconn'
    exact hheld.tick now hopen

theorem Receiver.Ok.recv (h : s.Ok) (len now : ℕ) : (s.recv len now).Ok := by
  unfold Receiver.recv
  split
  · refine ⟨h.held, h.gone, fun call hcall hpc => ?_⟩
    obtain rfl := Option.some.inj hcall
    cases hpc
  · exact h

theorem Receiver.Ok.step {e : Event} (h : s.Ok) (hquiet : Undisturbed e s) :
    (Receiver.step e s).Ok := by
  unfold Receiver.step
  split
  · rename_i hslot
    exact h.segment hslot hquiet
  · rename_i hslot
    exact h.tick hslot hquiet
  · rename_i data now conn hslot
    refine ⟨fun conn' hconn' => ?_, nofun, h.empty⟩
    obtain rfl := Option.some.inj hconn'
    exact (h.held conn hslot).send data now
  · rename_i now conn hslot
    refine ⟨fun conn' hconn' => ?_, nofun, h.empty⟩
    obtain rfl := Option.some.inj hconn'
    exact (h.held conn hslot).close now
  · exact h.recv _ _
  · exact h.go _
  · exact h

/-- **The end of the stream is true when the call is not disturbed.**  In every run from
`connect` in which no data is taken in between the two looks of a call, and no connection
leaves the table with data in its buffer, a call with room for some bytes returns none only
when all that was taken in has been returned and the stream is over. -/
theorem truthful_of_undisturbed (localPort : UInt16) (remoteIp : Ip) (remotePort : UInt16)
    (peerMac : Mac) (iss : UInt32) (now : ℕ) (es : List Event)
    (hes : Runs.Along Receiver.step Undisturbed es
      (.opening localPort remoteIp remotePort peerMac iss now)) :
    Runs.Along Receiver.step Truthful es
      (.opening localPort remoteIp remotePort peerMac iss now) :=
  Runs.along_of_along (I := Receiver.Ok) (fun _ _ h hquiet => h.step hquiet)
    (fun e _ h _ => h.truthful e) (.opening localPort remoteIp remotePort peerMac iss now) hes

/-- The receiver of `sampleConn`. -/
def sample : Receiver := .opening 49152 sampleIp 80 sampleMac 1000 0

/-- The answer to the SYN, and then the process calls `sys_recv` and finds nothing. -/
def sampleWait : List Event :=
  [.segment (sampleHeader 5000 1001 (Flag.syn ||| Flag.ack)) [] [], .recv 8 0, .go 0]

/-- The peer closes its side, and the call ends. -/
theorem truthful_fin :
    Runs.Along Receiver.step Truthful
      (sampleWait ++ [.segment (sampleHeader 5001 1001 (Flag.fin ||| Flag.ack)) [] [], .go 0])
      sample := by
  refine truthful_of_undisturbed 49152 sampleIp 80 sampleMac 1000 0 _
    ⟨?_, ?_, ?_, ?_, ?_, trivial⟩
  · intro conn _
    rintro ⟨call, hcall, -⟩
    cases hcall
  · exact fun _ _ => trivial
  · exact fun _ _ => trivial
  · exact fun _ _ _ h => h.1 rfl
  · exact fun _ _ => trivial

/-- A byte and a FIN arrive between the two looks: the call reports the end of the stream
although the byte has not been returned. -/
theorem not_truthful_data_between :
    ¬Runs.Along Receiver.step Truthful
      ((sampleWait ++ [.segment (sampleHeader 5001 1001 (Flag.fin ||| Flag.ack)) [] [97]]) ++
        [.go 0]) sample := by
  intro h
  obtain ⟨hunread, -⟩ := h.last 0 ⟨.check, 8, 0⟩ rfl rfl (by decide) rfl
  exact absurd hunread (by decide)

end RacOS.Net.Recv
