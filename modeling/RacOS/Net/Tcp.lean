import RacOS.Lib.Program
import RacOS.Lib.SeqNum

/-!
# TCP

The model of `net/tcp.rs`: the header parser, the connection record with its
retransmission queue, the segment state machine and the connection table.  The
table lock serialises the operations, so each of them is one step.

A transmitted frame is represented by the arguments of `write_segment`, that
is, by the values of its fields; the byte encoding of the headers is left out.
Frames are built in a buffer of 1600 bytes: a longer payload makes the slice
operation panic.  The clock `pit::ticks()` is an argument of the operations
that read it.
-/

namespace RacOS.Net.Tcp

/-! ## Constants -/

namespace Flag

def fin : UInt8 := 0x01
def syn : UInt8 := 0x02
def rst : UInt8 := 0x04
def psh : UInt8 := 0x08
def ack : UInt8 := 0x10

end Flag

def tcpHdrLen : ℕ := 20
def defaultMss : UInt16 := 1460
def defaultWindow : UInt16 := 8192
def rtoInitialTicks : ℕ := 200
def rtoMaxTicks : ℕ := 3200
def maxRetransmits : ℕ := 5
abbrev maxConns : ℕ := 8
def recvBufLimit : ℕ := 16 * 1024

/-- What is left of the 1600-byte frame buffer behind the Ethernet, IPv4 and TCP
headers. -/
def maxPayload : ℕ := 1600 - (14 + 20 + tcpHdrLen)

abbrev Ip := Vector UInt8 4
abbrev Mac := Vector UInt8 6

/-! ## Headers -/

/-- The fields of a TCP header that are looked at. -/
structure TcpHeader where
  srcPort : UInt16
  dstPort : UInt16
  seq : UInt32
  ack : UInt32
  flags : UInt8
  window : UInt16
  deriving DecidableEq

/-- Flag `flag` is set in the header. -/
def TcpHeader.has (hdr : TcpHeader) (flag : UInt8) : Bool := hdr.flags &&& flag != 0

def readU16Be (data : List UInt8) (i : ℕ) : UInt16 :=
  (data.getD i 0).toUInt16 <<< 8 ||| (data.getD (i + 1) 0).toUInt16

def readU32Be (data : List UInt8) (i : ℕ) : UInt32 :=
  (readU16Be data i).toUInt32 <<< 16 ||| (readU16Be data (i + 2)).toUInt32

/-- Split a segment into header, options and payload. -/
def TcpHeader.parse (data : List UInt8) : Option (TcpHeader × List UInt8 × List UInt8) :=
  if data.length < tcpHdrLen then none
  else
    let headerBytes := ((data.getD 12 0 >>> 4) &&& 0x0F).toNat * 4
    if headerBytes < tcpHdrLen ∨ headerBytes > data.length then none
    else
      some
        ({ srcPort := readU16Be data 0
           dstPort := readU16Be data 2
           seq := readU32Be data 4
           ack := readU32Be data 8
           flags := data.getD 13 0
           window := readU16Be data 14 },
         (data.take headerBytes).drop tcpHdrLen, data.drop headerBytes)

/-- The option walk of `parse_mss`; it moves on by at least one byte a round. -/
def parseMssLoop (options : List UInt8) : ℕ → ℕ → UInt16
  | 0, _ => defaultMss
  | fuel + 1, i =>
    if options.length ≤ i then defaultMss
    else
      let kind := options.getD i 0
      if kind = 0 then defaultMss
      else if kind = 1 then parseMssLoop options fuel (i + 1)
      else if options.length ≤ i + 1 then defaultMss
      else
        let len := (options.getD (i + 1) 0).toNat
        if len < 2 ∨ i + len > options.length then defaultMss
        else if kind = 2 ∧ len = 4 then readU16Be options (i + 2)
        else parseMssLoop options fuel (i + len)

/-- The MSS the peer announced, or the default. -/
def parseMss (options : List UInt8) : UInt16 :=
  parseMssLoop options options.length 0

/-- The variable fields of a transmitted frame. -/
structure Segment where
  peerMac : Mac
  remoteIp : Ip
  localPort : UInt16
  remotePort : UInt16
  seq : UInt32
  ack : UInt32
  flags : UInt8
  window : UInt16
  mssOption : Option UInt16
  payload : List UInt8
  deriving DecidableEq

/-! ## Connections -/

inductive State
  | closed
  | synSent
  | established
  | finWait1
  | finWait2
  | closeWait
  | lastAck
  | timeWait
  deriving DecidableEq

/-- A segment that is kept until it is acknowledged.  It fits the frame buffer,
and its length in sequence space counts its payload, its SYN and its FIN. -/
structure PendingSegment where
  seq : UInt32
  data : List UInt8
  flags : UInt8
  seqLen : UInt32
  lastTxTick : ℕ
  retries : ℕ
  fits : data.length ≤ maxPayload
  seqLen_eq : seqLen.toNat = data.length +
    (if flags &&& Flag.syn ≠ 0 then 1 else 0) + (if flags &&& Flag.fin ≠ 0 then 1 else 0)
  deriving DecidableEq

/-- The end of a queued segment in sequence space. -/
def PendingSegment.end (p : PendingSegment) : UInt32 := p.seq + p.seqLen

/-- A connection.  The maximum segment size never falls below 536. -/
structure TcpConn where
  state : State
  localPort : UInt16
  remoteIp : Ip
  remotePort : UInt16
  peerMac : Mac
  sndUna : UInt32
  sndNxt : UInt32
  sndWnd : UInt16
  iss : UInt32
  rcvNxt : UInt32
  rcvWnd : UInt16
  irs : UInt32
  mss : UInt16
  pending : List PendingSegment
  recvBuf : List UInt8
  peerFinSeen : Bool
  mss_ge : 536 ≤ mss.toNat
  deriving DecidableEq

def TcpConn.new (localPort : UInt16) (remoteIp : Ip) (remotePort : UInt16)
    (peerMac : Mac) (iss : UInt32) : TcpConn where
  state := .closed
  localPort := localPort
  remoteIp := remoteIp
  remotePort := remotePort
  peerMac := peerMac
  sndUna := iss
  sndNxt := iss
  sndWnd := defaultWindow
  iss := iss
  rcvNxt := 0
  rcvWnd := defaultWindow
  irs := 0
  mss := defaultMss
  pending := []
  recvBuf := []
  peerFinSeen := false
  mss_ge := by decide

/-- The connection answers for this pair of endpoints. -/
def TcpConn.matches (conn : TcpConn) (localPort : UInt16) (remoteIp : Ip)
    (remotePort : UInt16) : Bool :=
  conn.localPort = localPort && conn.remoteIp = remoteIp &&
    conn.remotePort = remotePort

/-- Take up to `n` bytes out of the receive buffer. -/
def TcpConn.read (conn : TcpConn) (n : ℕ) : List UInt8 × TcpConn :=
  (conn.recvBuf.take n, { conn with recvBuf := conn.recvBuf.drop n })

/-- Sequence number "less than" with wraparound. -/
def seqLt (a b : UInt32) : Bool := (a - b).toInt32 < 0

def seqLe (a b : UInt32) : Bool := (a - b).toInt32 ≤ 0

/-! ## Incoming segments -/

structure AckParams where
  seq : UInt32
  ack : UInt32
  win : UInt16
  flags : UInt8
  peerMac : Mac
  remoteIp : Ip
  remotePort : UInt16
  localPort : UInt16
  deriving DecidableEq

def AckParams.segment (a : AckParams) : Segment where
  peerMac := a.peerMac
  remoteIp := a.remoteIp
  localPort := a.localPort
  remotePort := a.remotePort
  seq := a.seq
  ack := a.ack
  flags := a.flags
  window := a.win
  mssOption := none
  payload := []

inductive Notify
  | none
  | established (remoteIp : Ip) (remotePort : UInt16)
  | dataReady (remoteIp : Ip) (remotePort : UInt16) (bytes : ℕ)
  | closed (remoteIp : Ip) (remotePort : UInt16)
  deriving DecidableEq

structure SegmentResult where
  notify : Notify
  ack : Option AckParams
  deriving DecidableEq

def ackFor (conn : TcpConn) (flags : UInt8) : AckParams where
  seq := conn.sndNxt
  ack := conn.rcvNxt
  win := conn.rcvWnd
  flags := flags
  peerMac := conn.peerMac
  remoteIp := conn.remoteIp
  remotePort := conn.remotePort
  localPort := conn.localPort

theorem mss_max_ge (m : UInt16) : 536 ≤ (max m 536).toNat := by
  have h : (536 : UInt16) ≤ max m 536 := by
    rw [show max m 536 = if m ≤ 536 then 536 else m from rfl]
    split
    · exact UInt16.le_refl _
    · exact UInt16.le_of_lt (UInt16.not_le.mp ‹_›)
  exact UInt16.le_iff_toNat_le.mp h

/-- A segment for a connection that waits for its SYN to be answered. -/
def processSynSent (conn : TcpConn) (hdr : TcpHeader) (options : List UInt8) :
    SegmentResult × TcpConn :=
  if !hdr.has Flag.syn || !hdr.has Flag.ack then (⟨.none, none⟩, conn)
  else if hdr.ack ≠ conn.iss + 1 then
    (⟨.none, some
      { seq := hdr.ack, ack := 0, win := 0, flags := Flag.rst ||| Flag.ack
        peerMac := conn.peerMac, remoteIp := conn.remoteIp
        remotePort := conn.remotePort, localPort := conn.localPort }⟩, conn)
  else
    let conn :=
      { conn with
        irs := hdr.seq
        rcvNxt := hdr.seq + 1
        sndUna := hdr.ack
        sndWnd := hdr.window
        mss := max (parseMss options) 536
        mss_ge := mss_max_ge _
        state := .established
        pending := conn.pending.filter fun p => p.flags &&& Flag.syn = 0 }
    (⟨.established conn.remoteIp conn.remotePort, some (ackFor conn Flag.ack)⟩, conn)

/-- The ACK field: acknowledged segments leave the queue. -/
def processAck (conn : TcpConn) (hdr : TcpHeader) : TcpConn :=
  if hdr.has Flag.ack && seqLt conn.sndUna hdr.ack && seqLe hdr.ack conn.sndNxt then
    let pending := conn.pending.filter fun p => seqLt hdr.ack p.end
    { conn with
      sndUna := hdr.ack
      sndWnd := hdr.window
      pending := pending
      state :=
        if conn.state = .finWait1 ∧ ∀ p ∈ pending, p.flags &&& Flag.fin = 0 then
          .finWait2
        else conn.state }
  else conn

/-- The payload, taken only in order and as far as the buffer has room; the
number of bytes taken is returned. -/
def processPayload (conn : TcpConn) (hdr : TcpHeader) (data : List UInt8) : ℕ × TcpConn :=
  if data ≠ [] ∧ hdr.seq = conn.rcvNxt then
    let n := min data.length (recvBufLimit - conn.recvBuf.length)
    (n, { conn with
      recvBuf := conn.recvBuf ++ data.take n
      rcvNxt := conn.rcvNxt + UInt32.ofNat n })
  else (0, conn)

/-- The state a FIN of the peer leads to. -/
def State.afterFin : State → State
  | .established => .closeWait
  | .finWait1 => .timeWait
  | .finWait2 => .timeWait
  | s => s

/-- The FIN, if it stands right behind what has been received. -/
def processFin (conn : TcpConn) (hdr : TcpHeader) (data : List UInt8) : Bool × TcpConn :=
  if hdr.has Flag.fin ∧ hdr.seq + UInt32.ofNat data.length = conn.rcvNxt then
    (true, { conn with
      rcvNxt := conn.rcvNxt + 1
      peerFinSeen := true
      state := conn.state.afterFin })
  else (false, conn)

/-- A segment for a connection that may still receive. -/
def processOpen (conn : TcpConn) (hdr : TcpHeader) (data : List UInt8) : SegmentResult × TcpConn :=
  let conn := processAck conn hdr
  let (bytesDelivered, conn) := processPayload conn hdr data
  let (peerJustClosed, conn) := processFin conn hdr data
  let needAck := 0 < bytesDelivered || peerJustClosed || hdr.has Flag.syn
  let ack := if needAck then some (ackFor conn Flag.ack) else none
  let notify :=
    if peerJustClosed && bytesDelivered = 0 then
      .closed conn.remoteIp conn.remotePort
    else if 0 < bytesDelivered then
      .dataReady conn.remoteIp conn.remotePort bytesDelivered
    else .none
  (⟨notify, ack⟩, conn)

/-- A segment for a connection that waits for the ACK of its FIN. -/
def processLastAck (conn : TcpConn) (hdr : TcpHeader) : SegmentResult × TcpConn :=
  if hdr.has Flag.ack ∧ hdr.ack = conn.sndNxt then
    (⟨.closed conn.remoteIp conn.remotePort, none⟩, { conn with state := .closed })
  else (⟨.none, none⟩, conn)

/-- The state machine: what a segment does to its connection, the notification
and the segment to answer with. -/
def processSegment (conn : TcpConn) (hdr : TcpHeader) (options data : List UInt8) :
    SegmentResult × TcpConn :=
  if hdr.has Flag.rst then
    (⟨.closed conn.remoteIp conn.remotePort, none⟩, { conn with state := .closed })
  else
    match conn.state with
    | .synSent => processSynSent conn hdr options
    | .established => processOpen conn hdr data
    | .finWait1 => processOpen conn hdr data
    | .finWait2 => processOpen conn hdr data
    | .closeWait => processOpen conn hdr data
    | .lastAck => processLastAck conn hdr
    | .timeWait => (⟨.none, none⟩, conn)
    | .closed => (⟨.none, none⟩, conn)

/-! ## Sending -/

inductive TcpError
  | noSlot
  | noRoute
  | notConnected
  | closed
  | sendFailed
  deriving DecidableEq

/-- The SYN a connection starts with. -/
def synSegment (iss : UInt32) (now : ℕ) : PendingSegment where
  seq := iss
  data := []
  flags := Flag.syn
  seqLen := 1
  lastTxTick := now
  retries := 0
  fits := by decide
  seqLen_eq := by decide

/-- The connection `connect` puts into the table. -/
def TcpConn.opening (localPort : UInt16) (remoteIp : Ip) (remotePort : UInt16)
    (peerMac : Mac) (iss : UInt32) (now : ℕ) : TcpConn :=
  { TcpConn.new localPort remoteIp remotePort peerMac iss with
    state := .synSent
    sndNxt := iss + 1
    pending := [synSegment iss now] }

theorem toNat_ofNat_length {data : List UInt8} (h : data.length ≤ maxPayload) :
    (UInt32.ofNat data.length).toNat = data.length := by
  rw [UInt32.toNat_ofNat']
  have : maxPayload < 2 ^ 32 := by decide
  exact Nat.mod_eq_of_lt (by omega)

/-- A data segment. -/
def dataSegment (seq : UInt32) (chunk : List UInt8) (now : ℕ)
    (h : chunk.length ≤ maxPayload) : PendingSegment where
  seq := seq
  data := chunk
  flags := Flag.psh ||| Flag.ack
  seqLen := UInt32.ofNat chunk.length
  lastTxTick := now
  retries := 0
  fits := h
  seqLen_eq := by
    rw [toNat_ofNat_length h, if_neg (by decide), if_neg (by decide), Nat.add_zero]

/-- A FIN. -/
def finSegment (seq : UInt32) (now : ℕ) : PendingSegment where
  seq := seq
  data := []
  flags := Flag.fin ||| Flag.ack
  seqLen := 1
  lastTxTick := now
  retries := 0
  fits := by decide
  seqLen_eq := by decide

/-- The frame for a queued segment, as the connection sends it now. -/
def TcpConn.frame (conn : TcpConn) (p : PendingSegment) (flags : UInt8)
    (mssOption : Option UInt16) : Segment where
  peerMac := conn.peerMac
  remoteIp := conn.remoteIp
  localPort := conn.localPort
  remotePort := conn.remotePort
  seq := p.seq
  ack := conn.rcvNxt
  flags := flags
  window := conn.rcvWnd
  mssOption := mssOption
  payload := p.data

/-- The chunk loop of `send`; a chunk is never empty, so the length of the data
bounds the number of rounds.  `none` is the panic on a chunk that does not fit
the frame buffer. -/
def TcpConn.sendLoop (now : ℕ) : ℕ → TcpConn → List UInt8 → Option (List Segment × TcpConn)
  | 0, conn, _ => some ([], conn)
  | fuel + 1, conn, data =>
    if data = [] then some ([], conn)
    else
      let chunk := data.take conn.mss.toNat
      if h : chunk.length ≤ maxPayload then
        let p := dataSegment conn.sndNxt chunk now h
        let conn' :=
          { conn with
            pending := conn.pending ++ [p]
            sndNxt := conn.sndNxt + p.seqLen }
        (sendLoop now fuel conn' (data.drop conn.mss.toNat)).map
          fun r => (conn.frame p (Flag.psh ||| Flag.ack) none :: r.1, r.2)
      else none

/-- A connection with a segment put into its queue. -/
def TcpConn.enqueue (conn : TcpConn) (p : PendingSegment) : TcpConn :=
  { conn with pending := conn.pending ++ [p], sndNxt := conn.sndNxt + p.seqLen }

/-- What holds when the chunk loop ends, and before a round if it holds after it, holds of
every run of the loop. -/
theorem TcpConn.sendLoop_induction {now : ℕ}
    {P : TcpConn → List UInt8 → List Segment → TcpConn → Prop}
    (hdone : ∀ conn data, P conn data [] conn)
    (hround : ∀ (conn : TcpConn) (data : List UInt8) (segments : List Segment) (last : TcpConn)
      (hfits : (data.take conn.mss.toNat).length ≤ maxPayload), data ≠ [] →
      let p := dataSegment conn.sndNxt (data.take conn.mss.toNat) now hfits
      P (conn.enqueue p) (data.drop conn.mss.toNat) segments last →
        P conn data (conn.frame p (Flag.psh ||| Flag.ack) none :: segments) last)
    {fuel : ℕ} {conn last : TcpConn} {data : List UInt8} {segments : List Segment}
    (h : conn.sendLoop now fuel data = some (segments, last)) : P conn data segments last := by
  induction fuel generalizing conn data segments with
  | zero =>
    obtain ⟨rfl, rfl⟩ := Prod.mk.inj (Option.some.inj h)
    exact hdone conn data
  | succ fuel ih =>
    unfold TcpConn.sendLoop at h
    split at h
    · obtain ⟨rfl, rfl⟩ := Prod.mk.inj (Option.some.inj h)
      exact hdone conn data
    · rename_i hdata
      simp only at h
      split at h
      · rename_i hfits
        obtain ⟨⟨rest, last'⟩, hrest, heq⟩ := Option.map_eq_some_iff.mp h
        obtain ⟨rfl, rfl⟩ := Prod.mk.inj heq
        exact hround conn data rest last' hfits hdata (ih hrest)
      · cases h

/-- Queue `data` for transmission, in chunks of at most the segment size. -/
def TcpConn.send (conn : TcpConn) (data : List UInt8) (now : ℕ) :
    Except (Failure TcpError) (List Segment × TcpConn) :=
  if conn.state ≠ .established then .error (.error .notConnected)
  else
    match conn.sendLoop now data.length data with
    | none => .error .panic
    | some r => .ok r

/-- Queue the FIN. -/
def TcpConn.close (conn : TcpConn) (now : ℕ) : Except (Failure TcpError) (List Segment × TcpConn) :=
  if conn.state ≠ .established ∧ conn.state ≠ .closeWait then
    .error (.error .closed)
  else
    let p := finSegment conn.sndNxt now
    .ok ([conn.frame p (Flag.fin ||| Flag.ack) none],
      { conn with
        pending := conn.pending ++ [p]
        sndNxt := conn.sndNxt + 1
        state := if conn.state = .established then .finWait1 else .lastAck })

/-! ## The retransmission timer -/

/-- The time after which a segment is sent again. -/
def PendingSegment.rto (p : PendingSegment) : ℕ :=
  min (rtoInitialTicks <<< min p.retries 4) rtoMaxTicks

/-- The timer has run out for the segment. -/
def PendingSegment.due (p : PendingSegment) (now : ℕ) : Prop :=
  p.rto ≤ now - p.lastTxTick

instance (p : PendingSegment) (now : ℕ) : Decidable (p.due now) :=
  inferInstanceAs (Decidable (_ ≤ _))

/-- The segment is given up. -/
def PendingSegment.expired (p : PendingSegment) (now : ℕ) : Prop :=
  p.due now ∧ maxRetransmits ≤ p.retries

instance (p : PendingSegment) (now : ℕ) : Decidable (p.expired now) :=
  inferInstanceAs (Decidable (_ ∧ _))

/-- What the timer does to one queued segment. -/
def PendingSegment.tick (p : PendingSegment) (now : ℕ) : PendingSegment :=
  if p.due now ∧ p.retries < maxRetransmits then
    { p with lastTxTick := now, retries := p.retries + 1 }
  else p

/-- The timer on a connection that is not closed: what it sends again, and the
connection afterwards. -/
def TcpConn.tick (conn : TcpConn) (now : ℕ) : List Segment × TcpConn :=
  ((conn.pending.filter fun p => p.due now ∧ p.retries < maxRetransmits).map fun p =>
      conn.frame p (p.flags ||| Flag.ack)
        (if p.flags &&& Flag.syn ≠ 0 then some defaultMss else none),
    { conn with
      pending := conn.pending.map fun p => p.tick now
      state := if ∃ p ∈ conn.pending, p.expired now then .closed else conn.state })

/-! ## The connection table -/

structure Table where
  conns : Fin maxConns → Option TcpConn
  nextEphemeral : UInt16
  isnCounter : UInt32

def Table.new : Table where
  conns := fun _ => none
  nextEphemeral := 49152
  isnCounter := 0

/-- The connection with identifier `id`. -/
def Table.conn? (t : Table) (id : ℕ) : Option TcpConn :=
  if h : id < maxConns then t.conns ⟨id, h⟩ else none

def Table.setConn (t : Table) (id : ℕ) (conn : TcpConn) : Table :=
  { t with conns := fun i => if i.val = id then some conn else t.conns i }

/-- The first free slot. -/
def Table.alloc (t : Table) : Option (Fin maxConns) :=
  (List.finRange maxConns).find? fun i => (t.conns i).isNone

/-- The first connection for this pair of endpoints. -/
def Table.findMut (t : Table) (localPort : UInt16) (remoteIp : Ip)
    (remotePort : UInt16) : Option (Fin maxConns) :=
  (List.finRange maxConns).find? fun i =>
    (t.conns i).any fun conn => conn.matches localPort remoteIp remotePort

/-- A connection uses local port `p`. -/
def Table.inUse (t : Table) (p : UInt16) : Bool :=
  (List.finRange maxConns).any fun i => (t.conns i).any fun conn => conn.localPort = p

def Table.allocPortLoop : ℕ → Table → UInt16 × Table
  | 0, t => (49152, t)
  | fuel + 1, t =>
    let p := t.nextEphemeral
    let t :=
      { t with
        nextEphemeral := if 65000 ≤ t.nextEphemeral then 49152 else t.nextEphemeral + 1 }
    if t.inUse p then allocPortLoop fuel t else (p, t)

def Table.allocPort (t : Table) : UInt16 × Table := t.allocPortLoop 1024

def Table.nextIsn (t : Table) (now : ℕ) : UInt32 × Table :=
  let isnCounter := t.isnCounter + 0x9E3779B9
  (UInt32.ofNat now * 64 + isnCounter, { t with isnCounter := isnCounter })

abbrev TcpM := EStateM (Failure TcpError) Table

/-- Initiate an active open. -/
def connect (remoteIp : Ip) (remotePort : UInt16) (peerMac : Mac) (now : ℕ) :
    TcpM (ℕ × Segment) := fun t =>
  let (localPort, t) := t.allocPort
  let (iss, t) := t.nextIsn now
  match t.alloc with
  | none => .error (.error .noSlot) t
  | some id =>
    let conn := TcpConn.opening localPort remoteIp remotePort peerMac iss now
    .ok (id.val,
        { peerMac := peerMac, remoteIp := remoteIp, localPort := localPort
          remotePort := remotePort, seq := iss, ack := 0, flags := Flag.syn
          window := defaultWindow, mssOption := some defaultMss, payload := [] })
      (t.setConn id.val conn)

def send (id : ℕ) (data : List UInt8) (now : ℕ) : TcpM (List Segment) := fun t =>
  if data = [] then .ok [] t
  else
    match t.conn? id with
    | none => .error (.error .notConnected) t
    | some conn =>
      match conn.send data now with
      | .error e => .error e t
      | .ok (segments, conn) => .ok segments (t.setConn id conn)

def close (id : ℕ) (now : ℕ) : TcpM (List Segment) := fun t =>
  match t.conn? id with
  | none => .error (.error .notConnected) t
  | some conn =>
    match conn.close now with
    | .error e => .error e t
    | .ok (segments, conn) => .ok segments (t.setConn id conn)

/-- Dispatch an inbound segment from address `src`. -/
def handleSegment (src : Ip) (payload : List UInt8) : TcpM (Notify × List Segment) :=
  fun t =>
    match TcpHeader.parse payload with
    | none => .ok (.none, []) t
    | some (hdr, options, data) =>
      match t.findMut hdr.dstPort src hdr.srcPort with
      | none => .ok (.none, []) t
      | some id =>
        match t.conns id with
        | none => .ok (.none, []) t
        | some conn =>
          let (result, conn) := processSegment conn hdr options data
          .ok (result.notify, result.ack.toList.map AckParams.segment)
            (t.setConn id.val conn)

/-- Drain the receive buffer of a connection into a buffer of `n` bytes. -/
def read (id n : ℕ) : TcpM (List UInt8) := fun t =>
  match t.conn? id with
  | none => .ok [] t
  | some conn =>
    let (bytes, conn) := conn.read n
    .ok bytes (t.setConn id conn)

/-- The timer: a closed connection leaves the table, the queues of the others
are served. -/
def tick (now : ℕ) : TcpM (List Segment) := fun t =>
  let ticked i :=
    (t.conns i).bind fun conn =>
      if conn.state = .closed then none else some (conn.tick now)
  .ok ((List.finRange maxConns).flatMap fun i => ((ticked i).map Prod.fst).getD [])
    { t with conns := fun i => (ticked i).map Prod.snd }

end RacOS.Net.Tcp
