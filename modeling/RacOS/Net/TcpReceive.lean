import RacOS.Net.TcpSystem

/-!
# The receiving side of a TCP connection

What a segment does to the receive sequence number and to the received data.
Three results are drawn from it: the bytes handed to the reader are a prefix of
the peer's stream as long as nothing is taken in behind the peer's FIN; after
that FIN nothing moves exactly as long as no further segment lands in order; and
a segment outside the receive window leaves the connection alone except through
its RST flag and its ACK field, which are looked at without regard to the window.
-/

namespace RacOS.Net.Tcp

variable {conn conn' : TcpConn} {hdr : TcpHeader} {options data : List UInt8}

/-! ## The parts of `processOpen` -/

/-- The connection takes in payload. -/
def State.receiving : State → Bool
  | .established => true
  | .finWait1 => true
  | .finWait2 => true
  | .closeWait => true
  | _ => false

section ProcessAck

variable (conn hdr)

@[simp] theorem processAck_rcvNxt : (processAck conn hdr).rcvNxt = conn.rcvNxt := by
  unfold processAck
  split <;> rfl

@[simp] theorem processAck_recvBuf : (processAck conn hdr).recvBuf = conn.recvBuf := by
  unfold processAck
  split <;> rfl

@[simp] theorem processAck_irs : (processAck conn hdr).irs = conn.irs := by
  unfold processAck
  split <;> rfl

@[simp] theorem processAck_peerFinSeen : (processAck conn hdr).peerFinSeen = conn.peerFinSeen := by
  unfold processAck
  split <;> rfl

@[simp] theorem processAck_rcvWnd : (processAck conn hdr).rcvWnd = conn.rcvWnd := by
  unfold processAck
  split <;> rfl

/-- The ACK field acknowledges our FIN. -/
def TcpConn.FinAcked : Prop :=
  hdr.has Flag.ack ∧ seqLt conn.sndUna hdr.ack ∧ seqLe hdr.ack conn.sndNxt ∧
    ∀ p ∈ conn.pending, seqLt hdr.ack p.end → p.flags &&& Flag.fin = 0

theorem processAck_state :
    ((processAck conn hdr).state = conn.state ∧ ¬(conn.state = .finWait1 ∧ conn.FinAcked hdr)) ∨
      (conn.state = .finWait1 ∧ conn.FinAcked hdr ∧ (processAck conn hdr).state = .finWait2) := by
  unfold processAck TcpConn.FinAcked
  by_cases hack : hdr.has Flag.ack && seqLt conn.sndUna hdr.ack && seqLe hdr.ack conn.sndNxt
  · rw [if_pos hack]
    obtain ⟨⟨hflag, hlt⟩, hle⟩ : (hdr.has Flag.ack ∧ seqLt conn.sndUna hdr.ack) ∧
        seqLe hdr.ack conn.sndNxt := by simpa using hack
    by_cases hfin : conn.state = .finWait1 ∧
        ∀ p ∈ conn.pending.filter (fun p => seqLt hdr.ack p.end), p.flags &&& Flag.fin = 0
    · refine Or.inr ⟨hfin.1, ⟨hflag, hlt, hle, fun p hp hend => ?_⟩, if_pos hfin⟩
      exact hfin.2 p (List.mem_filter.mpr ⟨hp, hend⟩)
    · refine Or.inl ⟨if_neg hfin, fun ⟨hstate, _, _, _, hall⟩ => hfin ⟨hstate, ?_⟩⟩
      intro p hp
      obtain ⟨hp, hend⟩ := List.mem_filter.mp hp
      exact hall p hp hend
  · rw [if_neg hack]
    refine Or.inl ⟨rfl, fun ⟨_, hflag, hlt, hle, _⟩ => hack ?_⟩
    simp [hflag, hlt, hle]

theorem processAck_receiving (h : conn.state.receiving) :
    (processAck conn hdr).state.receiving := by
  rcases processAck_state conn hdr with ⟨hsame, -⟩ | ⟨-, -, hnew⟩
  · rwa [hsame]
  · rw [hnew]
    rfl

end ProcessAck

/-- How many bytes of the payload are taken in. -/
def TcpConn.taken (conn : TcpConn) (hdr : TcpHeader) (data : List UInt8) : ℕ :=
  if data ≠ [] ∧ hdr.seq = conn.rcvNxt then
    min data.length (recvBufLimit - conn.recvBuf.length)
  else 0

/-- The segment's FIN is taken in. -/
def TcpConn.TakesFin (conn : TcpConn) (hdr : TcpHeader) (data : List UInt8) : Prop :=
  hdr.has Flag.fin ∧ hdr.seq + UInt32.ofNat data.length =
    conn.rcvNxt + UInt32.ofNat (conn.taken hdr data)

instance : Decidable (conn.TakesFin hdr data) := inferInstanceAs (Decidable (_ ∧ _))

theorem add_ofNat_zero (a : UInt32) : a + UInt32.ofNat 0 = a := UInt32.add_zero a

theorem processOpen_eq (conn : TcpConn) (hdr : TcpHeader) (data : List UInt8) :
    (processOpen conn hdr data).2 =
      (processFin (processPayload (processAck conn hdr) hdr data).2 hdr data).2 := rfl

section ProcessOpen

variable (conn hdr data)

/-- The payload that is taken goes to the receive buffer, and nothing else changes. -/
theorem processPayload_eq : (processPayload conn hdr data).2 =
    { conn with
      recvBuf := conn.recvBuf ++ data.take (conn.taken hdr data)
      rcvNxt := conn.rcvNxt + UInt32.ofNat (conn.taken hdr data) } := by
  unfold processPayload TcpConn.taken
  split
  · rfl
  · rw [List.take_zero, List.append_nil, add_ofNat_zero]

theorem processFin_recvBuf : (processFin conn hdr data).2.recvBuf = conn.recvBuf := by
  unfold processFin
  split <;> rfl

theorem processFin_irs : (processFin conn hdr data).2.irs = conn.irs := by
  unfold processFin
  split <;> rfl

theorem processFin_rcvWnd : (processFin conn hdr data).2.rcvWnd = conn.rcvWnd := by
  unfold processFin
  split <;> rfl

theorem processOpen_rcvWnd : (processOpen conn hdr data).2.rcvWnd = conn.rcvWnd := by
  rw [processOpen_eq, processFin_rcvWnd, processPayload_eq, processAck_rcvWnd]

theorem taken_processAck : (processAck conn hdr).taken hdr data = conn.taken hdr data := by
  simp [TcpConn.taken]

theorem processOpen_recvBuf : (processOpen conn hdr data).2.recvBuf =
    conn.recvBuf ++ data.take (conn.taken hdr data) := by
  rw [processOpen_eq, processFin_recvBuf, processPayload_eq, taken_processAck, processAck_recvBuf]

theorem processOpen_irs : (processOpen conn hdr data).2.irs = conn.irs := by
  rw [processOpen_eq, processFin_irs, processPayload_eq, processAck_irs]

variable {conn hdr data}

theorem takesFin_iff : conn.TakesFin hdr data ↔
    hdr.has Flag.fin ∧ hdr.seq + UInt32.ofNat data.length =
      (processPayload (processAck conn hdr) hdr data).2.rcvNxt := by
  rw [processPayload_eq, taken_processAck, processAck_rcvNxt]
  rfl

theorem processOpen_of_takesFin (h : conn.TakesFin hdr data) :
    (processOpen conn hdr data).2.rcvNxt = conn.rcvNxt + UInt32.ofNat (conn.taken hdr data) + 1 ∧
      (processOpen conn hdr data).2.peerFinSeen = true ∧
      (processOpen conn hdr data).2.state = (processAck conn hdr).state.afterFin := by
  rw [processOpen_eq, processFin, if_pos (takesFin_iff.mp h), processPayload_eq,
    taken_processAck, processAck_rcvNxt]
  exact ⟨rfl, rfl, rfl⟩

theorem processOpen_of_not_takesFin (h : ¬conn.TakesFin hdr data) :
    (processOpen conn hdr data).2.rcvNxt = conn.rcvNxt + UInt32.ofNat (conn.taken hdr data) ∧
      (processOpen conn hdr data).2.peerFinSeen = conn.peerFinSeen ∧
      (processOpen conn hdr data).2.state = (processAck conn hdr).state := by
  rw [processOpen_eq, processFin, if_neg (mt takesFin_iff.mpr h), processPayload_eq,
    taken_processAck, processAck_rcvNxt]
  exact ⟨rfl, processAck_peerFinSeen conn hdr, rfl⟩

theorem State.afterFin_of_receiving {s : State} (h : s.receiving) :
    s.afterFin = .closeWait ∨ s.afterFin = .timeWait := by
  cases s <;> simp_all [State.receiving, State.afterFin]

/-- An open connection stays open or takes the FIN. -/
theorem processOpen_state_ne (hopen : conn.state.receiving) {s : State} (hs : s.receiving = false)
    (htime : s ≠ .timeWait) : (processOpen conn hdr data).2.state ≠ s := by
  rintro rfl
  have hrecv := processAck_receiving conn hdr hopen
  by_cases hfin : conn.TakesFin hdr data
  · rw [(processOpen_of_takesFin hfin).2.2] at hs htime
    rcases State.afterFin_of_receiving hrecv with hnew | hnew
    · rw [hnew] at hs
      cases hs
    · exact htime hnew
  · rw [(processOpen_of_not_takesFin hfin).2.2, hrecv] at hs
    cases hs

end ProcessOpen

/-! ## Segments and the receiving side -/

/-- Nothing is received; the reader is handed `out`. -/
structure SameReceive (conn : TcpConn) (out : List UInt8) (conn' : TcpConn) : Prop where
  rcvNxt : conn'.rcvNxt = conn.rcvNxt
  recvBuf : out ++ conn'.recvBuf = conn.recvBuf
  irs : conn'.irs = conn.irs
  peerFinSeen : conn'.peerFinSeen = conn.peerFinSeen
  rcvWnd : conn'.rcvWnd = conn.rcvWnd

theorem SameReceive.refl (conn : TcpConn) : SameReceive conn [] conn :=
  ⟨rfl, rfl, rfl, rfl, rfl⟩

/-- How the state can change while nothing is received. -/
inductive StateMove : State → State → Prop
  | same (s : State) : StateMove s s
  | closed (s : State) : StateMove s .closed
  | finWait1 : StateMove .established .finWait1
  | lastAck : StateMove .closeWait .lastAck

/-- An open connection hands a segment without RST to `processOpen`. -/
theorem processSegment_open (hopen : conn.state.receiving) (hrst : ¬hdr.has Flag.rst) :
    processSegment conn hdr options data = processOpen conn hdr data := by
  unfold processSegment
  rw [if_neg hrst]
  cases hstate : conn.state <;> simp_all [State.receiving]

theorem processSegment_rst (hrst : hdr.has Flag.rst) :
    (processSegment conn hdr options data).2 = { conn with state := .closed } := by
  unfold processSegment
  rw [if_pos hrst]

theorem processSegment_synSent (hsyn : conn.state = .synSent) (hrst : ¬hdr.has Flag.rst) :
    processSegment conn hdr options data = processSynSent conn hdr options := by
  unfold processSegment
  rw [if_neg hrst, hsyn]

/-- Behind the end of the stream a segment is not answered, and can only acknowledge our FIN. -/
theorem processSegment_behind (hopen : ¬conn.state.receiving) (hsyn : conn.state ≠ .synSent)
    (hrst : ¬hdr.has Flag.rst) :
    (processSegment conn hdr options data).1.ack = none ∧
      (processSegment conn hdr options data).2 =
        if conn.state = .lastAck ∧ hdr.has Flag.ack ∧ hdr.ack = conn.sndNxt then
          { conn with state := .closed }
        else conn := by
  unfold processSegment
  rw [if_neg hrst]
  cases hst : conn.state with
  | lastAck =>
    simp only [processLastAck, true_and]
    split <;> exact ⟨rfl, rfl⟩
  | timeWait | closed => exact ⟨rfl, rfl⟩
  | synSent => exact absurd hst hsyn
  | established | finWait1 | finWait2 | closeWait =>
    rw [hst] at hopen
    exact absurd rfl hopen

theorem processSynSent_cases (conn : TcpConn) (hdr : TcpHeader) (options : List UInt8) :
    (processSynSent conn hdr options).2 = conn ∨
      ∃ mss mss_ge, (processSynSent conn hdr options).2 =
        { conn with
          irs := hdr.seq
          rcvNxt := hdr.seq + 1
          sndUna := hdr.ack
          sndWnd := hdr.window
          mss := mss
          mss_ge := mss_ge
          state := .established
          pending := conn.pending.filter fun p => p.flags &&& Flag.syn = 0 } ∧
        hdr.ack = conn.iss + 1 := by
  unfold processSynSent
  split
  · exact Or.inl rfl
  · split
    · exact Or.inl rfl
    · rename_i hack
      exact Or.inr ⟨_, mss_max_ge _, rfl, not_not.mp hack⟩

/-- Everything a segment can do to a connection: an open connection processes
it, an answered SYN opens the connection, and else nothing is received. -/
theorem processSegment_cases (conn : TcpConn) (hdr : TcpHeader) (options data : List UInt8) :
    (conn.state.receiving ∧ ¬hdr.has Flag.rst ∧
        (processSegment conn hdr options data).2 = (processOpen conn hdr data).2) ∨
      (conn.state = .synSent ∧
        (processSegment conn hdr options data).2 = (processSynSent conn hdr options).2) ∨
      (SameReceive conn [] (processSegment conn hdr options data).2 ∧
        StateMove conn.state (processSegment conn hdr options data).2.state ∧
        (hdr.has Flag.rst ∨ ¬conn.state.receiving)) := by
  by_cases hrst : hdr.has Flag.rst
  · rw [processSegment_rst hrst]
    exact Or.inr (Or.inr ⟨⟨rfl, rfl, rfl, rfl, rfl⟩, .closed _, Or.inl hrst⟩)
  · by_cases hopen : conn.state.receiving
    · exact Or.inl ⟨hopen, hrst, by rw [processSegment_open hopen hrst]⟩
    · refine Or.inr ?_
      by_cases hsyn : conn.state = .synSent
      · exact Or.inl ⟨hsyn, by rw [processSegment_synSent hsyn hrst]⟩
      · refine Or.inr ?_
        rw [(processSegment_behind hopen hsyn hrst).2]
        split
        · exact ⟨⟨rfl, rfl, rfl, rfl, rfl⟩, .closed _, Or.inr hopen⟩
        · exact ⟨.refl conn, .same _, Or.inr hopen⟩

/-! ## Calls and the receiving side -/

theorem sendLoop_same {now fuel : ℕ} {data : List UInt8} {segments : List Segment}
    (h : conn.sendLoop now fuel data = some (segments, conn')) :
    SameReceive conn [] conn' ∧ conn'.state = conn.state := by
  refine TcpConn.sendLoop_induction
    (P := fun conn _ _ conn' => SameReceive conn [] conn' ∧ conn'.state = conn.state) ?_ ?_ h
  · exact fun conn _ => ⟨.refl conn, rfl⟩
  · rintro conn data segments last hfits - p ⟨hsame, hstate⟩
    exact ⟨⟨hsame.rcvNxt, hsame.recvBuf, hsame.irs, hsame.peerFinSeen, hsame.rcvWnd⟩, hstate⟩

variable {e : Event}

/-- An event is a segment, or nothing is received in it. -/
theorem TcpConn.step_cases {out : List UInt8} (h : conn.step e = some (out, conn')) :
    (∃ hdr options data, e = .segment hdr options data ∧ out = [] ∧
        conn' = (processSegment conn hdr options data).2) ∨
      (∀ hdr options data, e ≠ .segment hdr options data) ∧
        SameReceive conn out conn' ∧ StateMove conn.state conn'.state := by
  cases e with
  | segment hdr options data =>
    obtain ⟨rfl, rfl⟩ := Prod.mk.inj (Option.some.inj h)
    exact Or.inl ⟨hdr, options, data, rfl, rfl, rfl⟩
  | read n =>
    obtain ⟨rfl, rfl⟩ := Prod.mk.inj (Option.some.inj h)
    exact Or.inr ⟨by simp, ⟨rfl, List.take_append_drop n _, rfl, rfl, rfl⟩, .same _⟩
  | send data now =>
    refine Or.inr ⟨by simp, ?_⟩
    obtain ⟨rfl, ⟨-, rfl⟩ | ⟨segments, -, -, hloop⟩⟩ := TcpConn.step_send h
    · exact ⟨.refl _, .same _⟩
    · obtain ⟨hsame, hstate⟩ := sendLoop_same hloop
      refine ⟨hsame, ?_⟩
      rw [hstate]
      exact .same _
  | close now =>
    refine Or.inr ⟨by simp, ?_⟩
    obtain ⟨rfl, ⟨-, rfl⟩ | ⟨hstate, rfl, -⟩⟩ := TcpConn.step_close h
    · exact ⟨.refl _, .same _⟩
    · refine ⟨⟨rfl, rfl, rfl, rfl, rfl⟩, ?_⟩
      change StateMove _ (if _ then _ else _)
      rcases hstate with hest | hwait
      · rw [if_pos hest, hest]
        exact .finWait1
      · rw [if_neg (by rw [hwait]; decide), hwait]
        exact .lastAck
  | tick now =>
    refine Or.inr ⟨by simp, ?_⟩
    obtain ⟨-, rfl, rfl⟩ := TcpConn.step_tick h
    refine ⟨⟨rfl, rfl, rfl, rfl, rfl⟩, ?_⟩
    change StateMove _ (if _ then _ else _)
    split
    · exact .closed _
    · exact .same _

/-! ## The bytes the reader gets -/

/-- The sequence number of the first payload byte. -/
def TcpHeader.payloadStart (hdr : TcpHeader) : UInt32 :=
  if hdr.has Flag.syn then hdr.seq + 1 else hdr.seq

/-- The payload of a segment agrees with the peer's stream `S`: its bytes are the
ones at their sequence numbers, the stream starting behind the peer's SYN. -/
def AgreesWith (S : List UInt8) (conn : TcpConn) : Event → Prop
  | .segment hdr _ data => conn.state ≠ .synSent → data ≠ [] →
      ∃ off, hdr.payloadStart = conn.irs + 1 + UInt32.ofNat off ∧ data <+: S.drop off
  | _ => True

/-- Payload at `rcvNxt` is stream data: no FIN has been taken in before it, and it
does not stand behind a SYN. -/
def InStream (conn : TcpConn) : Event → Prop
  | .segment hdr _ data => conn.state.receiving → ¬hdr.has Flag.rst → data ≠ [] →
      hdr.seq = conn.rcvNxt → ¬conn.peerFinSeen ∧ ¬hdr.has Flag.syn
  | _ => True

/-- What has been received, `out` of which the reader already has. -/
structure Received (S : List UInt8) (conn : TcpConn) (out : List UInt8) : Prop where
  isPrefix : out ++ conn.recvBuf <+: S
  fresh : conn.state = .synSent → out ++ conn.recvBuf = []
  fin : conn.state = .closeWait → conn.peerFinSeen
  next : conn.state.receiving → ¬conn.peerFinSeen →
    conn.rcvNxt = conn.irs + 1 + UInt32.ofNat (out ++ conn.recvBuf).length

variable {S out bytes : List UInt8}

theorem Received.opening (S : List UInt8) (localPort : UInt16) (remoteIp : Ip)
    (remotePort : UInt16) (peerMac : Mac) (iss : UInt32) (now : ℕ) :
    Received S (TcpConn.opening localPort remoteIp remotePort peerMac iss now) [] where
  isPrefix := List.nil_prefix
  fresh := fun _ => rfl
  fin := fun h => absurd h (by simp [TcpConn.opening])
  next := fun h => absurd h (by simp [TcpConn.opening, State.receiving])

theorem Received.same (h : Received S conn out) (hsame : SameReceive conn bytes conn')
    (hmove : StateMove conn.state conn'.state) : Received S conn' (out ++ bytes) := by
  have hbuf : out ++ bytes ++ conn'.recvBuf = out ++ conn.recvBuf := by
    rw [List.append_assoc, hsame.recvBuf]
  generalize hold : conn.state = old at hmove
  generalize hnew : conn'.state = new at hmove
  constructor
  case isPrefix => rw [hbuf]; exact h.isPrefix
  case fresh =>
    intro hsyn
    rw [hbuf]
    cases hmove <;> simp_all [h.fresh]
  case fin =>
    intro hwait
    rw [hsame.peerFinSeen]
    cases hmove <;> simp_all [h.fin]
  case next =>
    intro hopen hfin
    rw [hsame.peerFinSeen] at hfin
    rw [hbuf, hsame.rcvNxt, hsame.irs]
    refine h.next ?_ hfin
    cases hmove <;> simp_all [State.receiving]

theorem add_ofNat_inj {a : UInt32} {m n : ℕ} (hm : m < 2 ^ 32) (hn : n < 2 ^ 32)
    (h : a + UInt32.ofNat m = a + UInt32.ofNat n) : m = n := by
  have hdist := congrArg (SeqNum.dist a) h
  rwa [SeqNum.dist_add, SeqNum.dist_add, UInt32.toNat_ofNat_of_lt' hm,
    UInt32.toNat_ofNat_of_lt' hn] at hdist

/-- What an open connection takes in continues the stream. -/
theorem Received.prefix_taken (h : Received S conn out) (hS : S.length < 2 ^ 31)
    (hopen : conn.state.receiving) (hrst : ¬hdr.has Flag.rst)
    (hagree : AgreesWith S conn (.segment hdr options data))
    (hstream : InStream conn (.segment hdr options data)) :
    out ++ (conn.recvBuf ++ data.take (conn.taken hdr data)) <+: S := by
  rw [← List.append_assoc]
  by_cases htake : data ≠ [] ∧ hdr.seq = conn.rcvNxt
  · obtain ⟨hdata, hseq⟩ := htake
    obtain ⟨hfin, hsyn⟩ := hstream hopen hrst hdata hseq
    have hsynSent : conn.state ≠ .synSent := by
      intro hst
      rw [hst] at hopen
      exact absurd hopen (by simp [State.receiving])
    obtain ⟨off, hstart, hpre⟩ := hagree hsynSent hdata
    have hlen : data.length ≤ S.length - off := by
      have := hpre.length_le
      rwa [List.length_drop] at this
    have hpos : 0 < data.length := List.length_pos_iff.mpr hdata
    have hgot := h.isPrefix.length_le
    -- The offset of the payload is the length of what has been received.
    have hoff : off = (out ++ conn.recvBuf).length := by
      rw [TcpHeader.payloadStart, if_neg hsyn, hseq, h.next hopen hfin] at hstart
      exact (add_ofNat_inj (by omega) (by omega) hstart).symm
    have hsplit : S = (out ++ conn.recvBuf) ++ S.drop off := by
      rw [hoff]
      exact List.prefix_iff_eq_append.mp h.isPrefix |>.symm
    rw [hsplit]
    exact (List.prefix_append_right_inj _).mpr ((List.take_prefix _ _).trans hpre)
  · rw [TcpConn.taken, if_neg htake, List.take_zero, List.append_nil]
    exact h.isPrefix

/-- A segment keeps the received bytes a prefix of the stream. -/
theorem Received.segment (h : Received S conn out) (hS : S.length < 2 ^ 31)
    (hagree : AgreesWith S conn (.segment hdr options data))
    (hstream : InStream conn (.segment hdr options data)) :
    Received S (processSegment conn hdr options data).2 out := by
  rcases processSegment_cases conn hdr options data with
    ⟨hopen, hrst, heq⟩ | ⟨hsyn, heq⟩ | ⟨hsame, hmove, -⟩
  · have hpre := h.prefix_taken hS hopen hrst hagree hstream
    have hrecv := processAck_receiving conn hdr hopen
    rw [heq]
    by_cases hfin : conn.TakesFin hdr data
    · obtain ⟨-, hseen, hstate⟩ := processOpen_of_takesFin hfin
      constructor
      case isPrefix => rwa [processOpen_recvBuf]
      case fresh =>
        intro hst
        rw [hstate] at hst
        rcases State.afterFin_of_receiving hrecv with hnew | hnew <;> simp [hnew] at hst
      case fin => exact fun _ => hseen
      case next => exact fun _ hunseen => absurd hseen hunseen
    · obtain ⟨hnxt, hseen, hstate⟩ := processOpen_of_not_takesFin hfin
      constructor
      case isPrefix => rwa [processOpen_recvBuf]
      case fresh =>
        intro hst
        rw [hstate] at hst
        rw [hst] at hrecv
        exact absurd hrecv (by simp [State.receiving])
      case fin =>
        intro hwait
        rw [hstate] at hwait
        rw [hseen]
        rcases processAck_state conn hdr with ⟨hst, -⟩ | ⟨-, -, hst⟩
        · exact h.fin (hst ▸ hwait)
        · exact absurd (hst.symm.trans hwait) (by simp)
      case next =>
        intro _ hunseen
        rw [hseen] at hunseen
        have hle : conn.taken hdr data ≤ data.length := by
          unfold TcpConn.taken
          split <;> omega
        have hlen : (out ++ (conn.recvBuf ++ data.take (conn.taken hdr data))).length =
            (out ++ conn.recvBuf).length + conn.taken hdr data := by
          simp only [List.length_append, List.length_take, min_eq_left hle, Nat.add_assoc]
        rw [hnxt, processOpen_irs, processOpen_recvBuf, hlen, h.next hopen hunseen,
          UInt32.ofNat_add, UInt32.add_assoc]
  · rw [heq]
    rcases processSynSent_cases conn hdr options with hsame | ⟨mss, mss_ge, hnew, -⟩
    · rwa [hsame]
    · -- The stream starts behind the SYN that is accepted here.
      have hempty := h.fresh hsyn
      rw [hnew]
      constructor
      case isPrefix => exact h.isPrefix
      case fresh => simp
      case fin => simp
      case next =>
        intro _ _
        change hdr.seq + 1 = hdr.seq + 1 + UInt32.ofNat (out ++ conn.recvBuf).length
        rw [hempty]
        exact (add_ofNat_zero _).symm
  · have := h.same hsame hmove
    rwa [List.append_nil] at this

theorem Received.step (hS : S.length < 2 ^ 31) (h : Received S conn out)
    (he : AgreesWith S conn e ∧ InStream conn e) (hstep : conn.step e = some (bytes, conn')) :
    Received S conn' (out ++ bytes) := by
  rcases TcpConn.step_cases hstep with
    ⟨hdr, options, data, rfl, rfl, rfl⟩ | ⟨-, hsame, hmove⟩
  · rw [List.append_nil]
    exact h.segment hS he.1 he.2
  · exact h.same hsame hmove

/-- **The reader gets a prefix of the peer's stream.**  The segments may come in
any order, any number of times and with any overlap. -/
theorem read_prefix_of_stream (S : List UInt8) (hS : S.length < 2 ^ 31)
    (localPort : UInt16) (remoteIp : Ip) (remotePort : UInt16) (peerMac : Mac)
    (iss : UInt32) (now : ℕ) (es : List Event) {out : List UInt8} {conn : TcpConn}
    (hes : (TcpConn.opening localPort remoteIp remotePort peerMac iss now).Meets
      (fun c e => AgreesWith S c e ∧ InStream c e) es)
    (hrun : (TcpConn.opening localPort remoteIp remotePort peerMac iss now).run es =
      some (out, conn)) : out <+: S := by
  have hend := TcpConn.run_invariant (fun h he hs => Received.step hS h he hs) []
    (.opening S localPort remoteIp remotePort peerMac iss now) hes hrun
  rw [List.nil_append] at hend
  exact (List.prefix_append _ _).trans hend.isPrefix

/-- A host, and its network card. -/
def sampleIp : Ip := #v[10, 0, 2, 2]

def sampleMac : Mac := #v[0, 0, 0, 0, 0, 0]

/-- A connection to port 80 of that host, as `connect` opens it. -/
def sampleConn : TcpConn :=
  .opening 49152 sampleIp 80 sampleMac 1000 0

/-- A segment from that host. -/
def sampleHeader (seq ack : UInt32) (flags : UInt8) : TcpHeader where
  srcPort := 80
  dstPort := 49152
  seq := seq
  ack := ack
  flags := flags
  window := 8192

theorem TcpConn.Meets.cons {P : TcpConn → Event → Prop} {es : List Event} (he : P conn e)
    (hstep : conn.step e = some (out, conn')) (hes : conn'.Meets P es) :
    conn.Meets P (e :: es) := by
  refine ⟨he, fun out' c hs => ?_⟩
  obtain ⟨-, rfl⟩ := Prod.mk.inj (Option.some.inj (hstep.symm.trans hs))
  exact hes

/-- The answer to the SYN of `sampleConn`; the peer's stream starts at 5001. -/
def sampleSynAck : Event :=
  .segment (sampleHeader 5000 1001 (Flag.syn ||| Flag.ack)) [] []

theorem read_prefix_of_stream_twoBytes :
    ∃ out conn, sampleConn.run
        [sampleSynAck, .segment (sampleHeader 5001 1001 Flag.ack) [] [97], .read 8] =
          some (out, conn) ∧ out = [97] ∧ out <+: [97, 98] := by
  refine ⟨[97], _, rfl, rfl, ?_⟩
  refine read_prefix_of_stream [97, 98] (by decide) 49152 sampleIp 80
    sampleMac 1000 0
    [sampleSynAck, .segment (sampleHeader 5001 1001 Flag.ack) [] [97], .read 8] ?_ rfl
  refine .cons ⟨fun h => absurd rfl h, fun h => absurd h (by decide)⟩ rfl ?_
  refine .cons ⟨fun _ _ => ⟨0, by decide, by decide⟩, fun _ _ _ _ => by decide⟩ rfl ?_
  exact .cons ⟨trivial, trivial⟩ rfl trivial

/-- The payload behind a FIN is taken for stream data: the byte whose sequence
number the FIN took up is missing in what the reader gets. -/
theorem read_behind_fin_not_prefix :
    ∃ es out conn, sampleConn.Meets (AgreesWith [97, 98, 99]) es ∧
      sampleConn.run es = some (out, conn) ∧ ¬out <+: [97, 98, 99] := by
  refine ⟨[sampleSynAck, .segment (sampleHeader 5001 1001 (Flag.fin ||| Flag.ack)) [] [],
    .segment (sampleHeader 5002 1001 Flag.ack) [] [98, 99], .read 8],
    [98, 99], _, ?_, rfl, by decide⟩
  refine .cons (fun h => absurd rfl h) rfl ?_
  refine .cons (fun _ h => absurd rfl h) rfl ?_
  refine .cons (fun _ _ => ⟨1, by decide, by decide⟩) rfl ?_
  exact .cons trivial rfl trivial

/-! ## After the peer's FIN -/

/-- A segment lands in order: the buffer takes some of its payload, or its FIN
stands at `rcvNxt`. -/
def TcpConn.InOrder (conn : TcpConn) (hdr : TcpHeader) (data : List UInt8) : Prop :=
  (data ≠ [] ∧ hdr.seq = conn.rcvNxt ∧ conn.recvBuf.length < recvBufLimit) ∨
    (hdr.has Flag.fin ∧ hdr.seq + UInt32.ofNat data.length = conn.rcvNxt)

/-- The segment does not land in order on a connection in CLOSE_WAIT. -/
def Unmoved (conn : TcpConn) : Event → Prop
  | .segment hdr _ data => conn.state = .closeWait → ¬hdr.has Flag.rst → ¬conn.InOrder hdr data
  | _ => True

theorem inOrder_iff : conn.InOrder hdr data ↔ 0 < conn.taken hdr data ∨ conn.TakesFin hdr data := by
  unfold TcpConn.InOrder TcpConn.TakesFin TcpConn.taken
  by_cases hseq : data ≠ [] ∧ hdr.seq = conn.rcvNxt
  · have hpos : 0 < data.length := List.length_pos_iff.mpr hseq.1
    rw [if_pos hseq]
    by_cases hroom : conn.recvBuf.length < recvBufLimit
    · exact iff_of_true (Or.inl ⟨hseq.1, hseq.2, hroom⟩) (Or.inl (by omega))
    · have hnone : min data.length (recvBufLimit - conn.recvBuf.length) = 0 := by omega
      rw [hnone, add_ofNat_zero]
      simp [hroom]
  · rw [if_neg hseq, add_ofNat_zero]
    simp only [not_lt_zero, false_or, or_iff_right_iff_imp]
    exact fun h => absurd ⟨h.1, h.2.1⟩ hseq

theorem taken_le (conn : TcpConn) (hdr : TcpHeader) (data : List UInt8) :
    conn.taken hdr data ≤ recvBufLimit := by
  unfold TcpConn.taken
  split <;> omega

/-- An open connection stays as it is on the receiving side exactly for the
segments that do not land in order. -/
theorem processOpen_unmoved_iff :
    ((processOpen conn hdr data).2.rcvNxt = conn.rcvNxt ∧
        (processOpen conn hdr data).2.recvBuf = conn.recvBuf) ↔ ¬conn.InOrder hdr data := by
  have hlimit : recvBufLimit + 1 < 2 ^ 32 := by decide
  have htaken := taken_le conn hdr data
  rw [inOrder_iff, not_or, Nat.not_lt, Nat.le_zero]
  constructor
  · rintro ⟨hnxt, -⟩
    by_cases hfin : conn.TakesFin hdr data
    · rw [(processOpen_of_takesFin hfin).1, UInt32.add_assoc,
        show (1 : UInt32) = UInt32.ofNat 1 from rfl, ← UInt32.ofNat_add] at hnxt
      have := add_ofNat_inj (n := 0) (by omega) (by omega)
        (hnxt.trans (add_ofNat_zero _).symm)
      omega
    · rw [(processOpen_of_not_takesFin hfin).1] at hnxt
      exact ⟨add_ofNat_inj (by omega) (by omega) (hnxt.trans (add_ofNat_zero _).symm), hfin⟩
  · rintro ⟨hzero, hfin⟩
    rw [(processOpen_of_not_takesFin hfin).1, processOpen_recvBuf, hzero,
      add_ofNat_zero, List.take_zero, List.append_nil]
    exact ⟨rfl, rfl⟩

/-- Where a connection can be once the peer's FIN has been taken in. -/
def FinState (conn : TcpConn) : Prop :=
  conn.peerFinSeen → conn.state = .closeWait ∨ conn.state = .lastAck ∨
    conn.state = .timeWait ∨ conn.state = .closed

theorem FinState.move (h : FinState conn) (hseen : conn'.peerFinSeen = conn.peerFinSeen)
    (hmove : StateMove conn.state conn'.state) : FinState conn' := by
  intro hfin
  have hold := h (hseen ▸ hfin)
  generalize conn.state = old at hold hmove
  generalize conn'.state = new at hmove
  cases hmove <;> simp_all

theorem FinState.step (h : FinState conn) (hstep : conn.step e = some (out, conn')) :
    FinState conn' := by
  rcases TcpConn.step_cases hstep with
    ⟨hdr, options, data, rfl, rfl, rfl⟩ | ⟨-, hsame, hmove⟩
  · rcases processSegment_cases conn hdr options data with
      ⟨hopen, -, heq⟩ | ⟨hsyn, heq⟩ | ⟨hsame, hmove, -⟩
    · rw [heq]
      have hrecv := processAck_receiving conn hdr hopen
      by_cases hfin : conn.TakesFin hdr data
      · intro _
        rw [(processOpen_of_takesFin hfin).2.2]
        rcases State.afterFin_of_receiving hrecv with hnew | hnew <;> simp [hnew]
      · obtain ⟨-, hseen, hstate⟩ := processOpen_of_not_takesFin hfin
        intro hfin'
        have hold := h (hseen ▸ hfin')
        rw [hstate]
        rcases processAck_state conn hdr with ⟨hst, -⟩ | ⟨hst, -, -⟩
        · rwa [hst]
        · simp [hst] at hold
    · rw [heq]
      have hunseen : conn.peerFinSeen = false := by
        by_contra hseen
        have := h (by simpa using hseen)
        simp [hsyn] at this
      rcases processSynSent_cases conn hdr options with hsame | ⟨_, _, hnew, -⟩
      · rwa [hsame]
      · rw [hnew]
        exact fun hseen => absurd hseen (by simp [hunseen])
    · exact h.move hsame.peerFinSeen hmove
  · exact h.move hsame.peerFinSeen hmove

theorem Reached.finState (h : Reached conn) : FinState conn :=
  h.invariant (fun _ _ _ _ _ _ h => absurd h (by simp [TcpConn.opening, TcpConn.new]))
    FinState.step

/-- The peer's FIN has been taken in where the state says so. -/
def FinSeen (conn : TcpConn) : Prop :=
  conn.state = .closeWait ∨ conn.state = .lastAck ∨ conn.state = .timeWait → conn.peerFinSeen

theorem FinSeen.move (h : FinSeen conn) (hseen : conn'.peerFinSeen = conn.peerFinSeen)
    (hmove : StateMove conn.state conn'.state) : FinSeen conn' := by
  unfold FinSeen at h ⊢
  rw [hseen]
  generalize conn.state = old at h hmove
  generalize conn'.state = new at hmove
  cases hmove <;> simp_all

theorem FinSeen.step (h : FinSeen conn) (hstep : conn.step e = some (out, conn')) :
    FinSeen conn' := by
  rcases TcpConn.step_cases hstep with
    ⟨hdr, options, data, rfl, rfl, rfl⟩ | ⟨-, hsame, hmove⟩
  · rcases processSegment_cases conn hdr options data with
      ⟨-, -, heq⟩ | ⟨hsyn, heq⟩ | ⟨hsame, hmove, -⟩
    · rw [heq]
      by_cases hfin : conn.TakesFin hdr data
      · exact fun _ => (processOpen_of_takesFin hfin).2.1
      · obtain ⟨-, hseen, hstate⟩ := processOpen_of_not_takesFin hfin
        unfold FinSeen at h ⊢
        rw [hseen, hstate]
        rcases processAck_state conn hdr with ⟨hsame, -⟩ | ⟨-, -, hnew⟩
        · rw [hsame]
          exact h
        · simp [hnew]
    · rw [heq]
      rcases processSynSent_cases conn hdr options with hsame | ⟨_, _, hnew, -⟩
      · rw [hsame]
        exact h
      · rw [hnew]
        simp [FinSeen]
    · exact h.move hsame.peerFinSeen hmove
  · exact h.move hsame.peerFinSeen hmove

theorem unmoved_step_iff (h : FinState conn) (hseen : conn.peerFinSeen)
    (hstep : conn.step e = some (out, conn')) :
    (conn'.rcvNxt = conn.rcvNxt ∧ out ++ conn'.recvBuf = conn.recvBuf ↔
        Unmoved conn e) ∧ conn'.peerFinSeen := by
  rcases TcpConn.step_cases hstep with
    ⟨hdr, options, data, rfl, rfl, rfl⟩ | ⟨hother, hsame, -⟩
  · rcases processSegment_cases conn hdr options data with
      ⟨hopen, hrst, heq⟩ | ⟨hsyn, -⟩ | ⟨hsame, -, hrst⟩
    · have hwait : conn.state = .closeWait := by
        rcases h hseen with hst | hst | hst | hst <;> simp_all [State.receiving]
      rw [heq, List.nil_append, processOpen_unmoved_iff]
      refine ⟨⟨fun hno _ _ => hno, fun hno => hno hwait hrst⟩, ?_⟩
      by_cases hfin : conn.TakesFin hdr data
      · exact (processOpen_of_takesFin hfin).2.1
      · rw [(processOpen_of_not_takesFin hfin).2.1]
        exact hseen
    · have := h hseen
      simp [hsyn] at this
    · refine ⟨iff_of_true ⟨hsame.rcvNxt, hsame.recvBuf⟩ fun hwait hnot => ?_, ?_⟩
      · rcases hrst with hrst | hrst
        · exact absurd hrst hnot
        · rw [hwait] at hrst
          exact absurd rfl hrst
      · rw [hsame.peerFinSeen]
        exact hseen
  · refine ⟨iff_of_true ⟨hsame.rcvNxt, hsame.recvBuf⟩ ?_, ?_⟩
    · cases e with
      | segment hdr options data => exact absurd rfl (hother hdr options data)
      | _ => trivial
    · rw [hsame.peerFinSeen]
      exact hseen

/-- Nothing is received in the course of the events. -/
def TcpConn.Still (conn : TcpConn) (es : List Event) : Prop :=
  ∀ first rest out conn', es = first ++ rest → conn.run first = some (out, conn') →
    conn'.rcvNxt = conn.rcvNxt ∧ out ++ conn'.recvBuf = conn.recvBuf

theorem TcpConn.still_cons {es : List Event} :
    conn.Still (e :: es) ↔ ∀ bytes mid, conn.step e = some (bytes, mid) →
      (mid.rcvNxt = conn.rcvNxt ∧ bytes ++ mid.recvBuf = conn.recvBuf) ∧ mid.Still es := by
  constructor
  · intro h bytes mid hstep
    have hone : conn.run [e] = some (bytes, mid) := by simp [TcpConn.run, hstep]
    obtain ⟨hnxt, hbuf⟩ := h [e] es bytes mid rfl hone
    refine ⟨⟨hnxt, hbuf⟩, fun first rest out conn' hes hrun => ?_⟩
    have hall : conn.run (e :: first) = some (bytes ++ out, conn') := by
      simp [TcpConn.run, hstep, hrun]
    obtain ⟨hnxt', hbuf'⟩ := h (e :: first) rest _ conn' (by simp [hes]) hall
    refine ⟨hnxt'.trans hnxt.symm, ?_⟩
    rw [← hbuf, List.append_assoc] at hbuf'
    exact List.append_cancel_left hbuf'
  · intro h first rest out conn' hes hrun
    cases first with
    | nil =>
      obtain ⟨rfl, rfl⟩ := Prod.mk.inj (Option.some.inj hrun)
      exact ⟨rfl, rfl⟩
    | cons a first =>
      obtain ⟨rfl, rfl⟩ := List.cons.inj hes
      obtain ⟨bytes, mid, out', hstep, hrest, rfl⟩ := TcpConn.run_cons hrun
      obtain ⟨⟨hnxt, hbuf⟩, hstill⟩ := h bytes mid hstep
      obtain ⟨hnxt', hbuf'⟩ := hstill first rest out' conn' rfl hrest
      refine ⟨hnxt'.trans hnxt, ?_⟩
      rw [List.append_assoc, hbuf', hbuf]

/-- **The end of the stream is final exactly as long as no segment lands in
order in CLOSE_WAIT.**  Once the peer's FIN has been taken in, `rcvNxt` and the
received bytes stay what they are through a sequence of events if and only if no
segment of it takes effect there. -/
theorem end_of_stream_final_iff (hconn : Reached conn) (hfin : conn.peerFinSeen)
    (es : List Event) : conn.Still es ↔ conn.Meets Unmoved es := by
  have hstate := hconn.finState
  clear hconn
  induction es generalizing conn with
  | nil =>
    refine iff_of_true ?_ trivial
    intro first rest out conn' hes hrun
    obtain ⟨rfl, -⟩ := List.append_eq_nil_iff.mp hes.symm
    obtain ⟨rfl, rfl⟩ := Prod.mk.inj (Option.some.inj hrun)
    exact ⟨rfl, rfl⟩
  | cons e es ih =>
    rw [TcpConn.still_cons]
    constructor
    · intro h
      refine ⟨?_, fun bytes mid hstep => ?_⟩
      · cases e with
        | segment hdr options data =>
          have hstep : conn.step (.segment hdr options data) = some ([], _) := rfl
          exact (unmoved_step_iff hstate hfin hstep).1.mp (h _ _ hstep).1
        | _ => trivial
      · obtain ⟨-, hseen⟩ := unmoved_step_iff hstate hfin hstep
        exact (ih hseen (hstate.step hstep)).mp (h bytes mid hstep).2
    · rintro ⟨hfirst, hrest⟩ bytes mid hstep
      obtain ⟨hiff, hseen⟩ := unmoved_step_iff hstate hfin hstep
      exact ⟨hiff.mpr hfirst, (ih hseen (hstate.step hstep)).mpr (hrest bytes mid hstep)⟩

/-- `sampleConn` once the peer has closed its side right away. -/
def sampleCloseWait : TcpConn :=
  (processSegment (processSegment sampleConn
      (sampleHeader 5000 1001 (Flag.syn ||| Flag.ack)) [] []).2
    (sampleHeader 5001 1001 (Flag.fin ||| Flag.ack)) [] []).2

theorem sampleCloseWait_reached : Reached sampleCloseWait :=
  ⟨49152, sampleIp, 80, sampleMac, 1000, 0,
    [sampleSynAck, .segment (sampleHeader 5001 1001 (Flag.fin ||| Flag.ack)) [] []], [], rfl⟩

/-- A repeated FIN leaves the connection alone. -/
theorem end_of_stream_final_iff_sameFin :
    sampleCloseWait.Still
      [.segment (sampleHeader 5001 1001 (Flag.fin ||| Flag.ack)) [] []] := by
  refine (end_of_stream_final_iff sampleCloseWait_reached (by decide) _).mpr ?_
  refine ⟨fun _ _ hin => ?_, fun _ _ _ => trivial⟩
  rcases hin with ⟨hdata, -⟩ | ⟨-, hseq⟩
  · exact hdata rfl
  · exact absurd hseq (by decide)

/-- Data behind the FIN is taken in and handed to the reader. -/
theorem end_of_stream_not_final : ∃ conn es, Reached conn ∧ conn.peerFinSeen ∧ ¬conn.Still es := by
  refine ⟨sampleCloseWait, [.segment (sampleHeader 5002 1001 Flag.ack) [] [98]],
    sampleCloseWait_reached, by decide, fun h => ?_⟩
  have hnxt := (h _ [] [] _ (List.append_nil _).symm rfl).1
  exact absurd hnxt (by decide)

end RacOS.Net.Tcp
