import RacOS.Net.TcpReceive

/-!
# The retransmission queue

The queue of a connection holds exactly the sequence numbers that are sent and
not acknowledged, in order and end to end.  Sending and closing put a segment
behind the last one, an acknowledgement drops segments from the front, and the
timer leaves every interval alone.

Two things are needed of the environment.  The queue must not grow beyond half
the sequence space.  And when nothing is unacknowledged, a segment must not
acknowledge the number exactly half the sequence space away: that number counts
both as later than `sndUna` and as not later than `sndNxt`.
-/

namespace RacOS.Net.Tcp

variable {conn conn' : TcpConn} {hdr : TcpHeader} {options data : List UInt8}

/-! ## Comparing sequence numbers -/

theorem toInt32_neg_iff (x : UInt32) : x.toInt32 < 0 ↔ 2 ^ 31 ≤ x.toNat := by
  have hx := x.toNat_lt
  have htoInt : x.toInt32.toInt = x.toBitVec.toInt := rfl
  have htoNat : x.toBitVec.toNat = x.toNat := rfl
  rw [Int32.lt_iff_toInt_lt, htoInt, BitVec.toInt_eq_toNat_cond, htoNat,
    show (0 : Int32).toInt = 0 from rfl]
  split <;> omega

theorem dist_swap (a b : UInt32) :
    SeqNum.dist a b + SeqNum.dist b a = 0 ∨ SeqNum.dist a b + SeqNum.dist b a = 2 ^ 32 := by
  have := SeqNum.dist_trans a b a
  rwa [SeqNum.dist_self, Nat.zero_add] at this

theorem seqLt_iff {a b : UInt32} : seqLt a b ↔ SeqNum.Before a b := by
  have hswap := dist_swap a b
  have hlt := SeqNum.dist_lt b a
  unfold seqLt SeqNum.Before
  rw [decide_eq_true_iff, toInt32_neg_iff]
  change 2 ^ 31 ≤ SeqNum.dist b a ↔ _
  constructor
  · intro h
    constructor <;> omega
  · rintro ⟨hpos, hhalf⟩
    omega

theorem seqLe_iff {a b : UInt32} : seqLe a b ↔ SeqNum.dist a b ≤ 2 ^ 31 := by
  have hswap := dist_swap a b
  have hlt := SeqNum.dist_lt a b
  have hle : (a - b).toInt32 ≤ 0 ↔ (a - b).toInt32 < 0 ∨ a - b = 0 := by
    rw [Int32.le_iff_lt_or_eq]
    refine or_congr_right ⟨fun h => ?_, fun h => by rw [h]; rfl⟩
    have := congrArg Int32.toUInt32 h
    rwa [UInt32.toUInt32_toInt32] at this
  have hzero : a - b = 0 ↔ SeqNum.dist b a = 0 :=
    ⟨fun h => by rw [SeqNum.dist, h]; rfl, fun h => UInt32.toNat_inj.mp h⟩
  unfold seqLe
  rw [decide_eq_true_iff, hle, toInt32_neg_iff, hzero]
  change 2 ^ 31 ≤ SeqNum.dist b a ∨ _ ↔ _
  constructor
  · rintro (h | h) <;> omega
  · intro h
    omega

theorem filter_seqLt (ack : UInt32) (l : List PendingSegment) :
    (l.filter fun p => seqLt ack p.end) =
      l.filter fun p => decide (SeqNum.Before ack (p.seq + p.seqLen)) := by
  refine List.filter_congr fun p _ => ?_
  rw [Bool.eq_iff_iff, seqLt_iff, decide_eq_true_iff]
  rfl

/-! ## The invariant -/

/-- The sequence numbers the queue takes up. -/
def TcpConn.queued (conn : TcpConn) : ℕ :=
  SeqNum.total PendingSegment.seqLen conn.pending

/-- The queue holds what is sent and not acknowledged; before the SYN is
answered it holds that SYN. -/
structure QueueOk (conn : TcpConn) : Prop where
  queue : SeqNum.Queued PendingSegment.seq PendingSegment.seqLen conn.sndUna
    conn.pending conn.sndNxt
  syn : conn.state = .synSent → conn.sndNxt = conn.iss + 1 ∧
    ∀ p ∈ conn.pending, p.flags &&& Flag.syn ≠ 0

/-- What an event must not do for the queue to stay in order. -/
def Orderly (conn : TcpConn) : Event → Prop
  | .segment hdr _ _ => conn.sndUna = conn.sndNxt → SeqNum.dist conn.sndUna hdr.ack ≠ 2 ^ 31
  | .send data _ => conn.queued + data.length ≤ 2 ^ 31
  | .close _ => conn.queued + 1 ≤ 2 ^ 31
  | _ => True

theorem QueueOk.opening (localPort : UInt16) (remoteIp : Ip) (remotePort : UInt16)
    (peerMac : Mac) (iss : UInt32) (now : ℕ) :
    QueueOk (TcpConn.opening localPort remoteIp remotePort peerMac iss now) where
  queue := (SeqNum.Queued.nil iss).push (p := synSegment iss now) rfl
    (by decide : 0 < 1) (by decide : 0 + 1 ≤ 2 ^ 31)
  syn := by
    refine fun _ => ⟨rfl, fun p hp => ?_⟩
    rw [List.mem_singleton.mp hp]
    exact (by decide : Flag.syn &&& Flag.syn ≠ 0)

theorem QueueOk.congr (h : QueueOk conn) (huna : conn'.sndUna = conn.sndUna)
    (hpend : conn'.pending = conn.pending) (hnxt : conn'.sndNxt = conn.sndNxt)
    (hiss : conn'.iss = conn.iss)
    (hsyn : conn'.state = .synSent → conn.state = .synSent) : QueueOk conn' where
  queue := by
    rw [huna, hpend, hnxt]
    exact h.queue
  syn := by
    rw [hnxt, hpend, hiss]
    exact fun hst => h.syn (hsyn hst)

/-! ## Acknowledgements -/

theorem QueueOk.processAck (h : QueueOk conn) (hopen : conn.state.receiving)
    (hord : conn.sndUna = conn.sndNxt → SeqNum.dist conn.sndUna hdr.ack ≠ 2 ^ 31) :
    QueueOk (processAck conn hdr) := by
  have hsyn : (Tcp.processAck conn hdr).state ≠ .synSent := by
    intro hst
    have hrecv := processAck_receiving conn hdr hopen
    rw [hst] at hrecv
    exact absurd hrecv (by simp [State.receiving])
  refine ⟨?_, fun hst => absurd hst hsyn⟩
  unfold Tcp.processAck
  split
  · rename_i hcond
    obtain ⟨⟨-, hlt⟩, hle⟩ : (hdr.has Flag.ack ∧ seqLt conn.sndUna hdr.ack) ∧
        seqLe hdr.ack conn.sndNxt := by simpa using hcond
    have hack := SeqNum.dist_le_of_between h.queue.dist_le (seqLt_iff.mp hlt)
      (seqLe_iff.mp hle) fun hopp => hord hopp.1 hopp.2
    change SeqNum.Queued _ _ hdr.ack (conn.pending.filter _) conn.sndNxt
    rw [filter_seqLt]
    exact h.queue.retain hack
  · exact h.queue

theorem processOpen_sending (conn : TcpConn) (hdr : TcpHeader) (data : List UInt8) :
    (processOpen conn hdr data).2.sndUna = (Tcp.processAck conn hdr).sndUna ∧
      (processOpen conn hdr data).2.pending = (Tcp.processAck conn hdr).pending ∧
      (processOpen conn hdr data).2.sndNxt = (Tcp.processAck conn hdr).sndNxt ∧
      (processOpen conn hdr data).2.iss = (Tcp.processAck conn hdr).iss := by
  rw [processOpen_eq]
  unfold processFin processPayload
  split <;> split <;> exact ⟨rfl, rfl, rfl, rfl⟩

theorem QueueOk.processSynSent (h : QueueOk conn) (hsyn : conn.state = .synSent) :
    QueueOk (processSynSent conn hdr options).2 := by
  obtain ⟨hnxt, hflags⟩ := h.syn hsyn
  rcases processSynSent_cases conn hdr options with hsame | ⟨_, _, hnew, hack⟩
  · rwa [hsame]
  · have hempty : (conn.pending.filter fun p => p.flags &&& Flag.syn = 0) = [] :=
      List.filter_eq_nil_iff.mpr fun p hp => by simpa using hflags p hp
    rw [hnew]
    refine ⟨?_, by simp⟩
    change SeqNum.Queued _ _ hdr.ack (conn.pending.filter _) conn.sndNxt
    rw [hempty, hack, hnxt]
    exact .nil _

/-- Behind the end of the stream a segment changes the state at most. -/
theorem processSegment_idle (options data : List UInt8) (hrst : ¬hdr.has Flag.rst)
    (hopen : ¬conn.state.receiving) (hsyn : conn.state ≠ .synSent) :
    ∃ s, (processSegment conn hdr options data).2 = { conn with state := s } ∧ s ≠ .synSent := by
  rw [(processSegment_behind hopen hsyn hrst).2]
  split
  · exact ⟨.closed, rfl, by simp⟩
  · exact ⟨conn.state, rfl, hsyn⟩

theorem QueueOk.segment (h : QueueOk conn) (hord : Orderly conn (.segment hdr options data)) :
    QueueOk (processSegment conn hdr options data).2 := by
  by_cases hrst : hdr.has Flag.rst
  · rw [processSegment_rst hrst]
    exact h.congr rfl rfl rfl rfl (by simp)
  · by_cases hopen : conn.state.receiving
    · rw [processSegment_open hopen hrst]
      obtain ⟨huna, hpend, hnxt, hiss⟩ := processOpen_sending conn hdr data
      exact (h.processAck hopen hord).congr huna hpend hnxt hiss fun hst =>
        absurd hst (processOpen_state_ne hopen rfl (by decide))
    · by_cases hsyn : conn.state = .synSent
      · rw [processSegment_synSent hsyn hrst]
        exact h.processSynSent hsyn
      · obtain ⟨s, heq, hs⟩ := processSegment_idle options data hrst hopen hsyn
        rw [heq]
        exact h.congr rfl rfl rfl rfl fun hst => absurd hst hs

/-! ## Sending -/

theorem QueueOk.push {p : PendingSegment} (h : QueueOk conn) (hseq : p.seq = conn.sndNxt)
    (hpos : 0 < p.seqLen.toNat) (hsize : conn.queued + p.seqLen.toNat ≤ 2 ^ 31) {s : State}
    (hs : s ≠ .synSent) :
    QueueOk { conn with
      pending := conn.pending ++ [p]
      sndNxt := conn.sndNxt + p.seqLen
      state := s } where
  queue := h.queue.push hseq hpos hsize
  syn := fun hst => absurd hst hs

theorem QueueOk.sendLoop {now fuel : ℕ} {segments : List Segment} {data : List UInt8}
    (h : QueueOk conn) (hst : conn.state ≠ .synSent) (hsize : conn.queued + data.length ≤ 2 ^ 31)
    (hloop : conn.sendLoop now fuel data = some (segments, conn')) : QueueOk conn' := by
  refine TcpConn.sendLoop_induction (P := fun conn data _ conn' => QueueOk conn →
    conn.state ≠ .synSent → conn.queued + data.length ≤ 2 ^ 31 → QueueOk conn') ?_ ?_
    hloop h hst hsize
  · exact fun _ _ h _ _ => h
  · intro conn data segments last hfits hdata p ih h hst hsize
    have hmss := conn.mss_ge
    have hpos : 0 < data.length := List.length_pos_iff.mpr hdata
    have hchunk : (data.take conn.mss.toNat).length = min conn.mss.toNat data.length :=
      List.length_take
    have hlen : p.seqLen.toNat = (data.take conn.mss.toNat).length := toNat_ofNat_length hfits
    refine ih (h.push (s := conn.state) rfl (by omega) (by omega) hst) hst ?_
    change SeqNum.total _ (conn.pending ++ [_]) + _ ≤ _
    rw [SeqNum.total_append, List.length_drop]
    change conn.queued + SeqNum.total _ [_] + _ ≤ _
    rw [SeqNum.total_cons, SeqNum.total_nil]
    omega

theorem QueueOk.step {e : Event} {out : List UInt8} (h : QueueOk conn) (hord : Orderly conn e)
    (hstep : conn.step e = some (out, conn')) : QueueOk conn' := by
  cases e with
  | segment hdr options data =>
    obtain ⟨-, rfl⟩ := Prod.mk.inj (Option.some.inj hstep)
    exact h.segment hord
  | read n =>
    obtain ⟨-, rfl⟩ := Prod.mk.inj (Option.some.inj hstep)
    exact h.congr rfl rfl rfl rfl fun hst => hst
  | send data now =>
    obtain ⟨-, ⟨-, rfl⟩ | ⟨segments, hest, -, hloop⟩⟩ := TcpConn.step_send hstep
    · exact h
    · refine QueueOk.sendLoop h ?_ hord hloop
      rw [hest]
      simp
  | close now =>
    obtain ⟨-, ⟨-, rfl⟩ | ⟨-, rfl, -⟩⟩ := TcpConn.step_close hstep
    · exact h
    · refine h.push (p := finSegment conn.sndNxt now) rfl (by decide : 0 < 1) hord ?_
      split <;> simp
  | tick now =>
    obtain ⟨-, -, rfl⟩ := TcpConn.step_tick hstep
    have hseq : ∀ p : PendingSegment, (p.tick now).seq = p.seq := fun p => by
      unfold PendingSegment.tick
      split <;> rfl
    have hlen : ∀ p : PendingSegment, (p.tick now).seqLen = p.seqLen := fun p => by
      unfold PendingSegment.tick
      split <;> rfl
    have hflags : ∀ p : PendingSegment, (p.tick now).flags = p.flags := fun p => by
      unfold PendingSegment.tick
      split <;> rfl
    refine ⟨h.queue.map hseq hlen, fun hst => ?_⟩
    have hold : conn.state = .synSent := by
      change (if _ then _ else _) = _ at hst
      split at hst
      · exact absurd hst (by simp)
      · exact hst
    obtain ⟨hnxt, hsyn⟩ := h.syn hold
    refine ⟨hnxt, fun p hp => ?_⟩
    obtain ⟨q, hq, rfl⟩ := List.mem_map.mp hp
    rw [hflags]
    exact hsyn q hq

/-! ## Whole runs -/

/-- The queue is in order and end to end up to `sndNxt`, and every sequence
number from `sndUna` up to `sndNxt` belongs to exactly one queued segment. -/
structure QueueInvariant (conn : TcpConn) : Prop where
  ordered : conn.pending.Pairwise fun p q => seqLt p.seq q.seq
  contiguous : conn.pending.IsChain fun p q => q.seq = p.end
  last : ∀ p, conn.pending.getLast? = some p → p.end = conn.sndNxt
  covered : ∀ x, SeqNum.dist conn.sndUna x < SeqNum.dist conn.sndUna conn.sndNxt →
    conn.pending.countP (SeqNum.covers PendingSegment.seq PendingSegment.seqLen x) = 1

theorem QueueOk.invariant (h : QueueOk conn) : QueueInvariant conn := by
  obtain ⟨a, htiles⟩ := h.queue.tiles
  constructor
  case ordered =>
    exact (htiles.pairwise h.queue.size h.queue.pos).imp fun hbefore =>
      seqLt_iff.mpr hbefore
  case contiguous => exact htiles.isChain
  case last => exact fun p hp => htiles.getLast hp
  case covered => exact fun x hx => h.queue.countP_covers hx

/-- **The retransmission queue holds what is unacknowledged.**  After every
sequence of orderly events each unacknowledged sequence number belongs to
exactly one queued segment. -/
theorem queue_invariant (localPort : UInt16) (remoteIp : Ip) (remotePort : UInt16)
    (peerMac : Mac) (iss : UInt32) (now : ℕ) (es : List Event) {out : List UInt8}
    {conn : TcpConn}
    (hes : (TcpConn.opening localPort remoteIp remotePort peerMac iss now).Meets Orderly es)
    (hrun : (TcpConn.opening localPort remoteIp remotePort peerMac iss now).run es =
      some (out, conn)) : QueueInvariant conn :=
  (TcpConn.run_invariant (I := fun c _ => QueueOk c) QueueOk.step []
    (.opening localPort remoteIp remotePort peerMac iss now) hes hrun).invariant

/-- A connection that has sent three bytes. -/
theorem queue_invariant_threeBytes :
    ∃ out conn, sampleConn.run [sampleSynAck, .send [1, 2, 3] 5] = some (out, conn) ∧
      conn.pending.length = 1 ∧ QueueInvariant conn := by
  refine ⟨[], _, rfl, rfl, ?_⟩
  refine queue_invariant 49152 sampleIp 80 sampleMac 1000 0
    [sampleSynAck, .send [1, 2, 3] 5] ?_ rfl
  refine .cons (fun heq => absurd heq (by decide)) rfl ?_
  exact .cons (show TcpConn.queued _ + 3 ≤ 2 ^ 31 by decide) rfl trivial

/-- The acknowledgement of the number opposite to `sndUna` is accepted although
nothing is unacknowledged, and then numbers count as sent that no segment holds. -/
theorem queue_invariant_opposite_ack :
    ∃ conn, Reached conn ∧ conn.state ≠ .closed ∧ ¬QueueInvariant conn := by
  refine ⟨_, ⟨49152, sampleIp, 80, sampleMac, 1000, 0,
    [sampleSynAck, .segment (sampleHeader 5001 (1001 + 0x80000000) Flag.ack) [] []], [],
    rfl⟩, by decide, fun h => ?_⟩
  exact absurd (h.covered (1001 + 0x80000000) (by decide)) (by decide)

end RacOS.Net.Tcp
