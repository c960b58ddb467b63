import RacOS.Net.TcpReceive

/-!
# The timer and the slots of the connection table

The timer takes a connection out of the table when it finds it closed, and it
closes a connection whose oldest segment stays unacknowledged through all its
retransmissions.  Nothing else frees a slot: a connection in TIME_WAIT with an
empty queue is left alone by every tick.
-/

namespace RacOS.Net.Tcp

variable {t : Table} {i : Fin maxConns} {conn : TcpConn} {p : PendingSegment}

/-- The table after ticks at the given times. -/
def Table.ticks : Table → List ℕ → Table
  | t, [] => t
  | t, now :: times => (t.ticked now).ticks times

/-- The ticks of an advancing clock empty the slot after a bounded number. -/
def Table.Removes (t : Table) (i : Fin maxConns) : Prop :=
  ∃ n, ∀ times : List ℕ, times.Pairwise (· < ·) → n ≤ times.length → (t.ticks times).conns i = none

/-! ## One tick -/

theorem Table.ticked_none (now : ℕ) (h : t.conns i = none) : (t.ticked now).conns i = none := by
  simp [Table.ticked, h]

theorem Table.ticked_closed (now : ℕ) (h : t.conns i = some conn)
    (hclosed : conn.state = .closed) : (t.ticked now).conns i = none := by
  simp [Table.ticked, h, hclosed]

theorem Table.ticked_some (now : ℕ) (h : t.conns i = some conn) (hclosed : conn.state ≠ .closed) :
    (t.ticked now).conns i = some (conn.tick now).2 := by
  simp [Table.ticked, h, hclosed]

theorem Table.ticks_none (times : List ℕ) (h : t.conns i = none) :
    (t.ticks times).conns i = none := by
  induction times generalizing t with
  | nil => exact h
  | cons now times ih => exact ih (Table.ticked_none now h)

theorem TcpConn.tick_state_of_expired {now : ℕ} (hp : p ∈ conn.pending)
    (h : p.expired now) : (conn.tick now).2.state = .closed :=
  if_pos ⟨p, hp, h⟩

/-! ## Retransmissions run out -/

theorem PendingSegment.rto_le (p : PendingSegment) : p.rto ≤ rtoMaxTicks :=
  min_le_right _ _

/-- Bounds the ticks until the segment is given up, when no tick comes before
`since`. -/
def PendingSegment.patience (p : PendingSegment) (since : ℕ) : ℕ :=
  (maxRetransmits - p.retries) * (rtoMaxTicks + 1) + (p.lastTxTick + rtoMaxTicks - since)

/-- A tick that does not give the segment up uses up some of its patience. -/
theorem PendingSegment.patience_tick {now since : ℕ} (h : ¬p.expired now)
    (hsince : since ≤ now) : (p.tick now).patience (now + 1) < p.patience since := by
  have hrto := p.rto_le
  unfold PendingSegment.tick
  by_cases hdue : p.due now
  · have hretries : p.retries < maxRetransmits := by
      by_contra hmax
      exact h ⟨hdue, not_lt.mp hmax⟩
    rw [if_pos ⟨hdue, hretries⟩]
    obtain ⟨k, hk⟩ : ∃ k, maxRetransmits - p.retries = k + 1 :=
      ⟨maxRetransmits - p.retries - 1, by omega⟩
    have hk' : maxRetransmits - (p.retries + 1) = k := by omega
    unfold PendingSegment.patience
    change (maxRetransmits - (p.retries + 1)) * _ + (now + rtoMaxTicks - _) < _
    rw [hk, hk', Nat.add_mul, Nat.one_mul]
    omega
  · rw [if_neg fun hboth => hdue hboth.1]
    have hnot : ¬p.rto ≤ now - p.lastTxTick := hdue
    have hpos : 0 < p.rto := by
      by_contra hzero
      omega
    unfold PendingSegment.patience
    omega

/-- A connection whose oldest segment is not acknowledged leaves the table. -/
theorem Table.ticks_pending {times : List ℕ} :
    ∀ {t : Table} {conn : TcpConn} {p : PendingSegment} {rest : List PendingSegment}
      {since : ℕ}, t.conns i = some conn → conn.pending = p :: rest →
      p.patience since + 2 ≤ times.length → times.Pairwise (· < ·) →
      (∀ now ∈ times, since ≤ now) → (t.ticks times).conns i = none := by
  induction times with
  | nil =>
    intro t conn p rest since _ _ hlen _ _
    exact absurd hlen (by simp)
  | cons now times ih =>
    intro t conn p rest since hconn hpend hlen hsorted hsince
    rw [List.length_cons] at hlen
    obtain ⟨hlater, hsorted⟩ := List.pairwise_cons.mp hsorted
    by_cases hclosed : conn.state = .closed
    · exact Table.ticks_none times (Table.ticked_closed now hconn hclosed)
    · have hnext := Table.ticked_some now hconn hclosed
      by_cases hexpired : p.expired now
      · -- The connection is closed now, and the next tick takes it out.
        have hstate : (conn.tick now).2.state = .closed :=
          TcpConn.tick_state_of_expired (by simp [hpend]) hexpired
        cases times with
        | nil => exact absurd hlen (by simp)
        | cons now' times =>
          exact Table.ticks_none times (Table.ticked_closed now' hnext hstate)
      · have hused := PendingSegment.patience_tick hexpired
          (hsince now List.mem_cons_self)
        have hpend' : (conn.tick now).2.pending = p.tick now :: rest.map fun q => q.tick now := by
          change conn.pending.map _ = _
          rw [hpend, List.map_cons]
        have hsince' : ∀ later ∈ times, now + 1 ≤ later := hlater
        exact ih hnext hpend' (by omega) hsorted hsince'

/-! ## Connections both sides have closed -/

/-- Both sides have closed: the peer's FIN came after ours, or the last
acknowledgement has been received. -/
def TcpConn.Finished (conn : TcpConn) : Prop :=
  conn.state = .timeWait ∨ conn.state = .closed

/-- The connection waits in TIME_WAIT and has nothing left to be acknowledged. -/
def TcpConn.Lingers (conn : TcpConn) : Prop :=
  conn.state = .timeWait ∧ conn.pending = []

theorem TcpConn.Lingers.tick (h : conn.Lingers) (now : ℕ) : (conn.tick now).2.Lingers := by
  obtain ⟨hstate, hpend⟩ := h
  constructor
  · change (if ∃ p ∈ conn.pending, p.expired now then _ else _) = _
    rw [if_neg (by simp [hpend])]
    exact hstate
  · change conn.pending.map _ = []
    rw [hpend, List.map_nil]

theorem Table.ticks_lingers (times : List ℕ) (hconn : t.conns i = some conn)
    (h : conn.Lingers) : ∃ conn', (t.ticks times).conns i = some conn' := by
  induction times generalizing t conn with
  | nil => exact ⟨conn, hconn⟩
  | cons now times ih =>
    have hopen : conn.state ≠ .closed := by
      rw [h.1]
      simp
    exact ih (Table.ticked_some now hconn hopen) (h.tick now)

/-- A connection both sides have closed leaves the table unless it lingers. -/
theorem Table.removes_iff (hconn : t.conns i = some conn) (hdone : conn.Finished) :
    t.Removes i ↔ ¬conn.Lingers := by
  constructor
  · rintro ⟨n, hn⟩ hlingers
    obtain ⟨conn', hstays⟩ := Table.ticks_lingers (List.range n) hconn hlingers
    have hgone := hn (List.range n) List.pairwise_lt_range (by simp)
    rw [hstays] at hgone
    exact absurd hgone (by simp)
  · intro hlingers
    by_cases hclosed : conn.state = .closed
    · refine ⟨1, fun times _ hlen => ?_⟩
      cases times with
      | nil => exact absurd hlen (by simp)
      | cons now times =>
        exact Table.ticks_none times (Table.ticked_closed now hconn hclosed)
    · cases hpend : conn.pending with
      | nil => exact absurd ⟨hdone.resolve_right hclosed, hpend⟩ hlingers
      | cons p rest =>
        exact ⟨p.patience 0 + 2, fun times hsorted hlen =>
          Table.ticks_pending hconn hpend hlen hsorted fun _ _ => Nat.zero_le _⟩

theorem Table.removes_of_none (h : t.conns i = none) : t.Removes i :=
  ⟨0, fun times _ _ => Table.ticks_none times h⟩

/-! ## A slot for a new connection -/

theorem connect_of_free (h : t.conns i = none) (remoteIp : Ip) (remotePort : UInt16)
    (peerMac : Mac) (now : ℕ) : ∃ r t', connect remoteIp remotePort peerMac now t = .ok r t' := by
  have hport := t.allocPortLoop_conns 1024
  unfold connect
  simp only [Table.allocPort]
  generalize t.allocPortLoop 1024 = r at hport
  obtain ⟨localPort, t₁⟩ := r
  simp only [Table.nextIsn] at hport ⊢
  split
  · rename_i hnone
    have hfull := List.find?_eq_none.mp hnone i (List.mem_finRange i)
    rw [show t₁.conns = t.conns from hport, h] at hfull
    exact absurd rfl hfull
  · exact ⟨_, _, rfl⟩

/-- **Which slots are recycled.**  A connection both sides have closed leaves the
table after a bounded number of ticks exactly if it does not linger in TIME_WAIT;
and when all connections in the table are closed by both sides and none lingers,
a new connection finds a slot after a bounded number of ticks. -/
theorem slots_recycled_iff (t : Table) :
    (∀ i conn, t.conns i = some conn → conn.Finished → (t.Removes i ↔ ¬conn.Lingers)) ∧
      ((∀ i conn, t.conns i = some conn → conn.Finished ∧ ¬conn.Lingers) →
        ∃ n, ∀ times : List ℕ, times.Pairwise (· < ·) → n ≤ times.length →
          ∀ remoteIp remotePort peerMac now,
            ∃ r t', connect remoteIp remotePort peerMac now (t.ticks times) = .ok r t') := by
  refine ⟨fun i conn hconn hdone => Table.removes_iff hconn hdone, fun hall => ?_⟩
  have hfirst : t.Removes 0 := by
    cases hslot : t.conns 0 with
    | none => exact Table.removes_of_none hslot
    | some conn =>
      obtain ⟨hdone, hlingers⟩ := hall 0 conn hslot
      exact (Table.removes_iff hslot hdone).mpr hlingers
  obtain ⟨n, hn⟩ := hfirst
  exact ⟨n, fun times hsorted hlen =>
    connect_of_free (hn times hsorted hlen)⟩

/-- The bytes of a segment from port 80 to port 49152. -/
def sampleBytes (seq ack : UInt32) (flags : UInt8) : List UInt8 :=
  [0, 80, 192, 0] ++ be seq ++ be ack ++ [0x50, flags, 0x20, 0, 0, 0, 0, 0]
where
  /-- The bytes of a word, highest first. -/
  be (x : UInt32) : List UInt8 :=
    [(x >>> 24).toUInt8, (x >>> 16).toUInt8, (x >>> 8).toUInt8, x.toUInt8]

/-- A connection that is opened, closed by this side and then by the peer. -/
def sampleClose : List Call :=
  [.connect sampleIp 80 sampleMac 0,
    .handleSegment sampleIp (sampleBytes 5000 0x9E3779BA (Flag.syn ||| Flag.ack)),
    .close 0 1,
    .handleSegment sampleIp (sampleBytes 5001 0x9E3779BB Flag.ack),
    .handleSegment sampleIp
      (sampleBytes 5001 0x9E3779BB (Flag.fin ||| Flag.ack))]

theorem Table.Reachable.foldlM {cs : List Call} (ht : t.Reachable) {t' : Table}
    (h : cs.foldlM Table.step t = some t') : t'.Reachable := by
  induction cs generalizing t with
  | nil =>
    obtain rfl := Option.some.inj h
    exact ht
  | cons c cs ih =>
    rw [List.foldlM_cons] at h
    obtain ⟨mid, hmid, hrest⟩ := Option.bind_eq_some_iff.mp h
    exact ih (ht.step hmid) hrest

theorem sampleClose_slot :
    (((sampleClose.foldlM Table.step Table.new).bind fun t => t.conns 0).map fun conn =>
      (conn.state, conn.pending, conn.peerFinSeen)) = some (.timeWait, [], true) := by
  decide

/-- The connection this side closes first is never removed. -/
theorem slot_of_active_close_not_removed :
    ∃ (t : Table) (conn : TcpConn), t.Reachable ∧ t.conns 0 = some conn ∧
      conn.Finished ∧ conn.peerFinSeen ∧ conn.pending = [] ∧ ¬t.Removes 0 := by
  obtain ⟨conn, hslot, heq⟩ := Option.map_eq_some_iff.mp sampleClose_slot
  obtain ⟨t, hrun, hconn⟩ := Option.bind_eq_some_iff.mp hslot
  obtain ⟨hstate, hpend, hfin⟩ : conn.state = .timeWait ∧ conn.pending = [] ∧
      conn.peerFinSeen = true := by simpa using heq
  have hdone : conn.Finished := Or.inl hstate
  refine ⟨t, conn, Table.Reachable.new.foldlM hrun, hconn, hdone, hfin, hpend, ?_⟩
  exact fun hremoves => (Table.removes_iff hconn hdone).mp hremoves ⟨hstate, hpend⟩

end RacOS.Net.Tcp
