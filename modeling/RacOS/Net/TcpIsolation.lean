import Mathlib.Data.Fintype.Pigeonhole
import RacOS.Net.TcpSystem

/-!
# Isolation of connections

The calls on the table that concern a connection are those that name its slot, the segments between
its endpoints and the timer.  No two connections share a local port, so each of these is an event of
the connection and nothing else touches it: its state is the one that it reaches on its own by
these events.
-/

namespace RacOS.Net.Tcp

/-! ## The endpoints of a connection -/

/-- Local port, remote address and remote port. -/
def TcpConn.ends (conn : TcpConn) : UInt16 × Ip × UInt16 :=
  (conn.localPort, conn.remoteIp, conn.remotePort)

theorem TcpConn.matches_iff {conn : TcpConn} {localPort : UInt16} {remoteIp : Ip}
    {remotePort : UInt16} :
    conn.matches localPort remoteIp remotePort = true ↔
      conn.ends = (localPort, remoteIp, remotePort) := by
  simp [TcpConn.matches, TcpConn.ends, and_assoc]

variable {conn conn' : TcpConn} {e : Event} {bytes : List UInt8}

theorem ends_processOpen (conn : TcpConn) (hdr : TcpHeader) (data : List UInt8) :
    (processOpen conn hdr data).2.ends = conn.ends := by
  have hack : (processAck conn hdr).ends = conn.ends := by
    unfold processAck
    split <;> rfl
  have hpayload (c : TcpConn) : (processPayload c hdr data).2.ends = c.ends := by
    unfold processPayload
    split <;> rfl
  have hfin (c : TcpConn) : (processFin c hdr data).2.ends = c.ends := by
    unfold processFin
    split <;> rfl
  exact (hfin _).trans ((hpayload _).trans hack)

theorem ends_processSegment (conn : TcpConn) (hdr : TcpHeader) (options data : List UInt8) :
    (processSegment conn hdr options data).2.ends = conn.ends := by
  unfold processSegment
  split
  · rfl
  split
  · unfold processSynSent
    split
    · rfl
    · split <;> rfl
  · exact ends_processOpen conn hdr data
  · exact ends_processOpen conn hdr data
  · exact ends_processOpen conn hdr data
  · exact ends_processOpen conn hdr data
  · unfold processLastAck
    split <;> rfl
  · rfl
  · rfl

theorem TcpConn.ends_step (h : conn.step e = some (bytes, conn')) : conn'.ends = conn.ends := by
  cases e with
  | segment hdr options data =>
    obtain ⟨-, rfl⟩ := Prod.mk.inj (Option.some.inj h)
    exact ends_processSegment conn hdr options data
  | send data now =>
    obtain ⟨-, ⟨-, rfl⟩ | ⟨segments, -, -, hloop⟩⟩ := TcpConn.step_send h
    · rfl
    · exact TcpConn.sendLoop_induction (P := fun conn _ _ last => last.ends = conn.ends)
        (fun _ _ => rfl) (fun _ _ _ _ _ _ hrest => hrest) hloop
  | close now =>
    obtain ⟨-, ⟨-, rfl⟩ | ⟨-, rfl, -⟩⟩ := TcpConn.step_close h
    · rfl
    · rfl
  | read n =>
    obtain ⟨-, rfl⟩ := Prod.mk.inj (Option.some.inj h)
    rfl
  | tick now =>
    obtain ⟨-, -, rfl⟩ := TcpConn.step_tick h
    rfl

/-! ## What concerns a connection -/

/-- The event that a call on the table is for the connection in a slot. -/
def Call.eventFor (i : Fin maxConns) (conn : TcpConn) : Call → Option Event
  | .connect _ _ _ _ => none
  | .send id data now => if id = i then some (.send data now) else none
  | .close id now => if id = i then some (.close now) else none
  | .handleSegment src payload =>
    (TcpHeader.parse payload).bind fun p =>
      if conn.ends = (p.1.dstPort, src, p.1.srcPort) then some (.segment p.1 p.2.1 p.2.2)
      else none
  | .read id n => if id = i then some (.read n) else none
  | .tick now => some (.tick now)

theorem Call.eventFor_congr (h : conn'.ends = conn.ends) (i : Fin maxConns) :
    Call.eventFor i conn' = Call.eventFor i conn := by
  funext c
  cases c <;> simp [Call.eventFor, h]

/-- The connection after an event, if there is one; `none` if it leaves the table. -/
def TcpConn.served (conn : TcpConn) : Option Event → Option TcpConn
  | none => some conn
  | some e => (conn.step e).map Prod.snd

variable {t t' : Table} {c : Call} {id : ℕ}

/-- A call that opens no connection: each one there has its event, and the free slots stay free. -/
structure Table.Serves (c : Call) (t t' : Table) : Prop where
  next : t'.nextEphemeral = t.nextEphemeral
  slot : ∀ {i conn}, t.conns i = some conn → t'.conns i = conn.served (c.eventFor i conn)
  free : ∀ {i}, t.conns i = none → t'.conns i = none

namespace Table

/-- A call that makes one connection take a step and names no other. -/
theorem Serves.setConn (hconn : t.conn? id = some conn) (hstep : conn.step e = some (bytes, conn'))
    (hthis : ∀ i : Fin maxConns, i.val = id → c.eventFor i conn = some e)
    (hother : ∀ {i : Fin maxConns} {other}, i.val ≠ id → t.conns i = some other →
      c.eventFor i other = none) : Serves c t (t.setConn id conn') := by
  refine ⟨rfl, fun {i other} hi => ?_, fun {i} hi => ?_⟩
  · rw [conns_setConn]
    by_cases hid : i.val = id
    · cases hi.symm.trans (conns_of_conn? hconn hid)
      rw [if_pos hid, hthis i hid, TcpConn.served, hstep]
      rfl
    · rw [if_neg hid, hother hid hi, hi]
      rfl
  · rw [conns_setConn, if_neg, hi]
    intro hid
    cases hi.symm.trans (conns_of_conn? hconn hid)

theorem setConn_self (hconn : t.conn? id = some conn) : t.setConn id conn = t := by
  refine congrArg (fun conns => { t with conns := conns }) (funext fun i => ?_)
  split
  · rename_i hid
    exact (conns_of_conn? hconn hid).symm
  · rfl

/-- A call that names a connection: it is a step of this one, if it is there. -/
theorem Serves.named (hevent : ∀ i other, c.eventFor i other = if id = i.val then some e else none)
    (habsent : t.conn? id = none → t' = t)
    (hcall : ∀ conn, t.conn? id = some conn →
      ∃ bytes conn', conn.step e = some (bytes, conn') ∧ t' = t.setConn id conn') :
    Serves c t t' := by
  cases hconn : t.conn? id with
  | none =>
    obtain rfl := habsent hconn
    refine ⟨rfl, fun {i other} hi => ?_, fun hi => hi⟩
    rw [hevent, if_neg, hi]
    · rfl
    · rintro rfl
      rw [conn?, dif_pos i.isLt, hi] at hconn
      cases hconn
  | some conn =>
    obtain ⟨bytes, conn', hstep, rfl⟩ := hcall conn hconn
    refine .setConn hconn hstep (fun i hi => ?_) fun {i other} hne _ => ?_
    · rw [hevent, if_pos hi.symm]
    · rw [hevent, if_neg (Ne.symm hne)]

theorem serves_send {data : List UInt8} {now : ℕ}
    (h : after (Tcp.send id data now t) = some t') : Serves (.send id data now) t t' := by
  unfold Tcp.send at h
  refine .named (e := .send data now) (fun _ _ => rfl) (fun hnone => ?_) fun conn hconn => ?_
  · rw [hnone] at h
    split at h <;> exact (Option.some.inj h).symm
  rw [hconn] at h
  split at h
  · -- An empty buffer ends the call before the connection is looked at.
    rename_i hdata
    refine ⟨[], conn, ?_, by rw [setConn_self hconn]; exact (Option.some.inj h).symm⟩
    rw [hdata, TcpConn.step, TcpConn.send]
    split <;> rfl
  dsimp only at h
  rw [TcpConn.step]
  cases hsend : conn.send data now with
  | error err =>
    rw [hsend] at h
    cases err with
    | error err => exact ⟨[], conn, rfl, by rw [setConn_self hconn]; exact (Option.some.inj h).symm⟩
    | panic => cases h
  | ok r =>
    rw [hsend] at h
    exact ⟨[], r.2, rfl, (Option.some.inj h).symm⟩

theorem serves_close {now : ℕ} (h : after (Tcp.close id now t) = some t') :
    Serves (.close id now) t t' := by
  unfold Tcp.close at h
  refine .named (e := .close now) (fun _ _ => rfl) (fun hnone => ?_) fun conn hconn => ?_
  · rw [hnone] at h
    exact (Option.some.inj h).symm
  rw [hconn] at h
  dsimp only at h
  rw [TcpConn.step]
  cases hclose : conn.close now with
  | error err =>
    rw [hclose] at h
    cases err with
    | error err => exact ⟨[], conn, rfl, by rw [setConn_self hconn]; exact (Option.some.inj h).symm⟩
    | panic => cases h
  | ok r =>
    rw [hclose] at h
    exact ⟨[], r.2, rfl, (Option.some.inj h).symm⟩

theorem serves_read {n : ℕ} (h : after (Tcp.read id n t) = some t') : Serves (.read id n) t t' := by
  unfold Tcp.read at h
  refine .named (e := .read n) (fun _ _ => rfl) (fun hnone => ?_) fun conn hconn => ?_
  · rw [hnone] at h
    exact (Option.some.inj h).symm
  · rw [hconn] at h
    exact ⟨(conn.read n).1, (conn.read n).2, rfl, (Option.some.inj h).symm⟩

theorem serves_tick (t : Table) (now : ℕ) : Serves (.tick now) t (t.ticked now) := by
  refine ⟨rfl, fun {i conn} hi => ?_, fun {i} hi => ?_⟩
  · change (t.conns i).bind _ = ((conn.step (.tick now)).map Prod.snd)
    rw [hi, Option.bind_some, TcpConn.step]
    split <;> rfl
  · change (t.conns i).bind _ = none
    rw [hi]
    rfl

/-- No two connections use the same local port, and the next port to try is in the range. -/
structure Sound (t : Table) : Prop where
  ports : ∀ {i j conn conn'}, t.conns i = some conn → t.conns j = some conn' →
    conn.localPort = conn'.localPort → i = j
  next : 49152 ≤ t.nextEphemeral.toNat ∧ t.nextEphemeral.toNat ≤ 65000

/-- A segment goes to the one connection between its endpoints. -/
theorem Sound.serves_handleSegment (ht : t.Sound) {src : Ip} {payload : List UInt8}
    (h : after (Tcp.handleSegment src payload t) = some t') :
    Serves (.handleSegment src payload) t t' := by
  unfold Tcp.handleSegment at h
  cases hparse : TcpHeader.parse payload with
  | none =>
    rw [hparse] at h
    obtain rfl := Option.some.inj h
    refine ⟨rfl, fun hi => ?_, fun hi => hi⟩
    rw [Call.eventFor, hparse, hi]
    rfl
  | some p =>
    obtain ⟨hdr, options, data⟩ := p
    have hevent (i : Fin maxConns) (conn : TcpConn) :
        Call.eventFor i conn (.handleSegment src payload) =
          if conn.ends = (hdr.dstPort, src, hdr.srcPort) then some (.segment hdr options data)
          else none := by
      rw [Call.eventFor, hparse]
      rfl
    rw [hparse] at h
    dsimp only at h
    cases hfind : t.findMut hdr.dstPort src hdr.srcPort with
    | none =>
      rw [hfind] at h
      obtain rfl := Option.some.inj h
      refine ⟨rfl, fun {i conn} hi => ?_, fun hi => hi⟩
      have hnot := List.find?_eq_none.mp hfind i (List.mem_finRange i)
      rw [hi, Option.any_some, TcpConn.matches_iff] at hnot
      rw [hevent, if_neg hnot, hi]
      rfl
    | some k =>
      have hk := List.find?_some hfind
      cases hconn : t.conns k with
      | none =>
        rw [hconn] at hk
        cases hk
      | some conn =>
        rw [hconn, Option.any_some, TcpConn.matches_iff] at hk
        rw [hfind] at h
        dsimp only at h
        rw [hconn] at h
        obtain rfl := Option.some.inj h
        have hget : t.conn? k.val = some conn := by rwa [conn?, dif_pos k.isLt]
        refine .setConn (e := .segment hdr options data) hget rfl (fun i _ => ?_)
          fun {i other} hne hi => ?_
        · rw [hevent, if_pos hk]
        · rw [hevent, if_neg]
          intro hends
          exact hne (congrArg Fin.val
            (ht.ports hi hconn (congrArg Prod.fst (hends.trans hk.symm))))

/-! ## Local ports -/

/-- The port that is tried after `p`. -/
def nextPort (p : UInt16) : UInt16 := if 65000 ≤ p then 49152 else p + 1

theorem toNat_nextPort {p : UInt16} (hp : p.toNat ≤ 65000) :
    (nextPort p).toNat = if 65000 ≤ p.toNat then 49152 else p.toNat + 1 := by
  have hle : 65000 ≤ p ↔ 65000 ≤ p.toNat := UInt16.le_iff_toNat_le
  unfold nextPort
  by_cases h : 65000 ≤ p.toNat
  · rw [if_pos h, if_pos (hle.mpr h)]
    rfl
  · rw [if_neg h, if_neg fun hp => h (hle.mp hp), UInt16.toNat_add]
    exact Nat.mod_eq_of_lt (by change p.toNat + 1 < 65536; omega)

/-- The ports tried in turn go round the range. -/
theorem toNat_iterate_nextPort {p : UInt16} (hp : 49152 ≤ p.toNat ∧ p.toNat ≤ 65000) (k : ℕ) :
    (nextPort^[k] p).toNat = 49152 + (p.toNat - 49152 + k) % 15849 := by
  induction k with
  | zero =>
    rw [Function.iterate_zero_apply]
    omega
  | succ k ih =>
    rw [Function.iterate_succ_apply', toNat_nextPort (by omega), ih]
    split <;> omega

theorem allocPortLoop_succ (fuel : ℕ) :
    t.allocPortLoop (fuel + 1) =
      if t.inUse t.nextEphemeral then
        allocPortLoop fuel { t with nextEphemeral := nextPort t.nextEphemeral }
      else (t.nextEphemeral, { t with nextEphemeral := nextPort t.nextEphemeral }) := rfl

/-- A port that is tried and not in use is found. -/
theorem allocPortLoop_unused {fuel j : ℕ} (hj : j < fuel)
    (hfree : t.inUse (nextPort^[j] t.nextEphemeral) = false) :
    t.inUse (t.allocPortLoop fuel).1 = false := by
  induction fuel generalizing t j with
  | zero => exact absurd hj (Nat.not_lt_zero j)
  | succ fuel ih =>
    rw [allocPortLoop_succ]
    cases hused : t.inUse t.nextEphemeral with
    | false => exact hused
    | true =>
      cases j with
      | zero => cases hfree.symm.trans hused
      | succ j =>
        exact ih (t := { t with nextEphemeral := nextPort t.nextEphemeral })
          (Nat.lt_of_succ_lt_succ hj) hfree

theorem next_allocPortLoop (fuel : ℕ)
    (h : 49152 ≤ t.nextEphemeral.toNat ∧ t.nextEphemeral.toNat ≤ 65000) :
    49152 ≤ (t.allocPortLoop fuel).2.nextEphemeral.toNat ∧
      (t.allocPortLoop fuel).2.nextEphemeral.toNat ≤ 65000 := by
  induction fuel generalizing t with
  | zero => exact h
  | succ fuel ih =>
    have hnext : 49152 ≤ (nextPort t.nextEphemeral).toNat ∧
        (nextPort t.nextEphemeral).toNat ≤ 65000 := by
      rw [toNat_nextPort h.2]
      split <;> omega
    rw [allocPortLoop_succ]
    split
    · exact ih (t := { t with nextEphemeral := nextPort t.nextEphemeral }) hnext
    · exact hnext

/-- Of nine ports in turn one is free, since there are eight connections. -/
theorem exists_unused (h : 49152 ≤ t.nextEphemeral.toNat ∧ t.nextEphemeral.toNat ≤ 65000) :
    ∃ j < 9, t.inUse (nextPort^[j] t.nextEphemeral) = false := by
  by_contra hnone
  have hused (j : Fin 9) : ∃ (i : Fin maxConns) (conn : TcpConn), t.conns i = some conn ∧
      conn.localPort = nextPort^[j.val] t.nextEphemeral := by
    have hj : t.inUse (nextPort^[j.val] t.nextEphemeral) = true := by
      cases hcase : t.inUse (nextPort^[j.val] t.nextEphemeral) with
      | true => rfl
      | false => exact absurd ⟨j.val, j.isLt, hcase⟩ hnone
    obtain ⟨i, -, hi⟩ := List.any_eq_true.mp hj
    obtain ⟨conn, hconn, hport⟩ := (Option.any_eq_true _ _).mp hi
    exact ⟨i, conn, hconn, of_decide_eq_true hport⟩
  choose slot conn hconn hport using hused
  obtain ⟨j, k, hne, hslot⟩ := Fintype.exists_ne_map_eq_of_card_lt slot (by decide)
  have hsame : conn j = conn k := by
    have hj := hconn j
    rw [hslot, hconn k] at hj
    exact (Option.some.inj hj).symm
  have hports := congrArg UInt16.toNat ((hport j).symm.trans ((congrArg _ hsame).trans (hport k)))
  rw [toNat_iterate_nextPort h, toNat_iterate_nextPort h] at hports
  exact hne (Fin.ext (by have := j.isLt; have := k.isLt; omega))

/-! ## Steps and runs -/

/-- `connect` finds no slot, or opens a connection with a port of its own. -/
theorem Sound.connect_cases (ht : t.Sound) {remoteIp : Ip} {remotePort : UInt16} {peerMac : Mac}
    {now : ℕ} (h : after (Tcp.connect remoteIp remotePort peerMac now t) = some t') :
    (49152 ≤ t'.nextEphemeral.toNat ∧ t'.nextEphemeral.toNat ≤ 65000) ∧
      (t'.conns = t.conns ∨ ∃ k localPort iss, t.conns k = none ∧ t.inUse localPort = false ∧
        t'.conns = fun i => if i = k then
          some (TcpConn.opening localPort remoteIp remotePort peerMac iss now) else t.conns i) := by
  obtain ⟨j, hj, hfree⟩ := exists_unused ht.next
  have hunused := allocPortLoop_unused (Nat.lt_trans hj (by decide : 9 < 1024)) hfree
  have hnext := next_allocPortLoop 1024 ht.next
  have hport := t.allocPortLoop_conns 1024
  unfold Tcp.connect at h
  simp only [allocPort] at h
  generalize t.allocPortLoop 1024 = r at h hport hunused hnext
  obtain ⟨localPort, t₁⟩ := r
  simp only [nextIsn] at h hport
  split at h
  · obtain rfl := Option.some.inj h
    exact ⟨hnext, .inl hport⟩
  · rename_i k hk
    obtain rfl := Option.some.inj h
    refine ⟨hnext, .inr ⟨k, localPort, UInt32.ofNat now * 64 + (t₁.isnCounter + 0x9E3779B9),
      ?_, hunused, funext fun i => ?_⟩⟩
    · rw [← hport]
      simpa [alloc] using List.find?_some hk
    · rw [conns_setConn, hport]
      simp only [Fin.ext_iff]

/-- What a call does to a slot: a connection has the event that the call is for it, and one is
opened only by `connect`, in a free slot. -/
structure Moves (c : Call) (t t' : Table) : Prop where
  slot : ∀ {i conn}, t.conns i = some conn → t'.conns i = conn.served (c.eventFor i conn)
  opened : ∀ {i conn}, t.conns i = none → t'.conns i = some conn →
    ∃ localPort remoteIp remotePort peerMac iss now, c = .connect remoteIp remotePort peerMac now ∧
      conn = TcpConn.opening localPort remoteIp remotePort peerMac iss now

theorem Sound.of_serves (ht : t.Sound) (h : Serves c t t') : t'.Sound ∧ Moves c t t' := by
  have hback {i : Fin maxConns} {conn' : TcpConn} (hi : t'.conns i = some conn') :
      ∃ conn, t.conns i = some conn ∧ conn'.localPort = conn.localPort := by
    cases hconn : t.conns i with
    | none => cases (h.free hconn).symm.trans hi
    | some conn =>
      refine ⟨conn, rfl, ?_⟩
      have hslot := (h.slot hconn).symm.trans hi
      cases hevent : c.eventFor i conn with
      | none =>
        rw [hevent] at hslot
        exact congrArg TcpConn.localPort (Option.some.inj hslot).symm
      | some e =>
        rw [hevent] at hslot
        obtain ⟨⟨bytes, last⟩, hstep, rfl⟩ := Option.map_eq_some_iff.mp hslot
        exact congrArg Prod.fst (TcpConn.ends_step hstep)
  refine ⟨⟨fun hi hj hport => ?_, h.next ▸ ht.next⟩, h.slot, fun hi hconn => ?_⟩
  · obtain ⟨conn, hconn, heq⟩ := hback hi
    obtain ⟨other, hother, heq'⟩ := hback hj
    exact ht.ports hconn hother (heq.symm.trans (hport.trans heq'))
  · cases (h.free hi).symm.trans hconn

theorem Sound.connect (ht : t.Sound) {remoteIp : Ip} {remotePort : UInt16} {peerMac : Mac}
    {now : ℕ} (h : after (Tcp.connect remoteIp remotePort peerMac now t) = some t') :
    t'.Sound ∧ Moves (.connect remoteIp remotePort peerMac now) t t' := by
  obtain ⟨hnext, hsame | ⟨k, localPort, iss, hk, hunused, hconns⟩⟩ := ht.connect_cases h
  · refine ⟨⟨fun hi hj => ?_, hnext⟩, fun hi => ?_, fun hi hconn => ?_⟩
    · rw [hsame] at hi hj
      exact ht.ports hi hj
    · rw [hsame, hi]
      rfl
    · rw [hsame, hi] at hconn
      cases hconn
  have hnew {i : Fin maxConns} {conn : TcpConn} (hi : t.conns i = some conn) :
      conn.localPort ≠ localPort := by
    intro hport
    have hused : t.inUse localPort = true :=
      List.any_eq_true.mpr ⟨i, List.mem_finRange i, by rw [hi]; simpa using hport⟩
    exact absurd (hunused.symm.trans hused) (by decide)
  refine ⟨⟨fun {i j conn conn'} hi hj hport => ?_, hnext⟩, fun {i conn} hi => ?_,
    fun {i conn} hi hconn => ?_⟩
  · rw [hconns] at hi hj
    dsimp only at hi hj
    by_cases hik : i = k
    · by_cases hjk : j = k
      · rw [hik, hjk]
      · rw [if_pos hik] at hi
        rw [if_neg hjk] at hj
        cases hi
        exact absurd hport.symm (hnew hj)
    · by_cases hjk : j = k
      · rw [if_neg hik] at hi
        rw [if_pos hjk] at hj
        cases hj
        exact absurd hport (hnew hi)
      · rw [if_neg hik] at hi
        rw [if_neg hjk] at hj
        exact ht.ports hi hj hport
  · have hik : i ≠ k := by
      rintro rfl
      cases hk.symm.trans hi
    rw [hconns]
    dsimp only
    rw [if_neg hik, hi]
    rfl
  · rw [hconns] at hconn
    dsimp only at hconn
    by_cases hik : i = k
    · rw [if_pos hik] at hconn
      exact ⟨localPort, remoteIp, remotePort, peerMac, iss, now, rfl, (Option.some.inj hconn).symm⟩
    · rw [if_neg hik, hi] at hconn
      cases hconn

theorem Sound.step (ht : t.Sound) (h : t.step c = some t') : t'.Sound ∧ Moves c t t' := by
  cases c with
  | connect remoteIp remotePort peerMac now => exact ht.connect h
  | send id data now => exact ht.of_serves (serves_send h)
  | close id now => exact ht.of_serves (serves_close h)
  | handleSegment src payload => exact ht.of_serves (ht.serves_handleSegment h)
  | read id n => exact ht.of_serves (serves_read h)
  | tick now =>
    obtain rfl := Option.some.inj ((tick_after t now).symm.trans h)
    exact ht.of_serves (serves_tick t now)

/-- The connection in the slot was there before the calls and has had its own events, or one of the
calls opened it and it has had its own events since. -/
theorem Sound.run (ht : t.Sound) {calls : List Call} (h : calls.foldlM Table.step t = some t')
    {i : Fin maxConns} {conn : TcpConn} (hconn : t'.conns i = some conn) :
    (∃ first out, t.conns i = some first ∧ first.ends = conn.ends ∧
      first.run (calls.filterMap (Call.eventFor i conn)) = some (out, conn)) ∨
    ∃ before later remoteIp remotePort peerMac now t₀ localPort iss out,
      calls = before ++ .connect remoteIp remotePort peerMac now :: later ∧
      before.foldlM Table.step t = some t₀ ∧ t₀.conns i = none ∧
      (TcpConn.opening localPort remoteIp remotePort peerMac iss now).run
        (later.filterMap (Call.eventFor i conn)) = some (out, conn) := by
  induction calls generalizing t with
  | nil =>
    obtain rfl := Option.some.inj h
    exact .inl ⟨conn, [], hconn, rfl, rfl⟩
  | cons c calls ih =>
    rw [List.foldlM_cons] at h
    obtain ⟨mid, hmid, hrest⟩ := Option.bind_eq_some_iff.mp h
    obtain ⟨hsound, hmoves⟩ := ht.step hmid
    rcases ih hsound hrest with ⟨first, out, hfirst, hends, hrun⟩ |
      ⟨before, later, remoteIp, remotePort, peerMac, now, t₀, localPort, iss, out, rfl, hbefore,
        hrun⟩
    · cases hold : t.conns i with
      | none =>
        obtain ⟨localPort, remoteIp, remotePort, peerMac, iss, now, rfl, rfl⟩ :=
          hmoves.opened hold hfirst
        exact .inr ⟨[], calls, remoteIp, remotePort, peerMac, now, t, localPort, iss, out, rfl, rfl,
          hold, hrun⟩
      | some old =>
        have hslot := (hmoves.slot hold).symm.trans hfirst
        cases hevent : c.eventFor i old with
        | none =>
          rw [hevent] at hslot
          obtain rfl := Option.some.inj hslot
          rw [← Call.eventFor_congr hends] at hrun
          refine .inl ⟨old, out, rfl, hends, ?_⟩
          rw [← Call.eventFor_congr hends, List.filterMap_cons_none hevent]
          exact hrun
        | some e =>
          rw [hevent] at hslot
          obtain ⟨⟨bytes, last⟩, hstep, rfl⟩ := Option.map_eq_some_iff.mp hslot
          have hends' : old.ends = conn.ends := (TcpConn.ends_step hstep).symm.trans hends
          refine .inl ⟨old, bytes ++ out, rfl, hends', ?_⟩
          rw [← Call.eventFor_congr hends', List.filterMap_cons_some hevent,
            Call.eventFor_congr hends', TcpConn.run, hstep, Option.bind_some, hrun]
          rfl
    · refine .inr ⟨c :: before, later, remoteIp, remotePort, peerMac, now, t₀, localPort, iss, out,
        rfl, ?_, hrun⟩
      rw [List.foldlM_cons]
      exact Option.bind_eq_some_iff.mpr ⟨mid, hmid, hbefore⟩

end Table

/-- In every table that calls lead to, the state of a connection is the one that it reaches on its
own: a call of `connect` found its slot free and opened it, and since then exactly the calls that
name the slot, the segments between its endpoints and the timer were its events. -/
theorem connection_isolated {calls : List Call} {t : Table}
    (h : calls.foldlM Table.step Table.new = some t) {i : Fin maxConns} {conn : TcpConn}
    (hconn : t.conns i = some conn) :
    ∃ before later remoteIp remotePort peerMac now t₀ localPort iss out,
      calls = before ++ .connect remoteIp remotePort peerMac now :: later ∧
      before.foldlM Table.step Table.new = some t₀ ∧ t₀.conns i = none ∧
      (TcpConn.opening localPort remoteIp remotePort peerMac iss now).run
        (later.filterMap (Call.eventFor i conn)) = some (out, conn) := by
  have hnew : Table.new.Sound := by
    refine ⟨fun hi => ?_, by decide⟩
    cases hi
  rcases hnew.run h hconn with ⟨first, out, hfirst, -⟩ | hopened
  · cases hfirst
  · exact hopened

/-- Two connections to one server; the first is read from and the second is closed. -/
theorem connection_isolated_two :
    ∃ (t : Table) (conn first : TcpConn) (later : List Call) (out : List UInt8),
      [.connect (.replicate 4 1) 80 (.replicate 6 2) 0,
        .connect (.replicate 4 1) 80 (.replicate 6 2) 0, .read 0 5,
        .close 1 3].foldlM Table.step Table.new = some t ∧ t.conns 0 = some conn ∧
      first.run (later.filterMap (Call.eventFor 0 conn)) = some (out, conn) := by
  obtain ⟨_, later, _, _, _, _, _, _, _, out, -, -, -, hrun⟩ :=
    connection_isolated (show [.connect (.replicate 4 1) 80 (.replicate 6 2) 0,
      .connect (.replicate 4 1) 80 (.replicate 6 2) 0, .read 0 5,
      .close 1 3].foldlM Table.step Table.new = some _ from rfl) (i := 0) rfl
  exact ⟨_, _, _, later, out, rfl, rfl, hrun⟩

end RacOS.Net.Tcp
