import RacOS.Net.Tcp

/-!
# Runs of the TCP stack

A connection in the table is changed by incoming segments, by the calls made on
it and by the timer.  `TcpConn.step` is one such event, `TcpConn.run` a sequence
of them together with the bytes handed to the reader on the way.  `Table.step` is a
call on the table.
-/

namespace RacOS.Net.Tcp

/-! ## Events at one connection -/

inductive Event
  | segment (hdr : TcpHeader) (options data : List UInt8)
  | send (data : List UInt8) (now : ℕ)
  | close (now : ℕ)
  | read (n : ℕ)
  | tick (now : ℕ)
  deriving DecidableEq

/-- The connection after a call on it, which a failing call leaves as it was;
`none` after a panic. -/
def TcpConn.settle (conn : TcpConn) :
    Except (Failure TcpError) (List Segment × TcpConn) → Option TcpConn
  | .ok r => some r.2
  | .error (.error _) => some conn
  | .error .panic => none

/-- The bytes an event hands to the reader and the connection after it; `none` if
the system panics or the connection leaves the table. -/
def TcpConn.step (conn : TcpConn) : Event → Option (List UInt8 × TcpConn)
  | .segment hdr options data => some ([], (processSegment conn hdr options data).2)
  | .send data now => (conn.settle (conn.send data now)).map fun c => ([], c)
  | .close now => (conn.settle (conn.close now)).map fun c => ([], c)
  | .read n => some (conn.read n)
  | .tick now => if conn.state = .closed then none else some ([], (conn.tick now).2)

section Steps

variable {conn conn' : TcpConn} {out : List UInt8} {now : ℕ}

theorem TcpConn.step_send {data : List UInt8} (h : conn.step (.send data now) = some (out, conn')) :
    out = [] ∧
      ((∃ e, conn.send data now = .error (.error e)) ∧ conn' = conn ∨
        ∃ segments, conn.state = .established ∧ conn.send data now = .ok (segments, conn') ∧
          conn.sendLoop now data.length data = some (segments, conn')) := by
  obtain ⟨c, hsettle, heq⟩ := Option.map_eq_some_iff.mp h
  obtain ⟨rfl, rfl⟩ := Prod.mk.inj heq
  refine ⟨rfl, ?_⟩
  unfold TcpConn.send at hsettle ⊢
  split at hsettle
  · rename_i hest
    obtain rfl := Option.some.inj hsettle
    exact .inl ⟨⟨_, if_pos hest⟩, rfl⟩
  · rename_i hest
    rw [if_neg hest]
    split at hsettle
    · cases hsettle
    · rename_i r hloop
      obtain rfl := Option.some.inj hsettle
      exact .inr ⟨r.1, not_not.mp hest, rfl, hloop⟩

theorem TcpConn.step_close (h : conn.step (.close now) = some (out, conn')) :
    out = [] ∧
      ((∃ e, conn.close now = .error (.error e)) ∧ conn' = conn ∨
        (conn.state = .established ∨ conn.state = .closeWait) ∧
          conn' = { conn with
            pending := conn.pending ++ [finSegment conn.sndNxt now]
            sndNxt := conn.sndNxt + 1
            state := if conn.state = .established then .finWait1 else .lastAck } ∧
          conn.close now = .ok
            ([conn.frame (finSegment conn.sndNxt now) (Flag.fin ||| Flag.ack) none], conn')) := by
  obtain ⟨c, hsettle, heq⟩ := Option.map_eq_some_iff.mp h
  obtain ⟨rfl, rfl⟩ := Prod.mk.inj heq
  refine ⟨rfl, ?_⟩
  unfold TcpConn.close at hsettle ⊢
  split at hsettle
  · rename_i hst
    obtain rfl := Option.some.inj hsettle
    exact .inl ⟨⟨_, if_pos hst⟩, rfl⟩
  · rename_i hst
    obtain rfl := Option.some.inj hsettle
    refine .inr ⟨?_, rfl, if_neg hst⟩
    rwa [not_and_or, not_not, not_not] at hst

theorem TcpConn.step_tick (h : conn.step (.tick now) = some (out, conn')) :
    conn.state ≠ .closed ∧ out = [] ∧ conn' = (conn.tick now).2 := by
  change (if conn.state = .closed then _ else _) = _ at h
  split at h
  · cases h
  · rename_i hclosed
    obtain ⟨rfl, rfl⟩ := Prod.mk.inj (Option.some.inj h)
    exact ⟨hclosed, rfl, rfl⟩

end Steps

/-- All bytes handed to the reader along a sequence of events, and the connection
after it. -/
def TcpConn.run : TcpConn → List Event → Option (List UInt8 × TcpConn)
  | conn, [] => some ([], conn)
  | conn, e :: es =>
    (conn.step e).bind fun r =>
      (run r.2 es).map fun r' => (r.1 ++ r'.1, r'.2)

/-- Every event of the sequence meets `P` at the connection it finds. -/
def TcpConn.Meets (P : TcpConn → Event → Prop) : TcpConn → List Event → Prop
  | _, [] => True
  | conn, e :: es => P conn e ∧ ∀ out conn', conn.step e = some (out, conn') → Meets P conn' es

variable {e : Event} {es : List Event}

theorem TcpConn.run_cons {conn conn' : TcpConn} {out : List UInt8}
    (h : conn.run (e :: es) = some (out, conn')) :
    ∃ bytes mid rest, conn.step e = some (bytes, mid) ∧
      mid.run es = some (rest, conn') ∧ out = bytes ++ rest := by
  obtain ⟨⟨bytes, mid⟩, hstep, hmap⟩ := Option.bind_eq_some_iff.mp h
  obtain ⟨⟨rest, last⟩, hrun, heq⟩ := Option.map_eq_some_iff.mp hmap
  obtain ⟨rfl, rfl⟩ := Prod.mk.inj heq
  exact ⟨bytes, mid, rest, hstep, hrun, rfl⟩

/-- What every event keeps that meets `P` holds at the end of a run of such
events. -/
theorem TcpConn.run_invariant {P : TcpConn → Event → Prop} {I : TcpConn → List UInt8 → Prop}
    (hstep : ∀ {conn out e bytes conn'}, I conn out → P conn e →
      conn.step e = some (bytes, conn') → I conn' (out ++ bytes)) :
    ∀ {conn conn' : TcpConn} (out : List UInt8) {bytes : List UInt8}, I conn out →
      conn.Meets P es → conn.run es = some (bytes, conn') → I conn' (out ++ bytes) := by
  induction es with
  | nil =>
    intro conn conn' out bytes hI _ hrun
    obtain ⟨rfl, rfl⟩ := Prod.mk.inj (Option.some.inj hrun)
    rwa [List.append_nil]
  | cons e es ih =>
    intro conn conn' out bytes hI hmeets hrun
    obtain ⟨first, mid, rest, hfirst, hrest, rfl⟩ := TcpConn.run_cons hrun
    rw [← List.append_assoc]
    exact ih _ (hstep hI hmeets.1 hfirst) (hmeets.2 first mid hfirst) hrest

/-- A connection some sequence of events leads to. -/
def Reached (conn : TcpConn) : Prop :=
  ∃ localPort remoteIp remotePort peerMac iss now es out,
    (TcpConn.opening localPort remoteIp remotePort peerMac iss now).run es = some (out, conn)

theorem TcpConn.meets_true {conn : TcpConn} : conn.Meets (fun _ _ => True) es := by
  induction es generalizing conn with
  | nil => trivial
  | cons e es ih => exact ⟨trivial, fun _ _ _ => ih⟩

/-- What holds of a fresh connection and is kept by every event holds of every
connection reached. -/
theorem Reached.invariant {I : TcpConn → Prop}
    (hopen : ∀ localPort remoteIp remotePort peerMac iss now,
      I (TcpConn.opening localPort remoteIp remotePort peerMac iss now))
    (hstep : ∀ {conn e bytes conn'}, I conn → conn.step e = some (bytes, conn') →
      I conn') {conn : TcpConn} (h : Reached conn) : I conn := by
  obtain ⟨localPort, remoteIp, remotePort, peerMac, iss, now, es, out, hrun⟩ := h
  exact TcpConn.run_invariant (I := fun c _ => I c) (P := fun _ _ => True)
    (fun hI _ hs => hstep hI hs) []
    (hopen localPort remoteIp remotePort peerMac iss now) TcpConn.meets_true hrun

/-! ## Calls on the table -/

inductive Call
  | connect (remoteIp : Ip) (remotePort : UInt16) (peerMac : Mac) (now : ℕ)
  | send (id : ℕ) (data : List UInt8) (now : ℕ)
  | close (id : ℕ) (now : ℕ)
  | handleSegment (src : Ip) (payload : List UInt8)
  | read (id n : ℕ)
  | tick (now : ℕ)

/-- The table in which a call ends, unless the system panics. -/
def after {α : Type} : EStateM.Result (Failure TcpError) Table α → Option Table
  | .ok _ t => some t
  | .error (.error _) t => some t
  | .error .panic _ => none

def Table.step (t : Table) : Call → Option Table
  | .connect remoteIp remotePort peerMac now =>
    after (Tcp.connect remoteIp remotePort peerMac now t)
  | .send id data now => after (Tcp.send id data now t)
  | .close id now => after (Tcp.close id now t)
  | .handleSegment src payload => after (Tcp.handleSegment src payload t)
  | .read id n => after (Tcp.read id n t)
  | .tick now => after (Tcp.tick now t)

variable {t t' : Table}

theorem Table.conns_setConn (t : Table) (id : ℕ) (conn : TcpConn) (i : Fin maxConns) :
    (t.setConn id conn).conns i = if i.val = id then some conn else t.conns i := rfl

variable {id : ℕ}

theorem Table.conns_of_conn? {conn : TcpConn} {i : Fin maxConns} (h : t.conn? id = some conn)
    (hi : i.val = id) : t.conns i = some conn := by
  subst hi
  rwa [Table.conn?, dif_pos i.isLt] at h

theorem Table.allocPortLoop_conns (fuel : ℕ) (t : Table) :
    (t.allocPortLoop fuel).2.conns = t.conns := by
  induction fuel generalizing t with
  | zero => rfl
  | succ fuel ih =>
    simp only [allocPortLoop]
    rw [apply_ite Prod.snd, apply_ite Table.conns, ih, ite_self]

/-- The slots of a table after the timer. -/
def Table.ticked (t : Table) (now : ℕ) : Table :=
  { t with
    conns := fun i => (t.conns i).bind fun conn =>
      if conn.state = .closed then none else some (conn.tick now).2 }

theorem tick_after (t : Table) (now : ℕ) : after (Tcp.tick now t) = some (t.ticked now) := by
  refine congrArg some (congrArg (fun conns => { t with conns := conns }) ?_)
  funext i
  cases hconn : t.conns i with
  | none => simp [hconn]
  | some conn =>
    by_cases hclosed : conn.state = .closed
    · simp [hconn, hclosed]
    · simp [hconn, hclosed]

/-- The tables that calls lead to. -/
inductive Table.Reachable : Table → Prop
  | new : Table.Reachable Table.new
  | step {t t' : Table} {c : Call} (ht : Table.Reachable t) (h : t.step c = some t') :
      Table.Reachable t'

end RacOS.Net.Tcp
