import RacOS.Net.Loopback

/-!
# Failed connects

What is left of a `connect` on a loopback socket that fails.  All checks but one come before the
first change.  The check of the listener's queue comes last, when the client already has a port and
a peer and the socket of the other side is in the table.
-/

namespace RacOS.Net

open Program

/-- The socket that `connect` finds listening on a port. -/
def NetState.listenerOn (st : NetState) (port : UInt16) : Option ℕ :=
  Slots.find (fun sock => sock.listening && sock.localPort == some port) st.sockets

/-- The sockets that a connect of a client concerns are as they were: the client, the queues of all
listeners, and which sockets there are.  Trying again is the same as trying for the first time. -/
structure Untouched (pid : ℕ) (fd : ℤ) (port : UInt16) (st st' : NetState) : Prop where
  client : ∀ b, st.binding pid fd = some b →
    Slots.get st'.sockets b.sid = Slots.get st.sockets b.sid
  queues : ∀ sid sock, Slots.get st.sockets sid = some sock → sock.listening = true →
    (Slots.get st'.sockets sid).map Socket.pending = some sock.pending
  allocated : ∀ sid, (Slots.get st'.sockets sid).isSome = (Slots.get st.sockets sid).isSome
  retry : connect pid fd port st' = connect pid fd port st

/-- A connect that fails leaves nothing behind. -/
def FailsCleanly (pid : ℕ) (fd : ℤ) (port : UInt16) (st : NetState) : Prop :=
  ∀ e st', connect pid fd port st = .error e st' → Untouched pid fd port st st'

/-- A client that could be connected finds room in the queue of the listener. -/
def RoomInBacklog (pid : ℕ) (fd : ℤ) (port : UInt16) (st : NetState) : Prop :=
  ∀ b client sid listener, st.binding pid fd = some b → Slots.get st.sockets b.sid = some client →
    client.peer = none → client.listening = false →
    st.listenerOn port = some sid → Slots.get st.sockets sid = some listener →
    listener.pending.length < listener.backlog

variable {pid : ℕ} {fd : ℤ} {port : UInt16} {st : NetState}

theorem allocSid_run (sock : Socket) (st : NetState) :
    allocSid sock st =
      .ok (Slots.firstEmpty st.sockets) { st with sockets := Slots.place sock st.sockets } := rfl

/-- The client keeps everything but its port, and no other socket changes. -/
theorem ensurePort_run {sid : ℕ} {client : Socket} (h : Slots.get st.sockets sid = some client) :
    ∃ st₁ local₁, ensurePort sid client st = .ok () st₁ ∧
      Slots.get st₁.sockets sid = some { client with localPort := local₁ } ∧
      ∀ i, i ≠ sid → Slots.get st₁.sockets i = Slots.get st.sockets i := by
  by_cases hport : client.localPort = none
  · obtain ⟨eph, next, heph⟩ := ephemeralFrom_run 4096 st
    have hget : Slots.get { st with nextEphemeralPort := next }.sockets sid = some client := h
    refine ⟨{ st with
      sockets := Slots.modify sid (fun client => { client with localPort := some eph }) st.sockets
      nextEphemeralPort := next }, some eph, ?_, ?_, ?_⟩
    · rw [ensurePort, if_pos hport, allocEphemeral, bind_of_ok heph, socketMut_run hget]
    · simp [Slots.get_modify, h]
    · intro i hi
      simp [Slots.get_modify, Ne.symm hi]
  · exact ⟨st, client.localPort, by rw [ensurePort, if_neg hport]; rfl, h, fun _ _ => rfl⟩

/-- The sockets with a new one in the table, which is the peer of the client. -/
def pairUp (clientSid : ℕ) (port : UInt16) (sockets : List (Option Socket)) :
    List (Option Socket) :=
  Slots.modify clientSid (fun client => { client with peer := some (Slots.firstEmpty sockets) })
    (Slots.modify (Slots.firstEmpty sockets)
      (fun server => { server with localPort := some port, peer := some clientSid })
      (Slots.place (Socket.new AF_INET SOCK_STREAM 0) sockets))

theorem get_pairUp {clientSid sid : ℕ} {sockets : List (Option Socket)} {sock : Socket}
    (h : Slots.get sockets sid = some sock) :
    Slots.get (pairUp clientSid port sockets) sid =
      some (if clientSid = sid then { sock with peer := some (Slots.firstEmpty sockets) }
        else sock) := by
  rw [pairUp, Slots.get_modify, Slots.get_modify, if_neg (Slots.ne_firstEmpty h).symm,
    Slots.get_place_of_get _ h]
  split <;> rfl

/-- The part of `connect` that makes the pair, with whatever comes after it. -/
theorem pairUp_run {α : Type} {clientSid : ℕ} {client : Socket}
    (h : Slots.get st.sockets clientSid = some client) (rest : ℕ → NetM α) :
    (do
      let serverSid ← allocSid (Socket.new AF_INET SOCK_STREAM 0)
      socketMut serverSid fun server =>
        { server with localPort := some port, peer := some clientSid }
      socketMut clientSid fun client => { client with peer := some serverSid }
      rest serverSid) st =
      rest (Slots.firstEmpty st.sockets)
        { st with sockets := pairUp clientSid port st.sockets } := by
  have hclient : Slots.get (Slots.modify (Slots.firstEmpty st.sockets)
      (fun server => { server with localPort := some port, peer := some clientSid })
      (Slots.place (Socket.new AF_INET SOCK_STREAM 0) st.sockets)) clientSid = some client := by
    rw [Slots.get_modify, if_neg (Slots.ne_firstEmpty h).symm, Slots.get_place_of_get _ h]
  rw [bind_of_ok (allocSid_run _ st), bind_of_ok (socketMut_run (Slots.get_place_self _ _)),
    bind_of_ok (socketMut_run hclient)]
  rfl

/-- A client that can be connected is connected before the queue is checked. -/
theorem connect_of_ready {b : FdBinding} {client listener : Socket} {sid : ℕ}
    (hb : st.binding pid fd = some b) (hclient : Slots.get st.sockets b.sid = some client)
    (hpeer : client.peer = none) (hquiet : client.listening = false)
    (hfind : st.listenerOn port = some sid) (hsid : Slots.get st.sockets sid = some listener)
    (hlistening : listener.listening = true) :
    ∃ st₂ st₃, ((Slots.get st₂.sockets b.sid).bind Socket.peer).isSome ∧
      connect pid fd port st =
        if listener.pending.length < listener.backlog then .ok () st₃ else .error .Again st₂ := by
  obtain ⟨st₁, local₁, hrun, hclient₁, hother⟩ := ensurePort_run hclient
  have hne : sid ≠ b.sid := by
    rintro rfl
    rw [hclient, Option.some.injEq] at hsid
    rw [hsid, hlistening] at hquiet
    cases hquiet
  have hsid₁ : Slots.get st₁.sockets sid = some listener := (hother sid hne).trans hsid
  -- the state in which the queue is checked
  have hgetSid : Slots.get (pairUp b.sid port st₁.sockets) sid = some listener := by
    rw [get_pairUp hsid₁, if_neg hne.symm]
  have hgetClient : (Slots.get (pairUp b.sid port st₁.sockets) b.sid).bind Socket.peer =
      some (Slots.firstEmpty st₁.sockets) := by
    rw [get_pairUp hclient₁, if_pos rfl]
    rfl
  refine ⟨{ st₁ with sockets := pairUp b.sid port st₁.sockets },
    { st₁ with
      sockets := Slots.modify sid
        (fun listener =>
          { listener with pending := listener.pending ++ [Slots.firstEmpty st₁.sockets] })
        (pairUp b.sid port st₁.sockets) },
    by rw [hgetClient]; rfl, ?_⟩
  rw [NetState.listenerOn] at hfind
  rw [connect, bind_of_ok (sidByFd_run hb), get_bind_run, hfind]
  dsimp only
  rw [bind_of_ok (socketRef_run hclient), require_bind_run, if_pos ⟨hpeer, hquiet⟩,
    bind_of_ok hrun, pairUp_run hclient₁, bind_of_ok (socketRef_run hgetSid), require_bind_run,
    socketMut_run hgetSid]

/-- Whatever else stops a connect stops it before anything is changed. -/
theorem connect_of_not_ready
    (h : ∀ b client sid, st.binding pid fd = some b → Slots.get st.sockets b.sid = some client →
      client.peer = none → client.listening = false → st.listenerOn port = some sid → False) :
    ∃ e, connect pid fd port st = .error e st := by
  cases hb : st.binding pid fd with
  | none =>
    refine ⟨.BadFd, bind_of_error ?_⟩
    rw [sidByFd, get_bind_run, hb]
    rfl
  | some b =>
    rw [connect, bind_of_ok (sidByFd_run hb), get_bind_run]
    cases hfind : st.listenerOn port with
    | none =>
      rw [NetState.listenerOn] at hfind
      rw [hfind]
      exact ⟨.ConnRefused, rfl⟩
    | some sid =>
      cases hclient : Slots.get st.sockets b.sid with
      | none =>
        rw [NetState.listenerOn] at hfind
        rw [hfind]
        refine ⟨.BadFd, bind_of_error ?_⟩
        rw [socketRef, get_bind_run, hclient]
        rfl
      | some client =>
        have hready : ¬(client.peer = none ∧ client.listening = false) := fun hready =>
          h b client sid hb hclient hready.1 hready.2 hfind
        rw [NetState.listenerOn] at hfind
        rw [hfind]
        dsimp only
        rw [bind_of_ok (socketRef_run hclient), require_bind_run, if_neg hready]
        exact ⟨.Inval, rfl⟩

theorem listenerOn_spec {sid : ℕ} (h : st.listenerOn port = some sid) :
    ∃ listener, Slots.get st.sockets sid = some listener ∧ listener.listening = true := by
  obtain ⟨listener, hget, hp, -⟩ := Slots.find_eq_some h
  rw [Bool.and_eq_true] at hp
  exact ⟨listener, hget, hp.1⟩

theorem untouched_self : Untouched pid fd port st st where
  client _ _ := rfl
  queues _ _ h _ := by rw [h]; rfl
  allocated _ := rfl
  retry := rfl

/-- A client that finds the queue full has got a peer by then. -/
theorem roomInBacklog_of_failsCleanly (hclean : FailsCleanly pid fd port st) :
    RoomInBacklog pid fd port st := by
  intro b client sid listener hb hclient hpeer hquiet hfind hsid
  by_contra hfull
  obtain ⟨listener', hsid', hlistening⟩ := listenerOn_spec hfind
  obtain rfl : listener = listener' := Option.some.inj (hsid.symm.trans hsid')
  obtain ⟨st₂, st₃, hpeer₂, hrun⟩ :=
    connect_of_ready hb hclient hpeer hquiet hfind hsid hlistening
  rw [if_neg hfull] at hrun
  have huntouched := hclean .Again st₂ hrun
  rw [huntouched.client b hb, hclient, Option.bind_some, hpeer] at hpeer₂
  cases hpeer₂

/-- A failed connect leaves nothing behind exactly when the failure is not that of a full queue. -/
theorem connect_fails_cleanly_iff (pid : ℕ) (fd : ℤ) (port : UInt16) (st : NetState) :
    FailsCleanly pid fd port st ↔ RoomInBacklog pid fd port st := by
  constructor
  · exact roomInBacklog_of_failsCleanly
  · intro hroom e st' herror
    by_cases hready : ∀ b client sid, st.binding pid fd = some b →
        Slots.get st.sockets b.sid = some client → client.peer = none →
        client.listening = false → st.listenerOn port = some sid → False
    · obtain ⟨e', hrun⟩ := connect_of_not_ready hready
      rw [hrun] at herror
      cases herror
      exact untouched_self
    · push Not at hready
      obtain ⟨b, client, sid, hb, hclient, hpeer, hquiet, hfind, -⟩ := hready
      obtain ⟨listener, hsid, hlistening⟩ := listenerOn_spec hfind
      obtain ⟨st₂, st₃, -, hrun⟩ :=
        connect_of_ready hb hclient hpeer hquiet hfind hsid hlistening
      rw [if_pos (hroom b client sid listener hb hclient hpeer hquiet hfind hsid), herror] at hrun
      cases hrun

/-- A listener on port 80 whose queue of one is full, and a client that is not connected. -/
def fullListener : NetState where
  sockets :=
    [some { Socket.new AF_INET SOCK_STREAM 0 with
      localPort := some 80, listening := true, backlog := 1, pending := [1] },
     some { Socket.new AF_INET SOCK_STREAM 0 with localPort := some 80 },
     some (Socket.new AF_INET SOCK_STREAM 0)]
  bindings := [⟨1, 3, 0⟩, ⟨2, 3, 2⟩]
  nextEphemeralPort := 49152

/-- The client is refused with a new peer and a new socket in the table, and is told that it is
connected already when it tries again. -/
theorem connect_leaves_peer : outcome (connect 2 3 80) fullListener = .error .Again ∧
    (Slots.get (final (connect 2 3 80) fullListener).sockets 2).bind Socket.peer = some 3 ∧
    (final (connect 2 3 80) fullListener).sockets.length = 4 ∧
    outcome (connect 2 3 80) (final (connect 2 3 80) fullListener) = .error .Inval ∧
    ¬FailsCleanly 2 3 80 fullListener := by
  refine ⟨by decide +kernel, by decide +kernel, by decide +kernel, by decide +kernel, ?_⟩
  intro hclean
  have hroom : 1 < 1 := roomInBacklog_of_failsCleanly hclean ⟨2, 3, 2⟩
    (Socket.new AF_INET SOCK_STREAM 0) 0 _ rfl rfl rfl rfl rfl rfl
  exact absurd hroom (Nat.lt_irrefl 1)

end RacOS.Net
