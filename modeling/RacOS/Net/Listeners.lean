import RacOS.Lib.Runs
import RacOS.Lib.Triples
import RacOS.Net.Loopback

/-!
# One listener on a port

A port belongs to the socket that listens on it: there is at most one among
the sockets that a process still holds, and a port on which none of them
listens can be bound.  `bind` refuses a port on which a socket listens, but
`listen` makes no such check, and a socket keeps listening after its
descriptor is closed.  The calls that avoid both keep ports to their owners.
-/

namespace RacOS.Net

open Program

/-! ## What the port table should give -/

/-- Some process holds the socket. -/
def Live (st : NetState) (sid : ℕ) : Prop := ∃ b ∈ st.bindings, b.sid = sid

/-- At most one live socket listens on a port. -/
def OneListener (st : NetState) : Prop :=
  ∀ (port : UInt16) (i j : ℕ) (a b : Socket), Live st i → Live st j →
    Slots.get st.sockets i = some a → Slots.get st.sockets j = some b →
    a.listensOn port = true → b.listensOn port = true → i = j

/-- A port on which no live socket listens can be bound. -/
def Rebindable (st : NetState) : Prop :=
  ∀ port : UInt16,
    (∀ i a, Live st i → Slots.get st.sockets i = some a → a.listensOn port = false) →
    ∀ (pid : ℕ) (fd : ℤ), st.binding pid fd ≠ none → outcome (bind pid fd port) st = .ok ()

/-- The socket behind a descriptor. -/
def NetState.socketOf (st : NetState) (pid : ℕ) (fd : ℤ) : Option Socket :=
  (st.binding pid fd).bind fun b => Slots.get st.sockets b.sid

/-- `listen` is called on a port that is not in use yet, and `close` on a
socket that does not listen. -/
def Careful : SocketCall → NetState → Prop
  | .listen pid fd _, st =>
    ∀ sock ∈ st.socketOf pid fd, sock.listening = true ∨
      ∀ port ∈ sock.localPort, st.isPortInUse port = false
  | .close pid fd, st => ∀ sock ∈ st.socketOf pid fd, sock.listening = false
  | _, _ => True

instance (c : SocketCall) (st : NetState) : Decidable (Careful c st) :=
  match c with
  | .listen pid fd _ =>
    have (sock : Socket) : Decidable (∀ port ∈ sock.localPort, st.isPortInUse port = false) :=
      Option.decidableForallMem sock.localPort
    Option.decidableForallMem (st.socketOf pid fd)
  | .close pid fd => Option.decidableForallMem (st.socketOf pid fd)
  | .socket .. | .bind .. | .connect .. | .accept .. | .send .. | .recv .. | .shutdown .. =>
    isTrue trivial

/-! ## The invariant -/

/-- Descriptors and queues name sockets of the table, a listening socket is
held by some process, and no two sockets listen on one port. -/
structure Sound (st : NetState) : Prop where
  bound : ∀ b ∈ st.bindings, Slots.get st.sockets b.sid ≠ none
  queued : ∀ i sock, Slots.get st.sockets i = some sock →
    ∀ sid ∈ sock.pending, Slots.get st.sockets sid ≠ none
  held : ∀ i sock, Slots.get st.sockets i = some sock → sock.listening = true → Live st i
  alone : ∀ i j a b, Slots.get st.sockets i = some a →
    Slots.get st.sockets j = some b → a.listening = true → b.listening = true →
    a.localPort = b.localPort → i = j

variable {st : NetState}

theorem isPortInUse_eq_false_iff {port : UInt16} :
    st.isPortInUse port = false ↔
      ∀ i sock, Slots.get st.sockets i = some sock → sock.listensOn port = false := by
  constructor
  · intro h i sock hget
    have hi := Slots.lt_length_of_get hget
    have hitem : st.sockets[i] = some sock := by
      simpa [Slots.get, List.getElem?_eq_getElem hi] using hget
    have := List.any_eq_false.mp h _ (List.getElem_mem hi)
    simpa [hitem] using this
  · intro h
    refine List.any_eq_false.mpr fun slot hslot => ?_
    obtain ⟨i, hi, rfl⟩ := List.mem_iff_getElem.mp hslot
    cases hitem : st.sockets[i] with
    | none => simp
    | some sock =>
      have := h i sock (by simp [Slots.get, List.getElem?_eq_getElem hi, hitem])
      simp [this]

theorem listensOn_iff {sock : Socket} {port : UInt16} :
    sock.listensOn port = true ↔ sock.localPort = some port ∧ sock.listening = true := by
  simp [Socket.listensOn]

theorem binding_mem {pid : ℕ} {fd : ℤ} {b : FdBinding}
    (h : st.binding pid fd = some b) : b ∈ st.bindings :=
  List.mem_of_find?_eq_some h

variable {sid : ℕ} {f : Socket → Socket}

namespace Sound

theorem new : Sound NetState.new where
  bound _ h := absurd h (List.not_mem_nil)
  queued i _ h := by simp [NetState.new] at h
  held i _ h := by simp [NetState.new] at h
  alone i _ _ _ h := by simp [NetState.new] at h

theorem oneListener (h : Sound st) : OneListener st := by
  intro port i j a b _ _ hi hj ha hb
  obtain ⟨hpa, hla⟩ := listensOn_iff.mp ha
  obtain ⟨hpb, hlb⟩ := listensOn_iff.mp hb
  exact h.alone i j a b hi hj hla hlb (hpa.trans hpb.symm)

theorem rebindable (h : Sound st) : Rebindable st := by
  intro port hfree pid fd hbound
  have huse : st.isPortInUse port = false := by
    refine isPortInUse_eq_false_iff.mpr fun i sock hget => ?_
    by_contra hne
    have hlisten := (Bool.not_eq_false _).mp hne
    have hlive := h.held i sock hget (listensOn_iff.mp hlisten).2
    exact hne (hfree i sock hlive hget)
  obtain ⟨b, hb⟩ := Option.ne_none_iff_exists'.mp hbound
  obtain ⟨sock, hsock⟩ := Option.ne_none_iff_exists'.mp (h.bound b (binding_mem hb))
  rw [outcome, bind, get_bind_run, require_bind_run, if_pos huse,
    bind_of_ok (sidByFd_run hb), socketMut_run hsock]

/-- Changing one socket keeps the invariant when its queue names sockets of
the table and when, if it then listens, it is live and alone on its port. -/
theorem modify (h : Sound st) (hqueue : ∀ a, Slots.get st.sockets sid = some a →
      ∀ p ∈ (f a).pending, Slots.get st.sockets p ≠ none)
    (hlisten : ∀ a, Slots.get st.sockets sid = some a →
      (f a).listening = true → Live st sid ∧
        ∀ j b, j ≠ sid → Slots.get st.sockets j = some b →
          b.listening = true → b.localPort ≠ (f a).localPort) :
    Sound { st with sockets := Slots.modify sid f st.sockets } := by
  have hsome : ∀ i, Slots.get st.sockets i ≠ none →
      Slots.get (Slots.modify sid f st.sockets) i ≠ none := by
    intro i hi
    rw [Slots.get_modify]
    split
    · simpa using hi
    · exact hi
  -- a socket of the new table is the changed one or an old one
  have hcases : ∀ i a, Slots.get (Slots.modify sid f st.sockets) i = some a →
      (i = sid ∧ ∃ a₀, Slots.get st.sockets sid = some a₀ ∧ f a₀ = a) ∨
        (i ≠ sid ∧ Slots.get st.sockets i = some a) := by
    intro i a hget
    rw [Slots.get_modify] at hget
    by_cases hi : sid = i
    · subst hi
      rw [if_pos rfl, Option.map_eq_some_iff] at hget
      exact .inl ⟨rfl, hget⟩
    · rw [if_neg hi] at hget
      exact .inr ⟨fun heq => hi heq.symm, hget⟩
  refine ⟨fun b hb => hsome _ (h.bound b hb), ?_, ?_, ?_⟩
  · intro i a hget p hp
    rcases hcases i a hget with ⟨-, a₀, hold, rfl⟩ | ⟨-, hold⟩
    · exact hsome p (hqueue a₀ hold p hp)
    · exact hsome p (h.queued i a hold p hp)
  · intro i a hget hl
    rcases hcases i a hget with ⟨rfl, a₀, hold, rfl⟩ | ⟨-, hold⟩
    · exact (hlisten a₀ hold hl).1
    · exact h.held i a hold hl
  · intro i j a b hi hj hla hlb hport
    rcases hcases i a hi with ⟨rfl, a₀, holdi, rfl⟩ | ⟨hne, holdi⟩ <;>
      rcases hcases j b hj with ⟨rfl, b₀, holdj, rfl⟩ | ⟨hnej, holdj⟩
    · rfl
    · exact absurd hport.symm ((hlisten a₀ holdi hla).2 j b hnej holdj hlb)
    · exact absurd hport ((hlisten b₀ holdj hlb).2 i a hne holdi hla)
    · exact h.alone i j a b holdi holdj hla hlb hport

/-- A change that makes no socket listen and moves no listener. -/
theorem modify_quiet (h : Sound st) (hqueue : ∀ a, Slots.get st.sockets sid = some a →
      ∀ p ∈ (f a).pending, Slots.get st.sockets p ≠ none)
    (hlisten : ∀ a, Slots.get st.sockets sid = some a →
      (f a).listening = true → a.listening = true ∧ (f a).localPort = a.localPort) :
    Sound { st with sockets := Slots.modify sid f st.sockets } := by
  refine h.modify hqueue fun a hget hl => ?_
  obtain ⟨hla, hport⟩ := hlisten a hget hl
  refine ⟨h.held sid a hget hla, fun j b hne hj hlb heq => hne ?_⟩
  exact h.alone j sid b a hj hget hlb hla (heq.trans hport)

theorem place (h : Sound st) {sock : Socket} (hlisten : sock.listening = false)
    (hqueue : sock.pending = []) : Sound { st with sockets := Slots.place sock st.sockets } := by
  have hsome : ∀ i, Slots.get st.sockets i ≠ none →
      Slots.get (Slots.place sock st.sockets) i ≠ none := by
    intro i hi
    obtain ⟨a, ha⟩ := Option.ne_none_iff_exists'.mp hi
    simp [Slots.get_place_of_get sock ha]
  refine ⟨fun b hb => hsome _ (h.bound b hb), ?_, ?_, ?_⟩
  · intro i a hget p hp
    rcases Slots.get_place_cases hget with ⟨-, rfl⟩ | hold
    · simp [hqueue] at hp
    · exact hsome p (h.queued i a hold p hp)
  · intro i a hget hl
    rcases Slots.get_place_cases hget with ⟨-, rfl⟩ | hold
    · simp [hlisten] at hl
    · exact h.held i a hold hl
  · intro i j a b hi hj hla hlb hport
    rcases Slots.get_place_cases hi with ⟨-, rfl⟩ | holdi
    · simp [hlisten] at hla
    · rcases Slots.get_place_cases hj with ⟨-, rfl⟩ | holdj
      · simp [hlisten] at hlb
      · exact h.alone i j a b holdi holdj hla hlb hport

theorem bindFd (h : Sound st) {pid : ℕ} {fd : ℤ} (hsid : Slots.get st.sockets sid ≠ none) :
    Sound { st with bindings := st.bindings ++ [⟨pid, fd, sid⟩] } := by
  refine ⟨?_, h.queued, ?_, h.alone⟩
  · intro b hb
    rcases List.mem_append.mp hb with hb | hb
    · exact h.bound b hb
    · rw [List.mem_singleton.mp hb]
      exact hsid
  · intro i sock hget hl
    obtain ⟨b, hb, rfl⟩ := h.held i sock hget hl
    exact ⟨b, List.mem_append_left _ hb, rfl⟩

end Sound

/-! ## Reading the tables -/

variable (pid : ℕ) (fd : ℤ)

section Tables

variable {P : NetState → Prop} {Q : Unit → NetState → Prop}

theorem triple_sidByFd :
    Triple P (sidByFd pid fd)
      (fun sid st => P st ∧ ∃ b, st.binding pid fd = some b ∧ b.sid = sid) P := by
  intro st hst
  cases h : st.binding pid fd with
  | some b => simpa [sidByFd_run h] using ⟨hst, b, h, rfl⟩
  | none =>
    have hrun : sidByFd pid fd st = .error .BadFd st := by
      rw [sidByFd, get_bind_run, h]
      rfl
    simpa [hrun] using hst

theorem triple_socketRef (sid : ℕ) :
    Triple P (socketRef sid)
      (fun sock st => P st ∧ Slots.get st.sockets sid = some sock) P := by
  intro st hst
  cases h : Slots.get st.sockets sid with
  | some sock => simpa [socketRef_run h] using ⟨hst, h⟩
  | none =>
    have hrun : socketRef sid st = .error .BadFd st := by
      rw [socketRef, get_bind_run, h]
      rfl
    simpa [hrun] using hst

theorem triple_socketMut {E : NetState → Prop} (hE : ∀ st, P st → E st)
    (hQ : ∀ st a, P st → Slots.get st.sockets sid = some a →
      Q () { st with sockets := Slots.modify sid f st.sockets }) :
    Triple P (socketMut sid f) Q E := by
  refine ((triple_socketRef sid).bind fun a => Triple.modify ?_).mono_error hE
  exact fun st ⟨hst, hget⟩ => hQ st a hst hget

end Tables

/-! ## Calls that keep ports to their owners -/

/-- A change of one socket that touches neither its queue nor its port, and
does not make it listen. -/
theorem maintains_socketMut (hqueue : ∀ a, (f a).pending = a.pending)
    (hlisten : ∀ a, (f a).listening = a.listening) (hport : ∀ a, (f a).localPort = a.localPort) :
    Maintains Sound (socketMut sid f) := by
  refine triple_socketMut (fun _ h => h) fun st a h hget => ?_
  refine h.modify_quiet (fun a hget p hp => ?_) fun a _ hl => ?_
  · exact h.queued sid a hget p (hqueue a ▸ hp)
  · exact ⟨hlisten a ▸ hl, hport a⟩

theorem maintains_shutdownSid (sid : ℕ) (how : ℤ) : Maintains Sound (shutdownSid sid how) := by
  refine Triple.require_bind (fun _ h => h) fun _ => ?_
  refine Triple.bind (maintains_socketMut (fun _ => rfl) (fun _ => rfl)
    (fun _ => rfl)) fun _ => ?_
  refine (triple_socketRef sid).bind fun sock => ?_
  refine Triple.ite (fun _ => ?_) fun _ => Triple.pure fun _ h => h.1
  cases sock.peer with
  | none => exact Triple.pure fun _ h => h.1
  | some psid =>
    exact Triple.ignore (Maintains.weaken (maintains_socketMut (fun _ => rfl)
      (fun _ => rfl) (fun _ => rfl)) fun _ h => h.1)

theorem maintains_allocFdForSocket (pid : ℕ) (newFd : Option ℤ) (sid : ℕ) :
    Triple (fun st => Sound st ∧ Slots.get st.sockets sid ≠ none)
      (allocFdForSocket pid newFd sid) (fun _ => Sound) Sound := by
  cases newFd with
  | none => exact Triple.pure fun _ h => h.1
  | some fd => exact fun _ h => Sound.bindFd h.1 h.2

theorem triple_allocSid (sock : Socket) (hlisten : sock.listening = false)
    (hqueue : sock.pending = []) :
    Triple Sound (allocSid sock)
      (fun sid st => Sound st ∧ Slots.get st.sockets sid = some sock) Sound := by
  intro st h
  exact ⟨h.place hlisten hqueue, Slots.get_place_self sock st.sockets⟩

theorem maintains_bind (port : UInt16) : Maintains Sound (bind pid fd port) := by
  refine Triple.get_bind fun st₀ _ => ?_
  refine Triple.require_bind (fun _ h => h.1) fun huse => ?_
  refine ((triple_sidByFd pid fd).mono_error fun _ h => h.1).bind fun sid => ?_
  refine triple_socketMut (fun _ h => h.1.1) ?_
  rintro st a ⟨⟨h, rfl⟩, -⟩ -
  refine h.modify (fun a hget => h.queued sid a hget) fun a hget hl => ?_
  refine ⟨h.held sid a hget hl, fun j b _ hj hlb heq => ?_⟩
  have hfalse := isPortInUse_eq_false_iff.mp huse j b hj
  rw [listensOn_iff.mpr ⟨heq, hlb⟩] at hfalse
  exact Bool.noConfusion hfalse

theorem sound_listen (pid : ℕ) (fd backlog : ℤ) :
    Triple (fun st => Sound st ∧ Careful (.listen pid fd backlog) st)
      (listen pid fd backlog) (fun _ => Sound) Sound := by
  refine ((triple_sidByFd pid fd).mono_error fun _ h => h.1).bind fun sid => ?_
  refine ((triple_socketRef sid).mono_error fun _ h => h.1.1).bind fun sock => ?_
  refine Triple.require_bind (fun _ h => h.1.1.1) fun hbound => ?_
  obtain ⟨port, hport⟩ := Option.ne_none_iff_exists'.mp hbound
  refine triple_socketMut (fun _ h => h.1.1.1) ?_
  rintro st - ⟨⟨⟨h, hcare⟩, b, hb, rfl⟩, hsock⟩ -
  refine h.modify (fun a hget => h.queued b.sid a hget) fun a hget _ => ?_
  refine ⟨⟨b, binding_mem hb, rfl⟩, fun j other hne hj hlisten heq => ?_⟩
  obtain rfl : sock = a := Option.some.inj (hsock.symm.trans hget)
  have hof : sock ∈ st.socketOf pid fd := by
    simp [NetState.socketOf, hb, hsock]
  rcases hcare sock hof with hl | hfree
  · exact hne (h.alone j b.sid other sock hj hsock hlisten hl heq)
  · have hfalse := isPortInUse_eq_false_iff.mp (hfree port hport) j other hj
    rw [listensOn_iff.mpr ⟨heq.trans hport, hlisten⟩] at hfalse
    exact Bool.noConfusion hfalse

theorem maintains_accept :
    Triple Sound (accept pid fd)
      (fun sid st => Sound st ∧ Slots.get st.sockets sid ≠ none) Sound := by
  refine ((triple_sidByFd pid fd).mono_error fun _ h => h).bind fun listener => ?_
  refine ((triple_socketRef listener).mono_error fun _ h => h.1).bind fun sock => ?_
  refine Triple.require_bind (fun _ h => h.1.1) fun _ => ?_
  cases hpending : sock.pending with
  | nil => exact Triple.throw fun _ h => h.1.1
  | cons sid rest =>
    refine Triple.bind (triple_socketMut (fun _ h => h.1.1) ?_) fun _ =>
      Triple.pure fun _ h => h
    rintro st - ⟨⟨h, -⟩, hsock⟩ -
    have hqueue := h.queued listener sock hsock
    rw [hpending] at hqueue
    constructor
    · refine h.modify_quiet (fun a hget p hp => ?_) fun a _ hl => ⟨hl, rfl⟩
      exact hqueue p (List.mem_cons_of_mem sid hp)
    · rw [Slots.get_modify]
      have := hqueue sid List.mem_cons_self
      split
      · simpa using this
      · exact this

theorem maintains_send (data : List UInt8) :
    Maintains Sound (send pid fd data) := by
  refine (triple_sidByFd pid fd).bind fun sid => ?_
  refine ((triple_socketRef sid).mono_error fun _ h => h.1).bind fun sock => ?_
  refine Triple.require_bind (fun _ h => h.1.1) fun _ => ?_
  cases sock.peer with
  | none => exact Triple.throw fun _ h => h.1.1
  | some peerSid =>
    refine ((triple_socketRef peerSid).mono_error fun _ h => h.1.1).bind
      fun peer => ?_
    refine Triple.require_bind (fun _ h => h.1.1.1) fun _ => ?_
    refine Triple.bind (Maintains.weaken (maintains_socketMut (fun _ => rfl)
      (fun _ => rfl) (fun _ => rfl)) fun _ h => h.1.1.1) fun _ => ?_
    exact Triple.pure fun _ h => h

theorem maintains_recv (len : ℕ) : Maintains Sound (recv pid fd len) := by
  refine (triple_sidByFd pid fd).bind fun sid => ?_
  refine ((triple_socketRef sid).mono_error fun _ h => h.1).bind fun sock => ?_
  refine Triple.ite (fun _ => Triple.pure fun _ h => h.1.1) fun _ => ?_
  refine Triple.ite (fun _ => ?_) fun _ => ?_
  · exact Triple.ite (fun _ => Triple.pure fun _ h => h.1.1)
      fun _ => Triple.throw fun _ h => h.1.1
  · refine Triple.bind (Maintains.weaken (maintains_socketMut (fun _ => rfl)
      (fun _ => rfl) (fun _ => rfl)) fun _ h => h.1.1) fun _ => ?_
    exact Triple.pure fun _ h => h

theorem triple_ensurePort {client : Socket} (hlisten : client.listening = false) :
    Triple (fun st => Sound st ∧ Slots.get st.sockets sid = some client)
      (ensurePort sid client) (fun _ => Sound) Sound := by
  refine Triple.ite (fun _ => ?_) fun _ => Triple.pure fun _ h => h.1
  have heph : Triple
      (fun st => Sound st ∧ Slots.get st.sockets sid = some client)
      allocEphemeral
      (fun _ st => Sound st ∧ Slots.get st.sockets sid = some client) Sound := by
    intro st ⟨h, hget⟩
    obtain ⟨port, next, hrun⟩ := ephemeralFrom_run 4096 st
    rw [allocEphemeral, hrun]
    exact ⟨⟨h.bound, h.queued, h.held, h.alone⟩, hget⟩
  refine heph.bind fun eph => triple_socketMut (fun _ h => h.1) ?_
  rintro st - ⟨h, hclient⟩ -
  refine h.modify_quiet (fun a hget => h.queued sid a hget) fun a hget hl => ?_
  obtain rfl : client = a := Option.some.inj (hclient.symm.trans hget)
  simp [hlisten] at hl

theorem maintains_connect (port : UInt16) :
    Maintains Sound (connect pid fd port) := by
  refine ((triple_sidByFd pid fd).mono_error fun _ h => h).bind fun clientSid => ?_
  refine Triple.get_bind fun st₀ _ => ?_
  cases Slots.find (fun sock => sock.listening && sock.localPort == some port)
      st₀.sockets with
  | none => exact Triple.throw fun _ h => h.1.1
  | some listenerSid =>
    refine ((triple_socketRef clientSid).mono_error fun _ h => h.1.1).bind
      fun client => ?_
    refine Triple.require_bind (fun _ h => h.1.1.1) fun hclient => ?_
    refine Triple.bind ((triple_ensurePort hclient.2).mono
      (fun st h => ⟨h.1.1.1, h.2⟩) fun _ _ h => h) fun _ => ?_
    refine (triple_allocSid _ rfl rfl).bind fun serverSid => ?_
    -- the new end is in the table from here on
    let J : NetState → Prop := fun st =>
      Sound st ∧ Slots.get st.sockets serverSid ≠ none
    have hserver : ∀ {st : NetState} (f : Socket → Socket) (sid : ℕ),
        Slots.get st.sockets serverSid ≠ none →
          Slots.get (Slots.modify sid f st.sockets) serverSid ≠ none := by
      intro st f sid hne
      rw [Slots.get_modify]
      split
      · simpa using hne
      · exact hne
    refine Triple.bind (Q := fun _ => J) (triple_socketMut (fun _ h => h.1) ?_)
      fun _ => ?_
    · rintro st a ⟨h, hnew⟩ -
      refine ⟨h.modify_quiet (fun a hget => h.queued serverSid a hget) ?_,
        hserver _ _ (by simp [hnew])⟩
      intro a hget hl
      obtain rfl := Option.some.inj (hnew.symm.trans hget)
      simp [Socket.new] at hl
    refine Triple.bind (Q := fun _ => J) (triple_socketMut (fun _ h => h.1) ?_)
      fun _ => ?_
    · rintro st a ⟨h, hnew⟩ -
      exact ⟨h.modify_quiet (fun a hget => h.queued clientSid a hget)
        fun a _ hl => ⟨hl, rfl⟩, hserver _ _ hnew⟩
    refine ((triple_socketRef listenerSid).mono_error fun _ h => h.1).bind
      fun listener => ?_
    refine Triple.require_bind (fun _ h => h.1.1) fun _ => ?_
    refine triple_socketMut (fun _ h => h.1.1) ?_
    rintro st - ⟨⟨h, hnew⟩, -⟩ -
    refine h.modify_quiet (fun a hget p hp => ?_) fun a _ hl => ⟨hl, rfl⟩
    rcases List.mem_append.mp hp with hp | hp
    · exact h.queued listenerSid a hget p hp
    · rw [List.mem_singleton.mp hp]
      exact hnew

theorem sound_close :
    Triple (fun st => Sound st ∧ Careful (.close pid fd) st)
      (closeFd pid fd) (fun _ => Sound) Sound := by
  refine Triple.get_bind fun st₀ _ => ?_
  cases hb : st₀.binding pid fd with
  | none => exact Triple.pure fun _ h => h.1.1
  | some b =>
    refine Triple.bind (Q := fun _ => Sound) (Triple.modify ?_) fun _ =>
      Triple.ignore (maintains_shutdownSid b.sid 2)
    rintro st ⟨⟨h, hcare⟩, rfl⟩
    refine ⟨fun c hc => h.bound c (mem_of_mem_swapRemove hc), h.queued, ?_, h.alone⟩
    intro i sock hget hl
    obtain ⟨c, hc, rfl⟩ := h.held i sock hget hl
    have hlt : (st.bindings.findIdx fun b => b.pid == pid && b.fd == fd) < st.bindings.length :=
      List.findIdx_lt_length_of_exists
        ⟨b, binding_mem hb, by simpa using List.find?_some hb⟩
    refine ⟨c, mem_swapRemove_of_ne hlt hc fun heq => ?_, rfl⟩
    -- the binding removed is not the one of a listening socket
    have hfirst : st.binding pid fd = some c :=
      List.find?_eq_getElem?_findIdx.trans heq
    have := hcare sock (by simp [NetState.socketOf, hfirst, hget])
    simp [hl] at this

/-- One call that is careful keeps ports to their owners. -/
theorem sound_step (c : SocketCall) (st : NetState) (h : Sound st)
    (hc : Careful c st) : Sound (c.step st) := by
  cases c with
  | socket pid newFd domain stype protocol =>
    refine Maintains.final (Triple.bind (Triple.require_bind (fun _ h => h)
      fun _ => triple_allocSid _ rfl rfl) fun sid => ?_) h
    exact (maintains_allocFdForSocket pid newFd sid).mono
      (fun st h => ⟨h.1, by simp [h.2]⟩) fun _ _ h => h
  | bind pid fd port => exact (maintains_bind pid fd port).final h
  | listen pid fd backlog => exact (sound_listen pid fd backlog).final ⟨h, hc⟩
  | connect pid fd port => exact (maintains_connect pid fd port).final h
  | accept pid fd newFd =>
    exact Maintains.final (Triple.bind (maintains_accept pid fd) fun sid =>
      maintains_allocFdForSocket pid newFd sid) h
  | send pid fd data =>
    exact Maintains.final (Triple.bind (maintains_send pid fd data) fun _ =>
      Triple.pure fun _ h => h) h
  | recv pid fd len =>
    exact Maintains.final (Triple.bind (maintains_recv pid fd len) fun _ =>
      Triple.pure fun _ h => h) h
  | shutdown pid fd how =>
    exact Maintains.final ((triple_sidByFd pid fd).bind fun sid =>
      Maintains.weaken (maintains_shutdownSid sid how) fun _ h => h.1) h
  | close pid fd => exact (sound_close pid fd).final ⟨h, hc⟩

/-- After every run of careful calls a port has at most one live listener, and
a port without one can be bound. -/
theorem ports_owned_of_careful (calls : List SocketCall)
    (h : Runs.Along SocketCall.step Careful calls NetState.new) :
    OneListener (Runs.run SocketCall.step calls NetState.new) ∧
      Rebindable (Runs.run SocketCall.step calls NetState.new) := by
  have hsound := Runs.invariant_of_along (I := Sound) sound_step Sound.new h
  exact ⟨hsound.oneListener, hsound.rebindable⟩

/-- A listener, and a second socket that is kept from its port. -/
theorem ports_owned_of_one_listener :
    let calls := [SocketCall.socket 1 (some 3) 2 1 0, .bind 1 3 80, .listen 1 3 8,
      .socket 1 (some 4) 2 1 0, .bind 1 4 80, .connect 1 4 80, .close 1 4]
    Runs.Along SocketCall.step Careful calls NetState.new ∧
      OneListener (Runs.run SocketCall.step calls NetState.new) := by
  intro calls
  have h : Runs.Along SocketCall.step Careful calls NetState.new := by
    decide +kernel
  exact ⟨h, (ports_owned_of_careful calls h).1⟩

/-- Two sockets bound to one port before either listens both become its
listeners. -/
def twoListeners : List SocketCall :=
  [.socket 1 (some 3) 2 1 0, .bind 1 3 80, .socket 1 (some 4) 2 1 0, .bind 1 4 80,
    .listen 1 3 8, .listen 1 4 8]

/-- A listening socket is closed and its port asked for again. -/
def closedListener : List SocketCall :=
  [.socket 1 (some 3) 2 1 0, .bind 1 3 80, .listen 1 3 8, .close 1 3, .socket 1 (some 4) 2 1 0]

/-- Both halves fail: `listen` gives a port a second listener, and the port of
a closed listener stays taken. -/
theorem ports_not_owned :
    ¬OneListener (Runs.run SocketCall.step twoListeners NetState.new) ∧
      ¬Rebindable (Runs.run SocketCall.step closedListener NetState.new) := by
  constructor
  · intro h
    have hfirst : (Slots.get (Runs.run SocketCall.step twoListeners
        NetState.new).sockets 0).any (·.listensOn 80) = true := by decide +kernel
    have hsecond : (Slots.get (Runs.run SocketCall.step twoListeners
        NetState.new).sockets 1).any (·.listensOn 80) = true := by decide +kernel
    obtain ⟨a, ha, hla⟩ := (Option.any_eq_true _ _).mp hfirst
    obtain ⟨b, hb, hlb⟩ := (Option.any_eq_true _ _).mp hsecond
    have hlive : Live (Runs.run SocketCall.step twoListeners NetState.new) 0 ∧
        Live (Runs.run SocketCall.step twoListeners NetState.new) 1 := by
      unfold Live
      decide +kernel
    exact absurd (h 80 0 1 a b hlive.1 hlive.2 ha hb hla hlb) (by decide)
  · intro h
    have hfree : ∀ b ∈ (Runs.run SocketCall.step closedListener
        NetState.new).bindings, (Slots.get (Runs.run SocketCall.step
          closedListener NetState.new).sockets b.sid).all
            (fun a => !a.listensOn 80) = true := by decide +kernel
    have hbind := h 80 (fun i a hlive hget => by
      obtain ⟨b, hb, rfl⟩ := hlive
      simpa [hget] using hfree b hb) 1 4 (by decide +kernel)
    have hrefused : outcome (bind 1 4 80) (Runs.run SocketCall.step closedListener
        NetState.new) = .error .AddrInUse := by
      rfl
    rw [hrefused] at hbind
    cases hbind

end RacOS.Net
