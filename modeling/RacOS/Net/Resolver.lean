import RacOS.Lib.Runs
import RacOS.Net.Dns
import Mathlib.Data.Fintype.Basic

/-!
# Concurrent name resolution

The model of `resolve` in `net/stack.rs`, of the part of `handle_udp` that
matches replies, and of the tasks that run them.  A call registers its query in
the one slot `query_pending` and then waits with interrupts enabled; from there
on it can be preempted anywhere, so what it does between two lock sections is one
step.  The steps before the wait loop run with interrupts disabled and are one.

The replies of the server are a parameter: `reply q` is the message that answers
the datagram `q`.
-/

namespace RacOS.Net.Dns

open Tcp (Ip Mac)

/-! ## The state -/

/-- The slot in which a call waits for its answer. -/
structure DnsQueryState where
  id : UInt16
  srcPort : UInt16
  completed : Bool
  resolvedIp : Ip
  failed : Bool
deriving DecidableEq

/-- A datagram to the server, by its source port and the query in it. -/
structure Query where
  id : UInt16
  srcPort : UInt16
  name : List UInt8
deriving DecidableEq

/-- A call of `resolve` that has sent its query. -/
structure Call where
  query : Query
  start : ℕ := 0
  retransmitted : Bool := false
deriving DecidableEq

/-- Why a call returns nothing. -/
inductive Cause
  | noRoute
  | badName
  | gone
  | refused
  | timedOut
deriving DecidableEq, Repr

/-- Where a task is.  A task may also poll the network in the wait loop of another
system call; then it polls without a call. -/
inductive Place
  | away
  | sent (call : Call)
  | waiting (call : Call)
  | looking (call : Call) (elapsed : ℕ)
  | sending (call : Call)
  | polling (call : Option Call)
  | received (call : Option Call) (query : Query)
  | matched (call : Option Call) (q : DnsQueryState) (query : Query)
  | leaving (call : Call) (cause : Cause)
deriving DecidableEq

/-- What a call returned. -/
structure Outcome where
  name : List UInt8
  result : Except Cause Ip
deriving DecidableEq

/-- The network stack, as far as name resolution uses it, the datagrams that are
not answered yet, the tasks and the calls that have returned. -/
structure Resolver (P : Type) where
  nextHopMac : Option Mac
  queryPending : Option DnsQueryState
  wire : List Query
  ticks : ℕ
  place : P → Place
  outcomes : List Outcome

/-! ## The steps of a call -/

/-- The transaction id that a call takes from the clock. -/
def queryId (ticks : ℕ) : UInt16 := UInt16.ofNat ticks ^^^ 0xC0DE

/-- The source port that a call takes from the clock. -/
def queryPort (ticks : ℕ) : UInt16 := 60000 + (UInt16.ofNat ticks &&& 0x0FFF)

/-- The query that a call would send now. -/
def nextQuery (ticks : ℕ) (name : List UInt8) : Query :=
  { id := queryId ticks, srcPort := queryPort ticks, name }

/-- The slot of a query that was just registered. -/
def registered (query : Query) : DnsQueryState :=
  { id := query.id, srcPort := query.srcPort, completed := false
    resolvedIp := Vector.replicate 4 0, failed := false }

/-- What a call does after it has looked at the slot. -/
inductive Decision
  | finish (ip : Ip)
  | fail (cause : Cause)
  | retransmit
  | poll

/-- The body of the wait loop up to `poll`. -/
def decideNext (call : Call) (elapsed : ℕ) : Option DnsQueryState → Decision
  | none => .fail .gone
  | some q =>
    if q.completed && !q.failed then .finish q.resolvedIp
    else if q.failed then .fail .refused
    else if 3000 < elapsed then .fail .timedOut
    else if !call.retransmitted && 1000 < elapsed then .retransmit
    else .poll

/-- The slot with the answer in a message. -/
def answered (q : DnsQueryState) (data : List UInt8) : DnsQueryState :=
  match parseFirstA data with
  | .ok ip => { q with resolvedIp := ip, completed := true }
  | .error _ => { q with failed := true, completed := true }

/-- The part of `handle_udp` before it parses: the slot that a reply from the
server answers, if any. -/
def userlandMatch (pending : Option DnsQueryState) (dstPort : UInt16) (data : List UInt8) :
    Option DnsQueryState :=
  match pending with
  | some q =>
    if dstPort = q.srcPort then
      if 2 ≤ data.length ∧ u16At data 0 ≠ q.id then none else some q
    else none
  | none => none

/-! ## The system -/

/-- What can happen next. -/
inductive Event (P : Type)
  | tick
  | learn (mac : Mac)
  | resolve (p : P) (name : List UInt8)
  | enterLoop (p : P)
  | readClock (p : P)
  | look (p : P)
  | retransmit (p : P)
  | poll (p : P)
  | receive (p : P) (k : ℕ)
  | matchReply (p : P)
  | store (p : P)
  | endPoll (p : P)
  | clear (p : P)

namespace Resolver

variable {P : Type} [DecidableEq P]

/-- Move a task. -/
def move (s : Resolver P) (p : P) (place : Place) : Resolver P :=
  { s with place := Function.update s.place p place }

/-- Let a call return. -/
def finish (s : Resolver P) (p : P) (name : List UInt8) (result : Except Cause Ip) : Resolver P :=
  { s with
    place := Function.update s.place p .away
    outcomes := s.outcomes ++ [⟨name, result⟩] }

/-- `resolve` up to the wait loop. -/
def resolve (s : Resolver P) (p : P) (name : List UInt8) : Resolver P :=
  match s.nextHopMac with
  | none => s.finish p name (.error .noRoute)
  | some _ =>
    match buildQueryA 256 (queryId s.ticks) name with
    | .error _ => s.finish p name (.error .badName)
    | .ok _ =>
      let query := nextQuery s.ticks name
      { s with
        queryPending := some (registered query)
        wire := s.wire ++ [query]
        place := Function.update s.place p (.sent { query }) }

/-- One step; an event that is not possible changes nothing. -/
def step (reply : Query → List UInt8) (e : Event P) (s : Resolver P) : Resolver P :=
  match e with
  | .tick => { s with ticks := s.ticks + 1 }
  | .learn mac => { s with nextHopMac := some mac }
  | .resolve p name =>
    match s.place p with
    | .away => s.resolve p name
    | _ => s
  | .enterLoop p =>
    match s.place p with
    | .sent call => s.move p (.waiting { call with start := s.ticks })
    | _ => s
  | .readClock p =>
    match s.place p with
    | .waiting call => s.move p (.looking call (s.ticks - call.start))
    | _ => s
  | .look p =>
    match s.place p with
    | .looking call elapsed =>
      match decideNext call elapsed s.queryPending with
      | .finish ip => s.finish p call.query.name (.ok ip)
      | .fail cause => s.move p (.leaving call cause)
      | .retransmit => s.move p (.sending { call with retransmitted := true })
      | .poll => s.move p (.polling (some call))
    | _ => s
  | .retransmit p =>
    match s.place p with
    | .sending call =>
      { s.move p (.polling (some call)) with wire := s.wire ++ [call.query] }
    | _ => s
  | .poll p =>
    match s.place p with
    | .away => s.move p (.polling none)
    | _ => s
  | .receive p k =>
    match s.place p, s.wire[k]? with
    | .polling call, some query =>
      { s.move p (.received call query) with wire := s.wire.eraseIdx k }
    | _, _ => s
  | .matchReply p =>
    match s.place p with
    | .received call query =>
      match userlandMatch s.queryPending query.srcPort (reply query) with
      | some q => s.move p (.matched call q query)
      | none => s.move p (.polling call)
    | _ => s
  | .store p =>
    match s.place p with
    | .matched call q query =>
      { s.move p (.polling call) with queryPending := some (answered q (reply query)) }
    | _ => s
  | .endPoll p =>
    match s.place p with
    | .polling (some call) => s.move p (.waiting call)
    | .polling none => s.move p .away
    | _ => s
  | .clear p =>
    match s.place p with
    | .leaving call cause =>
      { s.finish p call.query.name (.error cause) with queryPending := none }
    | _ => s

/-- The stack before any call. -/
def init (P : Type) : Resolver P :=
  { nextHopMac := none, queryPending := none, wire := [], ticks := 0
    place := fun _ => .away, outcomes := [] }

end Resolver

/-! ## Isolation -/

/-- The query of the call that a task is in. -/
def Place.asks : Place → Option Query
  | .away => none
  | .sent call => some call.query
  | .waiting call => some call.query
  | .looking call _ => some call.query
  | .sending call => some call.query
  | .polling call => call.map (·.query)
  | .received call _ => call.map (·.query)
  | .matched call _ _ => call.map (·.query)
  | .leaving call _ => some call.query

/-- The query whose reply a task has in its hands. -/
def Place.holds : Place → Option Query
  | .received _ query => some query
  | .matched _ _ query => some query
  | _ => none

/-- The copy of the slot that a task will complete and write back. -/
def Place.stores : Place → Option (DnsQueryState × Query)
  | .matched _ q query => some (q, query)
  | _ => none

/-- Why a task is about to return nothing. -/
def Place.cause : Place → Option Cause
  | .leaving _ cause => some cause
  | _ => none

/-- A query with the id and the port of another one, for another name. -/
def Query.Clashes (w k : Query) : Prop :=
  w.id = k.id ∧ w.srcPort = k.srcPort ∧ w.name ≠ k.name

instance (w k : Query) : Decidable (w.Clashes k) :=
  inferInstanceAs (Decidable (_ ∧ _))

/-- A call returned the address of its name, or it failed by itself. -/
def Outcome.Isolated (addr : List UInt8 → Ip) (o : Outcome) : Prop :=
  match o.result with
  | .ok ip => ip = addr o.name
  | .error cause => cause = .noRoute ∨ cause = .badName ∨ cause = .timedOut

/-- The server answers every query, by its id, with the address of its name. -/
def Answers (reply : Query → List UInt8) (addr : List UInt8 → Ip) : Prop :=
  ∀ q, 2 ≤ (reply q).length ∧ u16At (reply q) 0 = q.id ∧ parseFirstA (reply q) = .ok (addr q.name)

/-- The slot of a query, answered for its name or not answered yet. -/
def Mine (addr : List UInt8 → Ip) (k : Query) (q : DnsQueryState) : Prop :=
  q.id = k.id ∧ q.srcPort = k.srcPort ∧ q.failed = false ∧
    (q.completed = true → q.resolvedIp = addr k.name)

namespace Resolver

variable {P : Type}

/-- The query is on the wire, or its reply in the hands of a task. -/
def InFlight (s : Resolver P) (w : Query) : Prop :=
  w ∈ s.wire ∨ ∃ p, w ∈ (s.place p).holds

/-- A call registers only while no other call is under way, no task is about to
write the slot back, and no query for another name with its id and port is
still under way. -/
def Alone (e : Event P) (s : Resolver P) : Prop :=
  match e with
  | .resolve _ name =>
    (∀ p, (s.place p).asks = none) ∧ (∀ p, (s.place p).stores = none) ∧
      (∀ w ∈ s.wire, ¬w.Clashes (nextQuery s.ticks name)) ∧
      ∀ p, ∀ w ∈ (s.place p).holds, ¬w.Clashes (nextQuery s.ticks name)
  | _ => True

instance [Fintype P] (e : Event P) (s : Resolver P) : Decidable (Alone e s) :=
  match e with
  | .resolve _ _ => inferInstanceAs (Decidable (_ ∧ _))
  | .tick | .learn _ | .enterLoop _ | .readClock _ | .look _ | .retransmit _ | .poll _
  | .receive _ _ | .matchReply _ | .store _ | .endPoll _ | .clear _ => isTrue trivial

/-- The slot belongs to the one call that is under way. -/
structure Sound (addr : List UInt8 → Ip) (s : Resolver P) : Prop where
  alone : ∀ p p' k k', (s.place p).asks = some k → (s.place p').asks = some k' → p = p'
  mine : ∀ p k, (s.place p).asks = some k → ∃ q, s.queryPending = some q ∧ Mine addr k q
  flight : ∀ p k, (s.place p).asks = some k → ∀ w, s.InFlight w → ¬w.Clashes k
  stored : ∀ p k, (s.place p).asks = some k → ∀ p' q w,
    (s.place p').stores = some (q, w) → Mine addr k q ∧ w.id = k.id ∧ w.srcPort = k.srcPort
  leaving : ∀ p cause, (s.place p).cause = some cause → cause = .timedOut
  outcomes : ∀ o ∈ s.outcomes, o.Isolated addr

theorem sound_init (addr : List UInt8 → Ip) : (init P).Sound addr where
  alone := nofun
  mine := nofun
  flight := nofun
  stored := nofun
  leaving := nofun
  outcomes := nofun

variable [DecidableEq P] {addr : List UInt8 → Ip} {s s' : Resolver P} {p : P}
  {reply : Query → List UInt8} {q : DnsQueryState}

/-- A task that moves without registering a call asks what it asked before. -/
theorem asks_before (p : P) (pl : Place)
    (hasks : pl.asks = (s.place p).asks ∨ pl.asks = none) {p' : P} {k : Query}
    (hk : (Function.update s.place p pl p').asks = some k) : (s.place p').asks = some k := by
  by_cases hp' : p' = p
  · subst hp'
    rw [Function.update_self] at hk
    rcases hasks with h | h
    · rw [← h, hk]
    · rw [h] at hk
      cases hk
  · rwa [Function.update_of_ne hp'] at hk

theorem Mine.answered (hreply : Answers reply addr) {k w : Query} (hq : Mine addr k q)
    (hname : w.name = k.name) : Mine addr k (Dns.answered q (reply w)) := by
  unfold Dns.answered
  rw [(hreply w).2.2]
  exact ⟨hq.1, hq.2.1, hq.2.2.1, fun _ => by rw [hname]⟩

theorem userlandMatch_eq_some (hreply : Answers reply addr) {pending : Option DnsQueryState}
    {w : Query} (h : userlandMatch pending w.srcPort (reply w) = some q) :
    pending = some q ∧ w.srcPort = q.srcPort ∧ w.id = q.id := by
  obtain ⟨hlen, hid, -⟩ := hreply w
  unfold userlandMatch at h
  split at h
  · next q' =>
    split at h
    · next hport =>
      split at h
      · cases h
      · next hmatch =>
        cases h
        refine ⟨rfl, hport, ?_⟩
        rw [← hid]
        by_contra hne
        exact hmatch ⟨hlen, hne⟩
    · cases h
  · cases h

/-- A call that finds its slot finishes with its address, times out or goes on. -/
theorem decideNext_mine {call : Call} (hq : Mine addr call.query q) (elapsed : ℕ) :
    decideNext call elapsed (some q) = .finish (addr call.query.name) ∨
      decideNext call elapsed (some q) = .fail .timedOut ∨
      decideNext call elapsed (some q) = .retransmit ∨
      decideNext call elapsed (some q) = .poll := by
  obtain ⟨-, -, hfailed, hdone⟩ := hq
  dsimp only [decideNext]
  rw [hfailed]
  cases hc : q.completed with
  | true => exact Or.inl (by simp [hdone hc])
  | false =>
    right
    simp only [Bool.false_and, Bool.false_eq_true, if_false]
    split
    · exact Or.inl rfl
    · split
      · exact Or.inr (Or.inl rfl)
      · exact Or.inr (Or.inr rfl)

section Sound

variable (hs : s.Sound addr)

include hs

/-- A step of one task that registers no call. -/
theorem Sound.moved (p : P) (pl : Place)
    (hplace : s'.place = Function.update s.place p pl)
    (hasks : pl.asks = (s.place p).asks ∨ pl.asks = none)
    (hmine : ∀ p' k, (s'.place p').asks = some k →
      ∃ q, s'.queryPending = some q ∧ Mine addr k q) (hholds : ∀ w ∈ pl.holds, s.InFlight w)
    (hwire : ∀ w ∈ s'.wire, s.InFlight w ∨ (s.place p).asks = some w)
    (hstores : ∀ q w, pl.stores = some (q, w) →
      s.queryPending = some q ∧ s.InFlight w ∧ w.srcPort = q.srcPort ∧ w.id = q.id)
    (hcause : ∀ cause, pl.cause = some cause → cause = .timedOut)
    (houtcomes : ∀ o ∈ s'.outcomes, o.Isolated addr) : s'.Sound addr := by
  have hother : ∀ p', p' ≠ p → s'.place p' = s.place p' := fun p' hp' => by
    rw [hplace, Function.update_of_ne hp']
  have hself : s'.place p = pl := by rw [hplace, Function.update_self]
  have hbefore : ∀ p' k, (s'.place p').asks = some k → (s.place p').asks = some k :=
    fun p' k hk => asks_before p pl hasks (hplace ▸ hk)
  refine ⟨fun p₁ p₂ k₁ k₂ h₁ h₂ => ?_, hmine, fun p' k hk w hw => ?_,
    fun p' k hk p'' q w hst => ?_, fun p' cause hc => ?_, houtcomes⟩
  · exact hs.alone p₁ p₂ k₁ k₂ (hbefore p₁ k₁ h₁) (hbefore p₂ k₂ h₂)
  · have hk' := hbefore p' k hk
    have hflight : s.InFlight w ∨ (s.place p).asks = some w := by
      rcases hw with hw | ⟨p'', hw⟩
      · exact hwire w hw
      · by_cases hp'' : p'' = p
        · subst hp''
          rw [hself] at hw
          exact Or.inl (hholds w hw)
        · rw [hother p'' hp''] at hw
          exact Or.inl (Or.inr ⟨p'', hw⟩)
    rcases hflight with hw | hw
    · exact hs.flight p' k hk' w hw
    · -- A call's own query is for its name.
      obtain rfl := hs.alone p' p k w hk' hw
      rw [hk'] at hw
      cases hw
      exact fun hclash => hclash.2.2 rfl
  · have hk' := hbefore p' k hk
    by_cases hp'' : p'' = p
    · subst hp''
      rw [hself] at hst
      obtain ⟨hq, -, hport, hid⟩ := hstores q w hst
      obtain ⟨q', hq', hown⟩ := hs.mine p' k hk'
      rw [hq] at hq'
      cases hq'
      exact ⟨hown, hid.trans hown.1, hport.trans hown.2.1⟩
    · rw [hother p'' hp''] at hst
      exact hs.stored p' k hk' p'' q w hst
  · by_cases hp' : p' = p
    · subst hp'
      rw [hself] at hc
      exact hcause cause hc
    · rw [hother p' hp'] at hc
      exact hs.leaving p' cause hc

/-- A step of one task that leaves the slot and the wire alone. -/
theorem Sound.move {pl : Place} (hasks : pl.asks = (s.place p).asks)
    (hholds : ∀ w ∈ pl.holds, s.InFlight w) (hstores : ∀ q w, pl.stores = some (q, w) →
      s.queryPending = some q ∧ s.InFlight w ∧ w.srcPort = q.srcPort ∧ w.id = q.id)
    (hcause : ∀ cause, pl.cause = some cause → cause = .timedOut) : (s.move p pl).Sound addr :=
  hs.moved p pl rfl (Or.inl hasks)
    (fun p' k hk => hs.mine p' k (asks_before p pl (Or.inl hasks) hk))
    hholds (fun _ hw => Or.inl (Or.inl hw)) hstores hcause hs.outcomes

/-- A step of one task to a place where it has nothing in its hands. -/
theorem Sound.move_free {pl : Place} (hasks : pl.asks = (s.place p).asks)
    (hholds : pl.holds = none) (hstores : pl.stores = none) (hcause : pl.cause = none) :
    (s.move p pl).Sound addr := by
  refine hs.move hasks ?_ ?_ ?_
  · simp [hholds]
  · simp [hstores]
  · simp [hcause]

theorem Sound.finish (p : P) {name : List UInt8} {result : Except Cause Ip}
    (hresult : Outcome.Isolated addr ⟨name, result⟩) : (s.finish p name result).Sound addr := by
  refine hs.moved p .away rfl (Or.inr rfl) ?_ nofun
    (fun w hw => Or.inl (Or.inl hw)) nofun nofun fun o ho => ?_
  · exact fun p' k hk => hs.mine p' k (asks_before p .away (Or.inr rfl) hk)
  · rcases List.mem_append.mp ho with ho | ho
    · exact hs.outcomes o ho
    · rw [List.mem_singleton.mp ho]
      exact hresult

theorem Sound.resolve {name : List UInt8} (halone : Alone (.resolve p name) s) :
    (s.resolve p name).Sound addr := by
  unfold Resolver.resolve
  split
  · exact hs.finish p (Or.inl rfl)
  split
  · exact hs.finish p (Or.inr (Or.inl rfl))
  obtain ⟨hasks, hstores, hwire, hholds⟩ := halone
  generalize hq : nextQuery s.ticks name = k at hwire hholds ⊢
  -- The new call is the only one.
  have honly : ∀ p' k', (Function.update s.place p (.sent { query := k }) p').asks = some k' →
      p' = p ∧ k' = k := by
    intro p' k' hk'
    by_cases hp' : p' = p
    · subst hp'
      rw [Function.update_self] at hk'
      cases hk'
      exact ⟨rfl, rfl⟩
    · rw [Function.update_of_ne hp', hasks] at hk'
      cases hk'
  have hother : ∀ {α : Type} (f : Place → Option α) (p' : P) (a : α),
      f (.sent { query := k }) = none →
      f (Function.update s.place p (.sent { query := k }) p') = some a →
      f (s.place p') = some a := by
    intro α f p' a hnone ha
    by_cases hp' : p' = p
    · subst hp'
      rw [Function.update_self, hnone] at ha
      cases ha
    · rwa [Function.update_of_ne hp'] at ha
  refine ⟨fun p₁ p₂ k₁ k₂ h₁ h₂ => ?_, fun p' k' hk' => ?_, fun p' k' hk' w hw => ?_,
    fun p' k' hk' p'' q w hst => ?_, fun p' cause hc => ?_, hs.outcomes⟩
  · rw [(honly p₁ k₁ h₁).1, (honly p₂ k₂ h₂).1]
  · rw [(honly p' k' hk').2]
    exact ⟨registered k, rfl, rfl, rfl, rfl, nofun⟩
  · rw [(honly p' k' hk').2]
    rcases hw with hw | ⟨p'', hw⟩
    · rcases List.mem_append.mp hw with hw | hw
      · exact hwire w hw
      · rw [List.mem_singleton.mp hw]
        exact fun hclash => hclash.2.2 rfl
    · exact hholds p'' w (hother Place.holds p'' w rfl hw)
  · have := hother Place.stores p'' (q, w) rfl hst
    rw [hstores] at this
    cases this
  · exact hs.leaving p' cause (hother Place.cause p' cause rfl hc)

theorem Sound.look {call : Call} {elapsed : ℕ} (hp : s.place p = .looking call elapsed) :
    (step reply (.look p) s).Sound addr := by
  have hasks : (s.place p).asks = some call.query := by rw [hp]; rfl
  obtain ⟨q, hpending, hq⟩ := hs.mine p call.query hasks
  simp only [Resolver.step, hp, hpending]
  rcases decideNext_mine hq elapsed with h | h | h | h <;> rw [h]
  · exact hs.finish p rfl
  · refine hs.move hasks.symm nofun nofun fun cause hc => ?_
    cases hc
    rfl
  · exact hs.move_free hasks.symm rfl rfl rfl
  · exact hs.move_free hasks.symm rfl rfl rfl

theorem Sound.retransmit : (step reply (.retransmit p) s).Sound addr := by
  simp only [Resolver.step]
  split
  · next call hp =>
    have hasks : (Place.polling (some call)).asks = (s.place p).asks := by
      rw [hp]
      rfl
    refine hs.moved p (.polling (some call)) rfl (Or.inl hasks) ?_ nofun ?_ nofun nofun
      hs.outcomes
    · exact fun p' k hk => hs.mine p' k (asks_before p _ (Or.inl hasks) hk)
    · intro w hw
      rcases List.mem_append.mp hw with hw | hw
      · exact Or.inl (Or.inl hw)
      · rw [List.mem_singleton.mp hw, hp]
        exact Or.inr rfl
  · exact hs

theorem Sound.receive (k : ℕ) : (step reply (.receive p k) s).Sound addr := by
  simp only [Resolver.step]
  split
  · next call query hp hk =>
    have hasks : (Place.received call query).asks = (s.place p).asks := by
      rw [hp]
      rfl
    refine hs.moved p (.received call query) rfl (Or.inl hasks) ?_ ?_ ?_
      nofun nofun hs.outcomes
    · exact fun p' k' hk' => hs.mine p' k' (asks_before p _ (Or.inl hasks) hk')
    · rintro w ⟨⟩
      exact Or.inl (List.mem_of_getElem? hk)
    · exact fun w hw => Or.inl (Or.inl (List.mem_of_mem_eraseIdx hw))
  · exact hs

theorem Sound.matchReply (hreply : Answers reply addr) :
    (step reply (.matchReply p) s).Sound addr := by
  simp only [Resolver.step]
  split
  · next call query hp =>
    have hheld : s.InFlight query := Or.inr ⟨p, by rw [hp]; rfl⟩
    split
    · next q hmatch =>
      refine hs.move (by rw [hp]; rfl) ?_ ?_ nofun
      · rintro w ⟨⟩
        exact hheld
      · rintro q' w ⟨⟩
        obtain ⟨hpending, hport, hid⟩ := userlandMatch_eq_some hreply hmatch
        exact ⟨hpending, hheld, hport, hid⟩
    · exact hs.move_free (by rw [hp]; rfl) rfl rfl rfl
  · exact hs

theorem Sound.store (hreply : Answers reply addr) : (step reply (.store p) s).Sound addr := by
  simp only [Resolver.step]
  split
  · next call q query hp =>
    have hasks : (Place.polling call).asks = (s.place p).asks := by
      rw [hp]
      rfl
    refine hs.moved p (.polling call) rfl (Or.inl hasks) ?_ nofun
      (fun w hw => Or.inl (Or.inl hw)) nofun nofun hs.outcomes
    intro p' k hk
    have hk' : (s.place p').asks = some k := asks_before p _ (Or.inl hasks) hk
    obtain ⟨hq, hid, hport⟩ := hs.stored p' k hk' p q query (by rw [hp]; rfl)
    have hname : query.name = k.name := by
      by_contra hne
      exact hs.flight p' k hk' query (Or.inr ⟨p, by rw [hp]; rfl⟩) ⟨hid, hport, hne⟩
    exact ⟨_, rfl, Mine.answered hreply hq hname⟩
  · exact hs

theorem Sound.clear : (step reply (.clear p) s).Sound addr := by
  simp only [Resolver.step]
  split
  · next call cause hp =>
    have hcause : cause = .timedOut := hs.leaving p cause (by rw [hp]; rfl)
    have hfinish : (s.finish p call.query.name (.error cause)).Sound addr :=
      hs.finish p (Or.inr (Or.inr hcause))
    refine hs.moved p .away rfl (Or.inr rfl) ?_ nofun
      (fun w hw => Or.inl (Or.inl hw)) nofun nofun hfinish.outcomes
    -- Nobody else has a call.
    intro p' k hk
    have hk' : (s.place p').asks = some k := asks_before p .away (Or.inr rfl) hk
    obtain rfl := hs.alone p' p k call.query hk' (by rw [hp]; rfl)
    change (Function.update s.place p' .away p').asks = some k at hk
    rw [Function.update_self] at hk
    cases hk
  · exact hs

theorem Sound.step (hreply : Answers reply addr) (e : Event P) (halone : Alone e s) :
    (step reply e s).Sound addr := by
  cases e with
  | tick => exact ⟨hs.alone, hs.mine, hs.flight, hs.stored, hs.leaving, hs.outcomes⟩
  | learn mac => exact ⟨hs.alone, hs.mine, hs.flight, hs.stored, hs.leaving, hs.outcomes⟩
  | resolve p name =>
    simp only [Resolver.step]
    split
    · exact hs.resolve halone
    · exact hs
  | enterLoop p =>
    simp only [Resolver.step]
    split
    · next call hp => exact hs.move_free (by rw [hp]; rfl) rfl rfl rfl
    · exact hs
  | readClock p =>
    simp only [Resolver.step]
    split
    · next call hp => exact hs.move_free (by rw [hp]; rfl) rfl rfl rfl
    · exact hs
  | look p =>
    cases hp : s.place p with
    | looking call elapsed => exact hs.look hp
    | _ => simpa only [Resolver.step, hp] using hs
  | retransmit p => exact hs.retransmit
  | poll p =>
    simp only [Resolver.step]
    split
    · next hp => exact hs.move_free (by rw [hp]; rfl) rfl rfl rfl
    · exact hs
  | receive p k => exact hs.receive k
  | matchReply p => exact hs.matchReply hreply
  | store p => exact hs.store hreply
  | endPoll p =>
    simp only [Resolver.step]
    split
    · next call hp => exact hs.move_free (by rw [hp]; rfl) rfl rfl rfl
    · next hp => exact hs.move_free (by rw [hp]; rfl) rfl rfl rfl
    · exact hs
  | clear p => exact hs.clear

end Sound

/-- Resolution is isolated in every run in which calls do not overlap. -/
theorem run_isolated {reply : Query → List UInt8} (hreply : Answers reply addr)
    {events : List (Event P)} (h : Runs.Along (Resolver.step reply) Alone events (init P)) :
    ∀ o ∈ (Runs.run (Resolver.step reply) events (init P)).outcomes, o.Isolated addr :=
  (Runs.invariant_of_along (I := Sound addr) (fun e _ hs halone => hs.step hreply e halone)
    (sound_init addr) h).outcomes

/-! ## Two calls that overlap -/

/-- The addresses of a sample server: the last byte is the length of the name. -/
def sampleAddr (name : List UInt8) : Ip := #v[10, 0, 0, UInt8.ofNat name.length]

/-- The replies of the sample server. -/
def sampleReply (q : Query) : List UInt8 :=
  response q.id 10 0 0 (UInt8.ofNat q.name.length)

theorem sampleReply_answers : Answers sampleReply sampleAddr := fun q =>
  ⟨by simp [sampleReply, response, toBeBytes], u16At_toBeBytes _ _,
    parseFirstA_response q.id 10 0 0 _⟩

/-- A call that is answered while it polls. -/
def answeredCall (p : Bool) (name : List UInt8) : List (Event Bool) :=
  [.resolve p name, .enterLoop p, .readClock p, .look p, .receive p 0, .matchReply p,
    .store p, .endPoll p, .readClock p, .look p]

theorem run_isolated_twoCalls :
    Runs.Along (step sampleReply) Alone
        (.learn (Vector.replicate 6 0) :: answeredCall false [97] ++ answeredCall true [98, 98])
        (init Bool) ∧
      ∀ o ∈ (Runs.run (step sampleReply) (.learn (Vector.replicate 6 0) ::
        answeredCall false [97] ++ answeredCall true [98, 98]) (init Bool)).outcomes,
        o.Isolated sampleAddr := by
  have halong : Runs.Along (step sampleReply) Alone
      (.learn (Vector.replicate 6 0) :: answeredCall false [97] ++ answeredCall true [98, 98])
      (init Bool) := by decide +kernel
  exact ⟨halong, run_isolated sampleReply_answers halong⟩

/-- The second call takes the slot; the first one finds the answer of the second
in it. -/
def mixedUp : List (Event Bool) :=
  [.learn (Vector.replicate 6 0), .resolve false [97], .enterLoop false, .tick,
    .resolve true [98, 98], .enterLoop true, .readClock true, .look true, .receive true 1,
    .matchReply true, .store true, .readClock false, .look false]

/-- The first call times out and clears the slot in which the second one waits. -/
def clearedAway : List (Event Bool) :=
  [Event.learn (Vector.replicate 6 0), Event.resolve false [97], Event.enterLoop false] ++
    List.replicate 2500 Event.tick ++ [Event.resolve true [98, 98], Event.enterLoop true] ++
    List.replicate 501 Event.tick ++
    [Event.readClock false, Event.look false, Event.clear false, Event.readClock true,
      Event.look true, Event.clear true]

theorem overlapping_calls_interfere :
    Answers sampleReply sampleAddr ∧
      (⟨[97], .ok (sampleAddr [98, 98])⟩ ∈
          (Runs.run (step sampleReply) mixedUp (init Bool)).outcomes ∧
        sampleAddr [98, 98] ≠ sampleAddr [97]) ∧
      (⟨[97], .error .timedOut⟩ ∈
          (Runs.run (step sampleReply) clearedAway (init Bool)).outcomes ∧
        ⟨[98, 98], .error .gone⟩ ∈
          (Runs.run (step sampleReply) clearedAway (init Bool)).outcomes) :=
  ⟨sampleReply_answers, by decide +kernel, by decide +kernel⟩

end Resolver

end RacOS.Net.Dns
