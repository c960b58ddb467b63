import Mathlib.Data.List.Forall2
import RacOS.Net.TcpOutput
import RacOS.Net.TcpQueue

/-!
# Retransmissions

What the timer sends for a queued segment, compared with the frame with which the segment
was first sent.  A history carries this frame along with every entry of the queue.  The
timer sends the same sequence number, SYN, FIN and payload, and always sets the ACK flag,
so it differs from the first frame for a SYN and for nothing else.
-/

namespace RacOS.Net.Tcp

variable {conn conn' : TcpConn}

/-! ## Histories -/

/-- A connection, with the frame in which each entry of its queue was first sent. -/
structure Traced where
  conn : TcpConn
  origins : List Segment

/-- The frame that `connect` sends for a new connection. -/
def TcpConn.synFrame (conn : TcpConn) : Segment where
  peerMac := conn.peerMac
  remoteIp := conn.remoteIp
  localPort := conn.localPort
  remotePort := conn.remotePort
  seq := conn.iss
  ack := 0
  flags := Flag.syn
  window := defaultWindow
  mssOption := some defaultMss
  payload := []

/-- An opened connection with the SYN that `connect` has sent. -/
def Traced.opening (localPort : UInt16) (remoteIp : Ip) (remotePort : UInt16) (peerMac : Mac)
    (iss : UInt32) (now : ℕ) : Traced :=
  let conn := TcpConn.opening localPort remoteIp remotePort peerMac iss now
  ⟨conn, [conn.synFrame]⟩

/-- The origins of the entries that a connection still has. -/
def Traced.retained (t : Traced) (conn' : TcpConn) : List Segment :=
  ((t.conn.pending.zip t.origins).filter fun x => x.1 ∈ conn'.pending).map Prod.snd

/-- An event of the connection: what it puts into the queue has the frames sent in this
event as origins. -/
def Traced.step (t : Traced) (e : Event) : Option Traced :=
  (t.conn.step e).map fun r => ⟨r.2,
    match e with
    | .segment _ _ _ => t.retained r.2
    | .send _ _ => t.origins ++ t.conn.emits e
    | .close _ => t.origins ++ t.conn.emits e
    | .read _ => t.origins
    | .tick _ => t.origins⟩

def Traced.run : Traced → List Event → Option Traced
  | t, [] => some t
  | t, e :: es => (t.step e).bind fun t' => t'.run es

/-- The entries that the timer sends again. -/
def PendingSegment.resent (p : PendingSegment) (now : ℕ) : Prop :=
  p.due now ∧ p.retries < maxRetransmits

instance (p : PendingSegment) (now : ℕ) : Decidable (p.resent now) :=
  inferInstanceAs (Decidable (_ ∧ _))

/-- What the timer sends for an entry. -/
def TcpConn.resend (conn : TcpConn) (p : PendingSegment) : Segment :=
  conn.frame p (p.flags ||| Flag.ack) (if p.flags &&& Flag.syn ≠ 0 then some defaultMss else none)

/-- The frames that the timer sends, each with the first frame for the same entry. -/
def Traced.retransmissions (t : Traced) (now : ℕ) : List (Segment × Segment) :=
  if t.conn.state = .closed then []
  else
    ((t.conn.pending.zip t.origins).filter fun x => x.1.resent now).map fun x =>
      (x.2, t.conn.resend x.1)

/-- A frame repeats the first one: apart from the ACK number and the window, which are the
present ones, it is the same. -/
structure Repeats (first again : Segment) : Prop where
  seq : again.seq = first.seq
  syn : again.flags &&& Flag.syn = first.flags &&& Flag.syn
  fin : again.flags &&& Flag.fin = first.flags &&& Flag.fin
  ack : again.flags &&& Flag.ack ≠ 0 ↔ first.flags &&& Flag.ack ≠ 0
  payload : again.payload = first.payload

/-! ## The invariant -/

/-- The frame with which an entry was first sent. -/
structure FirstSent (p : PendingSegment) (first : Segment) : Prop where
  seq : first.seq = p.seq
  flags : first.flags = p.flags
  payload : first.payload = p.data

/-- The entries of the queue have their origins; before the SYN is answered they are SYNs,
and afterwards segments with data or a FIN. -/
structure Traced.Ok (t : Traced) : Prop where
  origins : List.Forall₂ FirstSent t.conn.pending t.origins
  syn : t.conn.state = .synSent → ∀ p ∈ t.conn.pending, p.flags = Flag.syn
  later : t.conn.state ≠ .synSent → t.conn.state ≠ .closed → ∀ p ∈ t.conn.pending,
    p.flags = Flag.psh ||| Flag.ack ∨ p.flags = Flag.fin ||| Flag.ack

theorem Traced.Ok.opening (localPort : UInt16) (remoteIp : Ip) (remotePort : UInt16)
    (peerMac : Mac) (iss : UInt32) (now : ℕ) :
    (Traced.opening localPort remoteIp remotePort peerMac iss now).Ok where
  origins := .cons ⟨rfl, rfl, rfl⟩ .nil
  syn := by
    intro _ p hp
    rw [List.mem_singleton.mp hp]
    rfl
  later h := absurd rfl h

/-! ### Entries and their origins -/

section Pairs

variable {α β : Type} {R : α → β → Prop} {l : List α} {m : List β}

/-- Entries that are kept keep their partners. -/
theorem forall₂_filter_zip (h : List.Forall₂ R l m) (q : α → Bool) :
    List.Forall₂ R (l.filter q) (((l.zip m).filter fun x => q x.1).map Prod.snd) := by
  induction h with
  | nil => exact .nil
  | @cons a b l m hab _ ih =>
    rw [List.zip_cons_cons]
    by_cases hq : q a
    · rw [List.filter_cons_of_pos hq, List.filter_cons_of_pos (by exact hq), List.map_cons]
      exact .cons hab ih
    · rw [List.filter_cons_of_neg hq, List.filter_cons_of_neg (by exact hq)]
      exact ih

theorem map_fst_filter_zip (h : List.Forall₂ R l m) (q : α → Bool) :
    ((l.zip m).filter fun x => q x.1).map Prod.fst = l.filter q := by
  induction h with
  | nil => rfl
  | @cons a b l m hab _ ih =>
    rw [List.zip_cons_cons]
    by_cases hq : q a
    · rw [List.filter_cons_of_pos hq, List.filter_cons_of_pos (by exact hq), List.map_cons, ih]
    · rw [List.filter_cons_of_neg hq, List.filter_cons_of_neg (by exact hq), ih]

theorem forall₂_of_mem_zip (h : List.Forall₂ R l m) {a : α} {b : β} (hab : (a, b) ∈ l.zip m) :
    R a b := by
  induction h with
  | nil => cases hab
  | cons hR _ ih =>
    rw [List.zip_cons_cons, List.mem_cons] at hab
    rcases hab with heq | hab
    · cases heq
      exact hR
    · exact ih hab

end Pairs

variable {t t' : Traced}

theorem Traced.retained_forall₂ (h : List.Forall₂ FirstSent t.conn.pending t.origins)
    {q : PendingSegment → Bool} (hq : conn'.pending = t.conn.pending.filter q) :
    List.Forall₂ FirstSent conn'.pending (t.retained conn') := by
  have hsame : t.conn.pending.filter (fun p => p ∈ conn'.pending) = conn'.pending := by
    rw [hq]
    refine List.filter_congr fun p hp => ?_
    rw [Bool.eq_iff_iff, decide_eq_true_iff, List.mem_filter]
    exact and_iff_right hp
  have hkept := forall₂_filter_zip h fun p => decide (p ∈ conn'.pending)
  rwa [hsame] at hkept

/-- The timer sends the frames of `retransmissions`. -/
theorem Traced.Ok.retransmissions_snd (h : t.Ok) (now : ℕ) :
    (t.retransmissions now).map Prod.snd = t.conn.emits (.tick now) := by
  rw [Traced.retransmissions, emits_tick]
  by_cases hclosed : t.conn.state = .closed
  · rw [if_pos hclosed, if_pos hclosed]
    rfl
  · rw [if_neg hclosed, if_neg hclosed, List.map_map]
    have hmap := congrArg (List.map t.conn.resend)
      (map_fst_filter_zip h.origins fun p => decide (p.resent now))
    rw [List.map_map] at hmap
    exact hmap

/-! ### Events and the queue -/

/-- A segment can only take entries out of the queue; the answer to the SYN takes out all
SYNs. -/
theorem processSegment_pending (conn : TcpConn) (hdr : TcpHeader) (options data : List UInt8) :
    ∃ q : PendingSegment → Bool,
      (processSegment conn hdr options data).2.pending = conn.pending.filter q ∧
      ((processSegment conn hdr options data).2.state = .synSent → conn.state = .synSent) ∧
      (conn.state = .synSent → (processSegment conn hdr options data).2.state ≠ .synSent →
        (processSegment conn hdr options data).2.state ≠ .closed →
          ∀ p, q p → p.flags &&& Flag.syn = 0) := by
  have hall : conn.pending = conn.pending.filter fun _ => true :=
    (List.filter_eq_self.mpr fun _ _ => rfl).symm
  by_cases hrst : hdr.has Flag.rst
  · rw [processSegment_rst hrst]
    exact ⟨_, hall, nofun, fun _ _ hclosed => absurd rfl hclosed⟩
  · by_cases hopen : conn.state.receiving
    · have hnot : conn.state ≠ .synSent := fun hst => by
        rw [hst] at hopen
        cases hopen
      obtain ⟨-, hpending, -, -⟩ := processOpen_sending conn hdr data
      have hstate : (processOpen conn hdr data).2.state ≠ .synSent :=
        processOpen_state_ne hopen rfl (by decide)
      rw [processSegment_open hopen hrst, hpending]
      by_cases hack : hdr.has Flag.ack && seqLt conn.sndUna hdr.ack && seqLe hdr.ack conn.sndNxt
      · rw [processAck, if_pos hack]
        exact ⟨_, rfl, fun h => absurd h hstate, fun h => absurd h hnot⟩
      · rw [processAck, if_neg hack]
        exact ⟨_, hall, fun h => absurd h hstate, fun h => absurd h hnot⟩
    · by_cases hsyn : conn.state = .synSent
      · rw [processSegment_synSent hsyn hrst]
        rcases processSynSent_cases conn hdr options with hsame | ⟨_, _, hnew, -⟩
        · rw [hsame]
          exact ⟨_, hall, id, fun _ h => absurd hsyn h⟩
        · rw [hnew]
          exact ⟨_, rfl, nofun, fun _ _ _ p hp => by simpa using hp⟩
      · obtain ⟨s, heq, hs⟩ := processSegment_idle options data hrst hopen hsyn
        rw [heq]
        exact ⟨_, hall, fun h => absurd h hs, fun h => absurd h hsyn⟩

variable {data : List UInt8} {frames : List Segment}

/-- The segments of `send` go into the queue as they are sent. -/
theorem sendLoop_traces {now fuel : ℕ} (h : conn.sendLoop now fuel data = some (frames, conn')) :
    ∃ new, conn'.pending = conn.pending ++ new ∧ List.Forall₂ FirstSent new frames ∧
      ∀ p ∈ new, p.flags = Flag.psh ||| Flag.ack := by
  refine TcpConn.sendLoop_induction (P := fun conn _ frames conn' =>
    ∃ new, conn'.pending = conn.pending ++ new ∧ List.Forall₂ FirstSent new frames ∧
      ∀ p ∈ new, p.flags = Flag.psh ||| Flag.ack) ?_ ?_ h
  · exact fun _ _ => ⟨[], (List.append_nil _).symm, .nil, List.forall_mem_nil _⟩
  · rintro conn data frames last hfits - p ⟨new, hpending, horigins, hflags⟩
    refine ⟨p :: new, ?_, .cons ⟨rfl, rfl, rfl⟩ horigins, List.forall_mem_cons.mpr ⟨rfl, hflags⟩⟩
    rw [hpending, TcpConn.enqueue, List.append_assoc]
    rfl

theorem processSegment_closed {hdr : TcpHeader} {options data : List UInt8}
    (h : conn.state = .closed) : (processSegment conn hdr options data).2.state = .closed := by
  unfold processSegment
  split
  · rfl
  · rw [h]
    exact h

theorem Traced.Ok.segment (h : t.Ok) (hdr : TcpHeader) (options data : List UInt8) :
    (Traced.mk (processSegment t.conn hdr options data).2
      (t.retained (processSegment t.conn hdr options data).2)).Ok := by
  obtain ⟨q, hpending, hback, hanswered⟩ := processSegment_pending t.conn hdr options data
  have hmem {p : PendingSegment} (hp : p ∈ (processSegment t.conn hdr options data).2.pending) :
      p ∈ t.conn.pending ∧ q p := by
    rw [hpending] at hp
    exact List.mem_filter.mp hp
  refine ⟨Traced.retained_forall₂ h.origins hpending, fun hsyn p hp => ?_,
    fun hsyn hclosed p hp => ?_⟩
  · exact h.syn (hback hsyn) p (hmem hp).1
  · by_cases hst : t.conn.state = .synSent
    · have hzero := hanswered hst hsyn hclosed p (hmem hp).2
      rw [h.syn hst p (hmem hp).1] at hzero
      exact absurd hzero (by decide)
    · refine h.later hst (fun hgone => hclosed ?_) p (hmem hp).1
      exact processSegment_closed hgone

/-- New entries, sent in this event, in a connection that is not waiting for its SYN to be
answered. -/
theorem Traced.Ok.append (h : t.Ok) {new : List PendingSegment}
    (hpending : conn'.pending = t.conn.pending ++ new) (hnew : List.Forall₂ FirstSent new frames)
    (hflags : ∀ p ∈ new, p.flags = Flag.psh ||| Flag.ack ∨ p.flags = Flag.fin ||| Flag.ack)
    (hold : t.conn.state ≠ .synSent ∧ t.conn.state ≠ .closed) (hsyn : conn'.state ≠ .synSent) :
    (Traced.mk conn' (t.origins ++ frames)).Ok := by
  refine ⟨?_, fun hst => absurd hst hsyn, fun _ _ p hp => ?_⟩
  · change List.Forall₂ FirstSent conn'.pending _
    rw [hpending]
    exact List.rel_append h.origins hnew
  · change p ∈ conn'.pending at hp
    rw [hpending] at hp
    rcases List.mem_append.mp hp with hp | hp
    · exact h.later hold.1 hold.2 p hp
    · exact hflags p hp

variable {now : ℕ}

theorem Traced.Ok.send (h : t.Ok) (hstep : t.step (.send data now) = some t') :
    t'.Ok := by
  obtain ⟨⟨out, conn'⟩, hconn, rfl⟩ := Option.map_eq_some_iff.mp hstep
  simp only [emits_send]
  obtain ⟨rfl, ⟨⟨e, hsend⟩, rfl⟩ | ⟨segments, hest, hsend, hloop⟩⟩ := TcpConn.step_send hconn
  · rw [hsend]
    simp only [framesOf, List.append_nil]
    exact h
  · rw [hsend]
    obtain ⟨new, hpending, hnew, hflags⟩ := sendLoop_traces hloop
    have hstate := (sendLoop_same hloop).2
    refine h.append hpending hnew (fun p hp => .inl (hflags p hp)) ?_ ?_
    · rw [hest]
      exact ⟨nofun, nofun⟩
    · rw [hstate, hest]
      nofun

theorem Traced.Ok.close (h : t.Ok) (hstep : t.step (.close now) = some t') :
    t'.Ok := by
  obtain ⟨⟨out, conn'⟩, hconn, rfl⟩ := Option.map_eq_some_iff.mp hstep
  simp only [emits_close]
  obtain ⟨rfl, ⟨⟨e, hclose⟩, rfl⟩ | ⟨hst, rfl, hclose⟩⟩ := TcpConn.step_close hconn
  · rw [hclose]
    simp only [framesOf, List.append_nil]
    exact h
  · rw [hclose]
    refine h.append rfl (.cons ⟨rfl, rfl, rfl⟩ .nil) (fun p hp => .inr ?_) ?_ ?_
    · rw [List.mem_singleton.mp hp]
      rfl
    · constructor <;> intro hgone <;> simp [hgone] at hst
    · change (if t.conn.state = .established then State.finWait1 else .lastAck) ≠ _
      split <;> nofun

theorem Traced.Ok.tick (h : t.Ok) (hstep : t.step (.tick now) = some t') :
    t'.Ok := by
  obtain ⟨⟨out, conn'⟩, hconn, rfl⟩ := Option.map_eq_some_iff.mp hstep
  obtain ⟨hclosed, -, rfl⟩ := TcpConn.step_tick hconn
  have hsame (p : PendingSegment) : (p.tick now).seq = p.seq ∧ (p.tick now).flags = p.flags ∧
      (p.tick now).data = p.data := by
    unfold PendingSegment.tick
    split <;> exact ⟨rfl, rfl, rfl⟩
  have hstate : (t.conn.tick now).2.state = .closed ∨ (t.conn.tick now).2.state = t.conn.state := by
    change (if _ then _ else _) = _ ∨ (if _ then _ else _) = _
    split
    · exact .inl rfl
    · exact .inr rfl
  refine ⟨?_, fun hsyn p hp => ?_, fun hsyn hgone p hp => ?_⟩
  · refine List.forall₂_map_left_iff.mpr (h.origins.imp fun p first hfirst => ?_)
    obtain ⟨hseq, hflags, hdata⟩ := hsame p
    exact ⟨by rw [hseq, hfirst.seq], by rw [hflags, hfirst.flags],
      by rw [hdata, hfirst.payload]⟩
  · obtain ⟨q, hq, rfl⟩ := List.mem_map.mp hp
    rw [(hsame q).2.1]
    rcases hstate with hst | hst
    · rw [hst] at hsyn
      cases hsyn
    · exact h.syn (hst ▸ hsyn) q hq
  · obtain ⟨q, hq, rfl⟩ := List.mem_map.mp hp
    rw [(hsame q).2.1]
    rcases hstate with hst | hst
    · exact absurd hst hgone
    · exact h.later (hst ▸ hsyn) hclosed q hq

theorem Traced.Ok.step {e : Event} (h : t.Ok) (hstep : t.step e = some t') :
    t'.Ok := by
  cases e with
  | segment hdr options data =>
    obtain rfl := Option.some.inj hstep
    exact h.segment hdr options data
  | send data now => exact h.send hstep
  | close now => exact h.close hstep
  | read n =>
    obtain rfl := Option.some.inj hstep
    exact ⟨h.origins, h.syn, h.later⟩
  | tick now => exact h.tick hstep

theorem Traced.Ok.run {es : List Event} : ∀ {t t' : Traced}, t.Ok → t.run es = some t' → t'.Ok := by
  induction es with
  | nil =>
    intro t t' h hrun
    obtain rfl := Option.some.inj hrun
    exact h
  | cons e es ih =>
    intro t t' h hrun
    obtain ⟨mid, hstep, hrest⟩ := Option.bind_eq_some_iff.mp hrun
    exact ih (h.step hstep) hrest

/-! ## Retransmissions -/

theorem resend_flags (conn : TcpConn) (p : PendingSegment) :
    (conn.resend p).flags = p.flags ||| Flag.ack := rfl

variable {p : PendingSegment} {first : Segment}

theorem FirstSent.not_repeats (h : FirstSent p first) (hsyn : p.flags = Flag.syn) :
    ¬Repeats first (conn.resend p) := by
  intro hrep
  have hack := hrep.ack
  rw [resend_flags, h.flags, hsyn] at hack
  exact absurd hack (by decide)

theorem FirstSent.repeats (h : FirstSent p first)
    (hkind : p.flags = Flag.psh ||| Flag.ack ∨ p.flags = Flag.fin ||| Flag.ack) :
    Repeats first (conn.resend p) := by
  -- the flag that the timer sets is set already
  have hset : p.flags ||| Flag.ack = p.flags := by
    rcases hkind with hkind | hkind <;> rw [hkind] <;> decide
  have hflags : (conn.resend p).flags = first.flags := by rw [resend_flags, hset, h.flags]
  exact ⟨h.seq.symm, by rw [hflags], by rw [hflags], by rw [hflags], h.payload.symm⟩

theorem Traced.mem_retransmissions {x : Segment × Segment} (hx : x ∈ t.retransmissions now) :
    t.conn.state ≠ .closed ∧ ∃ p, (p, x.1) ∈ t.conn.pending.zip t.origins ∧ p.resent now ∧
      x.2 = t.conn.resend p := by
  unfold Traced.retransmissions at hx
  split at hx
  · cases hx
  · rename_i hclosed
    obtain ⟨⟨p, first⟩, hmem, rfl⟩ := List.mem_map.mp hx
    obtain ⟨hzip, hresent⟩ := List.mem_filter.mp hmem
    exact ⟨hclosed, p, hzip, decide_eq_true_iff.mp hresent, rfl⟩

/-- Every entry that is sent again has its origin. -/
theorem Traced.Ok.exists_retransmission (h : t.Ok) (hclosed : t.conn.state ≠ .closed)
    (hp : p ∈ t.conn.pending) (hresent : p.resent now) :
    ∃ first, FirstSent p first ∧ (first, t.conn.resend p) ∈ t.retransmissions now := by
  have hmem : p ∈ ((t.conn.pending.zip t.origins).filter fun x => x.1.resent now).map
      Prod.fst := by
    rw [map_fst_filter_zip h.origins fun p => decide (p.resent now)]
    exact List.mem_filter.mpr ⟨hp, decide_eq_true hresent⟩
  obtain ⟨⟨p', first⟩, hx, rfl⟩ := List.mem_map.mp hmem
  refine ⟨first, forall₂_of_mem_zip h.origins (List.mem_filter.mp hx).1, ?_⟩
  unfold Traced.retransmissions
  rw [if_neg hclosed]
  exact List.mem_map.mpr ⟨_, hx, rfl⟩

/-- **The timer repeats what was sent, except for SYNs.**  After every history, all that the
timer sends repeats the first frame of its queue entry exactly when the connection is not
one that waits for an answer to a SYN that is due. -/
theorem retransmissions_repeat_iff (localPort : UInt16) (remoteIp : Ip) (remotePort : UInt16)
    (peerMac : Mac) (iss : UInt32) (start : ℕ) (es : List Event) {t : Traced}
    (hrun : (Traced.opening localPort remoteIp remotePort peerMac iss start).run es = some t)
    (now : ℕ) :
    (t.retransmissions now).map Prod.snd = t.conn.emits (.tick now) ∧
      ((∀ x ∈ t.retransmissions now, Repeats x.1 x.2) ↔
        ¬(t.conn.state = .synSent ∧ ∃ p ∈ t.conn.pending, p.resent now)) := by
  have hok : t.Ok := Traced.Ok.run (.opening localPort remoteIp remotePort peerMac iss start) hrun
  refine ⟨hok.retransmissions_snd now, fun hall ⟨hsyn, p, hp, hresent⟩ => ?_, fun hno x hx => ?_⟩
  · have hclosed : t.conn.state ≠ .closed := by
      rw [hsyn]
      nofun
    obtain ⟨first, hfirst, hx⟩ := hok.exists_retransmission hclosed hp hresent
    exact hfirst.not_repeats (hok.syn hsyn p hp) (hall _ hx)
  · obtain ⟨hclosed, p, hzip, hresent, hagain⟩ := Traced.mem_retransmissions hx
    have hp : p ∈ t.conn.pending := (List.of_mem_zip hzip).1
    have hsyn : t.conn.state ≠ .synSent := fun hsyn => hno ⟨hsyn, p, hp, hresent⟩
    rw [hagain]
    exact (forall₂_of_mem_zip hok.origins hzip).repeats (hok.later hsyn hclosed p hp)

/-- The history of `sampleConn` up to a time. -/
def sampleTrace : Traced :=
  .opening 49152 sampleIp 80 sampleMac 1000 0

/-- Three bytes that are not acknowledged are sent again as they were. -/
theorem retransmissions_repeat_threeBytes :
    ∃ t, sampleTrace.run [sampleSynAck, .send [1, 2, 3] 5] = some t ∧
      (t.retransmissions 300).length = 1 ∧ ∀ x ∈ t.retransmissions 300, Repeats x.1 x.2 := by
  refine ⟨_, rfl, rfl, ?_⟩
  refine (retransmissions_repeat_iff 49152 sampleIp 80 sampleMac 1000 0
    [sampleSynAck, .send [1, 2, 3] 5] rfl 300).2.mpr ?_
  rintro ⟨hsyn, -⟩
  cases hsyn

/-- A SYN that is sent again bears the ACK flag. -/
theorem syn_not_repeated : ∃ x ∈ sampleTrace.retransmissions 200, ¬Repeats x.1 x.2 := by
  refine ⟨_, List.mem_singleton_self _, fun hrep => ?_⟩
  exact absurd hrep.ack (by decide)

end RacOS.Net.Tcp
