import RacOS.Lib.Runs
import RacOS.Net.TcpRetransmit

/-!
# The advertised window

Every segment advertises the same window, half of the receive buffer.  It is honest as long
as at most half of the buffer is in use: then the window is no larger than the room left,
and what arrives within it is taken in.
-/

namespace RacOS.Net.Tcp

variable {conn conn' : TcpConn} {hdr : TcpHeader} {options data : List UInt8}

/-! ## Frames and the receiving side -/

/-- A frame that tells the peer what has been received and how much may follow. -/
def TcpConn.Tells (conn : TcpConn) (f : Segment) : Prop :=
  f.window = conn.rcvWnd ∧ f.ack = conn.rcvNxt

theorem sendLoop_tells {now fuel : ℕ} {frames : List Segment}
    (h : conn.sendLoop now fuel data = some (frames, conn')) : ∀ f ∈ frames, conn.Tells f := by
  refine TcpConn.sendLoop_induction (P := fun conn _ frames _ => ∀ f ∈ frames, conn.Tells f)
    ?_ ?_ h
  · exact fun _ _ => List.forall_mem_nil _
  · intro conn data frames last hfits _ p htells
    exact List.forall_mem_cons.mpr ⟨⟨rfl, rfl⟩, htells⟩

variable {e : Event} {out : List UInt8}

/-- What is sent tells the state after the event, except for the reset of a wrong answer to
the SYN, which advertises nothing. -/
theorem emits_tells (hstep : conn.step e = some (out, conn')) {f : Segment}
    (hf : f ∈ conn.emits e) : conn'.Tells f ∨ conn'.state = .synSent ∧ f.window = 0 := by
  cases e with
  | segment hdr options data =>
    obtain ⟨-, rfl⟩ := Prod.mk.inj (Option.some.inj hstep)
    rw [emits_segment] at hf
    by_cases hsyn : conn.state = .synSent
    · by_cases hrst : hdr.has Flag.rst
      · rw [processSegment, if_pos hrst] at hf
        cases hf
      · rw [processSegment_synSent hsyn hrst] at hf ⊢
        unfold processSynSent at hf ⊢
        split at hf
        · cases hf
        · rename_i hflags
          rw [if_neg hflags]
          split at hf
          · rename_i hack
            rw [if_pos hack]
            rw [List.mem_singleton.mp hf]
            exact .inr ⟨hsyn, rfl⟩
          · rename_i hack
            rw [if_neg hack]
            rw [List.mem_singleton.mp hf]
            exact .inl ⟨rfl, rfl⟩
    · by_cases h : hdr.has Flag.rst ∨ ¬conn.state.receiving
      · rw [processSegment_ack_of_not_receiving hsyn h] at hf
        cases hf
      · obtain ⟨hrst, hopen⟩ := not_or.mp h
        rw [not_not] at hopen
        rw [processSegment_open hopen hrst, processOpen_ack] at hf
        rw [processSegment_open hopen hrst]
        split at hf
        · rw [List.mem_singleton.mp hf]
          exact .inl ⟨rfl, rfl⟩
        · cases hf
  | send data now =>
    rw [emits_send] at hf
    obtain ⟨-, ⟨⟨e, hsend⟩, -⟩ | ⟨segments, -, hsend, hloop⟩⟩ := TcpConn.step_send hstep
    · rw [hsend] at hf
      cases hf
    · rw [hsend] at hf
      obtain ⟨hwindow, hack⟩ := sendLoop_tells hloop f hf
      obtain ⟨hsame, -⟩ := sendLoop_same hloop
      exact .inl ⟨by rw [hwindow, hsame.rcvWnd], by rw [hack, hsame.rcvNxt]⟩
  | close now =>
    rw [emits_close] at hf
    obtain ⟨-, ⟨⟨e, hclose⟩, -⟩ | ⟨-, rfl, hclose⟩⟩ := TcpConn.step_close hstep
    · rw [hclose] at hf
      cases hf
    · rw [hclose] at hf
      rw [List.mem_singleton.mp hf]
      exact .inl ⟨rfl, rfl⟩
  | read n => cases hf
  | tick now =>
    obtain ⟨hopen, -, rfl⟩ := TcpConn.step_tick hstep
    rw [emits_tick, if_neg hopen] at hf
    obtain ⟨p, -, rfl⟩ := List.mem_map.mp hf
    exact .inl ⟨rfl, rfl⟩

/-- When an event makes a synchronised connection send nothing, nothing has been received
either. -/
theorem rcvNxt_of_emits_nil (hstep : conn.step e = some (out, conn'))
    (hsync : conn'.state.synchronised) (hnone : conn.emits e = []) :
    conn'.rcvNxt = conn.rcvNxt ∧ conn.state.synchronised := by
  rcases TcpConn.step_cases hstep with ⟨hdr, options, data, rfl, -, rfl⟩ | ⟨-, hsame, hmove⟩
  · have hrst : ¬hdr.has Flag.rst := fun hrst => by
      rw [processSegment_rst hrst] at hsync
      exact hsync.1 rfl
    have hclosed : conn.state ≠ .closed := fun hst => hsync.1 (processSegment_closed hst)
    rw [emits_segment] at hnone
    by_cases hsyn : conn.state = .synSent
    · rw [processSegment_synSent hsyn hrst] at hsync hnone
      unfold processSynSent at hsync hnone
      split at hnone
      · rename_i hflags
        rw [if_pos hflags] at hsync
        exact absurd hsyn hsync.2
      · split at hnone <;> cases hnone
    · refine ⟨?_, hclosed, hsyn⟩
      by_cases hopen : conn.state.receiving
      · rw [processSegment_open hopen hrst] at hnone ⊢
        rw [processOpen_ack] at hnone
        split at hnone
        · cases hnone
        · rename_i hnew
          exact (processOpen_unmoved_iff.mpr fun hin => hnew (.inl hin)).1
      · obtain ⟨s, heq, -⟩ := processSegment_idle options data hrst hopen hsyn
        rw [heq]
  · refine ⟨hsame.rcvNxt, ?_⟩
    generalize conn.state = old at hmove ⊢
    generalize conn'.state = new at hmove hsync
    cases hmove with
    | same => exact hsync
    | closed => exact absurd rfl hsync.1
    | finWait1 => exact ⟨by decide, by decide⟩
    | lastAck => exact ⟨by decide, by decide⟩

/-! ## The last frame -/

/-- A connection with the last frame that it has sent. -/
structure Advertised where
  conn : TcpConn
  last : Segment

namespace Advertised

/-- A new connection has sent its SYN. -/
def opening (localPort : UInt16) (remoteIp : Ip) (remotePort : UInt16) (peerMac : Mac)
    (iss : UInt32) (now : ℕ) : Advertised :=
  let conn := TcpConn.opening localPort remoteIp remotePort peerMac iss now
  ⟨conn, conn.synFrame⟩

/-- An event; there is nothing after a panic or once the connection has left the table. -/
def step (e : Event) (s : Option Advertised) : Option Advertised :=
  s.bind fun a => (a.conn.step e).map fun r =>
    ⟨r.2, (a.conn.emits e).getLast?.getD a.last⟩

/-- A segment brings the next bytes of the peer's stream, and they end within the window
that was advertised last. -/
def Brings (a : Advertised) (hdr : TcpHeader) (data : List UInt8) : Prop :=
  a.conn.state.synchronised ∧ ¬a.conn.peerFinSeen ∧ ¬hdr.has Flag.rst ∧ data ≠ [] ∧
    hdr.seq = a.conn.rcvNxt ∧ SeqNum.dist a.last.ack hdr.seq + data.length ≤ a.last.window.toNat

/-- The event keeps the promise of the window: what is sent in it advertises no more than
the room in the buffer, and what was promised is taken in. -/
structure HonestAt (a : Advertised) (e : Event) : Prop where
  room : ∀ out conn', a.conn.step e = some (out, conn') → ∀ f ∈ a.conn.emits e,
    f.window.toNat + conn'.recvBuf.length ≤ recvBufLimit
  taken : ∀ hdr options data, e = .segment hdr options data → a.Brings hdr data →
    (processSegment a.conn hdr options data).2.recvBuf = a.conn.recvBuf ++ data

def Honest (e : Event) (s : Option Advertised) : Prop := ∀ a, s = some a → a.HonestAt e

/-- At most half of the buffer is in use, with what a segment brings in order. -/
def HalfFullAt (a : Advertised) : Event → Prop
  | .segment hdr _ data =>
    a.conn.recvBuf.length + (if hdr.seq = a.conn.rcvNxt then data.length else 0) ≤
      defaultWindow.toNat
  | .read _ => True
  | _ => a.conn.recvBuf.length ≤ defaultWindow.toNat

instance (a : Advertised) : (e : Event) → Decidable (a.HalfFullAt e)
  | .segment _ _ _ => inferInstanceAs (Decidable (_ ≤ _))
  | .read _ => inferInstanceAs (Decidable True)
  | .send _ _ => inferInstanceAs (Decidable (_ ≤ _))
  | .close _ => inferInstanceAs (Decidable (_ ≤ _))
  | .tick _ => inferInstanceAs (Decidable (_ ≤ _))

def HalfFull (e : Event) (s : Option Advertised) : Prop := ∀ a, s = some a → a.HalfFullAt e

/-- The peer knows what has been received, and that it may send a whole window. -/
structure Known (a : Advertised) : Prop where
  rcvWnd : a.conn.rcvWnd = defaultWindow
  last : a.conn.state.synchronised → a.last.ack = a.conn.rcvNxt ∧ a.last.window = defaultWindow
  fin : FinSeen a.conn

theorem Known.opening (localPort : UInt16) (remoteIp : Ip) (remotePort : UInt16) (peerMac : Mac)
    (iss : UInt32) (now : ℕ) :
    (Advertised.opening localPort remoteIp remotePort peerMac iss now).Known :=
  ⟨rfl, fun h => absurd rfl h.2, by rintro (h | h | h) <;> cases h⟩

variable {a a' : Advertised}

theorem step_eq_some (h : step e (some a) = some a') :
    ∃ out, a.conn.step e = some (out, a'.conn) ∧
      a'.last = (a.conn.emits e).getLast?.getD a.last := by
  obtain ⟨⟨out, conn'⟩, hstep, rfl⟩ := Option.map_eq_some_iff.mp h
  exact ⟨out, hstep, rfl⟩

theorem Known.step (h : a.Known) (hstep : step e (some a) = some a') : a'.Known := by
  obtain ⟨out, hconn, hlast⟩ := step_eq_some hstep
  have hwnd : a'.conn.rcvWnd = defaultWindow := (TcpConn.step_rcvWnd hconn).trans h.rcvWnd
  refine ⟨hwnd, fun hsync => ?_, h.fin.step hconn⟩
  rw [hlast]
  cases hframes : (a.conn.emits e).getLast? with
  | none =>
    have hnone := List.getLast?_eq_none_iff.mp hframes
    obtain ⟨hnxt, hold⟩ := rcvNxt_of_emits_nil hconn hsync hnone
    rw [hnxt]
    exact h.last hold
  | some f =>
    rcases emits_tells hconn (List.mem_of_getLast? hframes) with ⟨hwindow, hack⟩ | ⟨hsyn, -⟩
    · exact ⟨hack, hwindow.trans hwnd⟩
    · exact absurd hsyn hsync.2

theorem length_taken_le (conn : TcpConn) (hdr : TcpHeader) (data : List UInt8) :
    (data.take (conn.taken hdr data)).length ≤
      if hdr.seq = conn.rcvNxt then data.length else 0 := by
  rw [List.length_take]
  unfold TcpConn.taken
  split
  · rename_i hin
    rw [if_pos hin.2]
    omega
  · exact (Nat.min_le_left _ _).trans (Nat.zero_le _)

theorem length_recvBuf_le {conn' : TcpConn} (h : a.HalfFullAt e)
    (hstep : a.conn.step e = some (out, conn')) (hread : ∀ n, e ≠ .read n) :
    conn'.recvBuf.length ≤ defaultWindow.toNat := by
  rcases TcpConn.step_cases hstep with ⟨hdr, options, data, rfl, -, rfl⟩ | ⟨hother, hsame, -⟩
  · have hhalf : a.conn.recvBuf.length +
        (if hdr.seq = a.conn.rcvNxt then data.length else 0) ≤ defaultWindow.toNat := h
    rcases processSegment_cases a.conn hdr options data with
      ⟨-, -, heq⟩ | ⟨-, heq⟩ | ⟨hsame, -, -⟩
    · rw [heq, processOpen_recvBuf, List.length_append]
      have hle := length_taken_le a.conn hdr data
      omega
    · rw [heq]
      rcases processSynSent_cases a.conn hdr options with hsame | ⟨_, _, hnew, -⟩
      · rw [hsame]
        omega
      · rw [hnew]
        change a.conn.recvBuf.length ≤ _
        omega
    · rw [← hsame.recvBuf, List.nil_append] at hhalf
      omega
  · have hhalf : a.conn.recvBuf.length ≤ defaultWindow.toNat := by
      cases e with
      | segment hdr options data => exact absurd rfl (hother hdr options data)
      | read n => exact absurd rfl (hread n)
      | send _ _ | close _ | tick _ => exact h
    rw [← hsame.recvBuf, List.length_append] at hhalf
    omega

theorem Known.honestAt (hk : a.Known) (h : a.HalfFullAt e) : a.HonestAt e := by
  have hlimit : recvBufLimit = 2 * defaultWindow.toNat := by decide
  refine ⟨fun out conn' hstep f hf => ?_, fun hdr options data heq hbrings => ?_⟩
  · have hbuf := length_recvBuf_le h hstep fun n hn => by
      subst hn
      cases hf
    have hwindow : f.window.toNat ≤ defaultWindow.toNat := by
      rcases emits_tells hstep hf with ⟨hwindow, -⟩ | ⟨-, hwindow⟩
      · rw [hwindow, TcpConn.step_rcvWnd hstep, hk.rcvWnd]
      · rw [hwindow]
        exact Nat.zero_le _
    omega
  · subst heq
    obtain ⟨hsync, hfin, hrst, hdata, hseq, hend⟩ := hbrings
    have hopen : a.conn.state.receiving := by
      cases hst : a.conn.state with
      | established | finWait1 | finWait2 | closeWait => rfl
      | closed => exact absurd hst hsync.1
      | synSent => exact absurd hst hsync.2
      | lastAck => exact absurd (hk.fin (.inr (.inl hst))) hfin
      | timeWait => exact absurd (hk.fin (.inr (.inr hst))) hfin
    have hhalf : a.conn.recvBuf.length +
        (if hdr.seq = a.conn.rcvNxt then data.length else 0) ≤ defaultWindow.toNat := h
    rw [if_pos hseq] at hhalf
    have htaken : a.conn.taken hdr data = data.length := by
      rw [TcpConn.taken, if_pos ⟨hdata, hseq⟩]
      omega
    rw [processSegment_open hopen hrst, processOpen_recvBuf, htaken, List.take_length]

/-- **The advertised window is honest while half of the buffer is free.**  In every run
from `connect` in which the buffer, with what comes in order, is never more than half full
when an event happens, every segment that is sent advertises at most the room that is left,
and what arrives in order within the window is taken in. -/
theorem honest_of_halfFull (localPort : UInt16) (remoteIp : Ip) (remotePort : UInt16)
    (peerMac : Mac) (iss : UInt32) (now : ℕ) (es : List Event)
    (hes : Runs.Along step HalfFull es
      (some (opening localPort remoteIp remotePort peerMac iss now))) :
    Runs.Along step Honest es (some (opening localPort remoteIp remotePort peerMac iss now)) := by
  refine Runs.along_of_along (I := fun s => ∀ a, s = some a → a.Known) ?_ ?_ ?_ hes
  · intro e s hs _ a' ha'
    obtain ⟨a, rfl, -⟩ := Option.bind_eq_some_iff.mp ha'
    exact (hs a rfl).step ha'
  · exact fun e s hs hhalf a ha => (hs a ha).honestAt (hhalf a ha)
  · intro a ha
    obtain rfl := Option.some.inj ha
    exact .opening localPort remoteIp remotePort peerMac iss now

/-- `sampleConn` with its SYN. -/
def sample : Advertised := opening 49152 sampleIp 80 sampleMac 1000 0

theorem honest_one_byte :
    Runs.Along step Honest
      [sampleSynAck, .segment (sampleHeader 5001 1001 Flag.ack) [] [97]] (some sample) := by
  refine honest_of_halfFull 49152 sampleIp 80 sampleMac 1000 0 _
    ⟨fun a ha => ?_, fun a ha => ?_, trivial⟩ <;>
  · obtain rfl := Option.some.inj ha
    decide

/-- A frame of an event advertises more than the room that is left after it. -/
def overpromises (e : Event) (a : Advertised) : Bool :=
  (a.conn.step e).any fun r =>
    (a.conn.emits e).any fun f => recvBufLimit < f.window.toNat + r.2.recvBuf.length

theorem not_honest_of_overpromises {s : Option Advertised} (h : s.any (overpromises e)) :
    ¬Honest e s := by
  intro hhonest
  cases s with
  | none => cases h
  | some a =>
    cases hstep : a.conn.step e with
    | none =>
      rw [Option.any_some, overpromises, hstep] at h
      cases h
    | some r =>
      rw [Option.any_some, overpromises, hstep, Option.any_some, List.any_eq_true] at h
      obtain ⟨f, hf, hlong⟩ := h
      have hroom := (hhonest a rfl).room r.1 r.2 hstep f hf
      exact absurd (of_decide_eq_true hlong) (not_lt.mpr hroom)

/-- The segment with the bytes of the peer's stream from `1400 * k` on. -/
def sampleBlock (k : ℕ) : Event :=
  .segment (sampleHeader (5001 + 1400 * UInt32.ofNat k) 1001 Flag.ack) [] (List.replicate 1400 0)

/-- Six full segments that the process has not read leave less room than is advertised. -/
theorem not_honest_six_segments : ∃ es, ¬Runs.Along step Honest es (some sample) :=
  ⟨(sampleSynAck :: (List.range 5).map sampleBlock) ++ [sampleBlock 5], fun h =>
    not_honest_of_overpromises (by decide +kernel) h.last⟩

end Advertised

end RacOS.Net.Tcp
