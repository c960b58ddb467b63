import RacOS.Lib.Runs
import RacOS.Net.TcpSegments

/-!
# Flow control

How many payload bytes are under way, compared with the window that the peer has advertised
last.  Positions in the stream of a connection are counted from its SYN, without wrapping
around: what has been sent, what the peer has acknowledged, and the right edge of its
window.  The connection does not look at the window when it sends, so the bound holds as
long as the calls of `send` stay within the edge.
-/

namespace RacOS.Net.Tcp

/-- A connection, with positions in the stream it sends: `next` is the position of
`sndNxt`, `sent` counts the payload bytes, `acked` is what the peer has acknowledged; the
last window of the peer is `window` and ends at `edge`. -/
structure Flow where
  conn : TcpConn
  next : ℕ
  sent : ℕ
  acked : ℕ
  window : ℕ
  edge : ℕ

namespace Flow

def opening (localPort : UInt16) (remoteIp : Ip) (remotePort : UInt16) (peerMac : Mac)
    (iss : UInt32) (now : ℕ) : Flow where
  conn := TcpConn.opening localPort remoteIp remotePort peerMac iss now
  next := 0
  sent := 0
  acked := 0
  window := 0
  edge := 0

/-- The payload of some frames. -/
def payloadLen (frames : List Segment) : ℕ := (frames.flatMap Segment.payload).length

/-- The position that a sequence number of the peer's ACK field stands for. -/
def position (f : Flow) (ack : UInt32) : ℕ := f.next - SeqNum.dist ack f.conn.sndNxt

/-- The segment tells the window of the peer. -/
def advertises (hdr : TcpHeader) : Bool := hdr.has Flag.ack && !hdr.has Flag.rst

/-- What the peer's segment says. -/
def hear (f : Flow) (hdr : TcpHeader) : Flow :=
  if advertises hdr then
    { f with
      acked := max f.acked (f.position hdr.ack)
      window := hdr.window.toNat
      edge := f.position hdr.ack + hdr.window.toNat }
  else f

/-- The positions after an event, for the connection that it finds. -/
def heard (f : Flow) : Event → Flow
  | .segment hdr _ _ => f.hear hdr
  | .send data now => { f with sent := f.sent + payloadLen (f.conn.emits (.send data now)) }
  | _ => f

/-- An event; what the timer sends again is not counted once more. -/
def step (e : Event) (s : Option Flow) : Option Flow :=
  s.bind fun f => (f.conn.step e).map fun r =>
    { f.heard e with
      conn := r.2
      next := f.next + SeqNum.dist f.conn.sndNxt r.2.sndNxt }

/-- The payload bytes that are sent and not acknowledged. -/
def unacked (f : Flow) : ℕ := f.sent - f.acked

def Bounded (s : Option Flow) : Prop := ∀ f, s = some f → f.unacked ≤ f.window

/-- The peer acknowledges what has been sent, and its window does not move to the left. -/
def Peer (e : Event) (s : Option Flow) : Prop :=
  ∀ f, s = some f → ∀ hdr options data, e = .segment hdr options data → advertises hdr →
    SeqNum.dist hdr.ack f.conn.sndNxt ≤ f.next ∧ f.edge ≤ f.position hdr.ack + hdr.window.toNat

/-- What is sent ends within the window. -/
def WithinEdge (e : Event) (s : Option Flow) : Prop :=
  ∀ f, s = some f → ∀ data now, e = .send data now → f.conn.state = .established →
    f.sent + data.length ≤ f.edge

/-- The window in terms of positions. -/
structure Ok (f : Flow) : Prop where
  sent : f.sent ≤ f.edge
  edge : f.edge ≤ f.acked + f.window

theorem Ok.bounded {f : Flow} (h : f.Ok) : f.unacked ≤ f.window := by
  have hsent := h.sent
  have hedge := h.edge
  unfold unacked
  omega

theorem Ok.hear {f : Flow} (h : f.Ok) {hdr : TcpHeader}
    (hpeer : advertises hdr → f.edge ≤ f.position hdr.ack + hdr.window.toNat) :
    (f.hear hdr).Ok := by
  unfold Flow.hear
  split
  · rename_i had
    exact ⟨h.sent.trans (hpeer had), Nat.add_le_add_right (le_max_right _ _) _⟩
  · exact h

/-- `send` sends its data once, and only on an established connection. -/
theorem payloadLen_send {conn conn' : TcpConn} {data : List UInt8} {now : ℕ} {out : List UInt8}
    (hstep : conn.step (.send data now) = some (out, conn')) :
    payloadLen (conn.emits (.send data now)) =
      if conn.state = .established then data.length else 0 := by
  obtain ⟨c, hsettle, -⟩ := Option.map_eq_some_iff.mp hstep
  rw [emits_send]
  unfold TcpConn.send at hsettle ⊢
  by_cases hest : conn.state = .established
  · rw [if_neg (not_not.mpr hest)] at hsettle ⊢
    rw [if_pos hest]
    by_cases hfits : min data.length conn.mss.toNat ≤ maxPayload
    · obtain ⟨frames, conn', hloop, hchunks⟩ :
          ∃ frames conn', conn.sendLoop now data.length data = some (frames, conn') ∧
            Chunked conn.sndNxt data conn.mss.toNat frames := sendLoop_chunked le_rfl hfits
      rw [hloop]
      change (frames.flatMap Segment.payload).length = _
      rw [hchunks.payload]
    · rw [sendLoop_panics (by omega) (not_le.mp hfits)] at hsettle
      cases hsettle
  · rw [if_pos hest, if_neg hest]
    rfl

theorem Ok.heard {f : Flow} {e : Event} {r : List UInt8 × TcpConn} (h : f.Ok)
    (hstep : f.conn.step e = some r) (hpeer : Peer e (some f)) (hedge : WithinEdge e (some f)) :
    (f.heard e).Ok := by
  cases e with
  | segment hdr options data => exact h.hear fun had => (hpeer f rfl hdr options data rfl had).2
  | send data now =>
    refine ⟨?_, h.edge⟩
    change f.sent + payloadLen _ ≤ f.edge
    rw [payloadLen_send hstep]
    split
    · rename_i hest
      exact hedge f rfl data now rfl hest
    · exact h.sent
  | close _ | read _ | tick _ => exact h

/-- **Flow control is left to the callers of `send`.**  In every run from `connect` in which
the right edge of the peer's window never moves to the left and no `send` goes beyond it,
the payload under way is at most the last window. -/
theorem bounded_of_withinEdge (localPort : UInt16) (remoteIp : Ip) (remotePort : UInt16)
    (peerMac : Mac) (iss : UInt32) (now : ℕ) (es : List Event)
    (hpeer : Runs.Along step Peer es
      (some (opening localPort remoteIp remotePort peerMac iss now)))
    (hes : Runs.Along step WithinEdge es
      (some (opening localPort remoteIp remotePort peerMac iss now))) :
    Bounded (Runs.run step es (some (opening localPort remoteIp remotePort peerMac iss now))) := by
  have hok : ∀ f, Runs.run step es
      (some (opening localPort remoteIp remotePort peerMac iss now)) = some f → f.Ok := by
    refine Runs.invariant_of_along (I := fun s => ∀ f, s = some f → f.Ok) ?_ ?_
      (hpeer.and hes)
    · rintro e s hs ⟨hp, hw⟩ f' hf'
      obtain ⟨f, rfl, hmap⟩ := Option.bind_eq_some_iff.mp hf'
      obtain ⟨r, hstep, rfl⟩ := Option.map_eq_some_iff.mp hmap
      have hheard := (hs f rfl).heard hstep hp hw
      exact ⟨hheard.sent, hheard.edge⟩
    · intro f hf
      obtain rfl := Option.some.inj hf
      exact ⟨le_rfl, le_rfl⟩
  exact fun f hf => (hok f hf).bounded

/-- `sampleConn` before it has heard anything. -/
def sample : Flow := opening 49152 sampleIp 80 sampleMac 1000 0

/-- The answer to the SYN, with a window of `n` bytes. -/
def sampleAnswer (n : UInt16) : Event :=
  .segment { sampleHeader 5000 1001 (Flag.syn ||| Flag.ack) with window := n } [] []

theorem peer_sampleAnswer (n : UInt16) :
    Runs.Along step Peer [sampleAnswer n, .send [1, 2] 5] (some sample) := by
  refine ⟨?_, ?_, trivial⟩
  · intro f hf hdr options data heq _
    obtain rfl := Option.some.inj hf
    cases heq
    have hacked : SeqNum.dist (sampleHeader 5000 1001 (Flag.syn ||| Flag.ack)).ack
        sample.conn.sndNxt ≤ sample.next := by decide
    exact ⟨hacked, Nat.zero_le _⟩
  · intro f hf hdr options data heq
    cases heq

theorem bounded_two_bytes :
    Bounded (Runs.run step [sampleAnswer 4, .send [1, 2] 5] (some sample)) := by
  refine bounded_of_withinEdge 49152 sampleIp 80 sampleMac 1000 0 _ (peer_sampleAnswer 4)
    ⟨?_, ?_, trivial⟩
  · intro f hf data now heq
    cases heq
  · intro f hf data now heq _
    obtain rfl := Option.some.inj hf
    cases heq
    decide

/-- Two bytes go out into a window of one byte. -/
theorem not_bounded_small_window :
    Runs.Along step Peer [sampleAnswer 1, .send [1, 2] 5] (some sample) ∧
      ¬Bounded (Runs.run step [sampleAnswer 1, .send [1, 2] 5] (some sample)) := by
  refine ⟨peer_sampleAnswer 1, fun h => ?_⟩
  exact absurd (h _ rfl) (by decide)

end Flow

end RacOS.Net.Tcp
