import RacOS.Net.TcpWindow

/-!
# What a TCP connection transmits

The frames that an event makes a connection send, and which segments are answered with an
acknowledgement.  A segment is acknowledged when it brings something new or bears a SYN;
one that repeats what has been received is dropped without an answer.
-/

namespace RacOS.Net.Tcp

variable {conn conn' : TcpConn} {hdr : TcpHeader} {options data : List UInt8}

/-! ## Frames -/

/-- The frames of a call that may fail. -/
def framesOf : Except (Failure TcpError) (List Segment × TcpConn) → List Segment
  | .ok r => r.1
  | .error _ => []

/-- The frames that an event makes a connection send. -/
def TcpConn.emits (conn : TcpConn) : Event → List Segment
  | .segment hdr options data =>
    (processSegment conn hdr options data).1.ack.toList.map AckParams.segment
  | .send data now => framesOf (conn.send data now)
  | .close now => framesOf (conn.close now)
  | .read _ => []
  | .tick now => if conn.state = .closed then [] else (conn.tick now).1

theorem emits_segment (conn : TcpConn) (hdr : TcpHeader) (options data : List UInt8) :
    conn.emits (.segment hdr options data) =
      (processSegment conn hdr options data).1.ack.toList.map AckParams.segment := rfl

theorem emits_send (conn : TcpConn) (data : List UInt8) (now : ℕ) :
    conn.emits (.send data now) = framesOf (conn.send data now) := rfl

theorem emits_close (conn : TcpConn) (now : ℕ) :
    conn.emits (.close now) = framesOf (conn.close now) := rfl

theorem emits_tick (conn : TcpConn) (now : ℕ) :
    conn.emits (.tick now) = if conn.state = .closed then [] else (conn.tick now).1 := rfl

/-! ## Acknowledgements -/

/-- The segment is answered with an ACK for all that has been received. -/
def TcpConn.Acknowledges (conn : TcpConn) (hdr : TcpHeader) (options data : List UInt8) : Prop :=
  ∃ frame ∈ conn.emits (.segment hdr options data), frame.flags &&& Flag.ack ≠ 0 ∧
    frame.ack = (processSegment conn hdr options data).2.rcvNxt

theorem processPayload_fst : (processPayload conn hdr data).1 = conn.taken hdr data := by
  unfold processPayload TcpConn.taken
  split <;> rfl

theorem processFin_fst : (processFin conn hdr data).1 = true ↔
    hdr.has Flag.fin ∧ hdr.seq + UInt32.ofNat data.length = conn.rcvNxt := by
  unfold processFin
  split
  · exact iff_of_true rfl ‹_›
  · exact iff_of_false (by simp) ‹_›

instance : Decidable (conn.InOrder hdr data) := inferInstanceAs (Decidable (_ ∨ _))

/-- An open connection answers a segment that lands in order or bears a SYN. -/
theorem processOpen_ack (conn : TcpConn) (hdr : TcpHeader) (data : List UInt8) :
    (processOpen conn hdr data).1.ack =
      if conn.InOrder hdr data ∨ hdr.has Flag.syn then
        some (ackFor (processOpen conn hdr data).2 Flag.ack)
      else none := by
  have hneed : (decide (0 < (processPayload (processAck conn hdr) hdr data).1) ||
        (processFin (processPayload (processAck conn hdr) hdr data).2 hdr data).1 ||
        hdr.has Flag.syn) = true ↔ conn.InOrder hdr data ∨ hdr.has Flag.syn := by
    rw [Bool.or_eq_true, Bool.or_eq_true, decide_eq_true_iff, processPayload_fst,
      taken_processAck, processFin_fst, ← takesFin_iff, inOrder_iff]
  exact if_congr hneed rfl rfl

/-- A connection that does not wait for its SYN to be answered sends nothing for a
segment unless it is open. -/
theorem processSegment_ack_of_not_receiving (hsyn : conn.state ≠ .synSent)
    (h : hdr.has Flag.rst ∨ ¬conn.state.receiving) :
    (processSegment conn hdr options data).1.ack = none := by
  by_cases hrst : hdr.has Flag.rst
  · unfold processSegment
    rw [if_pos hrst]
  · exact (processSegment_behind (h.resolve_left hrst) hsyn hrst).1

/-- **Which segments are acknowledged.**  A synchronised connection acknowledges a segment
exactly when it does not reset the connection, finds it open, and lands in order or bears
a SYN. -/
theorem acknowledges_iff (hsync : conn.state.synchronised) (hdr : TcpHeader)
    (options data : List UInt8) :
    conn.Acknowledges hdr options data ↔
      ¬hdr.has Flag.rst ∧ conn.state.receiving ∧ (conn.InOrder hdr data ∨ hdr.has Flag.syn) := by
  rw [TcpConn.Acknowledges, emits_segment]
  by_cases h : hdr.has Flag.rst ∨ ¬conn.state.receiving
  · rw [processSegment_ack_of_not_receiving hsync.2 h]
    refine iff_of_false (by simp) fun ⟨hrst, hopen, _⟩ => ?_
    exact h.elim hrst fun hclosed => hclosed hopen
  · obtain ⟨hrst, hopen⟩ := not_or.mp h
    rw [not_not] at hopen
    rw [processSegment_open hopen hrst, processOpen_ack]
    by_cases hnew : conn.InOrder hdr data ∨ hdr.has Flag.syn
    · rw [if_pos hnew]
      refine iff_of_true ⟨_, List.mem_singleton_self _, ?_, rfl⟩ ⟨hrst, hopen, hnew⟩
      exact (by decide : Flag.ack &&& Flag.ack ≠ 0)
    · rw [if_neg hnew]
      exact iff_of_false (by simp) fun h => hnew h.2.2

/-- `sampleConn` once it has received one byte. -/
def sampleOneByte : TcpConn :=
  (processSegment (processSegment sampleConn
      (sampleHeader 5000 1001 (Flag.syn ||| Flag.ack)) [] []).2
    (sampleHeader 5001 1001 Flag.ack) [] [97]).2

/-- The next byte is acknowledged. -/
theorem acknowledges_next_byte :
    sampleOneByte.Acknowledges (sampleHeader 5002 1001 Flag.ack) [] [98] :=
  (acknowledges_iff (by constructor <;> decide) _ _ _).mpr
    ⟨by decide, by decide, .inl (.inl ⟨by decide, by decide, by decide⟩)⟩

/-- The peer sends the byte again because the acknowledgement was lost, and gets no answer. -/
theorem not_acknowledges_repeated_byte :
    Reached sampleOneByte ∧ sampleOneByte.state.synchronised ∧
      seqLe (sampleHeader 5001 1001 Flag.ack).seq sampleOneByte.rcvNxt ∧
      ¬sampleOneByte.Acknowledges (sampleHeader 5001 1001 Flag.ack) [] [97] := by
  refine ⟨⟨49152, sampleIp, 80, sampleMac, 1000, 0,
    [sampleSynAck, .segment (sampleHeader 5001 1001 Flag.ack) [] [97]], [], rfl⟩,
    by constructor <;> decide, by decide, ?_⟩
  rintro ⟨frame, hframe, -⟩
  cases hframe

end RacOS.Net.Tcp
