import RacOS.Net.TcpReceive

/-!
# Segments outside the receive window

The receive window starts at `rcvNxt` and has the advertised size, which never
changes.  A segment all of whose sequence numbers lie outside of it brings no
data and no FIN.  The RST flag and the ACK field are looked at all the same, and
the theorem names the cases in which they change the state of the connection.
-/

namespace RacOS.Net.Tcp

variable {conn conn' : TcpConn} {hdr : TcpHeader} {options data : List UInt8}

/-- The connection knows the peer's sequence numbers. -/
def State.synchronised (s : State) : Prop := s ≠ .closed ∧ s ≠ .synSent

/-- The sequence numbers a segment takes up: its payload, its SYN and its FIN. -/
def segmentLen (hdr : TcpHeader) (data : List UInt8) : ℕ :=
  data.length + (if hdr.has Flag.syn then 1 else 0) + (if hdr.has Flag.fin then 1 else 0)

/-- No sequence number of the segment lies in the window; an empty segment
counts with the number it bears. -/
def TcpConn.OutsideWindow (conn : TcpConn) (hdr : TcpHeader) (data : List UInt8) : Prop :=
  ∀ k < max 1 (segmentLen hdr data),
    conn.rcvWnd.toNat ≤ SeqNum.dist conn.rcvNxt (hdr.seq + UInt32.ofNat k)

theorem TcpConn.step_rcvWnd {e : Event} {out : List UInt8}
    (h : conn.step e = some (out, conn')) : conn'.rcvWnd = conn.rcvWnd := by
  rcases TcpConn.step_cases h with
    ⟨hdr, options, data, -, -, rfl⟩ | ⟨-, hsame, -⟩
  · rcases processSegment_cases conn hdr options data with
      ⟨-, -, heq⟩ | ⟨-, heq⟩ | ⟨hsame, -, -⟩
    · rw [heq, processOpen_rcvWnd]
    · rw [heq]
      rcases processSynSent_cases conn hdr options with hsame | ⟨_, _, hnew, -⟩
      · rw [hsame]
      · rw [hnew]
    · exact hsame.rcvWnd
  · exact hsame.rcvWnd

/-- The advertised window never changes. -/
theorem Reached.rcvWnd (h : Reached conn) : conn.rcvWnd = defaultWindow :=
  h.invariant (I := fun c => c.rcvWnd = defaultWindow) (fun _ _ _ _ _ _ => rfl)
    fun hold hstep => (TcpConn.step_rcvWnd hstep).trans hold

/-- The number `rcvNxt` lies in the window, so it is none of the segment's. -/
theorem TcpConn.OutsideWindow.ne (h : conn.OutsideWindow hdr data) (hconn : Reached conn) {k : ℕ}
    (hk : k < max 1 (segmentLen hdr data)) : hdr.seq + UInt32.ofNat k ≠ conn.rcvNxt := by
  intro heq
  have hwnd := h k hk
  rw [heq, SeqNum.dist_self, hconn.rcvWnd] at hwnd
  exact absurd hwnd (by decide)

theorem TcpConn.OutsideWindow.not_inOrder (h : conn.OutsideWindow hdr data)
    (hconn : Reached conn) : ¬conn.InOrder hdr data := by
  rintro (⟨-, hseq, -⟩ | ⟨hfin, hseq⟩)
  · refine h.ne hconn (k := 0) (by omega) ?_
    rw [hseq]
    exact add_ofNat_zero _
  · refine h.ne hconn (k := data.length) ?_ hseq
    unfold segmentLen
    rw [if_pos hfin]
    omega

/-- The segment closes the connection or acknowledges its FIN. -/
def TcpConn.ChangesState (conn : TcpConn) (hdr : TcpHeader) : Prop :=
  hdr.has Flag.rst ∨ (conn.state = .lastAck ∧ hdr.has Flag.ack ∧ hdr.ack = conn.sndNxt) ∨
    (conn.state = .finWait1 ∧ conn.FinAcked hdr)

/-- **A segment outside the window is inert unless it resets the connection or
acknowledges its FIN.** -/
theorem out_of_window_inert_iff (hconn : Reached conn)
    (hsync : conn.state.synchronised) (hout : conn.OutsideWindow hdr data) :
    ((processSegment conn hdr options data).2.state = conn.state ∧
        (processSegment conn hdr options data).2.rcvNxt = conn.rcvNxt ∧
        (processSegment conn hdr options data).2.recvBuf = conn.recvBuf) ↔
      ¬conn.ChangesState hdr := by
  have hno := hout.not_inOrder hconn
  unfold TcpConn.ChangesState
  by_cases hrst : hdr.has Flag.rst
  · rw [processSegment_rst hrst]
    exact iff_of_false (fun h => hsync.1 h.1.symm) (fun h => h (Or.inl hrst))
  · by_cases hopen : conn.state.receiving
    · have hlast : conn.state ≠ .lastAck := by
        intro hst
        rw [hst] at hopen
        exact absurd hopen (by simp [State.receiving])
      have hfin : ¬conn.TakesFin hdr data :=
        fun hfin => hno (inOrder_iff.mpr (Or.inr hfin))
      have hstate := (processOpen_of_not_takesFin hfin).2.2
      rw [processSegment_open hopen hrst, processOpen_unmoved_iff.trans (iff_true_intro hno),
        and_true, hstate]
      rcases processAck_state conn hdr with ⟨hsame, hnot⟩ | ⟨hwait, hacked, hnew⟩
      · refine iff_of_true hsame ?_
        rintro (h | ⟨h, -⟩ | h)
        · exact hrst h
        · exact hlast h
        · exact hnot h
      · refine iff_of_false ?_ fun h => h (Or.inr (Or.inr ⟨hwait, hacked⟩))
        rw [hnew, hwait]
        simp
    · have hwait : conn.state ≠ .finWait1 := by
        intro hst
        rw [hst] at hopen
        exact hopen rfl
      rw [(processSegment_behind hopen hsync.2 hrst).2]
      split
      · rename_i hlast
        exact iff_of_false (fun h => hsync.1 h.1.symm) fun h => h (.inr (.inl hlast))
      · rename_i hlast
        refine iff_of_true ⟨rfl, rfl, rfl⟩ ?_
        rintro (h | h | ⟨h, -⟩)
        · exact hrst h
        · exact hlast h
        · exact hwait h

/-- An established connection ignores data from before its window. -/
theorem out_of_window_inert_iff_oldData :
    (processSegment (processSegment sampleConn
        (sampleHeader 5000 1001 (Flag.syn ||| Flag.ack)) [] []).2
      (sampleHeader 4000 1001 Flag.ack) [] [7]).2.state = .established := by
  have hreached : Reached (processSegment sampleConn
      (sampleHeader 5000 1001 (Flag.syn ||| Flag.ack)) [] []).2 :=
    ⟨49152, sampleIp, 80, sampleMac, 1000, 0, [sampleSynAck], [], rfl⟩
  refine ((out_of_window_inert_iff hreached (by constructor <;> decide) ?_).mpr ?_).1
  · intro k hk
    obtain rfl : k = 0 := by
      have : segmentLen (sampleHeader 4000 1001 Flag.ack) [7] = 1 := by decide
      omega
    decide
  · rintro (h | ⟨h, -⟩ | ⟨h, -⟩) <;> exact absurd h (by decide)

/-- A reset far outside the window closes the connection. -/
theorem out_of_window_reset :
    ∃ conn hdr, Reached conn ∧ conn.state.synchronised ∧ conn.OutsideWindow hdr [] ∧
      (processSegment conn hdr [] []).2.state ≠ conn.state := by
  refine ⟨sampleCloseWait, sampleHeader 4000 0 Flag.rst, sampleCloseWait_reached,
    by constructor <;> decide, fun k hk => ?_, by decide⟩
  obtain rfl : k = 0 := by
    have : segmentLen (sampleHeader 4000 0 Flag.rst) [] = 0 := by decide
    omega
  decide

end RacOS.Net.Tcp
