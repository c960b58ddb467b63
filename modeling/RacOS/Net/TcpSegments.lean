import RacOS.Net.TcpRetransmit

/-!
# Cutting data into segments

`send` cuts its data into chunks of the maximum segment size that the peer has announced.
The sizes of the frames follow from this size alone: it has a lower bound and no upper one,
and the frames fit the network card when it, or the data, is no longer than what the card
takes behind the headers.
-/

namespace RacOS.Net.Tcp

variable {conn conn' : TcpConn}

/-! ## Frames on the wire -/

def ethHdrLen : ℕ := 14

def ipv4HdrLen : ℕ := 20

/-- The size of the buffers that frames are built in. -/
def frameBuffer : ℕ := 1600

/-- The longest frame that `send_frame` of the network card accepts. -/
def mtuBytes : ℕ := 1514

/-- The length of a frame with all its headers. -/
def Segment.frameLen (f : Segment) : ℕ :=
  ethHdrLen + ipv4HdrLen + (tcpHdrLen + (if f.mssOption.isSome then 4 else 0)) + f.payload.length

/-- The longest payload of a frame without options that the network card accepts. -/
def mtuPayload : ℕ := mtuBytes - (ethHdrLen + ipv4HdrLen + tcpHdrLen)

/-- The frames follow each other in sequence space, from `seq` on. -/
def Consecutive : UInt32 → List Segment → Prop
  | _, [] => True
  | seq, f :: fs => f.seq = seq ∧ Consecutive (seq + UInt32.ofNat f.payload.length) fs

/-- `send` puts the data into frames, in order and whole, and every frame fits its buffer
and the network card. -/
def TcpConn.SendsAll (conn : TcpConn) (data : List UInt8) (now : ℕ) : Prop :=
  ∃ frames conn', conn.send data now = .ok (frames, conn') ∧
    frames.flatMap Segment.payload = data ∧ Consecutive conn.sndNxt frames ∧
    ∀ f ∈ frames, f.frameLen ≤ frameBuffer ∧ f.frameLen ≤ mtuBytes

/-! ## The chunk loop -/

/-- What the chunk loop has sent: the data in order, the first chunk being as long as it may
be and no chunk longer. -/
structure Chunked (seq : UInt32) (data : List UInt8) (size : ℕ) (frames : List Segment) : Prop where
  payload : frames.flatMap Segment.payload = data
  seqs : Consecutive seq frames
  noOption : ∀ f ∈ frames, f.mssOption = none
  le : ∀ f ∈ frames, f.payload.length ≤ min data.length size
  first : data ≠ [] → ∃ f ∈ frames, f.payload.length = min data.length size

theorem sendLoop_chunked {now fuel : ℕ} : ∀ {conn : TcpConn} {data : List UInt8},
    data.length ≤ fuel → min data.length conn.mss.toNat ≤ maxPayload →
      ∃ frames conn', conn.sendLoop now fuel data = some (frames, conn') ∧
        Chunked conn.sndNxt data conn.mss.toNat frames := by
  induction fuel with
  | zero =>
    intro conn data hfuel _
    obtain rfl := List.length_eq_zero_iff.mp (Nat.le_zero.mp hfuel)
    exact ⟨[], conn, rfl, rfl, trivial, nofun, nofun, fun h => absurd rfl h⟩
  | succ fuel ih =>
    intro conn data hfuel hfits
    by_cases hdata : data = []
    · subst hdata
      exact ⟨[], conn, rfl, rfl, trivial, nofun, nofun, fun h => absurd rfl h⟩
    · have hmss := conn.mss_ge
      have hpos : 0 < data.length := List.length_pos_iff.mpr hdata
      have hchunk : (data.take conn.mss.toNat).length = min data.length conn.mss.toNat := by
        rw [List.length_take, Nat.min_comm]
      have hfits' : (data.take conn.mss.toNat).length ≤ maxPayload := hchunk ▸ hfits
      have hdrop : (data.drop conn.mss.toNat).length = data.length - conn.mss.toNat :=
        List.length_drop
      have hnext : conn.sendLoop now (fuel + 1) data =
          (TcpConn.sendLoop now fuel
            (conn.enqueue (dataSegment conn.sndNxt (data.take conn.mss.toNat) now hfits'))
            (data.drop conn.mss.toNat)).map fun r =>
              (conn.frame (dataSegment conn.sndNxt (data.take conn.mss.toNat) now hfits')
                (Flag.psh ||| Flag.ack) none :: r.1, r.2) := by
        rw [TcpConn.sendLoop, if_neg hdata]
        exact dif_pos hfits'
      obtain ⟨frames, conn', hloop, hrest⟩ := @ih
        (conn.enqueue (dataSegment conn.sndNxt (data.take conn.mss.toNat) now hfits'))
        (data.drop conn.mss.toNat) (by omega)
        (by rw [hdrop]; change min _ conn.mss.toNat ≤ _; omega)
      rw [hnext, hloop]
      refine ⟨_, _, rfl, ?_, ⟨rfl, hrest.seqs⟩, ?_, ?_, ?_⟩
      · rw [List.flatMap_cons, hrest.payload]
        exact List.take_append_drop _ _
      · intro f hf
        rcases List.mem_cons.mp hf with rfl | hf
        · rfl
        · exact hrest.noOption f hf
      · intro f hf
        rcases List.mem_cons.mp hf with rfl | hf
        · exact hchunk.le
        · have hle := hrest.le f hf
          rw [hdrop] at hle
          change _ ≤ min _ conn.mss.toNat at hle
          omega
      · exact fun _ => ⟨_, List.mem_cons_self, hchunk⟩

/-- A chunk that does not fit the frame buffer makes `send` panic. -/
theorem sendLoop_panics {now fuel : ℕ} {data : List UInt8} (hfuel : 0 < fuel)
    (hlong : maxPayload < min data.length conn.mss.toNat) : conn.sendLoop now fuel data = none := by
  cases fuel with
  | zero => exact absurd hfuel (Nat.lt_irrefl 0)
  | succ fuel =>
    have hdata : data ≠ [] := by
      rintro rfl
      simp at hlong
    have hchunk : ¬(data.take conn.mss.toNat).length ≤ maxPayload := by
      rw [List.length_take]
      omega
    rw [TcpConn.sendLoop, if_neg hdata]
    exact dif_neg hchunk

/-- `send` succeeds with frames of the right size exactly when no chunk is longer than the
network card allows. -/
theorem TcpConn.sendsAll_iff (hest : conn.state = .established) (data : List UInt8) (now : ℕ) :
    conn.SendsAll data now ↔ min data.length conn.mss.toNat ≤ mtuPayload := by
  have hbounds : mtuPayload = 1460 ∧ maxPayload = 1546 := by decide
  unfold TcpConn.SendsAll TcpConn.send
  rw [if_neg (not_not.mpr hest)]
  by_cases hfits : min data.length conn.mss.toNat ≤ maxPayload
  · obtain ⟨frames, conn', hloop, hchunks⟩ := sendLoop_chunked le_rfl hfits
    have hlen {f : Segment} (hf : f ∈ frames) : f.frameLen = 54 + f.payload.length := by
      rw [Segment.frameLen, hchunks.noOption f hf]
      rfl
    rw [hloop]
    constructor
    · rintro ⟨_, _, heq, -, -, hsizes⟩
      cases heq
      by_cases hdata : data = []
      · simp [hdata]
      · obtain ⟨f, hf, hfirst⟩ := hchunks.first hdata
        have hsize := (hsizes f hf).2
        rw [hlen hf, mtuBytes] at hsize
        omega
    · intro hmtu
      refine ⟨frames, conn', rfl, hchunks.payload, hchunks.seqs, fun f hf => ?_⟩
      have hle := hchunks.le f hf
      rw [hlen hf, frameBuffer, mtuBytes]
      omega
  · have hpos : 0 < data.length := by omega
    rw [sendLoop_panics hpos (not_le.mp hfits)]
    refine iff_of_false ?_ (by omega)
    rintro ⟨_, _, heq, -⟩
    cases heq

/-! ## The announced segment size -/

theorem sendLoop_mss {now fuel : ℕ} {data : List UInt8} {frames : List Segment}
    (h : conn.sendLoop now fuel data = some (frames, conn')) : conn'.mss = conn.mss := by
  refine TcpConn.sendLoop_induction (P := fun conn _ _ conn' => conn'.mss = conn.mss) ?_ ?_ h
  · exact fun _ _ => rfl
  · exact fun _ _ _ _ _ _ hmss => hmss

theorem processOpen_mss (conn : TcpConn) (hdr : TcpHeader) (data : List UInt8) :
    (processOpen conn hdr data).2.mss = conn.mss := by
  rw [processOpen_eq]
  unfold processFin processPayload processAck
  split <;> split <;> split <;> rfl

/-- Once the SYN is answered, the segment size stays. -/
theorem TcpConn.step_mss {e : Event} {out : List UInt8} (hsyn : conn.state ≠ .synSent)
    (h : conn.step e = some (out, conn')) : conn'.mss = conn.mss ∧ conn'.state ≠ .synSent := by
  have hmove : conn'.state ≠ .synSent := by
    rcases TcpConn.step_cases h with ⟨hdr, options, data, -, -, rfl⟩ | ⟨-, -, hmove⟩
    · obtain ⟨_, -, hback, -⟩ := processSegment_pending conn hdr options data
      exact fun hst => hsyn (hback hst)
    · intro hst
      rw [hst] at hmove
      generalize conn.state = old at hsyn hmove
      cases hmove
      exact hsyn rfl
  refine ⟨?_, hmove⟩
  cases e with
  | segment hdr options data =>
    obtain ⟨-, rfl⟩ := Prod.mk.inj (Option.some.inj h)
    by_cases hrst : hdr.has Flag.rst
    · rw [processSegment_rst hrst]
    · by_cases hopen : conn.state.receiving
      · rw [processSegment_open hopen hrst, processOpen_mss]
      · obtain ⟨s, heq, -⟩ := processSegment_idle options data hrst hopen hsyn
        rw [heq]
  | read n =>
    obtain ⟨-, rfl⟩ := Prod.mk.inj (Option.some.inj h)
    rfl
  | send data now =>
    obtain ⟨-, ⟨-, rfl⟩ | ⟨segments, -, -, hloop⟩⟩ := TcpConn.step_send h
    · rfl
    · exact sendLoop_mss hloop
  | close now =>
    obtain ⟨-, ⟨-, rfl⟩ | ⟨-, rfl, -⟩⟩ := TcpConn.step_close h
    · rfl
    · rfl
  | tick now =>
    obtain ⟨-, -, rfl⟩ := TcpConn.step_tick h
    rfl

theorem TcpConn.run_mss {es : List Event} : ∀ {conn conn' : TcpConn} {out : List UInt8},
    conn.state ≠ .synSent → conn.run es = some (out, conn') → conn'.mss = conn.mss := by
  induction es with
  | nil =>
    intro conn conn' out _ hrun
    obtain ⟨-, rfl⟩ := Prod.mk.inj (Option.some.inj hrun)
    rfl
  | cons e es ih =>
    intro conn conn' out hsyn hrun
    obtain ⟨_, mid, _, hstep, hrest, -⟩ := TcpConn.run_cons hrun
    obtain ⟨hmss, hmid⟩ := TcpConn.step_mss hsyn hstep
    rw [ih hmid hrest, hmss]

/-- The segment is an answer to the connection's SYN. -/
def TcpConn.Answers (conn : TcpConn) (hdr : TcpHeader) : Prop :=
  conn.state = .synSent ∧ ¬hdr.has Flag.rst ∧ hdr.has Flag.syn ∧ hdr.has Flag.ack ∧
    hdr.ack = conn.iss + 1

/-- The size that the peer has announced is used, if it is not very small. -/
theorem TcpConn.Answers.mss {hdr : TcpHeader} (h : conn.Answers hdr) (options data : List UInt8) :
    (processSegment conn hdr options data).2.mss = max (parseMss options) 536 ∧
      (processSegment conn hdr options data).2.state = .established := by
  obtain ⟨hsyn, hrst, hhasSyn, hhasAck, hack⟩ := h
  rw [processSegment_synSent hsyn hrst, processSynSent, if_neg (by simp [hhasSyn, hhasAck]),
    if_neg (not_not.mpr hack)]
  exact ⟨rfl, rfl⟩

/-- **Segments fit when the announced size does.**  On a connection whose peer has answered
the SYN with these options, and after any events, data is sent whole, in order and in
frames that fit exactly when the data or the segment size is at most what the network card
takes. -/
theorem send_segments_iff (syn : TcpConn) {hdr : TcpHeader} (hanswer : syn.Answers hdr)
    (options first : List UInt8) (es : List Event) {out : List UInt8}
    (hrun : (processSegment syn hdr options first).2.run es = some (out, conn))
    (hest : conn.state = .established) (data : List UInt8) (now : ℕ) :
    conn.SendsAll data now ↔ min data.length (max (parseMss options) 536).toNat ≤ mtuPayload := by
  obtain ⟨hmss, hst⟩ := hanswer.mss options first
  have hsize : conn.mss = max (parseMss options) 536 := by
    rw [TcpConn.run_mss (by rw [hst]; nofun) hrun, hmss]
  rw [TcpConn.sendsAll_iff hest, hsize]

/-- A peer without options. -/
theorem send_segments_default :
    (processSegment sampleConn (sampleHeader 5000 1001 (Flag.syn ||| Flag.ack)) [] []).2.SendsAll
      [1, 2, 3] 5 :=
  (send_segments_iff sampleConn ⟨rfl, by decide, by decide, by decide, rfl⟩ [] [] []
    rfl rfl [1, 2, 3] 5).mpr (by decide)

/-- A peer that announces 9000 makes `send` panic on 2000 bytes. -/
theorem not_sendsAll_large_mss :
    ¬(processSegment sampleConn (sampleHeader 5000 1001 (Flag.syn ||| Flag.ack))
      [2, 4, 0x23, 0x28] []).2.SendsAll (List.replicate 2000 0) 5 := by
  rw [TcpConn.sendsAll_iff rfl, List.length_replicate]
  decide

end RacOS.Net.Tcp
