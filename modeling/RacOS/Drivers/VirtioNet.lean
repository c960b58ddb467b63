import RacOS.Drivers.QueueDevice

/-!
# The network device

The model of `drivers/virtio_net.rs` with a device that works at any pace.  The driver
waits in `send_frame` by looking at the used ring a number of times; the device may move
between any two looks, so that each look is a step of its own.  What the device does while
`poll_rx` runs changes nothing for that call, which is one step.

The receive buffers are frames of memory.  Each of them is in the receive queue under one
descriptor at all times between the steps.
-/

namespace RacOS.Virtio

def virtioNetHdrLen : ℕ := 10
def mtuBytes : ℕ := 1514
def rxBufBytes : ℕ := virtioNetHdrLen + mtuBytes + 2
def rxBufCount : ℕ := 16

/-- The rounds in which `send_frame` waits for a completion. -/
def sendSpins : ℕ := 100000

inductive VirtioNetError
  | noFreeDescriptor
  | frameTooLarge
  deriving DecidableEq

/-- A receive buffer with the head it was posted at. -/
structure RxBuf where
  phys : ℕ
  descHead : ℕ
  deriving DecidableEq

/-- The frames of memory that the driver has allocated. -/
structure NetFrames where
  rx : List ℕ
  tx : ℕ
  length_rx : rx.length = rxBufCount
  nodup : (tx :: rx).Nodup

/-- The driver and its device.  In `sending` are the rounds left to a running `send_frame`;
in `unread` the heads of transmit buffers that the device has taken and not yet read; in
`page` the memory.  The payloads of the calls of `send_frame` and the frames on the wire are
recorded. -/
structure VirtioNet where
  rx : Session
  tx : Session
  rxBufs : List RxBuf
  txBufPhys : ℕ
  page : ℕ → List UInt8
  sending : Option ℕ
  unread : List ℕ
  sent : List (List UInt8)
  wire : List (List UInt8)

inductive NetEvent
  | sendFrame (payload : List UInt8)
  | spin
  | pollRx (cap : ℕ)
  | rxTake
  | rxComplete (k : ℕ) (frame : List UInt8)
  | txTake
  | txRead (k : ℕ)
  | txComplete (k len : ℕ)

/-- A page after bytes have been written from its beginning on. -/
def writePage (bytes page : List UInt8) : List UInt8 := bytes ++ page.drop bytes.length

/-- What the device is given for a receive buffer. -/
def rxDescBuf (phys : ℕ) : Buf := ⟨phys, rxBufBytes, true⟩

namespace VirtioNet

/-- The loop of `post_initial_rx`. -/
def postRx : List ℕ → Session → Except VirtioNetError (List RxBuf × Session)
  | [], rx => .ok ([], rx)
  | phys :: rest, rx =>
    match rx.addBuf [rxDescBuf phys] with
    | .error _ => .error .noFreeDescriptor
    | .ok (head, rx) =>
      match postRx rest rx with
      | .error e => .error e
      | .ok (bufs, rx) => .ok (⟨phys, head⟩ :: bufs, rx)

/-- The driver with its queues set up and its receive buffers posted. -/
def bringUp (frames : NetFrames) (page : ℕ → List UInt8) : Except VirtioNetError VirtioNet :=
  match postRx frames.rx Session.start with
  | .error e => .error e
  | .ok (rxBufs, rx) =>
    .ok { rx, tx := Session.start, rxBufs, txBufPhys := frames.tx, page
          sending := none, unread := [], sent := [], wire := [] }

/-- The frame as it stands in the staging page. -/
def framed (payload : List UInt8) : List UInt8 := List.replicate virtioNetHdrLen 0 ++ payload

/-- The beginning of `send_frame`, up to the wait for a completion. -/
def sendFrame (payload : List UInt8) (s : VirtioNet) : Except VirtioNetError Unit × VirtioNet :=
  let s := { s with sent := s.sent ++ [payload] }
  if mtuBytes < payload.length then (.error .frameTooLarge, s)
  else
    let s := { s with
      page := Function.update s.page s.txBufPhys
        (writePage (framed payload) (s.page s.txBufPhys)) }
    match s.tx.addBuf [⟨s.txBufPhys, virtioNetHdrLen + payload.length, false⟩] with
    | .error _ => (.error .noFreeDescriptor, s)
    | .ok (_, tx) => (.ok (), { s with tx, sending := some sendSpins })

/-- Pop a completion and free its chain. -/
def reap (q : Session) : Option Session :=
  match q.popUsed with
  | none => none
  | some (elem, q) => q.freeChain elem.1

/-- One round of the wait. -/
def spin (s : VirtioNet) : VirtioNet :=
  match s.sending with
  | none => s
  | some 0 => { s with sending := none }
  | some (rounds + 1) =>
    match reap s.tx with
    | some tx => { s with tx, sending := none }
    | none => { s with sending := some rounds }

/-- Pop one received frame, if any, and post its buffer again. -/
def pollRx (cap : ℕ) (s : VirtioNet) : Option (List UInt8) × VirtioNet :=
  match s.rx.popUsed with
  | none => (none, s)
  | some ((head, len), rx) =>
    match s.rxBufs.findIdx? (·.descHead = head) with
    | none => (none, { s with rx })
    | some idx =>
      let phys := (s.rxBufs.getD idx ⟨0, 0⟩).phys
      let n := min (len - virtioNetHdrLen) cap
      let out := ((s.page phys).drop virtioNetHdrLen).take n
      match rx.freeChain head with
      | none => (none, { s with rx })
      | some rx =>
        match rx.addBuf [rxDescBuf phys] with
        | .error _ => (some out, { s with rx })
        | .ok (newHead, rx) =>
          (some out, { s with rx, rxBufs := s.rxBufs.set idx ⟨phys, newHead⟩ })

/-- The device writes a frame into a receive buffer that it holds, as far as it fits, and
returns it. -/
def rxComplete (k : ℕ) (frame : List UInt8) (s : VirtioNet) : VirtioNet :=
  match s.rx.held[k]? with
  | none => s
  | some head =>
    let d := s.rx.q.desc head
    let bytes := (framed frame).take d.len
    { s with
      page := Function.update s.page d.addr (writePage bytes (s.page d.addr))
      rx := s.rx.complete k bytes.length }

/-- The device takes the next transmit buffer. -/
def txTake (s : VirtioNet) : VirtioNet :=
  let tx := s.tx.take
  { s with tx, unread := s.unread ++ tx.held.drop s.tx.held.length }

/-- The device reads a transmit buffer and puts the frame on the wire. -/
def txRead (k : ℕ) (s : VirtioNet) : VirtioNet :=
  match s.unread[k]? with
  | none => s
  | some head =>
    let d := s.tx.q.desc head
    { s with
      unread := s.unread.eraseIdx k
      wire := s.wire ++ [((s.page d.addr).take d.len).drop virtioNetHdrLen] }

/-- The device returns a transmit buffer that it has read. -/
def txComplete (k len : ℕ) (s : VirtioNet) : VirtioNet :=
  match s.tx.held[k]? with
  | none => s
  | some head =>
    if head ∈ s.unread then s else { s with tx := s.tx.complete k len }

/-- The driver makes one call at a time. -/
def step (e : NetEvent) (s : VirtioNet) : VirtioNet :=
  match e with
  | .sendFrame payload => if s.sending = none then (s.sendFrame payload).2 else s
  | .spin => s.spin
  | .pollRx cap => if s.sending = none then (s.pollRx cap).2 else s
  | .rxTake => { s with rx := s.rx.take }
  | .rxComplete k frame => s.rxComplete k frame
  | .txTake => s.txTake
  | .txRead k => s.txRead k
  | .txComplete k len => s.txComplete k len

end VirtioNet

/-! ## The receive queue -/

/-- The heads in flight are those of the receive buffers, each of which has a descriptor of
its own. -/
structure RxPosted (bufs : List RxBuf) (s : Session) : Prop where
  accounted : s.Accounted
  popped : s.popped = []
  heads : s.inFlight.Perm (bufs.map RxBuf.descHead)
  desc : ∀ b ∈ bufs, s.q.desc b.descHead = Virtqueue.descFor (rxDescBuf b.phys) none

namespace RxPosted

variable {bufs bufs' : List RxBuf} {s s' : Session}

theorem perm (h : RxPosted bufs s) (hperm : bufs.Perm bufs') : RxPosted bufs' s where
  accounted := h.accounted
  popped := h.popped
  heads := h.heads.trans (hperm.map _)
  desc b hb := h.desc b (hperm.mem_iff.mpr hb)

theorem mem_inFlight (h : RxPosted bufs s) {b : RxBuf} (hb : b ∈ bufs) : b.descHead ∈ s.inFlight :=
  h.heads.mem_iff.mpr (List.mem_map_of_mem hb)

theorem post (h : RxPosted bufs s) {phys head : ℕ}
    (hadd : s.addBuf [rxDescBuf phys] = .ok (head, s')) : RxPosted (⟨phys, head⟩ :: bufs) s' := by
  obtain ⟨hperm, hnew, -, hold, heq⟩ := h.accounted.addBuf_single hadd
  refine ⟨h.accounted.addBuf hadd, ?_, hperm.trans (h.heads.cons head), ?_⟩
  · rw [heq]
    exact h.popped
  · refine List.forall_mem_cons.mpr ⟨hnew, fun b hb => ?_⟩
    rw [hold _ (h.mem_inFlight hb)]
    exact h.desc b hb

/-- A move of the device changes the order of the heads only. -/
theorem move (h : RxPosted bufs s) (hacc : s'.Accounted) (hpopped : s'.popped = s.popped)
    (hdesc : s'.q.desc = s.q.desc) (hperm : s'.inFlight.Perm s.inFlight) : RxPosted bufs s' where
  accounted := hacc
  popped := hpopped.trans h.popped
  heads := hperm.trans h.heads
  desc b hb := by
    rw [hdesc]
    exact h.desc b hb

theorem take (h : RxPosted bufs s) : RxPosted bufs s.take :=
  h.move h.accounted.take (Session.Accounted.q_take s).2
    (congrArg _ (Session.Accounted.q_take s).1) h.accounted.inFlight_take.symm

theorem complete (h : RxPosted bufs s) (k len : ℕ) : RxPosted bufs (s.complete k len) :=
  h.move (h.accounted.complete k len) (Session.Accounted.desc_complete s k len).2
    (Session.Accounted.desc_complete s k len).1 (Session.Accounted.inFlight_complete s k len).symm

/-- A completion that is popped is that of a receive buffer.  Its chain can be freed, and
then the buffer is the only one that is not posted. -/
theorem popUsed (h : RxPosted bufs s) {elem : ℕ × ℕ} (hpop : s.popUsed = some (elem, s')) :
    ∃ idx s'', bufs.findIdx? (·.descHead = elem.1) = some idx ∧ idx < bufs.length ∧
      s'.freeChain elem.1 = some s'' ∧ 0 < s''.q.numFree ∧
      RxPosted (bufs.eraseIdx idx) s'' := by
  obtain ⟨hacc, hpopPerm, hpopDesc, hpopped, hmem⟩ := h.accounted.popUsed hpop
  rw [h.popped, List.nil_append] at hpopped
  have hhead : elem.1 ∈ s'.popped := by
    rw [hpopped]
    exact List.mem_cons_self
  obtain ⟨q', hfree, hacc', hpos, hperm, hdesc⟩ := hacc.freeChain hhead
  obtain ⟨b, hb, hbhead⟩ := List.mem_map.mp (h.heads.mem_iff.mp hmem)
  cases hfind : bufs.findIdx? (·.descHead = elem.1) with
  | none =>
    have hnot := List.findIdx?_eq_none_iff.mp hfind b hb
    simp [hbhead] at hnot
  | some idx =>
    obtain ⟨hidx, hat, -⟩ := List.findIdx?_eq_some_iff_getElem.mp hfind
    have hbufs : bufs[idx].descHead = elem.1 := of_decide_eq_true hat
    have herase := (List.getElem_cons_eraseIdx_perm hidx).map RxBuf.descHead
    rw [List.map_cons, hbufs] at herase
    have hheads := ((hperm.symm.trans hpopPerm.symm).trans
      (h.heads.trans herase.symm)).cons_inv
    refine ⟨idx, _, rfl, hidx, hfree, hpos, hacc', ?_, hheads, fun b' hb' => ?_⟩
    · simp only [hpopped, List.erase_cons_head]
    · rw [hdesc _ (hheads.mem_iff.mpr (List.mem_map_of_mem hb')), hpopDesc]
      exact h.desc b' (List.mem_of_mem_eraseIdx hb')

end RxPosted

/-! ## The driver -/

/-- Both queues are accounted for, and the receive buffers are posted. -/
structure NetAccounted (frames : NetFrames) (s : VirtioNet) : Prop where
  rx : RxPosted s.rxBufs s.rx
  phys : s.rxBufs.map RxBuf.phys = frames.rx
  tx : s.tx.Accounted
  txPopped : s.tx.popped = []
  txBuf : s.txBufPhys = frames.tx

namespace VirtioNet

/-- Posting goes on while there are free descriptors. -/
theorem postRx_ok (physs : List ℕ) {bufs : List RxBuf} {rx : Session} (h : RxPosted bufs rx)
    (hfree : physs.length ≤ rx.q.numFree) :
    ∃ bufs' rx', postRx physs rx = .ok (bufs', rx') ∧ RxPosted (bufs ++ bufs') rx' ∧
      bufs'.map RxBuf.phys = physs := by
  induction physs generalizing bufs rx with
  | nil => exact ⟨[], rx, rfl, by rwa [List.append_nil], rfl⟩
  | cons phys physs ih =>
    rw [List.length_cons] at hfree
    obtain ⟨head, rx₁, hadd⟩ := Session.Accounted.exists_addBuf_single (rxDescBuf phys)
      (Nat.lt_of_lt_of_le (Nat.succ_pos _) hfree)
    obtain ⟨-, -, hnum, -⟩ := h.accounted.addBuf_single hadd
    have hposted := (h.post hadd).perm (List.perm_append_singleton _ _).symm
    obtain ⟨bufs', rx', hrest, hposted', hphys⟩ := ih hposted (by omega)
    refine ⟨⟨phys, head⟩ :: bufs', rx', by rw [postRx, hadd]; simp only [hrest], ?_, ?_⟩
    · rwa [List.append_assoc] at hposted'
    · rw [List.map_cons, hphys]

theorem rxPosted_start : RxPosted [] Session.start :=
  ⟨Session.Accounted.start, rfl, List.Perm.refl _, List.forall_mem_nil _⟩

/-- The driver comes up with all receive buffers posted. -/
theorem bringUp_ok (frames : NetFrames) (page : ℕ → List UInt8) :
    ∃ s, bringUp frames page = .ok s ∧ NetAccounted frames s ∧ s.tx = Session.start ∧
      s.sending = none ∧ s.unread = [] ∧ s.sent = [] ∧ s.wire = [] := by
  obtain ⟨bufs, rx, hpost, hposted, hphys⟩ := postRx_ok frames.rx rxPosted_start
    (by rw [frames.length_rx]; decide)
  refine ⟨_, by rw [bringUp, hpost], ⟨hposted, hphys, Session.Accounted.start, rfl, rfl⟩, rfl,
    rfl, rfl, rfl, rfl⟩

end VirtioNet

/-- A completion is reaped: its chain is free, and what else is in flight stays. -/
theorem reap_some {q q' : Session} (hq : q.Accounted) (hpopped : q.popped = [])
    (hreap : VirtioNet.reap q = some q') :
    q'.Accounted ∧ q'.popped = [] ∧ q'.waiting = q.waiting ∧ q'.held = q.held ∧
      ∀ i ∈ q'.inFlight, q'.q.desc i = q.q.desc i := by
  rw [VirtioNet.reap] at hreap
  cases hpop : q.popUsed with
  | none =>
    rw [hpop] at hreap
    cases hreap
  | some r =>
    obtain ⟨elem, q₁⟩ := r
    rw [hpop] at hreap
    obtain ⟨hacc, -, hdesc₁, hpopped₁, -⟩ := hq.popUsed hpop
    rw [hpopped, List.nil_append] at hpopped₁
    have hhead : elem.1 ∈ q₁.popped := by
      rw [hpopped₁]
      exact List.mem_cons_self
    obtain ⟨q₂, hfree, hacc', -, -, hdesc⟩ := hacc.freeChain hhead
    cases hfree.symm.trans hreap
    have hsame : q₁.waiting = q.waiting ∧ q₁.held = q.held := by
      rcases hq.popUsed_cases with ⟨-, hnone⟩ | ⟨elem', rest, -, hsome⟩
      · rw [hnone] at hpop
        cases hpop
      · cases hsome.symm.trans hpop
        exact ⟨rfl, rfl⟩
    refine ⟨hacc', ?_, hsame.1, hsame.2, fun i hi => (hdesc i hi).trans (congrFun hdesc₁ i)⟩
    simp only [hpopped₁, List.erase_cons_head]

namespace NetAccounted

variable {frames : NetFrames} {s : VirtioNet}

theorem sendFrame (h : NetAccounted frames s) (payload : List UInt8) :
    NetAccounted frames (s.sendFrame payload).2 := by
  rw [VirtioNet.sendFrame]
  by_cases hlarge : mtuBytes < payload.length
  · rw [if_pos hlarge]
    exact ⟨h.rx, h.phys, h.tx, h.txPopped, h.txBuf⟩
  · rw [if_neg hlarge]
    dsimp only
    cases hadd : s.tx.addBuf [⟨s.txBufPhys, virtioNetHdrLen + payload.length, false⟩] with
    | error e => exact ⟨h.rx, h.phys, h.tx, h.txPopped, h.txBuf⟩
    | ok r =>
      obtain ⟨-, -, -, -, heq⟩ := h.tx.addBuf_single hadd
      refine ⟨h.rx, h.phys, h.tx.addBuf hadd, ?_, h.txBuf⟩
      exact (congrArg Session.popped heq).trans h.txPopped

theorem spin (h : NetAccounted frames s) : NetAccounted frames s.spin := by
  rw [VirtioNet.spin]
  cases s.sending with
  | none => exact h
  | some rounds =>
    cases rounds with
    | zero => exact ⟨h.rx, h.phys, h.tx, h.txPopped, h.txBuf⟩
    | succ rounds =>
      cases hreap : VirtioNet.reap s.tx with
      | none => exact ⟨h.rx, h.phys, h.tx, h.txPopped, h.txBuf⟩
      | some tx =>
        obtain ⟨hacc, hpopped, -⟩ := reap_some h.tx h.txPopped hreap
        exact ⟨h.rx, h.phys, hacc, hpopped, h.txBuf⟩

theorem pollRx (h : NetAccounted frames s) (cap : ℕ) : NetAccounted frames (s.pollRx cap).2 := by
  rw [VirtioNet.pollRx]
  cases hpop : s.rx.popUsed with
  | none => exact h
  | some r =>
    obtain ⟨⟨head, len⟩, rx⟩ := r
    obtain ⟨idx, rx', hfind, hidx, hfree, hpos, hposted⟩ := h.rx.popUsed hpop
    obtain ⟨newHead, rx'', hadd⟩ := Session.Accounted.exists_addBuf_single
      (rxDescBuf (s.rxBufs.getD idx ⟨0, 0⟩).phys) hpos
    simp only [hfind, hfree, hadd]
    have hperm := List.set_perm_cons_eraseIdx hidx
      (⟨(s.rxBufs.getD idx ⟨0, 0⟩).phys, newHead⟩ : RxBuf)
    refine ⟨(hposted.post hadd).perm hperm.symm, ?_, h.tx, h.txPopped, h.txBuf⟩
    have hat : (s.rxBufs.map RxBuf.phys)[idx]? = some (s.rxBufs.getD idx ⟨0, 0⟩).phys := by
      rw [List.getElem?_map, List.getD_eq_getElem?_getD, List.getElem?_eq_getElem hidx]
      rfl
    obtain ⟨hlt, heq⟩ := List.getElem?_eq_some_iff.mp hat
    rw [List.map_set, ← heq, List.set_getElem_self, h.phys]

theorem step (h : NetAccounted frames s) (e : NetEvent) : NetAccounted frames (s.step e) := by
  cases e with
  | sendFrame payload =>
    rw [VirtioNet.step]
    split
    · exact h.sendFrame payload
    · exact h
  | spin => exact h.spin
  | pollRx cap =>
    rw [VirtioNet.step]
    split
    · exact h.pollRx cap
    · exact h
  | rxTake => exact ⟨h.rx.take, h.phys, h.tx, h.txPopped, h.txBuf⟩
  | rxComplete k frame =>
    rw [VirtioNet.step, VirtioNet.rxComplete]
    split
    · exact h
    · exact ⟨h.rx.complete k _, h.phys, h.tx, h.txPopped, h.txBuf⟩
  | txTake =>
    exact ⟨h.rx, h.phys, h.tx.take, (Session.Accounted.q_take s.tx).2.trans h.txPopped, h.txBuf⟩
  | txRead k =>
    rw [VirtioNet.step, VirtioNet.txRead]
    split
    · exact h
    · exact ⟨h.rx, h.phys, h.tx, h.txPopped, h.txBuf⟩
  | txComplete k len =>
    rw [VirtioNet.step, VirtioNet.txComplete]
    split
    · exact h
    · split
      · exact h
      · exact ⟨h.rx, h.phys, h.tx.complete k len,
          (Session.Accounted.desc_complete s.tx k len).2.trans h.txPopped, h.txBuf⟩

theorem chain_rx (h : NetAccounted frames s) {b : RxBuf} (hb : b ∈ s.rxBufs) :
    s.rx.q.chain b.descHead = [b.descHead] := by
  refine (h.rx.accounted.partitions.chains _ (h.rx.mem_inFlight hb)).eq_singleton ?_
  simp only [h.rx.desc b hb, Virtqueue.succ_descFor]

/-- Every receive buffer is in flight under exactly one descriptor. -/
theorem posted (h : NetAccounted frames s) {phys : ℕ} (hphys : phys ∈ frames.rx) :
    ∃! i, i ∈ s.rx.inFlight.flatMap s.rx.q.chain ∧ (s.rx.q.desc i).addr = phys := by
  have hnodup : (s.rxBufs.map RxBuf.phys).Nodup := by
    rw [h.phys]
    exact (List.nodup_cons.mp frames.nodup).2
  rw [← h.phys] at hphys
  obtain ⟨b, hb, rfl⟩ := List.mem_map.mp hphys
  refine ⟨b.descHead, ⟨h.rx.accounted.partitions.mem_flatMap (h.rx.mem_inFlight hb), ?_⟩, ?_⟩
  · simp only [h.rx.desc b hb]
    rfl
  · rintro i ⟨hi, haddr⟩
    obtain ⟨head, hhead, hi⟩ := List.mem_flatMap.mp hi
    obtain ⟨b', hb', rfl⟩ := List.mem_map.mp (h.rx.heads.mem_iff.mp hhead)
    rw [h.chain_rx hb', List.mem_singleton] at hi
    rw [hi, h.rx.desc b' hb'] at haddr
    rw [hi, List.inj_on_of_nodup_map hnodup hb' hb haddr]

end NetAccounted

/-- Whatever the calls are and whenever the device moves: in every state of a queue that is
used on its own, and in every state of both queues of the network driver, the free list and
the chains in flight partition the descriptor table, the free list is as long as the driver
counts, and the rings hold what was put into them and not yet taken out.  A chain that was
popped can be freed, and every receive buffer of the driver is in flight under exactly one
descriptor. -/
theorem queues_accounted :
    (∀ events : List QueueEvent,
      let s := Runs.run Session.step events Session.start
      s.Accounted ∧ ∀ head ∈ s.popped, ∃ s', s.freeChain head = some s') ∧
    ∀ (frames : NetFrames) (page : ℕ → List UInt8),
      ∃ start, VirtioNet.bringUp frames page = .ok start ∧
        ∀ events : List NetEvent,
          let s := Runs.run VirtioNet.step events start
          s.rx.Accounted ∧ s.tx.Accounted ∧ s.rx.popped = [] ∧ s.tx.popped = [] ∧
            ∀ phys ∈ frames.rx,
              ∃! i, i ∈ s.rx.inFlight.flatMap s.rx.q.chain ∧ (s.rx.q.desc i).addr = phys := by
  refine ⟨fun events => ?_, fun frames page => ?_⟩
  · have hacc := Runs.invariant (I := Session.Accounted) (fun e _ h => h.step e) events
      Session.Accounted.start
    refine ⟨hacc, fun head hhead => ?_⟩
    obtain ⟨q', hfree, -⟩ := hacc.freeChain hhead
    exact ⟨_, hfree⟩
  · obtain ⟨start, hstart, hacc, -⟩ := VirtioNet.bringUp_ok frames page
    refine ⟨start, hstart, fun events => ?_⟩
    have h := Runs.invariant (I := NetAccounted frames) (fun e _ h => h.step e) events hacc
    exact ⟨h.rx.accounted, h.tx, h.rx.popped, h.txPopped, fun _ hphys => h.posted hphys⟩

end RacOS.Virtio
