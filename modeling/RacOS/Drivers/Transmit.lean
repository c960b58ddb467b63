import RacOS.Drivers.VirtioNet
import Mathlib.Data.List.Perm.Subperm

/-!
# Frames on the wire

All frames that are sent go through one staging page.  `send_frame` waits for a completion,
but gives up after some rounds, and it takes the completion of an earlier frame for that of
its own.  The next frame may then overwrite the page before the device has read it.

If the device has completed all earlier frames when a call of `send_frame` begins, every
frame on the wire is the payload of a call, and of a different one each.
-/

namespace RacOS.Virtio

open Virtqueue (descFor)

/-- A call of `send_frame` begins when the device has completed all earlier frames. -/
def Quiet (e : NetEvent) (s : VirtioNet) : Prop :=
  match e with
  | .sendFrame _ => s.tx.waiting = [] ∧ s.tx.held = []
  | _ => True

/-- The device has yet to read the transmit buffer at `head`, and the staging page holds its
payload. -/
structure Staged (frames : NetFrames) (s : VirtioNet) (head : ℕ) (payload : List UInt8) : Prop where
  unread : s.tx.waiting ++ s.unread = [head]
  wire : (s.wire ++ [payload]).Subperm s.sent
  desc : s.tx.q.desc head = descFor ⟨frames.tx, virtioNetHdrLen + payload.length, false⟩ none
  page : ∃ rest, s.page frames.tx = VirtioNet.framed payload ++ rest

/-- At most one frame is on its way to the wire, and it is in the staging page. -/
structure Faithful (frames : NetFrames) (s : VirtioNet) : Prop where
  net : NetAccounted frames s
  held : ∀ head ∈ s.unread, head ∈ s.tx.held
  staged : (s.tx.waiting ++ s.unread = [] ∧ s.wire.Subperm s.sent) ∨
    ∃ head payload, Staged frames s head payload

namespace Faithful

theorem pollRx_frame (s : VirtioNet) (cap : ℕ) :
    ∃ rx rxBufs, (s.pollRx cap).2 = { s with rx, rxBufs } := by
  rw [VirtioNet.pollRx]
  cases s.rx.popUsed with
  | none => exact ⟨_, _, rfl⟩
  | some r =>
    cases hfind : s.rxBufs.findIdx? (·.descHead = r.1.1) with
    | none => simp only [hfind]; exact ⟨_, _, rfl⟩
    | some idx =>
      simp only [hfind]
      cases r.2.freeChain r.1.1 with
      | none => exact ⟨_, _, rfl⟩
      | some rx =>
        dsimp only
        cases rx.addBuf [rxDescBuf (s.rxBufs.getD idx ⟨0, 0⟩).phys] with
        | error e => exact ⟨_, _, rfl⟩
        | ok r' => exact ⟨_, _, rfl⟩

/-- The device sends what comes after the header. -/
theorem drop_take_framed (payload rest : List UInt8) :
    ((VirtioNet.framed payload ++ rest).take (virtioNetHdrLen + payload.length)).drop
      virtioNetHdrLen = payload := by
  have hlen : (VirtioNet.framed payload).length = virtioNetHdrLen + payload.length := by
    rw [VirtioNet.framed, List.length_append, List.length_replicate]
  rw [List.take_left' hlen, VirtioNet.framed]
  exact List.drop_left' List.length_replicate

variable {frames : NetFrames} {s s' : VirtioNet} (h : Faithful frames s)

include h

theorem wire_subperm : s.wire.Subperm s.sent := by
  rcases h.staged with ⟨-, hwire⟩ | ⟨head, payload, hstaged⟩
  · exact hwire
  · exact (List.sublist_append_left _ _).subperm.trans hstaged.wire

/-- What is not about the staging page and the transmit buffers does not matter. -/
theorem frame (hnet : NetAccounted frames s') (hunread : s'.unread = s.unread)
    (hwaiting : s'.tx.waiting = s.tx.waiting)
    (hheld : ∀ head ∈ s.unread, head ∈ s.tx.held → head ∈ s'.tx.held)
    (hdesc : ∀ head ∈ s.tx.waiting ++ s.unread, s'.tx.q.desc head = s.tx.q.desc head)
    (hpage : s'.page frames.tx = s.page frames.tx) (hsent : s.sent.Subperm s'.sent)
    (hwire : s'.wire = s.wire) : Faithful frames s' where
  net := hnet
  held head hhead := by
    rw [hunread] at hhead
    exact hheld head hhead (h.held head hhead)
  staged := by
    rw [hunread, hwaiting, hwire]
    rcases h.staged with ⟨hnone, hsub⟩ | ⟨head, payload, hunread', hsub, hdesc', hpage'⟩
    · exact Or.inl ⟨hnone, hsub.trans hsent⟩
    · refine Or.inr ⟨head, payload, ?_, ?_, ?_, ?_⟩
      · rw [hunread, hwaiting, hunread']
      · rw [hwire]
        exact hsub.trans hsent
      · rw [hdesc head (by rw [hunread']; exact List.mem_cons_self), hdesc']
      · rw [hpage]
        exact hpage'

theorem sendFrame {payload : List UInt8} (hquiet : Quiet (.sendFrame payload) s) :
    Faithful frames (s.sendFrame payload).2 := by
  have hnet := h.net.sendFrame payload
  obtain ⟨hwaiting, hheld⟩ := hquiet
  have hunread : s.unread = [] := by
    refine List.eq_nil_iff_forall_not_mem.mpr fun head hhead => ?_
    have hmem := h.held head hhead
    rw [hheld] at hmem
    cases hmem
  have hsent : s.sent.Subperm (s.sent ++ [payload]) := (List.sublist_append_left _ _).subperm
  rw [VirtioNet.sendFrame] at hnet ⊢
  by_cases hlarge : mtuBytes < payload.length
  · rw [if_pos hlarge] at hnet ⊢
    exact h.frame hnet rfl rfl (fun _ _ hmem => hmem) (fun _ _ => rfl) rfl hsent rfl
  · rw [if_neg hlarge] at hnet ⊢
    dsimp only at hnet ⊢
    cases hadd : s.tx.addBuf [⟨s.txBufPhys, virtioNetHdrLen + payload.length, false⟩] with
    | error e =>
      simp only [hadd] at hnet
      refine ⟨hnet, ?_, Or.inl ⟨?_, h.wire_subperm.trans hsent⟩⟩
      · rw [hunread]
        exact List.forall_mem_nil _
      · rw [hunread, hwaiting]
        rfl
    | ok r =>
      simp only [hadd] at hnet
      obtain ⟨-, hdesc, -, -, heq⟩ := h.net.tx.addBuf_single hadd
      refine ⟨hnet, ?_, Or.inr ⟨r.1, payload, ?_, ?_, ?_, ?_⟩⟩
      · rw [hunread]
        exact List.forall_mem_nil _
      · have htx := congrArg Session.waiting heq
        rw [hunread, List.append_nil]
        exact htx.trans (by rw [hwaiting]; rfl)
      · exact (List.subperm_append_right [payload]).mpr h.wire_subperm
      · rw [h.net.txBuf] at hdesc
        exact hdesc
      · rw [h.net.txBuf]
        exact ⟨_, Function.update_self _ _ _⟩

theorem spin : Faithful frames s.spin := by
  have hnet := h.net.spin
  rw [VirtioNet.spin] at hnet ⊢
  cases hsending : s.sending with
  | none => exact h
  | some rounds =>
    simp only [hsending] at hnet
    cases rounds with
    | zero =>
      exact h.frame hnet rfl rfl (fun _ _ hmem => hmem) (fun _ _ => rfl) rfl
        (List.Subperm.refl _) rfl
    | succ rounds =>
      cases hreap : VirtioNet.reap s.tx with
      | none =>
        simp only [hreap] at hnet
        exact h.frame hnet rfl rfl (fun _ _ hmem => hmem) (fun _ _ => rfl) rfl
          (List.Subperm.refl _) rfl
      | some tx =>
        simp only [hreap] at hnet
        obtain ⟨-, -, hwaiting, hheld, hdesc⟩ := reap_some h.net.tx h.net.txPopped hreap
        refine h.frame hnet rfl hwaiting (fun _ _ hmem => hheld.symm ▸ hmem)
          (fun head hhead => hdesc head ?_) rfl (List.Subperm.refl _) rfl
        -- what the device has not read is still in flight
        simp only [Session.inFlight, hwaiting, hheld, List.append_assoc]
        rcases List.mem_append.mp hhead with hmem | hmem
        · exact List.mem_append_left _ hmem
        · exact List.mem_append_right _ (List.mem_append_left _ (h.held head hmem))

theorem pollRx (cap : ℕ) : Faithful frames (s.pollRx cap).2 := by
  have hnet := h.net.pollRx cap
  obtain ⟨rx, rxBufs, heq⟩ := pollRx_frame s cap
  rw [heq] at hnet ⊢
  exact h.frame hnet rfl rfl (fun _ _ hmem => hmem) (fun _ _ => rfl) rfl
    (List.Subperm.refl _) rfl

/-- A receive buffer is not the staging page. -/
theorem rxComplete (k : ℕ) (bytes : List UInt8) : Faithful frames (s.rxComplete k bytes) := by
  have hnet := h.net.step (.rxComplete k bytes)
  rw [VirtioNet.step, VirtioNet.rxComplete] at hnet
  rw [VirtioNet.rxComplete]
  cases hk : s.rx.held[k]? with
  | none => exact h
  | some head =>
    simp only [hk] at hnet
    refine h.frame hnet rfl rfl (fun _ _ hmem => hmem) (fun _ _ => rfl) ?_
      (List.Subperm.refl _) rfl
    have hmem : head ∈ s.rx.inFlight := by
      simp only [Session.inFlight, List.append_assoc]
      exact List.mem_append_right _ (List.mem_append_left _ (List.mem_of_getElem? hk))
    obtain ⟨b, hb, rfl⟩ := List.mem_map.mp (h.net.rx.heads.mem_iff.mp hmem)
    have hphys : b.phys ∈ frames.rx := by
      rw [← h.net.phys]
      exact List.mem_map_of_mem hb
    refine Function.update_of_ne ?_ _ _
    rw [h.net.rx.desc b hb]
    rintro heq
    exact (List.nodup_cons.mp frames.nodup).1 (heq ▸ hphys)

theorem txTake : Faithful frames s.txTake := by
  have hnet := h.net.step .txTake
  rw [VirtioNet.step, VirtioNet.txTake] at hnet
  rw [VirtioNet.txTake]
  rcases h.net.tx.take_cases with ⟨-, hsame⟩ | ⟨head, rest, hwaiting, htake⟩
  · simp only [hsame, List.drop_length, List.append_nil] at hnet ⊢
    exact h
  · simp only [htake, List.drop_left] at hnet ⊢
    refine ⟨hnet, fun head' hhead' => ?_, ?_⟩
    · rcases List.mem_append.mp hhead' with hmem | hmem
      · exact List.mem_append_left _ (h.held head' hmem)
      · exact List.mem_append_right _ hmem
    · rcases h.staged with ⟨hnone, -⟩ | ⟨head', payload, hunread, hwire, hdesc, hpage⟩
      · rw [hwaiting] at hnone
        cases hnone
      · -- the head that was waiting is the only one
        rw [hwaiting, List.cons_append, List.cons.injEq, List.append_eq_nil_iff] at hunread
        obtain ⟨rfl, rfl, hnil⟩ := hunread
        refine Or.inr ⟨head, payload, ?_, hwire, hdesc, hpage⟩
        simp only [hnil, List.nil_append]

theorem txRead (k : ℕ) : Faithful frames (s.txRead k) := by
  have hnet := h.net.step (.txRead k)
  rw [VirtioNet.step, VirtioNet.txRead] at hnet
  rw [VirtioNet.txRead]
  cases hk : s.unread[k]? with
  | none => exact h
  | some head =>
    simp only [hk] at hnet
    have hmem := List.mem_of_getElem? hk
    refine ⟨hnet, fun head' hhead' => h.held head' (List.mem_of_mem_eraseIdx hhead'), ?_⟩
    rcases h.staged with ⟨hnone, -⟩ | ⟨head', payload, hunread, hwire, hdesc, rest, hpage⟩
    · rw [(List.append_eq_nil_iff.mp hnone).2] at hmem
      cases hmem
    · -- the frame that is read is the one in the staging page
      rcases List.append_eq_singleton_iff.mp hunread with ⟨hwaiting, hone⟩ | ⟨-, hnil⟩
      · rw [hone] at hk
        obtain ⟨hlt, hat⟩ := List.getElem?_eq_some_iff.mp hk
        obtain rfl : k = 0 := Nat.lt_one_iff.mp hlt
        obtain rfl : head' = head := hat
        refine Or.inl ⟨by simp only [hwaiting, hone]; rfl, ?_⟩
        simp only [hdesc, descFor, hpage, drop_take_framed]
        exact hwire
      · rw [hnil] at hmem
        cases hmem

theorem txComplete (k len : ℕ) : Faithful frames (s.txComplete k len) := by
  have hnet := h.net.step (.txComplete k len)
  rw [VirtioNet.step, VirtioNet.txComplete] at hnet
  rw [VirtioNet.txComplete]
  cases hk : s.tx.held[k]? with
  | none => exact h
  | some head =>
    simp only [hk] at hnet
    by_cases hunread : head ∈ s.unread
    · simp only [if_pos hunread]
      exact h
    · simp only [if_neg hunread] at hnet ⊢
      refine h.frame hnet rfl ?_ (fun head' hhead' hmem => ?_)
        (fun _ _ => congrFun (Session.Accounted.desc_complete s.tx k len).1 _) rfl
        (List.Subperm.refl _) rfl
      · rw [Session.complete, hk]
      · rw [Session.complete, hk]
        refine (List.mem_cons.mp
          ((Session.Accounted.perm_cons_eraseIdx hk).mem_iff.mp hmem)).resolve_left ?_
        rintro rfl
        exact hunread hhead'

theorem step {e : NetEvent} (hquiet : Quiet e s) : Faithful frames (s.step e) := by
  cases e with
  | sendFrame payload =>
    rw [VirtioNet.step]
    split
    · exact h.sendFrame hquiet
    · exact h
  | spin => exact h.spin
  | pollRx cap =>
    rw [VirtioNet.step]
    split
    · exact h.pollRx cap
    · exact h
  | rxTake =>
    exact h.frame (h.net.step .rxTake) rfl rfl (fun _ _ hmem => hmem) (fun _ _ => rfl) rfl
      (List.Subperm.refl _) rfl
  | rxComplete k frame => exact h.rxComplete k frame
  | txTake => exact h.txTake
  | txRead k => exact h.txRead k
  | txComplete k len => exact h.txComplete k len

end Faithful

/-- If every call of `send_frame` begins when the device has completed the earlier frames,
the frames on the wire are payloads of calls, of a different one each. -/
theorem wire_subperm_sent (frames : NetFrames) (page : ℕ → List UInt8) {start : VirtioNet}
    (hstart : VirtioNet.bringUp frames page = .ok start) (events : List NetEvent)
    (hquiet : Runs.Along VirtioNet.step Quiet events start) :
    (Runs.run VirtioNet.step events start).wire.Subperm
      (Runs.run VirtioNet.step events start).sent := by
  obtain ⟨s, hs, hnet, htx, -, hunread, hsent, hwire⟩ := VirtioNet.bringUp_ok frames page
  cases hs.symm.trans hstart
  have hfaithful : Faithful frames start := by
    refine ⟨hnet, ?_, Or.inl ⟨?_, ?_⟩⟩
    · rw [hunread]
      exact List.forall_mem_nil _
    · rw [htx, hunread]
      rfl
    · rw [hsent, hwire]
  exact (Runs.invariant_of_along (I := Faithful frames) (fun _ _ h hq => h.step hq) hfaithful
    hquiet).wire_subperm

/-- The frames at the addresses from zero on. -/
def sampleFrames : NetFrames where
  rx := List.range' 1 rxBufCount
  tx := 0
  length_rx := List.length_range'
  nodup := by decide

/-- A frame is sent, read and completed. -/
theorem wire_subperm_sent_once :
    ∃ start, VirtioNet.bringUp sampleFrames (fun _ => []) = .ok start ∧
      Runs.Along VirtioNet.step Quiet
        [.sendFrame [7], .txTake, .txRead 0, .txComplete 0 0, .spin] start ∧
      (Runs.run VirtioNet.step
          [.sendFrame [7], .txTake, .txRead 0, .txComplete 0 0, .spin] start).wire.Subperm
        (Runs.run VirtioNet.step
          [.sendFrame [7], .txTake, .txRead 0, .txComplete 0 0, .spin] start).sent := by
  obtain ⟨start, hstart, -, htx, -⟩ := VirtioNet.bringUp_ok sampleFrames fun _ => []
  have hquiet : Runs.Along VirtioNet.step Quiet
      [.sendFrame [7], .txTake, .txRead 0, .txComplete 0 0, .spin] start :=
    ⟨by rw [Quiet, htx]; exact ⟨rfl, rfl⟩, trivial, trivial, trivial, trivial, trivial⟩
  exact ⟨start, hstart, hquiet, wire_subperm_sent sampleFrames _ hstart _ hquiet⟩

/-- While nothing is completed, the wait goes on to its end. -/
theorem run_spin {s : VirtioNet} (n : ℕ) (h : VirtioNet.reap s.tx = none) :
    Runs.run VirtioNet.step (List.replicate n .spin) { s with sending := some n } =
      { s with sending := some 0 } := by
  induction n with
  | zero => rfl
  | succ n ih =>
    have hstep : VirtioNet.step .spin { s with sending := some (n + 1) } =
        { s with sending := some n } := by
      simp only [VirtioNet.step, VirtioNet.spin, h]
    rw [List.replicate_succ, Runs.run, hstep, ih]

/-- The driver as it is brought up with `sampleFrames`. -/
def sampleStart : VirtioNet :=
  match VirtioNet.bringUp sampleFrames fun _ => [] with
  | .ok s => s
  | .error _ => ⟨Session.start, Session.start, [], 0, fun _ => [], none, [], [], []⟩

theorem bringUp_sampleFrames : VirtioNet.bringUp sampleFrames (fun _ => []) = .ok sampleStart := by
  obtain ⟨start, hstart, -⟩ := VirtioNet.bringUp_ok sampleFrames fun _ => []
  rw [sampleStart, hstart]

/-- The driver while it waits for the completion of a first frame. -/
def sampleWaiting : VirtioNet := VirtioNet.step (.sendFrame [1]) sampleStart

theorem sending_sampleWaiting : sampleWaiting.sending = some sendSpins := by decide +kernel

theorem reap_sampleWaiting : VirtioNet.reap sampleWaiting.tx = none :=
  Option.isNone_iff_eq_none.mp (by decide +kernel)

/-- The wait is given up, and the second frame is sent before the device reads the first. -/
def overtaking : List NetEvent :=
  [.spin, .sendFrame [2], .txTake, .txTake, .txRead 0, .txRead 0]

theorem run_overtaking :
    (Runs.run VirtioNet.step overtaking { sampleWaiting with sending := some 0 }).sent =
        [[1], [2]] ∧
      (Runs.run VirtioNet.step overtaking { sampleWaiting with sending := some 0 }).wire =
        [[2], [2]] := by
  decide +kernel

/-- The device does not read the first frame before the wait for it is given up and the
second frame is in the staging page: the second goes out twice, the first never. -/
theorem wire_repeats_second :
    VirtioNet.bringUp sampleFrames (fun _ => []) = .ok sampleStart ∧
      let s := Runs.run VirtioNet.step
        (.sendFrame [1] :: (List.replicate sendSpins .spin ++ overtaking)) sampleStart
      s.sent = [[1], [2]] ∧ s.wire = [[2], [2]] ∧ ¬s.wire.Subperm s.sent := by
  have hwait : Runs.run VirtioNet.step (List.replicate sendSpins .spin) sampleWaiting =
      { sampleWaiting with sending := some 0 } := by
    have hself : { sampleWaiting with sending := some sendSpins } = sampleWaiting := by
      rw [← sending_sampleWaiting]
    rw [← run_spin sendSpins reap_sampleWaiting, hself]
  have hrun : Runs.run VirtioNet.step
      (.sendFrame [1] :: (List.replicate sendSpins .spin ++ overtaking)) sampleStart =
      Runs.run VirtioNet.step overtaking { sampleWaiting with sending := some 0 } := by
    rw [Runs.run, Runs.run_append, ← sampleWaiting, hwait]
  refine ⟨bringUp_sampleFrames, ?_⟩
  rw [hrun]
  obtain ⟨hsent, hwire⟩ := run_overtaking
  refine ⟨hsent, hwire, ?_⟩
  rw [hsent, hwire]
  intro hsub
  exact absurd (hsub.count_le [2]) (by decide)

end RacOS.Virtio
