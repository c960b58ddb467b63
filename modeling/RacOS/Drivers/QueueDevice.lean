import RacOS.Drivers.Virtqueue
import RacOS.Lib.Runs

/-!
# A virtqueue and its device

A device takes the heads that the driver has published from the available ring, works on
them in any order and for any time, and returns each of them once in the used ring.  The
session keeps beside the queue what is on its way: the heads that wait in the available
ring, those that the device holds, those that it has returned, and those that the driver
has taken out and not yet freed.  Of these, the first and the third are only a record;
driver and device read the rings.

In every run the rings hold exactly the records, and the free list and the chains that are
on their way partition the descriptor table.
-/

namespace RacOS.Virtio

/-- A virtqueue in use.  The heads in `popped` belong to the caller of `pop_used`. -/
structure Session where
  q : Virtqueue
  takenIdx : UInt16
  waiting : List ℕ
  held : List ℕ
  returned : List (ℕ × ℕ)
  popped : List ℕ

/-- Calls of the driver, with `k` for the place of a head among those popped, and moves of
the device, with `k` for the place of a head among those it holds. -/
inductive QueueEvent
  | addBuf (bufs : List Buf)
  | popUsed
  | freeChain (k : ℕ)
  | take
  | complete (k len : ℕ)

namespace Session

/-- A fresh queue, which the device has not looked at. -/
def start : Session := ⟨Virtqueue.new, 0, [], [], [], []⟩

/-- The heads that are not free. -/
def inFlight (s : Session) : List ℕ := s.waiting ++ s.held ++ s.returned.map Prod.fst ++ s.popped

def addBuf (bufs : List Buf) (s : Session) : Except VqError (ℕ × Session) :=
  match s.q.addBuf bufs with
  | .error e => .error e
  | .ok (head, q) => .ok (head, { s with q, waiting := s.waiting ++ [head] })

def popUsed (s : Session) : Option ((ℕ × ℕ) × Session) :=
  match s.q.popUsed with
  | none => none
  | some (elem, q) =>
    some (elem, { s with q, returned := s.returned.tail, popped := s.popped ++ [elem.1] })

/-- Free the chain of a head that was popped; `none` if that does not end. -/
def freeChain (head : ℕ) (s : Session) : Option Session :=
  match s.q.freeChain head with
  | none => none
  | some q => some { s with q, popped := s.popped.erase head }

/-- The device takes the next head from the available ring. -/
def take (s : Session) : Session :=
  if s.q.availIdx = s.takenIdx then s
  else
    { s with
      takenIdx := s.takenIdx + 1
      waiting := s.waiting.tail
      held := s.held ++ [s.q.availRing.getD (ringSlot s.takenIdx) 0] }

/-- The device returns a head that it holds. -/
def complete (k len : ℕ) (s : Session) : Session :=
  match s.held[k]? with
  | none => s
  | some head =>
    { s with
      q := { s.q with
        usedRing := s.q.usedRing.set (ringSlot s.q.usedIdx) (head, len)
        usedIdx := s.q.usedIdx + 1 }
      held := s.held.eraseIdx k
      returned := s.returned ++ [(head, len)] }

def step (e : QueueEvent) (s : Session) : Session :=
  match e with
  | .addBuf bufs =>
    match s.addBuf bufs with
    | .ok (_, s') => s'
    | .error _ => s
  | .popUsed =>
    match s.popUsed with
    | some (_, s') => s'
    | none => s
  | .freeChain k =>
    match s.popped[k]? with
    | some head => (s.freeChain head).getD s
    | none => s
  | .take => s.take
  | .complete k len => s.complete k len

/-- The rings hold the heads that wait and those that were returned, in order, and the free
list and the chains on their way partition the descriptor table. -/
structure Accounted (s : Session) : Prop where
  avail : Ring.Holds s.q.availRing (ringSlot s.takenIdx) (ringSlot s.q.availIdx) s.waiting
  availIdx : s.q.availIdx = s.takenIdx + UInt16.ofNat s.waiting.length
  used : Ring.Holds s.q.usedRing (ringSlot s.q.lastUsedIdx) (ringSlot s.q.usedIdx) s.returned
  usedIdx : s.q.usedIdx = s.q.lastUsedIdx + UInt16.ofNat s.returned.length
  lengths : s.q.availRing.length = queueSize ∧ s.q.usedRing.length = queueSize
  numFree : s.q.numFree = s.q.freeList.length
  partitions : s.q.Partitions s.inFlight

end Session

/-! ## Indices into the rings -/

theorem ringSlot_eq_mod (idx : UInt16) : ringSlot idx = idx.toNat % queueSize :=
  Nat.and_two_pow_sub_one_eq_mod _ 8

theorem ringSlot_add_one (idx : UInt16) : ringSlot (idx + 1) = (ringSlot idx + 1) % queueSize := by
  rw [ringSlot_eq_mod, ringSlot_eq_mod, UInt16.toNat_add, queueSize]
  have hone : (1 : UInt16).toNat = 1 := rfl
  rw [hone]
  omega

/-- An index is at the other end of a ring only if nothing is in between. -/
theorem idx_eq_iff {idx base : UInt16} {n : ℕ} (h : idx = base + UInt16.ofNat n)
    (hn : n ≤ queueSize) : idx = base ↔ n = 0 := by
  have hlt := base.toNat_lt
  rw [h, ← UInt16.toNat_inj, UInt16.toNat_add, UInt16.toNat_ofNat']
  rw [queueSize] at hn
  omega

theorem add_ofNat_succ (base : UInt16) (n : ℕ) :
    base + UInt16.ofNat n + 1 = base + UInt16.ofNat (n + 1) := by
  rw [UInt16.add_assoc, UInt16.ofNat_add]
  rfl

theorem add_one_add_ofNat (base : UInt16) (n : ℕ) :
    base + UInt16.ofNat (n + 1) = base + 1 + UInt16.ofNat n := by
  rw [UInt16.ofNat_add, UInt16.add_comm (UInt16.ofNat n), ← UInt16.add_assoc]
  rfl

namespace Session.Accounted

variable {s s' : Session}

theorem length_inFlight (s : Session) : s.inFlight.length =
    s.waiting.length + s.held.length + s.returned.length + s.popped.length := by
  simp only [inFlight, List.length_append, List.length_map]

theorem holds_replicate {α : Type} (a : α) :
    Ring.Holds (List.replicate queueSize a) (ringSlot 0) (ringSlot 0) [] := by
  refine Ring.holds_nil ?_
  rw [List.length_replicate]
  decide

theorem start : Accounted Session.start where
  avail := holds_replicate 0
  availIdx := rfl
  used := holds_replicate (0, 0)
  usedIdx := rfl
  lengths := ⟨List.length_replicate, List.length_replicate⟩
  numFree := Virtqueue.numFree_eq_length _
  partitions := Virtqueue.partitions_new

variable {bufs : List Buf} {head : ℕ}

theorem addBuf_ok (h : s.addBuf bufs = .ok (head, s')) :
    ∃ q, s.q.addBuf bufs = .ok (head, q) ∧ s' = { s with q, waiting := s.waiting ++ [head] } := by
  rw [Session.addBuf] at h
  cases hq : s.q.addBuf bufs with
  | error e =>
    rw [hq] at h
    cases h
  | ok r =>
    rw [hq] at h
    cases h
    exact ⟨r.2, rfl, rfl⟩

theorem exists_addBuf_single (b : Buf) (h : 0 < s.q.numFree) :
    ∃ head s', s.addBuf [b] = .ok (head, s') := by
  obtain ⟨head, q', hq⟩ := Virtqueue.exists_addBuf_single b h
  exact ⟨head, { s with q := q', waiting := s.waiting ++ [head] }, by rw [Session.addBuf, hq]⟩

theorem perm_cons_append_singleton (a : ℕ) (l l' : List ℕ) :
    (a :: l ++ l').Perm (l ++ (l' ++ [a])) := by
  rw [List.cons_append, ← List.append_assoc]
  exact (List.perm_append_singleton a _).symm

theorem perm_cons_eraseIdx {l : List ℕ} {k a : ℕ} (h : l[k]? = some a) :
    l.Perm (a :: l.eraseIdx k) := by
  obtain ⟨hk, rfl⟩ := List.getElem?_eq_some_iff.mp h
  exact (List.getElem_cons_eraseIdx_perm hk).symm

theorem q_take (s : Session) : s.take.q = s.q ∧ s.take.popped = s.popped := by
  rw [Session.take]
  split
  · exact ⟨rfl, rfl⟩
  · exact ⟨rfl, rfl⟩

theorem inFlight_complete (s : Session) (k len : ℕ) :
    s.inFlight.Perm (s.complete k len).inFlight := by
  rw [Session.complete]
  cases hk : s.held[k]? with
  | none => exact List.Perm.refl _
  | some head =>
    simp only [inFlight, List.map_append, List.map_singleton, List.append_assoc]
    refine List.Perm.append_left _ (((perm_cons_eraseIdx hk).append_right _).trans ?_)
    exact List.perm_middle.symm.trans (List.Perm.append_left _ List.perm_middle.symm)

theorem desc_complete (s : Session) (k len : ℕ) :
    (s.complete k len).q.desc = s.q.desc ∧ (s.complete k len).popped = s.popped := by
  rw [Session.complete]
  split
  · exact ⟨rfl, rfl⟩
  · exact ⟨rfl, rfl⟩

variable (h : Accounted s)

include h

theorem length_le : s.q.numFree + s.inFlight.length ≤ queueSize :=
  h.partitions.numFree_add_length_le

/-- A buffer that is added waits for the device. -/
theorem addBuf (hadd : s.addBuf bufs = .ok (head, s')) : Accounted s' := by
  obtain ⟨q, hq, rfl⟩ := addBuf_ok hadd
  obtain ⟨hne, hfree, -, indices, q₁, halloc, rfl, rfl⟩ := Virtqueue.addBuf_ok hq
  obtain ⟨-, -, -, hrings⟩ := Virtqueue.allocDescs_some halloc
  have hroom : s.waiting.length < s.q.availRing.length := by
    have hlen := h.length_le
    have hpos := List.length_pos_iff.mpr hne
    rw [length_inFlight] at hlen
    rw [h.lengths.1]
    omega
  have havail := h.avail.push hroom (indices.headD 0)
  rw [h.lengths.1, ← ringSlot_add_one] at havail
  refine ⟨?_, ?_, ?_, ?_, ?_, Virtqueue.numFree_eq_length _, ?_⟩
  · simp only [Virtqueue.publish, hrings.availRing, hrings.availIdx]
    exact havail
  · simp only [Virtqueue.publish, hrings.availIdx, List.length_append, List.length_singleton]
    rw [h.availIdx, add_ofNat_succ]
  · simp only [Virtqueue.publish, hrings.usedRing, hrings.usedIdx, hrings.lastUsedIdx]
    exact h.used
  · simp only [Virtqueue.publish, hrings.usedIdx, hrings.lastUsedIdx]
    exact h.usedIdx
  · simp only [Virtqueue.publish, hrings.usedRing, hrings.availRing, List.length_set]
    exact h.lengths
  · refine (h.partitions.addBuf hq).perm ?_
    simp only [inFlight, List.append_assoc]
    exact List.perm_middle.symm

/-- A single buffer that is added is in flight under a descriptor of its own. -/
theorem addBuf_single {b : Buf} (hadd : s.addBuf [b] = .ok (head, s')) :
    s'.inFlight.Perm (head :: s.inFlight) ∧ s'.q.desc head = Virtqueue.descFor b none ∧
      s.q.numFree = s'.q.numFree + 1 ∧ (∀ i ∈ s.inFlight, s'.q.desc i = s.q.desc i) ∧
      s' = { s with q := s'.q, waiting := s.waiting ++ [head] } := by
  obtain ⟨q, hq, rfl⟩ := addBuf_ok hadd
  obtain ⟨hdesc, hfree⟩ := Virtqueue.addBuf_single hq
  refine ⟨?_, hdesc, hfree, fun i hi => ?_, rfl⟩
  · simp only [inFlight, List.append_assoc]
    exact List.perm_middle
  · exact Virtqueue.addBuf_desc hq (h.partitions.not_mem_freeList hi)

/-- What is popped is the first head that the device has returned. -/
theorem popUsed_cases :
    (s.returned = [] ∧ s.popUsed = none) ∨
      ∃ elem rest, s.returned = elem :: rest ∧
        s.popUsed = some (elem, { s with
          q := { s.q with lastUsedIdx := s.q.lastUsedIdx + 1 }
          returned := rest
          popped := s.popped ++ [elem.1] }) := by
  have hle : s.returned.length ≤ queueSize := by
    have hlen := h.length_le
    rw [length_inFlight] at hlen
    omega
  have hempty := idx_eq_iff h.usedIdx hle
  cases hreturned : s.returned with
  | nil =>
    rw [hreturned] at hempty
    refine Or.inl ⟨rfl, ?_⟩
    rw [Session.popUsed, Virtqueue.popUsed, if_pos (hempty.mpr rfl)]
  | cons elem rest =>
    have hused := h.used
    rw [hreturned] at hempty hused
    have hfirst : s.q.usedRing.getD (ringSlot s.q.lastUsedIdx) (0, 0) = elem := by
      rw [List.getD_eq_getElem?_getD, hused.pop.1]
      rfl
    refine Or.inr ⟨elem, rest, rfl, ?_⟩
    rw [Session.popUsed, Virtqueue.popUsed,
      if_neg fun heq => Nat.succ_ne_zero _ (hempty.mp heq), hfirst, hreturned]
    rfl

/-- The head that is popped stays in flight. -/
theorem popUsed {elem : ℕ × ℕ} (hpop : s.popUsed = some (elem, s')) :
    Accounted s' ∧ s.inFlight.Perm s'.inFlight ∧ s'.q.desc = s.q.desc ∧
      s'.popped = s.popped ++ [elem.1] ∧ elem.1 ∈ s.inFlight := by
  rcases h.popUsed_cases with ⟨-, hnone⟩ | ⟨elem', rest, hreturned, hsome⟩
  · rw [hnone] at hpop
    cases hpop
  · cases hsome.symm.trans hpop
    have hperm : s.inFlight.Perm (s.waiting ++ s.held ++ rest.map Prod.fst ++
        (s.popped ++ [elem.1])) := by
      simp only [inFlight, hreturned, List.map_cons, List.append_assoc]
      exact ((perm_cons_append_singleton _ _ _).append_left _).append_left _
    have hused := h.used
    have husedIdx := h.usedIdx
    rw [hreturned] at hused husedIdx
    have hrest := hused.pop.2
    rw [h.lengths.2, ← ringSlot_add_one] at hrest
    refine ⟨⟨h.avail, h.availIdx, hrest, husedIdx.trans (add_one_add_ofNat _ _), h.lengths,
      h.numFree, (h.partitions.perm hperm).congr rfl rfl rfl⟩, hperm, rfl, rfl, ?_⟩
    exact hperm.mem_iff.mpr (List.mem_append_right _ List.mem_concat_self)

/-- Freeing a chain that was popped ends. -/
theorem freeChain (hhead : head ∈ s.popped) :
    ∃ q', s.freeChain head = some { s with q := q', popped := s.popped.erase head } ∧
      Accounted { s with q := q', popped := s.popped.erase head } ∧ 0 < q'.numFree ∧
      s.inFlight.Perm (head :: inFlight { s with q := q', popped := s.popped.erase head }) ∧
      ∀ i ∈ inFlight { s with q := q', popped := s.popped.erase head }, q'.desc i = s.q.desc i := by
  have hperm : s.inFlight.Perm (head :: (s.waiting ++ s.held ++ s.returned.map Prod.fst ++
      s.popped.erase head)) :=
    ((List.perm_cons_erase hhead).append_left _).trans List.perm_middle
  obtain ⟨q', hfree, hpartitions, hrings, hpos, hdesc⟩ := (h.partitions.perm hperm).freeChain
  refine ⟨q', by rw [Session.freeChain, hfree], ?_, hpos, hperm, hdesc⟩
  refine ⟨?_, ?_, ?_, ?_, ?_, Virtqueue.numFree_eq_length _, hpartitions⟩
  · simp only [hrings.availRing, hrings.availIdx]
    exact h.avail
  · simp only [hrings.availIdx]
    exact h.availIdx
  · simp only [hrings.usedRing, hrings.usedIdx, hrings.lastUsedIdx]
    exact h.used
  · simp only [hrings.usedIdx, hrings.lastUsedIdx]
    exact h.usedIdx
  · simp only [hrings.usedRing, hrings.availRing]
    exact h.lengths

/-- The device takes the first head that waits. -/
theorem take_cases :
    (s.waiting = [] ∧ s.take = s) ∨
      ∃ head rest, s.waiting = head :: rest ∧
        s.take = { s with
          takenIdx := s.takenIdx + 1, waiting := rest, held := s.held ++ [head] } := by
  have hle : s.waiting.length ≤ queueSize := by
    have hlen := h.length_le
    rw [length_inFlight] at hlen
    omega
  have hempty := idx_eq_iff h.availIdx hle
  cases hwaiting : s.waiting with
  | nil =>
    rw [hwaiting] at hempty
    exact Or.inl ⟨rfl, if_pos (hempty.mpr rfl)⟩
  | cons head rest =>
    have havail := h.avail
    rw [hwaiting] at hempty havail
    have hfirst : s.q.availRing.getD (ringSlot s.takenIdx) 0 = head := by
      rw [List.getD_eq_getElem?_getD, havail.pop.1]
      rfl
    refine Or.inr ⟨head, rest, rfl, ?_⟩
    rw [Session.take, if_neg fun heq => Nat.succ_ne_zero _ (hempty.mp heq), hfirst, hwaiting]
    rfl

theorem inFlight_take : s.inFlight.Perm s.take.inFlight := by
  rcases h.take_cases with ⟨-, hsame⟩ | ⟨head, rest, hwaiting, htake⟩
  · rw [hsame]
  · rw [htake]
    simp only [inFlight, hwaiting, List.append_assoc]
    rw [← List.append_assoc, ← List.append_assoc rest, ← List.append_assoc (rest ++ s.held)]
    exact ((perm_cons_append_singleton head rest s.held).trans
      (List.Perm.of_eq (List.append_assoc _ _ _).symm)).append_right _

theorem take : Accounted s.take := by
  have hpartitions := h.partitions.perm h.inFlight_take
  rcases h.take_cases with ⟨-, hsame⟩ | ⟨head, rest, hwaiting, htake⟩
  · rw [hsame]
    exact h
  · rw [htake] at hpartitions ⊢
    have havail := h.avail
    have havailIdx := h.availIdx
    rw [hwaiting] at havail havailIdx
    have hrest := havail.pop.2
    rw [h.lengths.1, ← ringSlot_add_one] at hrest
    exact ⟨hrest, havailIdx.trans (add_one_add_ofNat _ _), h.used, h.usedIdx, h.lengths,
      h.numFree, hpartitions⟩

/-- A head that the device holds is returned. -/
theorem complete (k len : ℕ) : Accounted (s.complete k len) := by
  have hperm := inFlight_complete s k len
  rw [Session.complete] at hperm ⊢
  cases hk : s.held[k]? with
  | none => exact h
  | some head =>
    simp only [hk] at hperm
    have hroom : s.returned.length < s.q.usedRing.length := by
      have hlen := h.length_le
      have hheld := (perm_cons_eraseIdx hk).length_eq
      rw [List.length_cons] at hheld
      rw [length_inFlight] at hlen
      rw [h.lengths.2]
      omega
    have hused := h.used.push hroom (head, len)
    rw [h.lengths.2, ← ringSlot_add_one] at hused
    refine ⟨h.avail, h.availIdx, hused, ?_, ?_, h.numFree, ?_⟩
    · simp only [List.length_append, List.length_singleton]
      rw [h.usedIdx, add_ofNat_succ]
    · simp only [List.length_set]
      exact h.lengths
    · exact (h.partitions.perm hperm).congr rfl rfl rfl

/-- Every call of the driver and every move of the device keeps account. -/
theorem step (e : QueueEvent) : Accounted (s.step e) := by
  cases e with
  | addBuf bufs =>
    rw [Session.step]
    cases hadd : s.addBuf bufs with
    | error e => exact h
    | ok r => exact h.addBuf hadd
  | popUsed =>
    rw [Session.step]
    cases hpop : s.popUsed with
    | none => exact h
    | some r => exact (h.popUsed hpop).1
  | freeChain k =>
    rw [Session.step]
    cases hk : s.popped[k]? with
    | none => exact h
    | some head =>
      obtain ⟨q', hfree, hs', -⟩ := h.freeChain (List.mem_of_getElem? hk)
      simp only [hfree, Option.getD_some]
      exact hs'
  | take => exact h.take
  | complete k len => exact h.complete k len

end Session.Accounted

end RacOS.Virtio
