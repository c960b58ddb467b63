import RacOS.Lib.Ring
import RacOS.Lib.Threaded
import Mathlib.Data.List.Nodup
import Mathlib.Data.List.Perm.Basic
import Mathlib.Logic.Function.Basic

/-!
# Virtqueues

The model of `drivers/virtqueue.rs`.  The driver keeps the free descriptors in a list
that is threaded through the descriptor table, as are the chains it hands to the device.
The free list has no end mark that could be trusted: it is as long as the driver counts.

A queue and a number of heads partition the descriptor table if the free list and the
chains of these heads have every descriptor exactly once.  Adding a buffer adds a head,
and freeing a chain takes one away.
-/

namespace RacOS.Virtio

open Threaded

def queueSize : ℕ := 256

def vringDescFNext : UInt16 := 1
def vringDescFWrite : UInt16 := 2

structure VirtqDesc where
  addr : ℕ
  len : ℕ
  flags : UInt16
  next : ℕ
  deriving DecidableEq

/-- The descriptor after this one in a chain. -/
def VirtqDesc.succ (d : VirtqDesc) : Option ℕ :=
  if d.flags &&& vringDescFNext = 0 then none else some d.next

/-- A virtqueue: what the driver keeps and the memory that it shares with the device. -/
structure Virtqueue where
  desc : ℕ → VirtqDesc
  availIdx : UInt16
  availRing : List ℕ
  usedIdx : UInt16
  usedRing : List (ℕ × ℕ)
  freeHead : ℕ
  numFree : ℕ
  lastUsedIdx : UInt16

inductive VqError
  | outOfMemory
  | noFreeDescriptors
  deriving DecidableEq

/-- A buffer: its address and length, and whether the device writes it. -/
structure Buf where
  addr : ℕ
  len : ℕ
  write : Bool

/-- The place in a ring that an index names. -/
def ringSlot (idx : UInt16) : ℕ := idx.toNat &&& (queueSize - 1)

namespace Virtqueue

/-- A fresh virtqueue, with the free list `0 → 1 → … → Q - 1`. -/
def new : Virtqueue where
  desc i :=
    if i = queueSize - 1 then ⟨0, 0, 0, 0⟩ else ⟨0, 0, vringDescFNext, i + 1⟩
  availIdx := 0
  availRing := List.replicate queueSize 0
  usedIdx := 0
  usedRing := List.replicate queueSize (0, 0)
  freeHead := 0
  numFree := queueSize
  lastUsedIdx := 0

/-- Allocate one descriptor from the free list. -/
def allocDesc (q : Virtqueue) : Option (ℕ × Virtqueue) :=
  if q.numFree = 0 then none
  else
    some (q.freeHead, { q with freeHead := (q.desc q.freeHead).next, numFree := q.numFree - 1 })

/-- Return a descriptor to the free list. -/
def freeDesc (idx : ℕ) (q : Virtqueue) : Virtqueue :=
  { q with
    desc := Function.update q.desc idx
      { q.desc idx with flags := vringDescFNext, next := q.freeHead }
    freeHead := idx
    numFree := q.numFree + 1 }

/-- The loop of `free_chain`, for a number of rounds; `none` if it has not ended. -/
def freeChainLoop : ℕ → ℕ → Virtqueue → Option Virtqueue
  | 0, _, _ => none
  | rounds + 1, cur, q =>
    match (q.desc cur).succ with
    | none => some (q.freeDesc cur)
    | some next => freeChainLoop rounds next (q.freeDesc cur)

/-- Free an entire descriptor chain. -/
def freeChain (head : ℕ) (q : Virtqueue) : Option Virtqueue := freeChainLoop queueSize head q

/-- Allocate a number of descriptors. -/
def allocDescs : ℕ → Virtqueue → Option (List ℕ × Virtqueue)
  | 0, q => some ([], q)
  | n + 1, q => do
    let (idx, q) ← q.allocDesc
    let (indices, q) ← allocDescs n q
    pure (idx :: indices, q)

def descFlags (write last : Bool) : UInt16 :=
  (if write then vringDescFWrite else 0) ||| (if last then 0 else vringDescFNext)

/-- The descriptor of a buffer, with the one after it in the chain. -/
def descFor (b : Buf) (after : Option ℕ) : VirtqDesc :=
  ⟨b.addr, b.len, descFlags b.write after.isNone, after.getD 0⟩

/-- Fill in the descriptors of a chain. -/
def populate : List (ℕ × Buf) → (ℕ → VirtqDesc) → ℕ → VirtqDesc
  | [], desc => desc
  | (i, b) :: rest, desc =>
    populate rest (Function.update desc i (descFor b (rest.head?.map Prod.fst)))

/-- Publish a head in the available ring. -/
def publish (head : ℕ) (q : Virtqueue) : Virtqueue :=
  { q with
    availRing := q.availRing.set (ringSlot q.availIdx) head
    availIdx := q.availIdx + 1 }

def maxChain : ℕ := 8

/-- Add a chain of buffers to the virtqueue.  The head descriptor is returned. -/
def addBuf (bufs : List Buf) (q : Virtqueue) : Except VqError (ℕ × Virtqueue) :=
  if bufs = [] ∨ q.numFree < bufs.length ∨ maxChain < bufs.length then
    .error .noFreeDescriptors
  else
    match q.allocDescs bufs.length with
    | none => .error .noFreeDescriptors
    | some (indices, q) =>
      let head := indices.headD 0
      .ok (head, publish head { q with desc := populate (indices.zip bufs) q.desc })

/-- Pop one completed entry from the used ring: the head and the number of bytes written. -/
def popUsed (q : Virtqueue) : Option ((ℕ × ℕ) × Virtqueue) :=
  if q.usedIdx = q.lastUsedIdx then none
  else
    some (q.usedRing.getD (ringSlot q.lastUsedIdx) (0, 0),
      { q with lastUsedIdx := q.lastUsedIdx + 1 })

/-! ## The free list and the chains -/

/-- The free descriptors, in the order in which they will be allocated. -/
def freeList (q : Virtqueue) : List ℕ := walk (fun i => (q.desc i).next) q.numFree q.freeHead

/-- The descriptors of the chain from a head on. -/
def chain (q : Virtqueue) (head : ℕ) : List ℕ := follow (fun i => (q.desc i).succ) queueSize head

/-- The free list and the chains of the heads have every descriptor exactly once, and the
chains end. -/
structure Partitions (q : Virtqueue) (heads : List ℕ) : Prop where
  chains : ∀ head ∈ heads, IsChain (fun i => (q.desc i).succ) head (q.chain head)
  partition : (q.freeList ++ heads.flatMap q.chain).Perm (List.range queueSize)

/-- The two queues have the same rings and indices into them. -/
structure SameRings (q q' : Virtqueue) : Prop where
  availIdx : q'.availIdx = q.availIdx
  availRing : q'.availRing = q.availRing
  usedIdx : q'.usedIdx = q.usedIdx
  usedRing : q'.usedRing = q.usedRing
  lastUsedIdx : q'.lastUsedIdx = q.lastUsedIdx

theorem SameRings.trans {q₁ q₂ q₃ : Virtqueue} (h : SameRings q₁ q₂) (h' : SameRings q₂ q₃) :
    SameRings q₁ q₃ :=
  ⟨h'.availIdx.trans h.availIdx, h'.availRing.trans h.availRing, h'.usedIdx.trans h.usedIdx,
    h'.usedRing.trans h.usedRing, h'.lastUsedIdx.trans h.lastUsedIdx⟩

theorem numFree_eq_length (q : Virtqueue) : q.numFree = q.freeList.length :=
  (length_walk _ _ _).symm

variable {q q' : Virtqueue} {head : ℕ}

theorem allocDesc_some {idx : ℕ} (h : q.allocDesc = some (idx, q')) :
    q.freeList = idx :: q'.freeList ∧ q'.desc = q.desc ∧ SameRings q q' := by
  rw [allocDesc] at h
  by_cases hnone : q.numFree = 0
  · rw [if_pos hnone] at h
    cases h
  · rw [if_neg hnone] at h
    cases h
    obtain ⟨n, hn⟩ := Nat.exists_eq_succ_of_ne_zero hnone
    refine ⟨?_, rfl, ⟨rfl, rfl, rfl, rfl, rfl⟩⟩
    rw [freeList, freeList, hn]
    rfl

/-- The descriptors that are allocated are the first of the free list. -/
theorem allocDescs_some {n : ℕ} {indices : List ℕ}
    (h : q.allocDescs n = some (indices, q')) :
    q.freeList = indices ++ q'.freeList ∧ indices.length = n ∧ q'.desc = q.desc ∧
      SameRings q q' := by
  induction n generalizing q indices with
  | zero =>
    cases h
    exact ⟨rfl, rfl, rfl, ⟨rfl, rfl, rfl, rfl, rfl⟩⟩
  | succ n ih =>
    simp only [allocDescs, Option.bind_eq_bind, Option.bind_eq_some_iff, Option.pure_def,
      Option.some.injEq, Prod.mk.injEq, Prod.exists] at h
    obtain ⟨idx, q₁, hfirst, rest, q₂, hrest, rfl, rfl⟩ := h
    obtain ⟨hlist, hdesc, hrings⟩ := allocDesc_some hfirst
    obtain ⟨hlist', hlen, hdesc', hrings'⟩ := ih hrest
    exact ⟨by rw [hlist, hlist', List.cons_append], by rw [List.length_cons, hlen],
      hdesc'.trans hdesc, hrings.trans hrings'⟩

theorem allocDescs_isSome {n : ℕ} (h : n ≤ q.numFree) :
    ∃ indices q', q.allocDescs n = some (indices, q') := by
  induction n generalizing q with
  | zero => exact ⟨[], q, rfl⟩
  | succ n ih =>
    obtain ⟨indices, q', hrest⟩ := @ih
      { q with freeHead := (q.desc q.freeHead).next, numFree := q.numFree - 1 }
      (Nat.le_sub_one_of_lt h)
    refine ⟨q.freeHead :: indices, q', ?_⟩
    simp only [allocDescs, allocDesc, if_neg (Nat.ne_zero_of_lt h), Option.bind_eq_bind,
      Option.bind_some, hrest, Option.pure_def]

variable {bufs : List Buf}

/-- A buffer that is added gets the first descriptors of the free list. -/
theorem addBuf_ok (h : q.addBuf bufs = .ok (head, q')) :
    bufs ≠ [] ∧ bufs.length ≤ q.numFree ∧ bufs.length ≤ maxChain ∧
      ∃ indices q₁, q.allocDescs bufs.length = some (indices, q₁) ∧ head = indices.headD 0 ∧
        q' = publish (indices.headD 0)
          { q₁ with desc := populate (indices.zip bufs) q₁.desc } := by
  rw [addBuf] at h
  by_cases hrefused : bufs = [] ∨ q.numFree < bufs.length ∨ maxChain < bufs.length
  · rw [if_pos hrefused] at h
    cases h
  · rw [if_neg hrefused] at h
    obtain ⟨hne, hfits⟩ := not_or.mp hrefused
    cases halloc : q.allocDescs bufs.length with
    | none =>
      rw [halloc] at h
      cases h
    | some r =>
      rw [halloc] at h
      cases h
      exact ⟨hne, by omega, by omega, r.1, r.2, rfl, rfl, rfl⟩

theorem descFlags_and_next (write last : Bool) :
    descFlags write last &&& vringDescFNext = 0 ↔ last = true := by
  cases write <;> cases last <;> decide

theorem succ_descFor (b : Buf) (after : Option ℕ) : (descFor b after).succ = after := by
  rw [VirtqDesc.succ, descFor]
  cases after with
  | none => exact if_pos ((descFlags_and_next _ _).mpr rfl)
  | some j => exact if_neg fun h => Bool.false_ne_true ((descFlags_and_next _ _).mp h)

variable {l : List (ℕ × Buf)} {i : ℕ}

theorem populate_of_not_mem {desc : ℕ → VirtqDesc} (h : i ∉ l.map Prod.fst) :
    populate l desc i = desc i := by
  induction l generalizing desc with
  | nil => rfl
  | cons x l ih =>
    rw [List.map_cons, List.mem_cons, not_or] at h
    rw [populate, ih h.2, Function.update_of_ne h.1]

variable {b : Buf}

theorem populate_head (desc : ℕ → VirtqDesc) (h : i ∉ l.map Prod.fst) :
    populate ((i, b) :: l) desc i = descFor b (l.head?.map Prod.fst) := by
  rw [populate, populate_of_not_mem h, Function.update_self]

theorem isChain_populate (desc : ℕ → VirtqDesc) (hnodup : (i :: l.map Prod.fst).Nodup) :
    IsChain (fun j => (populate ((i, b) :: l) desc j).succ) i (i :: l.map Prod.fst) := by
  induction l generalizing i b desc with
  | nil =>
    refine .last ?_
    rw [populate_head desc (List.nodup_cons.mp hnodup).1, succ_descFor]
    rfl
  | cons x l ih =>
    obtain ⟨hi, hnodup'⟩ := List.nodup_cons.mp hnodup
    refine .cons (j := x.1) ?_ (ih _ hnodup')
    rw [populate_head desc hi, succ_descFor]
    rfl

/-- Adding a buffer changes only descriptors that were free. -/
theorem addBuf_desc {head i : ℕ} (h : q.addBuf bufs = .ok (head, q'))
    (hi : i ∉ q.freeList) : q'.desc i = q.desc i := by
  obtain ⟨-, -, -, indices, q₁, halloc, -, rfl⟩ := addBuf_ok h
  obtain ⟨hlist, hlen, hdesc, -⟩ := allocDescs_some halloc
  have hfst : (indices.zip bufs).map Prod.fst = indices :=
    List.map_fst_zip (Nat.le_of_eq hlen)
  rw [← hdesc]
  refine populate_of_not_mem fun hmem => hi ?_
  rw [hfst] at hmem
  rw [hlist]
  exact List.mem_append_left _ hmem

/-- A single buffer has a descriptor of its own. -/
theorem addBuf_single (h : q.addBuf [b] = .ok (head, q')) :
    q'.desc head = descFor b none ∧ q.numFree = q'.numFree + 1 := by
  obtain ⟨-, -, -, indices, q₁, halloc, rfl, rfl⟩ := addBuf_ok h
  obtain ⟨hlist, hlen, -, -⟩ := allocDescs_some halloc
  obtain ⟨i, rfl⟩ := List.length_eq_one_iff.mp hlen
  refine ⟨populate_head q₁.desc List.not_mem_nil, ?_⟩
  rw [numFree_eq_length, hlist, List.singleton_append, List.length_cons, ← numFree_eq_length]
  rfl

theorem exists_addBuf_single (b : Buf) (h : 0 < q.numFree) :
    ∃ head q', q.addBuf [b] = .ok (head, q') := by
  obtain ⟨indices, q₁, halloc⟩ := allocDescs_isSome (n := 1) (q := q) h
  have hfits : ¬([b] = [] ∨ q.numFree < [b].length ∨ maxChain < [b].length) := by
    rw [List.length_singleton, maxChain]
    simp
    omega
  refine ⟨indices.headD 0,
    publish (indices.headD 0) { q₁ with desc := populate (indices.zip [b]) q₁.desc }, ?_⟩
  rw [addBuf, if_neg hfits, List.length_singleton, halloc]

/-- A chain whose descriptors are left alone stays as it is. -/
theorem chain_congr (q' : Virtqueue) (h : IsChain (fun i => (q.desc i).succ) head (q.chain head))
    (hsame : ∀ i ∈ q.chain head, q'.desc i = q.desc i) :
    IsChain (fun i => (q'.desc i).succ) head (q'.chain head) ∧ q'.chain head = q.chain head := by
  have hchain : IsChain (fun i => (q'.desc i).succ) head (q.chain head) :=
    h.congr fun i hi => by rw [hsame i hi]
  have heq : q'.chain head = q.chain head := hchain.follow_eq (length_follow_le _ _ _)
  exact ⟨heq.symm ▸ hchain, heq⟩

/-- A free list whose descriptors are left alone stays as it is. -/
theorem freeList_congr (hhead : q'.freeHead = q.freeHead)
    (hnum : q'.numFree = q.numFree) (hsame : ∀ i ∈ q.freeList, q'.desc i = q.desc i) :
    q'.freeList = q.freeList := by
  rw [freeList, hhead, hnum]
  exact (walk_congr fun i hi => by rw [hsame i hi]).symm

theorem freeDesc_of_ne {idx i : ℕ} (h : i ≠ idx) :
    (q.freeDesc idx).desc i = q.desc i :=
  Function.update_of_ne h _ _

theorem freeList_freeDesc {idx : ℕ} (h : idx ∉ q.freeList) :
    (q.freeDesc idx).freeList = idx :: q.freeList := by
  have hnext (i : ℕ) (hi : i ∈ q.freeList) : (q.desc i).next = ((q.freeDesc idx).desc i).next := by
    have hne : i ≠ idx := by
      rintro rfl
      exact h hi
    rw [freeDesc_of_ne hne]
  have hself : ((q.freeDesc idx).desc idx).next = q.freeHead :=
    congrArg VirtqDesc.next (Function.update_self idx _ q.desc)
  change idx :: walk _ q.numFree ((q.freeDesc idx).desc idx).next = _
  rw [hself]
  exact congrArg _ (walk_congr hnext).symm

/-- Freeing a chain puts its descriptors in front of the free list, the last one first, and
changes no other descriptor. -/
theorem freeChainLoop_spec {rounds head : ℕ} {c : List ℕ}
    (hchain : IsChain (fun i => (q.desc i).succ) head c) (hlen : c.length ≤ rounds)
    (hnodup : c.Nodup) (hfree : ∀ i ∈ c, i ∉ q.freeList) :
    ∃ q', freeChainLoop rounds head q = some q' ∧ q'.freeList = c.reverse ++ q.freeList ∧
      (∀ i, i ∉ c → q'.desc i = q.desc i) ∧ SameRings q q' := by
  induction c generalizing q rounds head with
  | nil => cases hchain
  | cons i c ih =>
    obtain ⟨hi, hnodup⟩ := List.nodup_cons.mp hnodup
    rw [List.forall_mem_cons] at hfree
    cases rounds with
    | zero => cases hlen
    | succ rounds =>
      have hlist := freeList_freeDesc hfree.1
      cases hchain with
      | last hlast =>
        refine ⟨q.freeDesc i, by rw [freeChainLoop, hlast], hlist, fun j hj => ?_,
          ⟨rfl, rfl, rfl, rfl, rfl⟩⟩
        exact freeDesc_of_ne (List.ne_of_not_mem_cons hj)
      | cons hnext hc =>
        -- the rest of the chain does not go through the descriptor that is freed
        have hne {j : ℕ} (hj : j ∈ c) : j ≠ i := by
          rintro rfl
          exact hi hj
        obtain ⟨q', hrun, hlist', hdesc, hrings⟩ := ih (q := q.freeDesc i)
          (hc.congr fun j hj => by rw [freeDesc_of_ne (hne hj)])
          (Nat.le_of_succ_le_succ hlen) hnodup fun j hj => by
            rw [hlist, List.mem_cons, not_or]
            exact ⟨hne hj, hfree.2 j hj⟩
        refine ⟨q', by rw [freeChainLoop, hnext]; exact hrun, ?_, fun j hj => ?_,
          ⟨hrings.1, hrings.2, hrings.3, hrings.4, hrings.5⟩⟩
        · rw [hlist', hlist, List.reverse_cons, List.append_assoc]
          rfl
        · rw [List.mem_cons, not_or] at hj
          rw [hdesc j hj.2, freeDesc_of_ne hj.1]

/-! ## The partition -/

namespace Partitions

variable {heads heads' : List ℕ}

theorem nodup (h : Partitions q heads) : (q.freeList ++ heads.flatMap q.chain).Nodup :=
  h.partition.nodup_iff.mpr List.nodup_range

theorem perm (h : Partitions q heads) (hperm : heads.Perm heads') : Partitions q heads' where
  chains head hhead := h.chains head (hperm.mem_iff.mpr hhead)
  partition := ((hperm.flatMap_right q.chain).append_left q.freeList).symm.trans h.partition

/-- The partition depends on the descriptors and the free list only. -/
theorem congr (h : Partitions q heads) (hdesc : q'.desc = q.desc)
    (hhead : q'.freeHead = q.freeHead) (hnum : q'.numFree = q.numFree) : Partitions q' heads := by
  have hchain (i : ℕ) : q'.chain i = q.chain i := by rw [chain, chain, hdesc]
  have hlist : q'.freeList = q.freeList := by rw [freeList, freeList, hdesc, hhead, hnum]
  refine ⟨fun i hi => ?_, ?_⟩
  · rw [hchain, hdesc]
    exact h.chains i hi
  · rw [hlist, List.flatMap_congr fun i _ => hchain i]
    exact h.partition

theorem length_le_length_flatMap {l : List ℕ} {f : ℕ → List ℕ}
    (h : ∀ a ∈ l, 0 < (f a).length) : l.length ≤ (l.flatMap f).length := by
  induction l with
  | nil => exact Nat.le_refl _
  | cons a l ih =>
    rw [List.forall_mem_cons] at h
    have hrest := ih h.2
    rw [List.flatMap_cons, List.length_append, List.length_cons]
    omega

/-- There are as many descriptors as are free or in chains, and every chain has one. -/
theorem numFree_add_length_le (h : Partitions q heads) : q.numFree + heads.length ≤ queueSize := by
  have hlength := h.partition.length_eq
  rw [List.length_append, ← q.numFree_eq_length, List.length_range] at hlength
  have hle := length_le_length_flatMap fun i hi => (h.chains i hi).length_pos
  omega

/-- Chains whose descriptors are left alone stay as they are. -/
theorem chains_congr (hchains : ∀ i ∈ heads, IsChain (fun j => (q.desc j).succ) i (q.chain i))
    (q' : Virtqueue) (hsame : ∀ i ∈ heads.flatMap q.chain, q'.desc i = q.desc i) :
    (∀ i ∈ heads, IsChain (fun j => (q'.desc j).succ) i (q'.chain i)) ∧
      heads.flatMap q'.chain = heads.flatMap q.chain := by
  have hboth (i : ℕ) (hi : i ∈ heads) := chain_congr q' (hchains i hi) fun j hj =>
    hsame j (List.mem_flatMap.mpr ⟨i, hi, hj⟩)
  exact ⟨fun i hi => (hboth i hi).1, List.flatMap_congr fun i hi => (hboth i hi).2⟩

/-- Descriptors that are taken from the free list and filled in are a new chain. -/
theorem populate (h : Partitions q heads) {q₁ : Virtqueue} {indices : List ℕ}
    (hlist : q.freeList = indices ++ q₁.freeList) (hlen : indices.length = bufs.length)
    (hdesc : q₁.desc = q.desc) (hmax : bufs.length ≤ maxChain) (hne : bufs ≠ []) :
    Partitions (publish (indices.headD 0)
      { q₁ with desc := Virtqueue.populate (indices.zip bufs) q₁.desc })
      (indices.headD 0 :: heads) := by
  obtain ⟨b, bufs, rfl⟩ := List.exists_cons_of_ne_nil hne
  cases indices with
  | nil => cases hlen
  | cons i indices =>
    have hnodup := h.nodup
    rw [hlist, List.append_assoc] at hnodup
    obtain ⟨hnew, -, hapart⟩ := List.nodup_append.mp hnodup
    have hfst : (indices.zip bufs).map Prod.fst = indices :=
      List.map_fst_zip (Nat.le_of_eq (Nat.succ.inj hlen))
    rw [List.headD_cons, List.zip_cons_cons]
    -- the queue with the new descriptors, which are not those of other lists
    generalize hq' : publish i
      { q₁ with desc := Virtqueue.populate ((i, b) :: indices.zip bufs) q₁.desc } = q'
    have hdesc' : q'.desc = Virtqueue.populate ((i, b) :: indices.zip bufs) q.desc := by
      rw [← hq', ← hdesc]
      rfl
    have hother {j : ℕ} (hj : j ∈ q₁.freeList ++ heads.flatMap q.chain) : q'.desc j = q.desc j := by
      rw [hdesc']
      refine populate_of_not_mem fun hmem => ?_
      rw [List.map_cons, hfst] at hmem
      exact hapart j hmem j hj rfl
    have hchain : IsChain (fun j => (q'.desc j).succ) i (i :: indices) := by
      have hchain := isChain_populate (b := b) (l := indices.zip bufs) (i := i) q.desc
        (by rw [hfst]; exact hnew)
      rw [hfst] at hchain
      rw [hdesc']
      exact hchain
    have heq : q'.chain i = i :: indices :=
      hchain.follow_eq (by rw [hlen, queueSize]; rw [maxChain] at hmax; omega)
    have hfree : q'.freeList = q₁.freeList := by
      refine freeList_congr (by rw [← hq']; rfl) (by rw [← hq']; rfl) fun j hj => ?_
      rw [hdesc]
      exact hother (List.mem_append_left _ hj)
    obtain ⟨hchains, hflat⟩ := chains_congr h.chains q' fun j hj =>
      hother (List.mem_append_right _ hj)
    refine ⟨List.forall_mem_cons.mpr ⟨heq.symm ▸ hchain, hchains⟩, ?_⟩
    rw [List.flatMap_cons, heq, hflat, hfree]
    have hpartition := h.partition
    rw [hlist, List.append_assoc] at hpartition
    exact List.perm_append_comm_assoc _ _ _ |>.trans hpartition

/-- A buffer that is added is a new head. -/
theorem addBuf (h : Partitions q heads) (hadd : q.addBuf bufs = .ok (head, q')) :
    Partitions q' (head :: heads) := by
  obtain ⟨hne, -, hmax, indices, q₁, halloc, rfl, rfl⟩ := addBuf_ok hadd
  obtain ⟨hlist, hlen, hdesc, -⟩ := allocDescs_some halloc
  exact h.populate hlist hlen hdesc hmax hne

/-- The chains of different heads have no descriptor in common, nor with the free list. -/
theorem apart (h : Partitions q (head :: heads)) :
    (q.chain head).Nodup ∧ (∀ i ∈ q.chain head, i ∉ q.freeList) ∧
      ∀ i ∈ heads.flatMap q.chain, i ∉ q.chain head := by
  have hnodup := h.nodup
  rw [List.flatMap_cons, List.nodup_append, List.nodup_append] at hnodup
  obtain ⟨-, ⟨hchain, -, hapart⟩, hfree⟩ := hnodup
  exact ⟨hchain, fun i hi hi' => hfree i hi' i (List.mem_append_left _ hi) rfl,
    fun i hi hi' => hapart i hi' i hi rfl⟩

theorem mem_flatMap (h : Partitions q heads) (hi : i ∈ heads) : i ∈ heads.flatMap q.chain :=
  List.mem_flatMap.mpr ⟨i, hi, (h.chains i hi).head_mem⟩

theorem not_mem_freeList (h : Partitions q heads) (hi : i ∈ heads) : i ∉ q.freeList := fun hfree =>
  (List.nodup_append.mp h.nodup).2.2 i hfree i (h.mem_flatMap hi) rfl

/-- A chain that is freed is a head no longer. -/
theorem freeChain (h : Partitions q (head :: heads)) :
    ∃ q', q.freeChain head = some q' ∧ Partitions q' heads ∧ SameRings q q' ∧
      0 < q'.numFree ∧ ∀ i ∈ heads, q'.desc i = q.desc i := by
  obtain ⟨hchain, hfree, hapart⟩ := h.apart
  obtain ⟨q', hrun, hlist, hdesc, hrings⟩ := freeChainLoop_spec
    (h.chains head List.mem_cons_self) (length_follow_le _ _ _) hchain hfree
  obtain ⟨hchains, hflat⟩ := chains_congr (List.forall_mem_cons.mp h.chains).2 q' fun i hi =>
    hdesc i (hapart i hi)
  refine ⟨q', hrun, ⟨hchains, ?_⟩, hrings, ?_, fun i hi => hdesc i (hapart i ?_)⟩
  · have hpartition := h.partition
    rw [List.flatMap_cons] at hpartition
    rw [hlist, hflat, List.append_assoc]
    exact ((List.reverse_perm _).append_right _).trans
      ((List.perm_append_comm_assoc _ _ _).trans hpartition)
  · have hpos := (h.chains head List.mem_cons_self).length_pos
    rw [numFree_eq_length, hlist, List.length_append, List.length_reverse]
    omega
  · exact List.mem_flatMap.mpr ⟨i, hi, (h.chains i (List.mem_cons_of_mem _ hi)).head_mem⟩

end Partitions

theorem walk_new {n i : ℕ} (h : i + n ≤ queueSize) :
    walk (fun j => (new.desc j).next) n i = List.range' i n := by
  induction n generalizing i with
  | zero => rfl
  | succ n ih =>
    rw [walk, List.range'_succ]
    cases n with
    | zero => rfl
    | succ n =>
      have hnext : (new.desc i).next = i + 1 :=
        congrArg VirtqDesc.next (if_neg (by rw [queueSize] at h ⊢; omega))
      rw [hnext, ih (by omega)]

theorem partitions_new : Partitions new [] where
  chains := List.forall_mem_nil _
  partition := by
    rw [List.flatMap_nil, List.append_nil, freeList, walk_new (Nat.le_refl _), List.range_eq_range']
    rfl

end Virtqueue

end RacOS.Virtio
