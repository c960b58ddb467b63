import Mathlib.Data.Finset.Insert
import Mathlib.Order.Interval.Finset.Nat
import RacOS.Lib.Runs
import RacOS.Mm.FrameAllocator

/-!
# Frames in the hands of their owners

What the frame allocator is for: a frame that the memory map leaves usable is
either held by somebody or free, and only a free one is handed out.  The
memory map is a list of ranges marked usable or reserved, of which the last
one that covers a frame decides.  The ends of the ranges are computed modulo
`2 ^ 64`, so the loops may visit other frames than the ranges cover.  A ledger
records beside the bitmap which frames were ever handed out and which are still
held.
-/

namespace RacOS.Mm

open Program Bitmap BitmapAllocator

/-! ## The memory map -/

/-- A range of bytes of the memory map, as it is given to `mark_usable` or to
`mark_reserved`. -/
inductive Mark
  | usable (base size : UInt64)
  | reserved (base size : UInt64)

namespace Mark

def apply : Mark → BitmapAllocator → BitmapAllocator
  | usable base size => markUsable base size
  | reserved base size => markReserved base size

/-- The mark decides about the frame: a usable range has all its bytes, a reserved
one has some of them. -/
def Covers : Mark → ℕ → Prop
  | usable base size, f =>
    base.toNat ≤ 4096 * f ∧ 4096 * (f + 1) ≤ base.toNat + size.toNat
  | reserved base size, f =>
    size ≠ 0 ∧ base.toNat < 4096 * (f + 1) ∧ 4096 * f < base.toNat + size.toNat

instance (m : Mark) (f : ℕ) : Decidable (m.Covers f) :=
  match m with
  | usable _ _ | reserved _ _ => inferInstanceAs (Decidable (_ ∧ _))

/-- The loop for the mark comes to the frame. -/
def Visits : Mark → ℕ → Prop
  | usable base size, f =>
    size ≠ 0 ∧ usableStart base ≤ f ∧ f < usableEnd base size
  | reserved base size, f =>
    size ≠ 0 ∧ reservedStart base ≤ f ∧ f < reservedEnd base size

instance (m : Mark) (f : ℕ) : Decidable (m.Visits f) :=
  match m with
  | usable _ _ | reserved _ _ => inferInstanceAs (Decidable (_ ∧ _))

/-- The end of the range is computed without overflow. -/
def Fits : Mark → Prop
  | usable base size | reserved base size => base.toNat + size.toNat + 4095 < 2 ^ 64

/-- Without overflow the loop comes to the frames that the mark covers. -/
theorem visits_iff_covers {m : Mark} (h : m.Fits) {f : ℕ} (hf : f < maxFrames) :
    m.Visits f ↔ m.Covers f := by
  cases m with
  | usable base size =>
    simp only [Fits, Visits, Covers, usableStart, usableEnd, frameSize, ne_eq, ← UInt64.toNat_inj,
      UInt64.toNat_div, UInt64.toNat_sub, UInt64.toNat_add, UInt64.toNat_ofNat, lt_min_iff,
      Nat.reducePow, Nat.reduceMod, Nat.reduceSub] at h ⊢
    omega
  | reserved base size =>
    simp only [Fits, Visits, Covers, reservedStart, reservedEnd, frameSize, ne_eq,
      ← UInt64.toNat_inj, UInt64.toNat_div, UInt64.toNat_sub, UInt64.toNat_add, UInt64.toNat_ofNat,
      lt_min_iff, Nat.reducePow, Nat.reduceMod, Nat.reduceSub] at h ⊢
    omega

def isUsable : Mark → Bool
  | usable _ _ => true
  | reserved _ _ => false

/-- What a mark does to the bits: it decides about the frames that its loop visits
and leaves the others alone. -/
theorem isFree_apply (m : Mark) (a : BitmapAllocator) (f : ℕ) :
    (m.apply a).IsFree f ↔ if m.Visits f then m.isUsable = true else a.IsFree f := by
  cases m with
  | usable base size =>
    by_cases hsize : size = 0
    · simp [apply, Visits, markUsable, hsize]
    · rw [apply, (markUsable_spec hsize).1 f]
      by_cases hvisits : usableStart base ≤ f ∧ f < usableEnd base size
      · simp [Visits, hsize, hvisits, isUsable]
      · simp [Visits, hsize, hvisits]
  | reserved base size =>
    by_cases hsize : size = 0
    · simp [apply, Visits, markReserved, hsize]
    · rw [apply, (markReserved_spec hsize).1 f]
      by_cases hvisits : reservedStart base ≤ f ∧ f < reservedEnd base size
      · simp [Visits, hsize, hvisits, isUsable]
      · simp [Visits, hsize, hvisits]

/-- A mark keeps every free frame below the total, and the total within what
the bitmap holds. -/
theorem apply_bounded (m : Mark) {a : BitmapAllocator} (h : a.Bounded) : (m.apply a).Bounded := by
  cases m with
  | usable base size =>
    by_cases hsize : size = 0
    · simpa [apply, markUsable, hsize] using h
    · obtain ⟨hbits, hle, hspan, hbound⟩ := @markUsable_spec a base size hsize
      refine ⟨fun f hf => ?_, hbound h.total⟩
      rcases (hbits f).mp hf with hfree | ⟨h₁, h₂⟩
      · exact (h.free f hfree).trans_le hle
      · exact hspan f h₁ h₂
  | reserved base size =>
    by_cases hsize : size = 0
    · simpa [apply, markReserved, hsize] using h
    · obtain ⟨hbits, htotal⟩ := @markReserved_spec a base size hsize
      refine ⟨fun f hf => ?_, htotal.trans_le h.total⟩
      exact (h.free f ((hbits f).mp hf).1).trans_eq htotal.symm

end Mark

/-- The allocator once the memory map is processed. -/
def processed (map : List Mark) : BitmapAllocator :=
  map.foldl (fun a m => m.apply a) BitmapAllocator.new

/-- The last mark that decides about the frame leaves it usable. -/
def Usable (map : List Mark) (f : ℕ) : Prop :=
  map.foldl (fun usable m => if m.Covers f then m.isUsable else usable) false

instance (map : List Mark) (f : ℕ) : Decidable (Usable map f) :=
  inferInstanceAs (Decidable (_ = _))

/-- The memory map does not leave the frame to the allocator. -/
def Reserved (map : List Mark) (f : ℕ) : Prop := ¬Usable map f

/-- The last loop that comes to the frame frees it. -/
def Freed (map : List Mark) (f : ℕ) : Prop :=
  map.foldl (fun usable m => if m.Visits f then m.isUsable else usable) false

/-- The loops free exactly the frames, among those the bitmap has room for, that the
map leaves usable. -/
def Intact (map : List Mark) : Prop := ∀ f < maxFrames, Freed map f ↔ Usable map f

theorem intact_of_fits {map : List Mark} (h : ∀ m ∈ map, m.Fits) : Intact map := by
  intro f hf
  have hsame : ∀ usable : Bool,
      map.foldl (fun usable m => if m.Visits f then m.isUsable else usable) usable =
        map.foldl (fun usable m => if m.Covers f then m.isUsable else usable) usable := by
    induction map with
    | nil => exact fun _ => rfl
    | cons m map ih =>
      intro usable
      simp only [List.foldl_cons, Mark.visits_iff_covers (h m List.mem_cons_self) hf]
      exact ih (fun m' hm' => h m' (List.mem_cons_of_mem _ hm')) _
  rw [Freed, Usable, hsame]

/-- Processing the map frees exactly the frames that its loops leave free. -/
theorem isFree_processed (map : List Mark) (f : ℕ) : (processed map).IsFree f ↔ Freed map f := by
  have key : ∀ (a : BitmapAllocator) (usable : Bool), (a.IsFree f ↔ usable = true) →
      ((map.foldl (fun a m => m.apply a) a).IsFree f ↔
        map.foldl (fun usable m => if m.Visits f then m.isUsable else usable)
          usable = true) := by
    induction map with
    | nil => exact fun _ _ h => h
    | cons m map ih =>
      intro a usable h
      apply ih
      rw [m.isFree_apply]
      by_cases hvisits : m.Visits f
      · simp [hvisits]
      · simp [hvisits, h]
  refine key _ false ⟨fun h => ?_, fun h => Bool.noConfusion h⟩
  rw [IsFree, bit, BitmapAllocator.new, BitVec.getLsbD_allOnes] at h
  simp [Nat.mod_lt] at h

theorem processed_bounded (map : List Mark) : (processed map).Bounded := by
  refine List.foldlRecOn (motive := BitmapAllocator.Bounded) map _ ?_
    fun a h m _ => m.apply_bounded h
  refine ⟨fun f h => ?_, Nat.zero_le _⟩
  rw [IsFree, bit, BitmapAllocator.new, BitVec.getLsbD_allOnes] at h
  simp [Nat.mod_lt] at h

/-! ## The ledger -/

/-- The allocator with the frames that were ever handed out and the ones that
are still held. -/
structure Ledger where
  allocator : BitmapAllocator
  returned : Finset ℕ
  held : Finset ℕ

/-- A call of the allocator. -/
inductive FrameCall
  | alloc
  | allocContiguous (count : ℕ)
  | free (frame : ℕ)
  deriving DecidableEq

namespace Ledger

/-- The ledger before the first call. -/
def start (map : List Mark) : Ledger where
  allocator := processed map
  returned := ∅
  held := ∅

/-- Enter the outcome of an allocation of `count` frames. -/
def enter (count : ℕ) (l : Ledger) : EStateM.Result FrameError BitmapAllocator ℕ → Ledger
  | .ok first a =>
    { allocator := a
      returned := l.returned ∪ Finset.Ico first (first + count)
      held := l.held ∪ Finset.Ico first (first + count) }
  | .error _ a => { l with allocator := a }

def step : FrameCall → Ledger → Ledger
  | .alloc, l => l.enter 1 (alloc l.allocator)
  | .allocContiguous count, l => l.enter count (allocContiguous count l.allocator)
  | .free frame, l =>
    { l with
      allocator := final (free frame) l.allocator
      held := l.held.erase frame }

/-- Only frames that were handed out are given back. -/
def Permitted : FrameCall → Ledger → Prop
  | .free frame, l => frame ∈ l.returned
  | _, _ => True

/-- The frame may be handed out: the map leaves it usable, the bitmap has room for
it, and nobody holds it. -/
def Available (map : List Mark) (l : Ledger) (f : ℕ) : Prop :=
  ¬Reserved map f ∧ f < maxFrames ∧ f ∉ l.held

/-- The frames from `first` on may all be handed out. -/
def AvailableRun (map : List Mark) (l : Ledger) (count first : ℕ) : Prop :=
  ∀ f, first ≤ f → f < first + count → Available map l f

/-- `alloc` returns an available frame exactly when there is one, and
`alloc_contiguous` an available run exactly when there is one.  What is returned is
below the total. -/
structure Exact (map : List Mark) (l : Ledger) : Prop where
  alloc : (∀ f a, alloc l.allocator = .ok f a → Available map l f ∧ f < l.allocator.totalFrames) ∧
    ((∃ f a, BitmapAllocator.alloc l.allocator = .ok f a) ↔ ∃ f, Available map l f)
  contiguous : ∀ count, 1 ≤ count →
    (∀ first a, allocContiguous count l.allocator = .ok first a →
      AvailableRun map l count first ∧ first + count ≤ l.allocator.totalFrames) ∧
    ((∃ first a, allocContiguous count l.allocator = .ok first a) ↔
      ∃ first, AvailableRun map l count first)

/-- The bitmap says of every frame whether it was freed for the map and is not
held. -/
structure Agrees (map : List Mark) (l : Ledger) : Prop where
  bound : l.allocator.totalFrames ≤ maxFrames
  total : ∀ f, Freed map f → f < l.allocator.totalFrames
  free : ∀ f, l.allocator.IsFree f ↔ Freed map f ∧ f ∉ l.held
  returned : ∀ f ∈ l.returned, Freed map f
  held : l.held ⊆ l.returned

variable {map : List Mark} {l : Ledger}

theorem agrees_start (map : List Mark) : Agrees map (start map) where
  bound := (processed_bounded map).total
  total f hf := (processed_bounded map).free f ((isFree_processed map f).mpr hf)
  free f := by
    rw [show (start map).allocator = processed map from rfl, isFree_processed]
    exact (and_iff_left (Finset.notMem_empty f)).symm
  returned _ h := absurd h (Finset.notMem_empty _)
  held := Finset.Subset.refl _

/-- Handing out a run of free frames keeps the bitmap and the ledger together. -/
theorem Agrees.take (h : Agrees map l) {count first : ℕ} (hrun : l.allocator.FreeRun count first) :
    Agrees map
      (l.enter count (.ok first (l.allocator.takeRun count first))) where
  bound := (takeRun_totalFrames count first).trans_le h.bound
  total f hf := (h.total f hf).trans_eq (takeRun_totalFrames count first).symm
  free f := by
    change (l.allocator.takeRun count first).IsFree f ↔ _
    rw [isFree_takeRun, h.free f]
    simp only [enter, Finset.mem_union, Finset.mem_Ico, not_or, and_assoc]
  returned f hf := by
    rcases Finset.mem_union.mp hf with hf | hf
    · exact h.returned f hf
    · obtain ⟨h₁, h₂⟩ := Finset.mem_Ico.mp hf
      exact ((h.free f).mp (hrun.2 f h₁ h₂)).1
  held := Finset.union_subset_union_left h.held

theorem Agrees.give (h : Agrees map l) {frame : ℕ} (hret : frame ∈ l.returned) :
    Agrees map (step (.free frame) l) := by
  have hfreed := h.returned frame hret
  have hfinal : final (BitmapAllocator.free frame) l.allocator =
      l.allocator.give frame := free_run ((h.total frame hfreed).trans_le h.bound)
  rw [step, hfinal]
  refine ⟨h.bound, h.total, fun f => ?_, h.returned, (Finset.erase_subset _ _).trans h.held⟩
  rw [isFree_give, h.free f]
  simp only [Finset.mem_erase, not_and]
  constructor
  · rintro (⟨h₁, h₂⟩ | rfl)
    · exact ⟨h₁, fun _ => h₂⟩
    · exact ⟨hfreed, fun hne => absurd rfl hne⟩
  · rintro ⟨h₁, h₂⟩
    by_cases hf : frame = f
    · exact .inr hf
    · exact .inl ⟨h₁, h₂ fun heq => hf heq.symm⟩

/-- One call keeps the bitmap and the ledger together. -/
theorem Agrees.step (c : FrameCall) (l : Ledger) (h : Agrees map l)
    (hc : Permitted c l) : Agrees map (Ledger.step c l) := by
  cases c with
  | alloc =>
    rcases alloc_spec h.bound with ⟨f, hrun, hfree, hf⟩ | ⟨hrun, -⟩
    · rw [Ledger.step, hrun]
      refine h.take ⟨hf, fun f' h₁ h₂ => ?_⟩
      obtain rfl : f' = f := by omega
      exact hfree
    · rw [Ledger.step, hrun]
      exact h
  | allocContiguous count =>
    rcases Nat.eq_zero_or_pos count with rfl | hcount
    · exact h
    · rcases allocContiguous_spec hcount h.bound with ⟨first, hrun, hfree⟩ | ⟨hrun, -⟩
      · rw [Ledger.step, hrun]
        exact h.take hfree
      · rw [Ledger.step, hrun]
        exact h
  | free frame => exact h.give hc

theorem agrees_run {calls : List FrameCall} (hcalls : Runs.Along step Permitted calls (start map)) :
    Agrees map (Runs.run step calls (start map)) :=
  Runs.invariant_of_along (I := Agrees map) Agrees.step (agrees_start map) hcalls

/-! ## Exact allocations -/

theorem Agrees.isFree_iff (h : Agrees map l) (hmap : Intact map) (f : ℕ) :
    l.allocator.IsFree f ↔ Available map l f := by
  rw [h.free f, Available, Reserved, not_not]
  constructor
  · rintro ⟨hfreed, hheld⟩
    have hlt := (h.total f hfreed).trans_le h.bound
    exact ⟨(hmap f hlt).mp hfreed, hlt, hheld⟩
  · rintro ⟨husable, hlt, hheld⟩
    exact ⟨(hmap f hlt).mpr husable, hheld⟩

theorem Agrees.available_lt (h : Agrees map l) (hmap : Intact map) {f : ℕ}
    (hf : Available map l f) : f < l.allocator.totalFrames :=
  h.total f ((h.free f).mp ((h.isFree_iff hmap f).mpr hf)).1

theorem Agrees.availableRun_le (h : Agrees map l) (hmap : Intact map) {count : ℕ}
    (hcount : 1 ≤ count) (first : ℕ) (hrun : AvailableRun map l count first) :
    first + count ≤ l.allocator.totalFrames := by
  have hlast := h.available_lt hmap (hrun (first + count - 1) (by omega) (by omega))
  omega

theorem Agrees.exact (h : Agrees map l) (hmap : Intact map) : Exact map l := by
  constructor
  · rw [← exists_congr fun f => and_iff_left_of_imp (h.available_lt hmap (f := f))]
    apply Program.exact_of_search
    rcases alloc_spec h.bound with ⟨f, hrun, hfree, hf⟩ | ⟨hrun, hall⟩
    · exact .inl ⟨f, _, hrun, (h.isFree_iff hmap f).mp hfree, hf⟩
    · exact .inr ⟨_, _, hrun, fun f hf => hall f hf.2 ((h.isFree_iff hmap f).mpr hf.1)⟩
  · intro count hcount
    rw [← exists_congr fun first => and_iff_left_of_imp (h.availableRun_le hmap hcount first)]
    apply Program.exact_of_search
    rcases allocContiguous_spec hcount h.bound with ⟨first, hrun, hfree⟩ | ⟨hrun, hall⟩
    · exact .inl ⟨first, _, hrun, fun f h₁ h₂ => (h.isFree_iff hmap f).mp (hfree.2 f h₁ h₂),
        hfree.1⟩
    · refine .inr ⟨_, _, hrun, fun first hfirst => hall first ⟨hfirst.2, fun f h₁ h₂ => ?_⟩⟩
      exact (h.isFree_iff hmap f).mpr (hfirst.1 f h₁ h₂)

/-! ## Maps with overflow -/

/-- Every run of permitted calls leaves an allocator that is exact. -/
def AlwaysExact (map : List Mark) : Prop :=
  ∀ calls, Runs.Along step Permitted calls (start map) → Exact map (Runs.run step calls (start map))

/-- The ledger after as many calls of `alloc`. -/
def drained (map : List Mark) (n : ℕ) : Ledger :=
  Runs.run step (List.replicate n .alloc) (start map)

variable (map)

theorem drained_succ (n : ℕ) :
    drained map (n + 1) = (drained map n).enter 1 (alloc (drained map n).allocator) := by
  rw [drained, List.replicate_succ', Runs.run_append]
  rfl

theorem permitted_allocs (n : ℕ) (l : Ledger) :
    Runs.Along step Permitted (List.replicate n .alloc) l := by
  induction n generalizing l with
  | zero => trivial
  | succ n ih => exact ⟨trivial, ih _⟩

theorem agrees_drained (n : ℕ) : Agrees map (drained map n) :=
  agrees_run (permitted_allocs n _)

/-- If every allocation is exact, `alloc` hands out only usable frames. -/
theorem usable_of_mem_drained {map : List Mark} (h : AlwaysExact map) (n : ℕ) :
    ∀ f ∈ (drained map n).held, Usable map f := by
  induction n with
  | zero => exact fun f hf => absurd hf (Finset.notMem_empty f)
  | succ n ih =>
    intro f hf
    rw [drained_succ] at hf
    cases hrun : alloc (drained map n).allocator with
    | error e a =>
      rw [hrun] at hf
      exact ih f hf
    | ok first a =>
      rw [hrun] at hf
      rcases Finset.mem_union.mp hf with hf | hf
      · exact ih f hf
      · obtain rfl : f = first := by
          have := Finset.mem_Ico.mp hf
          omega
        exact not_not.mp ((h _ (permitted_allocs n _)).alloc.1 f a hrun).1.1

/-- Each call of `alloc` hands out another frame as long as there is a free one. -/
theorem drained_card (n : ℕ) :
    n ≤ (drained map n).held.card ∨ ∀ f, ¬(drained map n).allocator.IsFree f := by
  induction n with
  | zero => exact .inl (Nat.zero_le _)
  | succ n ih =>
    have hagrees := agrees_drained map n
    rw [drained_succ]
    rcases alloc_spec hagrees.bound with ⟨f, hrun, hfree, -⟩ | ⟨hrun, hnone⟩
    · rw [hrun]
      refine .inl ?_
      have hnew : Finset.Ico f (f + 1) = {f} := by simp
      have hcard : ((drained map n).held ∪ {f}).card = (drained map n).held.card + 1 := by
        rw [Finset.union_comm]
        exact Finset.card_insert_of_notMem ((hagrees.free f).mp hfree).2
      change n + 1 ≤ ((drained map n).held ∪ Finset.Ico f (f + 1)).card
      rw [hnew, hcard]
      exact Nat.succ_le_succ (ih.resolve_right fun hall => hall f hfree)
    · rw [hrun]
      exact .inr fun f hfree => hnone f (hagrees.total f ((hagrees.free f).mp hfree).1) hfree

/-- Some number of calls hands out every frame that the loops have freed. -/
theorem exists_drained : ∃ n, ∀ f, Freed map f ↔ f ∈ (drained map n).held := by
  obtain ⟨n, hn⟩ : ∃ n, maxFrames < n := ⟨_, Nat.lt_succ_self _⟩
  refine ⟨n, fun f => ?_⟩
  have hagrees := agrees_drained map n
  have hheld {f} (hf : f ∈ (drained map n).held) : Freed map f :=
    hagrees.returned f (hagrees.held hf)
  have hnone := (drained_card map n).resolve_left fun hcard => by
    have hsub : (drained map n).held ⊆ Finset.range maxFrames := fun f hf =>
      Finset.mem_range.mpr ((hagrees.total f (hheld hf)).trans_le hagrees.bound)
    have hle := Finset.card_le_card hsub
    rw [Finset.card_range] at hle
    omega
  refine ⟨fun hfreed => ?_, hheld⟩
  by_contra hout
  exact hnone f ((hagrees.free f).mpr ⟨hfreed, hout⟩)

/-- Four frames of which the first is reserved. -/
example : AlwaysExact [.usable 0 0x4000, .reserved 0 0x1000] :=
  fun _ hcalls => (agrees_run hcalls).exact
    (intact_of_fits (by simp [Mark.Fits]))

/-- Four usable frames, of which all but the first belong to a reserved range that goes
on to the end of the address space. -/
def upToTheEnd : List Mark := [.usable 0 0x4000, .reserved 0x1000 0xFFFFFFFFFFFFF000]

end Ledger

end RacOS.Mm
