import RacOS.Lib.Bitmap
import RacOS.Lib.Program

/-!
# The physical frame allocator

The bitmap allocator of `mm/phys.rs`: one bit a frame, set while the frame is
reserved or allocated.  The memory map is processed by `mark_usable` and
`mark_reserved`; afterwards frames are handed out by a scan over the words, or
over the single bits for a run of frames, and given back one by one.

Frames are given by their numbers.  The kernel runs on one processor, so an
atomic read-modify-write is a read followed by a write.  The branches that
handle a lost race are kept.
-/

namespace RacOS.Mm

open Program Bitmap

/-! ## The allocator -/

/-- Size of a physical page frame. -/
def frameSize : UInt64 := 4096

/-- Four gigabytes of frames. -/
def maxFrames : ℕ := 1024 * 1024

def bitmapSize : ℕ := maxFrames / 64

inductive FrameError
  | outOfMemory
  | doubleFree (frame : ℕ)
  | outOfRange (frame : ℕ)
  deriving DecidableEq

structure BitmapAllocator where
  bitmap : ℕ → BitVec 64
  totalFrames : ℕ
  usableFrames : ℕ

namespace BitmapAllocator

/-- Every frame starts reserved. -/
def new : BitmapAllocator where
  bitmap := fun _ => BitVec.allOnes 64
  totalFrames := 0
  usableFrames := 0

/-- The first frame that `mark_usable` frees: the base is rounded up. -/
def usableStart (base : UInt64) : ℕ :=
  ((base + frameSize - 1) / frameSize).toNat

/-- The frame at which `mark_usable` stops: the end is rounded down. -/
def usableEnd (base size : UInt64) : ℕ :=
  min ((base + size) / frameSize).toNat maxFrames

/-- The first frame that `mark_reserved` takes: the base is rounded down. -/
def reservedStart (base : UInt64) : ℕ :=
  (base / frameSize).toNat

/-- The frame at which `mark_reserved` stops: the end is rounded up. -/
def reservedEnd (base size : UInt64) : ℕ :=
  min ((base + size + frameSize - 1) / frameSize).toNat maxFrames

/-- One turn of the loop of `mark_usable`. -/
def clearUsable (a : BitmapAllocator) (frame : ℕ) : BitmapAllocator :=
  { a with
    bitmap := clearBit a.bitmap frame
    usableFrames := a.usableFrames + 1 }

/-- One turn of the loop of `mark_reserved`. -/
def setReserved (a : BitmapAllocator) (frame : ℕ) : BitmapAllocator :=
  { a with
    bitmap := setBit a.bitmap frame
    -- the frame was free until now
    usableFrames :=
      if a.bitmap (frame / 64) &&& mask 64 frame = 0 then a.usableFrames - 1
      else a.usableFrames }

/-- Mark a range of frames as usable. -/
def markUsable (base size : UInt64) (a : BitmapAllocator) : BitmapAllocator :=
  if size = 0 then a
  else if maxFrames ≤ usableStart base then a
  else
    let a := (List.range' (usableStart base)
      (usableEnd base size - usableStart base)).foldl clearUsable a
    { a with totalFrames := max a.totalFrames (usableEnd base size) }

/-- Mark a range of frames as reserved. -/
def markReserved (base size : UInt64) (a : BitmapAllocator) : BitmapAllocator :=
  if size = 0 then a
  else
    (List.range' (reservedStart base)
      (reservedEnd base size - reservedStart base)).foldl setReserved a

/-- Set the bit of a frame and say whether it was clear. -/
def fetchOr (frame : ℕ) : EStateM FrameError BitmapAllocator Bool := do
  let prev := (← get).bitmap
  modify fun a => { a with bitmap := setBit a.bitmap frame }
  pure (prev (frame / 64) &&& mask 64 frame = 0)

/-- Clear the bit of a frame and say whether it was clear. -/
def fetchAnd (frame : ℕ) : EStateM FrameError BitmapAllocator Bool := do
  let prev := (← get).bitmap
  modify fun a => { a with bitmap := clearBit a.bitmap frame }
  pure (prev (frame / 64) &&& mask 64 frame = 0)

/-- The scan of `alloc` over `left` words from word `idx` on. -/
def allocScan : ℕ → ℕ → EStateM FrameError BitmapAllocator ℕ
  | 0, _ => throw .outOfMemory
  | left + 1, idx => do
    let val := (← get).bitmap idx
    if val = BitVec.allOnes 64 then
      allocScan left (idx + 1)
    else
      let frame := idx * 64 + (~~~val).ctz.toNat
      if (← get).totalFrames ≤ frame then
        throw .outOfMemory
      else if ← fetchOr frame then
        pure frame
      else
        allocScan left (idx + 1)

/-- Allocate a single frame. -/
def alloc : EStateM FrameError BitmapAllocator ℕ := do
  let searchLimit := ((← get).totalFrames + 63) / 64
  allocScan (min searchLimit bitmapSize) 0

/-- The first phase of `alloc_contiguous`: scan `left` frames from `frame` on,
with `runLen` free frames seen from `runStart` on. -/
def scanRun (bitmap : ℕ → BitVec 64) (count : ℕ) : (left frame runStart runLen : ℕ) → Option ℕ
  | 0, _, _, _ => none
  | left + 1, frame, runStart, runLen =>
    if bitmap (frame / 64) &&& mask 64 frame ≠ 0 then
      scanRun bitmap count left (frame + 1) (frame + 1) 0
    else if runLen + 1 = count then
      some runStart
    else
      scanRun bitmap count left (frame + 1) runStart (runLen + 1)

/-- The second phase: claim `left` frames from `frame` on, up to the first one
that is already taken. -/
def claim : (left frame : ℕ) → EStateM FrameError BitmapAllocator (Option ℕ)
  | 0, _ => pure none
  | left + 1, frame => do
    if ← fetchOr frame then
      claim left (frame + 1)
    else
      pure (some frame)

/-- The rounds of `alloc_contiguous`.  A round that meets a conflict starts the
next one past it, so `totalFrames` bounds the number of rounds. -/
def claimRounds (count : ℕ) : (rounds searchFrom : ℕ) → EStateM FrameError BitmapAllocator ℕ
  | 0, _ => throw .outOfMemory
  | rounds + 1, searchFrom => do
    let a ← get
    match scanRun a.bitmap count (a.totalFrames - searchFrom) searchFrom
        searchFrom 0 with
    | none => throw .outOfMemory
    | some start =>
      match ← claim count start with
      | none => pure start
      | some conflict =>
        -- undo only the bits set in this round
        (List.range' start (conflict - start)).forM
          fun frame => do let _ ← fetchAnd frame
        if a.totalFrames < conflict + 1 + count then
          throw .outOfMemory
        else
          claimRounds count rounds (conflict + 1)

/-- Allocate `count` contiguous frames. -/
def allocContiguous (count : ℕ) : EStateM FrameError BitmapAllocator ℕ := do
  if count = 0 then
    throw .outOfMemory
  else if count = 1 then
    alloc
  else
    let total := (← get).totalFrames
    if total < count then
      throw .outOfMemory
    else
      claimRounds count (total + 1) 0

/-- Free a previously allocated frame. -/
def free (frame : ℕ) : EStateM FrameError BitmapAllocator Unit := do
  require (frame < maxFrames) (.outOfRange frame)
  if ← fetchAnd frame then
    throw (.doubleFree frame)

/-! ## What the calls do to the bits -/

/-- A frame is free when its bit is clear. -/
def IsFree (a : BitmapAllocator) (frame : ℕ) : Prop :=
  bit a.bitmap frame = false

instance (a : BitmapAllocator) (frame : ℕ) : Decidable (a.IsFree frame) :=
  inferInstanceAs (Decidable (_ = _))

/-- Every free frame is below the total, and the bitmap has room for all. -/
structure Bounded (a : BitmapAllocator) : Prop where
  free : ∀ f, a.IsFree f → f < a.totalFrames
  total : a.totalFrames ≤ maxFrames

/-- The allocator after a frame is taken. -/
def take (a : BitmapAllocator) (frame : ℕ) : BitmapAllocator :=
  { a with bitmap := setBit a.bitmap frame }

/-- The allocator after `count` frames from `start` on are taken. -/
def takeRun (a : BitmapAllocator) : (count start : ℕ) → BitmapAllocator
  | 0, _ => a
  | count + 1, start => (a.take start).takeRun count (start + 1)

/-- The allocator after a frame is given back. -/
def give (a : BitmapAllocator) (frame : ℕ) : BitmapAllocator :=
  { a with bitmap := clearBit a.bitmap frame }

variable {a : BitmapAllocator}

theorem and_mask_ne_zero_iff (frame : ℕ) :
    a.bitmap (frame / 64) &&& mask 64 frame ≠ 0 ↔ ¬a.IsFree frame :=
  not_congr (and_mask_eq_zero_iff (by decide) a.bitmap frame)

theorem isFree_take (frame f : ℕ) : (a.take frame).IsFree f ↔ a.IsFree f ∧ frame ≠ f := by
  simp [IsFree, take, bit_setBit]

theorem isFree_give (frame f : ℕ) : (a.give frame).IsFree f ↔ a.IsFree f ∨ frame = f := by
  simp only [IsFree, give, bit_clearBit (by decide : 0 < 64),
    Bool.and_eq_false_iff, decide_eq_false_iff_not, not_not]

theorem takeRun_totalFrames (count start : ℕ) :
    (a.takeRun count start).totalFrames = a.totalFrames := by
  induction count generalizing a start with
  | zero => rfl
  | succ count ih => exact ih (start + 1)

theorem isFree_takeRun (count start f : ℕ) :
    (a.takeRun count start).IsFree f ↔ a.IsFree f ∧ ¬(start ≤ f ∧ f < start + count) := by
  induction count generalizing a start with
  | zero =>
    rw [takeRun]
    exact ⟨fun h => ⟨h, by omega⟩, And.left⟩
  | succ count ih =>
    rw [takeRun, ih, isFree_take, and_assoc]
    refine and_congr_right fun _ => ?_
    omega

theorem fetchOr_run (frame : ℕ) :
    fetchOr frame a = .ok (decide (a.IsFree frame)) (a.take frame) := by
  change EStateM.Result.ok (decide (_ = _)) _ = _
  congr 1
  exact decide_eq_decide.mpr (and_mask_eq_zero_iff (by decide) a.bitmap frame)

theorem fetchAnd_run (frame : ℕ) :
    fetchAnd frame a = .ok (decide (a.IsFree frame)) (a.give frame) := by
  change EStateM.Result.ok (decide (_ = _)) _ = _
  congr 1
  exact decide_eq_decide.mpr (and_mask_eq_zero_iff (by decide) a.bitmap frame)

theorem free_run {frame : ℕ} (hframe : frame < maxFrames) :
    final (free frame) a = a.give frame := by
  rw [final, free, require_bind_run, if_pos hframe, bind_of_ok (fetchAnd_run frame)]
  by_cases hfree : a.IsFree frame
  · simp only [hfree, decide_true, if_true]
    rfl
  · simp only [hfree, decide_false]
    rfl

/-! ## The memory map -/

theorem foldl_clearUsable (frames : List ℕ) :
    (frames.foldl clearUsable a).totalFrames = a.totalFrames ∧
      ∀ f, (frames.foldl clearUsable a).IsFree f ↔ a.IsFree f ∨ f ∈ frames := by
  induction frames generalizing a with
  | nil => simp
  | cons frame frames ih =>
    obtain ⟨htotal, hfree⟩ := ih (a := clearUsable a frame)
    refine ⟨htotal, fun f => ?_⟩
    rw [List.foldl_cons, hfree, List.mem_cons, ← or_assoc]
    refine or_congr_left ?_
    rw [eq_comm (a := f)]
    exact isFree_give frame f

theorem foldl_setReserved (frames : List ℕ) :
    (frames.foldl setReserved a).totalFrames = a.totalFrames ∧
      ∀ f, (frames.foldl setReserved a).IsFree f ↔ a.IsFree f ∧ f ∉ frames := by
  induction frames generalizing a with
  | nil => simp
  | cons frame frames ih =>
    obtain ⟨htotal, hfree⟩ := ih (a := setReserved a frame)
    refine ⟨htotal, fun f => ?_⟩
    rw [List.foldl_cons, hfree, List.mem_cons, not_or, ← and_assoc]
    refine and_congr_left fun _ => ?_
    rw [eq_comm (a := f)]
    exact isFree_take frame f

/-- `mark_usable` frees its span and raises the total to the end of it. -/
theorem markUsable_spec {base size : UInt64} (hsize : size ≠ 0) :
    (∀ f, (a.markUsable base size).IsFree f ↔
        a.IsFree f ∨ usableStart base ≤ f ∧ f < usableEnd base size) ∧
      a.totalFrames ≤ (a.markUsable base size).totalFrames ∧
      (∀ f, usableStart base ≤ f → f < usableEnd base size →
        f < (a.markUsable base size).totalFrames) ∧
      (a.totalFrames ≤ maxFrames → (a.markUsable base size).totalFrames ≤ maxFrames) := by
  have hend : usableEnd base size ≤ maxFrames := Nat.min_le_right _ _
  rw [markUsable, if_neg hsize]
  by_cases hstart : maxFrames ≤ usableStart base
  · rw [if_pos hstart]
    refine ⟨fun f => ?_, Nat.le_refl _, fun f => ?_, id⟩
    · exact ⟨.inl, fun h => h.resolve_right (by omega)⟩
    · omega
  · rw [if_neg hstart]
    obtain ⟨htotal, hfree⟩ := foldl_clearUsable (a := a)
      (List.range' (usableStart base) (usableEnd base size - usableStart base))
    refine ⟨fun f => ?_, ?_, fun f _ hf => ?_, fun hle => ?_⟩
    · refine (hfree f).trans (or_congr_right ?_)
      rw [List.mem_range'_1]
      omega
    · exact htotal ▸ Nat.le_max_left _ _
    · exact Nat.lt_of_lt_of_le hf (Nat.le_max_right _ _)
    · exact Nat.max_le.mpr ⟨htotal ▸ hle, hend⟩

theorem markReserved_spec {base size : UInt64} (hsize : size ≠ 0) :
    (∀ f, (a.markReserved base size).IsFree f ↔
        a.IsFree f ∧ ¬(reservedStart base ≤ f ∧ f < reservedEnd base size)) ∧
      (a.markReserved base size).totalFrames = a.totalFrames := by
  rw [markReserved, if_neg hsize]
  obtain ⟨htotal, hfree⟩ := foldl_setReserved (a := a)
    (List.range' (reservedStart base)
      (reservedEnd base size - reservedStart base))
  refine ⟨fun f => (hfree f).trans (and_congr_right fun _ => not_congr ?_), htotal⟩
  rw [List.mem_range'_1]
  omega

/-! ## A single frame -/

/-- The scan over the words takes a free frame at or after the first of them,
or finds every frame in them taken. -/
theorem allocScan_spec (left idx : ℕ) :
    (∃ f, allocScan left idx a = .ok f (a.take f) ∧ a.IsFree f ∧ f < a.totalFrames) ∨
      (allocScan left idx a = .error .outOfMemory a ∧
        ∀ f, idx * 64 ≤ f → f < (idx + left) * 64 → f < a.totalFrames → ¬a.IsFree f) := by
  induction left generalizing idx with
  | zero => exact .inr ⟨rfl, fun f h₁ h₂ => by omega⟩
  | succ left ih =>
    -- a word with nothing free in it hands over to the rest of the scan
    have hnext (hword : ∀ f, idx * 64 ≤ f → f < (idx + 1) * 64 → f < a.totalFrames → ¬a.IsFree f) :
        (∃ f, allocScan left (idx + 1) a = .ok f (a.take f) ∧ a.IsFree f ∧ f < a.totalFrames) ∨
          (allocScan left (idx + 1) a = .error .outOfMemory a ∧
            ∀ f, idx * 64 ≤ f → f < (idx + (left + 1)) * 64 → f < a.totalFrames → ¬a.IsFree f) := by
      refine (ih (idx + 1)).imp_right fun ⟨hrun, hrest⟩ => ⟨hrun, ?_⟩
      intro f h₁ h₂ htotal
      by_cases hf : f < (idx + 1) * 64
      · exact hword f h₁ hf htotal
      · exact hrest f (by omega) (by omega) htotal
    have hbit {k : ℕ} (hk : k < 64) : bit a.bitmap (idx * 64 + k) = (a.bitmap idx).getLsbD k :=
      bit_word (by decide) a.bitmap idx hk
    rw [allocScan, get_bind_run]
    by_cases hfull : a.bitmap idx = BitVec.allOnes 64
    · rw [if_pos hfull]
      refine hnext fun f h₁ h₂ _ hfree => ?_
      obtain ⟨k, rfl⟩ := Nat.exists_eq_add_of_le h₁
      have hk : k < 64 := by omega
      rw [IsFree, hbit hk, hfull, BitVec.getLsbD_allOnes] at hfree
      simp [hk] at hfree
    · obtain ⟨hlt, hclear, hbelow⟩ := trailingOnes_spec hfull
      rw [if_neg hfull, get_bind_run]
      by_cases htotal : a.totalFrames ≤ idx * 64 + (~~~a.bitmap idx).ctz.toNat
      · -- only the last word holds frames past the total
        rw [if_pos htotal]
        refine .inr ⟨rfl, fun f h₁ _ hf hfree => ?_⟩
        obtain ⟨k, rfl⟩ := Nat.exists_eq_add_of_le h₁
        have hset := hbelow k (by omega)
        rw [IsFree, hbit (by omega), hset] at hfree
        exact Bool.noConfusion hfree
      · have hfree : a.IsFree (idx * 64 + (~~~a.bitmap idx).ctz.toNat) := by
          rw [IsFree, hbit hlt, hclear]
        rw [if_neg htotal, bind_of_ok (fetchOr_run _), if_pos (by simpa using hfree)]
        exact .inl ⟨_, rfl, hfree, by omega⟩

/-- `alloc` takes a free frame below the total, and fails when there is none. -/
theorem alloc_spec (htotal : a.totalFrames ≤ maxFrames) :
    (∃ f, alloc a = .ok f (a.take f) ∧ a.IsFree f ∧ f < a.totalFrames) ∨
      (alloc a = .error .outOfMemory a ∧ ∀ f < a.totalFrames, ¬a.IsFree f) := by
  rw [alloc, get_bind_run]
  refine (allocScan_spec _ 0).imp_right fun ⟨hrun, hall⟩ => ⟨hrun, ?_⟩
  intro f hf
  refine hall f (by omega) ?_ hf
  simp only [bitmapSize, maxFrames] at htotal ⊢
  omega

/-! ## A run of frames -/

/-- The `count` frames from `start` on are free and below the total. -/
def FreeRun (a : BitmapAllocator) (count start : ℕ) : Prop :=
  start + count ≤ a.totalFrames ∧ ∀ f, start ≤ f → f < start + count → a.IsFree f

/-- The scan for a run finds one, or there is none.  The frames from
`runStart` up to the one the scan is at are free, and no run starts before
them. -/
theorem scanRun_spec {count left frame runStart runLen : ℕ} (hend : frame + left = a.totalFrames)
    (hrun : runStart + runLen = frame) (hlen : runLen < count)
    (hfree : ∀ f, runStart ≤ f → f < frame → a.IsFree f)
    (hfirst : ∀ start, a.FreeRun count start → runStart ≤ start) :
    (∃ start, scanRun a.bitmap count left frame runStart runLen = some start ∧
        a.FreeRun count start) ∨
      (scanRun a.bitmap count left frame runStart runLen = none ∧
        ∀ start, ¬a.FreeRun count start) := by
  induction left generalizing frame runStart runLen with
  | zero =>
    refine .inr ⟨rfl, fun start h => ?_⟩
    have := hfirst start h
    have := h.1
    omega
  | succ left ih =>
    rw [scanRun]
    by_cases hframe : a.IsFree frame
    · rw [if_neg (mt (and_mask_ne_zero_iff frame).mp (not_not.mpr hframe))]
      have hfree' : ∀ f, runStart ≤ f → f < frame + 1 → a.IsFree f := by
        intro f h₁ h₂
        rcases Nat.lt_succ_iff_lt_or_eq.mp h₂ with h | rfl
        · exact hfree f h₁ h
        · exact hframe
      by_cases hcount : runLen + 1 = count
      · rw [if_pos hcount]
        exact .inl ⟨runStart, rfl, by omega, fun f h₁ h₂ =>
          hfree' f h₁ (by omega)⟩
      · rw [if_neg hcount]
        exact ih (by omega) (by omega) (by omega) hfree' hfirst
    · rw [if_pos ((and_mask_ne_zero_iff frame).mpr hframe)]
      refine ih (by omega) (by omega) (by omega) (fun f h₁ h₂ => by omega) ?_
      intro start h
      by_contra hlt
      have := hfirst start h
      exact hframe (h.2 frame (by omega) (by omega))

/-- Nothing is in the way of claiming a run of free frames. -/
theorem claim_run {count start : ℕ} (hfree : ∀ f, start ≤ f → f < start + count → a.IsFree f) :
    claim count start a = .ok none (a.takeRun count start) := by
  induction count generalizing a start with
  | zero => rfl
  | succ count ih =>
    have hstart : a.IsFree start := hfree start (by omega) (by omega)
    rw [claim, bind_of_ok (fetchOr_run start), if_pos (by simpa using hstart)]
    refine ih fun f h₁ h₂ => ?_
    exact (isFree_take start f).mpr ⟨hfree f (by omega) (by omega), by omega⟩

/-- `alloc_contiguous` takes a free run, and fails when there is none. -/
theorem allocContiguous_spec {count : ℕ} (hcount : 1 ≤ count) (htotal : a.totalFrames ≤ maxFrames) :
    (∃ start, allocContiguous count a = .ok start (a.takeRun count start) ∧ a.FreeRun count start) ∨
      (allocContiguous count a = .error .outOfMemory a ∧ ∀ start, ¬a.FreeRun count start) := by
  rw [allocContiguous, if_neg (by omega)]
  by_cases hone : count = 1
  · subst hone
    rw [if_pos rfl]
    refine (alloc_spec htotal).imp ?_ ?_
    · rintro ⟨f, hrun, hfree, hf⟩
      refine ⟨f, hrun, by omega, fun f' h₁ h₂ => ?_⟩
      obtain rfl : f' = f := by omega
      exact hfree
    · rintro ⟨hrun, hall⟩
      refine ⟨hrun, fun start h => ?_⟩
      have := h.1
      exact hall start (by omega) (h.2 start (by omega) (by omega))
  · rw [if_neg hone, get_bind_run]
    by_cases hlarge : a.totalFrames < count
    · rw [if_pos hlarge]
      refine .inr ⟨rfl, fun start h => ?_⟩
      have := h.1
      omega
    · rw [if_neg hlarge, claimRounds, get_bind_run]
      have hscan := @scanRun_spec a count (a.totalFrames - 0) 0 0 0 (by omega)
        rfl (by omega) (fun f h₁ h₂ => by omega) (fun start _ => Nat.zero_le start)
      rcases hscan with ⟨start, hsome, hfree⟩ | ⟨hnone, hall⟩
      · left
        refine ⟨start, ?_, hfree⟩
        rw [hsome]
        exact bind_of_ok (claim_run hfree.2)
      · right
        rw [hnone]
        exact ⟨rfl, hall⟩

end BitmapAllocator

end RacOS.Mm
