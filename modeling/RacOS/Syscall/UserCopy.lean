import RacOS.Lib.Triples
import RacOS.Mm.PageWalk
import RacOS.Mm.VmSpace
import RacOS.Syscall.SignalFrame

/-!
# Access to user memory from syscall handlers

The model of `syscall/usercopy.rs`.  The functions ask the page table of the
process about every page of a range before they touch it.  The state is the page
table that CR3 names and the memory behind it, with a record of the addresses that
the kernel has touched.

A byte is accessible when the processor would let ring 3 access it.  The functions
touch accessible bytes only, and a copy of a range is refused only if a byte of it is
not accessible, with one exception: `check_user_range` compares the end of the range,
which is not in the range, with the highest address that may be.
-/

namespace RacOS.UserCopy

open Program Mm
open Syscall (Access)

/-- The highest address that a user pointer may name. -/
def USER_SPACE_MAX : ℕ := Syscall.UserMemory.userSpaceMax

structure UserMemory where
  pml4 : Pml4
  phys : ℕ → UInt8
  /-- What the kernel has touched, the last access first. -/
  accessed : List (Access × ℕ)

abbrev UserM := EStateM SyscallError UserMemory

namespace UserMemory

/-- Where a virtual address leads. -/
def physAddr (m : UserMemory) (addr : ℕ) : Option ℕ :=
  (translate m.pml4 (VirtAddr.page addr)).map (· * pageSize + addr % pageSize)

def byteAt (m : UserMemory) (addr : ℕ) : UInt8 := ((m.physAddr addr).map m.phys).getD 0

def record (m : UserMemory) (access : Access) (addrs : List ℕ) : UserMemory :=
  { m with accessed := addrs.map (access, ·) ++ m.accessed }

def setByte (m : UserMemory) (addr : ℕ) (byte : UInt8) : UserMemory :=
  match m.physAddr addr with
  | none => m
  | some p => { m with phys := Function.update m.phys p byte }

/-- The bytes of `data`, one after the other from an address on. -/
def setBytes (m : UserMemory) : ℕ → List UInt8 → UserMemory
  | _, [] => m
  | addr, byte :: data => (m.setByte addr byte).setBytes (addr + 1) data

end UserMemory

/-! ## The functions -/

/-- One page, in a direction: EFAULT if the process has no such access. -/
def checkPage (access : Access) (page : ℕ) : UserM Unit := do
  let m ← get
  match userAccessFlags m.pml4 (VirtAddr.page page) with
  | none => throw .EFAULT
  | some f =>
    require (.user ∈ f) .EFAULT
    require (access = .write → .writable ∈ f) .EFAULT

/-- The loop over the pages of a range, with the number of pages after this one. -/
def checkPages (access : Access) : ℕ → ℕ → UserM Unit
  | 0, page => checkPage access page
  | left + 1, page => do
      checkPage access page
      checkPages access left (page + pageSize)

/-- The address of the page of an address. -/
def pageStart (addr : ℕ) : ℕ := addr / pageSize * pageSize

def checkUserRange (ptr len : ℕ) (access : Access) : UserM Unit := do
  require (¬(ptr = 0 ∨ USER_SPACE_MAX < ptr)) .EFAULT
  -- `checked_add` on u64
  require (ptr + len < 2 ^ 64) .EFAULT
  let stop := ptr + len
  require (¬USER_SPACE_MAX < stop) .EFAULT
  if len = 0 then return ()
  let page := pageStart ptr
  let last := pageStart (stop - 1)
  checkPages access ((last - page) / pageSize) page

/-- `core::ptr::copy_nonoverlapping` out of user memory. -/
def load (src len : ℕ) : UserM (List UInt8) := fun m =>
  .ok ((List.range' src len).map m.byteAt) (m.record .read (List.range' src len))

/-- `core::ptr::copy_nonoverlapping` into user memory. -/
def store (dst : ℕ) (data : List UInt8) : UserM Unit := fun m =>
  .ok () ((m.setBytes dst data).record .write (List.range' dst data.length))

/-- Copy into a kernel buffer of `len` bytes. -/
def copyFromUser (len src : ℕ) : UserM (List UInt8) := do
  checkUserRange src len .read
  load src len

def copyToUser (dst : ℕ) (src : List UInt8) : UserM Unit := do
  checkUserRange dst src.length .write
  store dst src

/-- The head of the outer loop of the scan: the end of the page of `addr`, once that page
has been checked. -/
def enterPage (addr : ℕ) : UserM ℕ := do
  require (¬USER_SPACE_MAX < addr) .EFAULT
  checkPage .read (pageStart addr)
  return pageStart addr + pageSize

/-- The rest of the page that is being scanned, or the next page. -/
def nextPageEnd (addr pageEnd : ℕ) : UserM ℕ :=
  if addr < pageEnd then pure pageEnd else enterPage addr

/-- The two loops of `strlen_user_locked`.  `left` is how many bytes `max` still admits, and
`pageEnd` is the end of the page that was checked last. -/
def scan : (left addr pageEnd len : ℕ) → UserM ℕ
  | 0, addr, pageEnd, _ => do
      let _ ← nextPageEnd addr pageEnd
      throw .ENAMETOOLONG
  | left + 1, addr, pageEnd, len => do
      let pageEnd ← nextPageEnd addr pageEnd
      let bytes ← load addr 1
      if bytes = [0] then return len
      scan left (addr + 1) pageEnd (len + 1)

def strlenUserLocked (ptr max : ℕ) : UserM ℕ := scan max ptr ptr 0

def readUserBytes (ptr max : ℕ) : UserM (List UInt8) := do
  require (¬(ptr = 0 ∨ USER_SPACE_MAX < ptr)) .EFAULT
  let len ← strlenUserLocked ptr max
  load ptr len

/-! ## What ring 3 may access -/

/-- The page of the address is present, USER at every level and, for a write, WRITABLE at
every level. -/
def Accessible (pml4 : Pml4) (access : Access) (addr : ℕ) : Prop :=
  ∃ t, trace pml4 (VirtAddr.page addr) = some t ∧ (.user ∈ t.flags ∧ t.Grants .user) ∧
    (access = .write → .writable ∈ t.flags ∧ t.Grants .writable)

variable {access : Access} {pml4 : Pml4} {addr : ℕ}

/-- What ring 3 may write it may read. -/
theorem Accessible.read (h : Accessible pml4 access addr) :
    Accessible pml4 .read addr := by
  obtain ⟨t, ht, huser, -⟩ := h
  exact ⟨t, ht, huser, nofun⟩

theorem accessible_iff :
    Accessible pml4 access addr ↔
      ∃ f, userAccessFlags pml4 (VirtAddr.page addr) = some f ∧ .user ∈ f ∧
        (access = .write → .writable ∈ f) := by
  have huser := @reports_iff pml4 (VirtAddr.page addr) .user (by decide)
  have hwritable := @reports_iff pml4 (VirtAddr.page addr) .writable (by decide)
  unfold Reports at huser hwritable
  constructor
  · rintro ⟨t, ht, hu, hw⟩
    obtain ⟨f, hf, hfu⟩ := huser.mpr ⟨t, ht, hu⟩
    refine ⟨f, hf, hfu, fun hwrite => ?_⟩
    obtain ⟨f', hf', hfw⟩ := hwritable.mpr ⟨t, ht, hw hwrite⟩
    rw [hf] at hf'
    cases hf'
    exact hfw
  · rintro ⟨f, hf, hfu, hfw⟩
    obtain ⟨t, ht, hu⟩ := huser.mp ⟨f, hf, hfu⟩
    refine ⟨t, ht, hu, fun hwrite => ?_⟩
    obtain ⟨t', ht', hw⟩ := hwritable.mp ⟨f, hf, hfw hwrite⟩
    rw [ht] at ht'
    cases ht'
    exact hw

instance (pml4 : Pml4) (access : Access) (addr : ℕ) : Decidable (Accessible pml4 access addr) :=
  match h : userAccessFlags pml4 (VirtAddr.page addr) with
  | none => .isFalse fun hacc => by
      obtain ⟨f, hf, -⟩ := accessible_iff.mp hacc
      simp [h] at hf
  | some f => decidable_of_iff (.user ∈ f ∧ (access = .write → .writable ∈ f)) (by
      rw [accessible_iff]
      simp [h])

/-- Access is given to pages as a whole. -/
theorem accessible_congr {a b : ℕ} (h : a / pageSize = b / pageSize) :
    Accessible pml4 access a ↔ Accessible pml4 access b := by
  have hpage : VirtAddr.page a = VirtAddr.page b := by
    simp only [pageSize] at h
    simp only [VirtAddr.page, VirtAddr.pml4Index, VirtAddr.pdptIndex, VirtAddr.pdIndex,
      VirtAddr.ptIndex, Prod.mk.injEq, Fin.ofNat, Fin.mk.injEq]
    omega
  rw [Accessible, Accessible, hpage]

theorem accessible_pageStart :
    Accessible pml4 access (pageStart addr) ↔ Accessible pml4 access addr := by
  apply accessible_congr
  simp only [pageStart, pageSize]
  omega

theorem checkPage_run (access : Access) (page : ℕ) (m : UserMemory) :
    checkPage access page m =
      if Accessible m.pml4 access page then .ok () m else .error .EFAULT m := by
  rw [checkPage, get_bind_run]
  have hacc := @accessible_iff access m.pml4 page
  cases hf : userAccessFlags m.pml4 (VirtAddr.page page) with
  | none =>
    rw [if_neg (by simp [hacc, hf])]
    rfl
  | some f =>
    have hacc' : Accessible m.pml4 access page ↔
        .user ∈ f ∧ (access = .write → .writable ∈ f) := by simp [hacc, hf]
    simp only [hacc']
    rw [require_bind_run]
    by_cases huser : Flag.user ∈ f
    · rw [if_pos huser, require]
      by_cases hwrite : access = .write → Flag.writable ∈ f
      · rw [if_pos hwrite, if_pos ⟨huser, hwrite⟩]
        rfl
      · rw [if_neg hwrite, if_neg fun h => hwrite h.2]
        rfl
    · rw [if_neg huser, if_neg fun h => huser h.1]

theorem checkPages_run (access : Access) (left page : ℕ) (m : UserMemory) :
    checkPages access left page m =
      if ∀ i < left + 1, Accessible m.pml4 access (page + i * pageSize) then .ok () m
      else .error .EFAULT m := by
  induction left generalizing page with
  | zero => simp [checkPages, checkPage_run]
  | succ left ih =>
    have hsplit : (∀ i < left + 1 + 1, Accessible m.pml4 access (page + i * pageSize)) ↔
        Accessible m.pml4 access page ∧
          ∀ i < left + 1, Accessible m.pml4 access (page + pageSize + i * pageSize) := by
      rw [Nat.forall_lt_succ_left]
      simp only [Nat.zero_mul, Nat.add_zero, Nat.succ_mul, Nat.add_assoc, Nat.add_comm pageSize]
    by_cases hpage : Accessible m.pml4 access page
    · rw [checkPages, bind_of_ok (by rw [checkPage_run, if_pos hpage]), ih]
      simp only [hsplit, hpage, true_and]
    · rw [checkPages, bind_of_error (by rw [checkPage_run, if_neg hpage]),
        if_neg fun h => hpage (hsplit.mp h).1]

/-- Every byte of the range is accessible. -/
def RangeAccessible (pml4 : Pml4) (access : Access) (ptr len : ℕ) : Prop :=
  ∀ i < len, Accessible pml4 access (ptr + i)

instance (pml4 : Pml4) (access : Access) (ptr len : ℕ) :
    Decidable (RangeAccessible pml4 access ptr len) :=
  inferInstanceAs (Decidable (∀ i < len, _))

/-- The pages from the first to the last are the pages of the bytes. -/
theorem pages_accessible_iff {ptr len : ℕ} (hlen : len ≠ 0) :
    (∀ i < (pageStart (ptr + len - 1) - pageStart ptr) / pageSize + 1,
      Accessible pml4 access (pageStart ptr + i * pageSize)) ↔
      RangeAccessible pml4 access ptr len := by
  simp only [pageStart, pageSize]
  constructor
  · intro h i hi
    have hpage := h ((ptr + i) / pageSize - ptr / pageSize) (by simp only [pageSize]; omega)
    refine (accessible_congr ?_).mp hpage
    simp only [pageSize]
    omega
  · intro h i hi
    -- a byte of the range in this page: its first one, or the pointer itself
    have hbyte := h (max ptr (ptr / 4096 * 4096 + i * 4096) - ptr) (by omega)
    refine (accessible_congr ?_).mp hbyte
    simp only [pageSize]
    omega

/-- The check accepts the ranges of accessible bytes whose end is an address that a user
pointer may name. -/
theorem checkUserRange_run (ptr len : ℕ) (access : Access) (m : UserMemory) :
    checkUserRange ptr len access m =
      if ptr ≠ 0 ∧ ptr + len ≤ USER_SPACE_MAX ∧ RangeAccessible m.pml4 access ptr len
      then .ok () m else .error .EFAULT m := by
  rw [checkUserRange]
  simp only [require_bind_run]
  by_cases hptr : ptr = 0 ∨ USER_SPACE_MAX < ptr
  · rw [if_neg (not_not.mpr hptr), if_neg (by omega)]
  by_cases hstop : ptr + len ≤ USER_SPACE_MAX
  · have hword : ptr + len < 2 ^ 64 := lt_of_le_of_lt hstop (by decide)
    rw [if_pos hptr, if_pos hword, if_pos (by omega)]
    by_cases hlen : len = 0
    · subst hlen
      have hrange : RangeAccessible m.pml4 access ptr 0 := nofun
      rw [if_pos rfl, if_pos ⟨by omega, by omega, hrange⟩]
      rfl
    · simp only [hlen, if_false, checkPages_run, pages_accessible_iff hlen]
      have hptr' : ptr ≠ 0 := by omega
      simp only [hptr', hstop, ne_eq, not_false_eq_true, true_and]
  · rw [if_pos hptr, if_neg (c := ptr ≠ 0 ∧ _) (by omega)]
    by_cases hword : ptr + len < 2 ^ 64
    · rw [if_pos hword, if_neg (by omega)]
    · rw [if_neg hword]

/-- The memory as the delivery of signals has it: the bytes, and what the table reports of each
page. -/
def UserMemory.view (m : UserMemory) : Syscall.UserMemory where
  bytes := m.byteAt
  rights page := (userAccessFlags m.pml4 (VirtAddr.page (page * pageSize))).map fun f =>
    ⟨.user ∈ f, .writable ∈ f⟩

theorem allows_view (m : UserMemory) (page : ℕ) :
    m.view.allows access page = true ↔ Accessible m.pml4 access (page * pageSize) := by
  rw [accessible_iff]
  unfold Syscall.UserMemory.allows UserMemory.view
  dsimp only
  cases userAccessFlags m.pml4 (VirtAddr.page (page * pageSize)) with
  | none => simp
  | some f => cases access <;> simp

/-- Signals are delivered under the same check. -/
theorem checkUserRange_view (m : UserMemory) (ptr len : ℕ) :
    m.view.checkUserRange ptr len access = outcome (checkUserRange ptr len access) m := by
  have hmax : Syscall.UserMemory.userSpaceMax = USER_SPACE_MAX := rfl
  have hpage : Syscall.UserMemory.pageSize = pageSize := rfl
  have hword : USER_SPACE_MAX < 2 ^ 64 := by decide
  rw [outcome, checkUserRange_run, Syscall.UserMemory.checkUserRange, hmax, hpage]
  by_cases hspace : ptr ≠ 0 ∧ ptr + len ≤ USER_SPACE_MAX
  · rw [if_neg (by omega), if_neg (by omega)]
    by_cases hlen : len = 0
    · subst hlen
      rw [if_pos rfl, if_pos ⟨hspace.1, hspace.2, nofun⟩]
    · have hpages := @pages_accessible_iff access m.pml4 ptr len hlen
      simp only [pageStart, ← Nat.sub_mul, ← Nat.add_mul, ← allows_view,
        Nat.mul_div_cancel _ (by decide : 0 < pageSize)] at hpages
      simp only [if_neg hlen, List.all_eq_true, List.mem_range, hpages, ← and_assoc]
      by_cases hrange : RangeAccessible m.pml4 access ptr len
      · rw [if_pos hrange, if_pos ⟨hspace, hrange⟩]
      · rw [if_neg hrange, if_neg fun h => hrange h.2]
  · rw [if_neg (c := ptr ≠ 0 ∧ _) fun h => hspace ⟨h.1, h.2.1⟩]
    split_ifs <;> first | rfl | omega

/-! ## The kernel touches accessible bytes only -/

/-- Since `old`, the kernel has touched accessible bytes only, and the table is the same. -/
structure Permitted (pml4 : Pml4) (old : List (Access × ℕ)) (m : UserMemory) : Prop where
  pml4_eq : m.pml4 = pml4
  accessible : ∀ x ∈ m.accessed, x ∈ old ∨ Accessible pml4 x.1 x.2

theorem permitted_self (m : UserMemory) : Permitted m.pml4 m.accessed m :=
  ⟨rfl, fun _ hx => .inl hx⟩

variable {m : UserMemory}

section Permitted

variable {old : List (Access × ℕ)}

theorem Permitted.record (h : Permitted pml4 old m) {ptr len : ℕ}
    (hrange : RangeAccessible pml4 access ptr len) :
    Permitted pml4 old (m.record access (List.range' ptr len)) := by
  refine ⟨h.pml4_eq, fun x hx => ?_⟩
  rcases List.mem_append.mp hx with hx | hx
  · obtain ⟨addr, haddr, rfl⟩ := List.mem_map.mp hx
    obtain ⟨i, hi, rfl⟩ := List.mem_range'.mp haddr
    rw [Nat.one_mul]
    exact .inr (hrange i hi)
  · exact h.accessible x hx

/-- What is left of a page that was checked. -/
def PageRest (pml4 : Pml4) (addr pageEnd : ℕ) : Prop :=
  ∀ a, addr ≤ a → a < pageEnd → Accessible pml4 .read a

theorem enterPage_run (addr : ℕ) (m : UserMemory) :
    enterPage addr m = if addr ≤ USER_SPACE_MAX ∧ Accessible m.pml4 .read addr
      then .ok (pageStart addr + pageSize) m else .error .EFAULT m := by
  rw [enterPage, require_bind_run]
  by_cases haddr : addr ≤ USER_SPACE_MAX
  · rw [if_pos (by omega), bind_run, checkPage_run]
    simp only [accessible_pageStart, haddr, true_and]
    by_cases hacc : Accessible m.pml4 .read addr
    · rw [if_pos hacc, if_pos hacc]
      rfl
    · rw [if_neg hacc, if_neg hacc]
  · rw [if_neg (by omega), if_neg fun h => haddr h.1]

/-- The next byte lies before the end of a page that was checked. -/
theorem nextPageEnd_triple (addr pageEnd : ℕ) :
    Triple (fun m => Permitted pml4 old m ∧ PageRest pml4 addr pageEnd) (nextPageEnd addr pageEnd)
      (fun stop m => Permitted pml4 old m ∧ addr < stop ∧ PageRest pml4 addr stop)
      (Permitted pml4 old) := by
  rw [nextPageEnd]
  refine .ite (fun hlt => .pure fun m hm => ⟨hm.1, hlt, hm.2⟩) fun _ m hm => ?_
  rw [enterPage_run, hm.1.pml4_eq]
  by_cases h : addr ≤ USER_SPACE_MAX ∧ Accessible pml4 .read addr
  · rw [if_pos h]
    refine ⟨hm.1, ?_, fun a hle hlt => ?_⟩
    · simp only [pageStart, pageSize]
      omega
    · refine (accessible_congr ?_).mp h.2
      simp only [pageStart, pageSize] at hlt ⊢
      omega
  · rw [if_neg h]
    exact hm.1

/-- The bytes before the one where the scan ends are accessible.  The induction is on the
bytes that `max` still admits. -/
theorem scan_triple (left addr pageEnd len : ℕ) :
    Triple (fun m => Permitted pml4 old m ∧ PageRest pml4 addr pageEnd)
      (scan left addr pageEnd len)
      (fun n m => Permitted pml4 old m ∧
        ∃ k, n = len + k ∧ RangeAccessible pml4 .read addr k) (Permitted pml4 old) := by
  induction left generalizing addr pageEnd len with
  | zero => exact (nextPageEnd_triple addr pageEnd).bind fun _ => .throw fun _ hm => hm.1
  | succ left ih =>
    rw [scan]
    refine (nextPageEnd_triple addr pageEnd).bind fun stop m ⟨hm, hlt, hrest⟩ => ?_
    have hone : RangeAccessible pml4 .read addr 1 := by
      intro i hi
      exact hrest _ (Nat.le_add_right _ _) (by omega)
    have hm' : Permitted pml4 old (m.record .read (List.range' addr 1)) := hm.record hone
    rw [bind_run, load]
    refine Triple.ite (P := fun m' => m' = m.record .read (List.range' addr 1))
      (fun _ => ?_) (fun _ => ?_) _ rfl
    · exact .pure fun m' hrun => ⟨hrun ▸ hm', 0, rfl, nofun⟩
    · refine (ih (addr + 1) stop (len + 1)).mono
        (fun m' hrun => ⟨hrun ▸ hm', fun a hle => hrest a (by omega)⟩) ?_
      rintro n m' ⟨hm', k, rfl, hk⟩
      refine ⟨hm', k + 1, by omega, fun i hi => ?_⟩
      cases i with
      | zero => exact hone 0 Nat.one_pos
      | succ i =>
        have := hk i (by omega)
        rwa [Nat.add_assoc, Nat.add_comm 1] at this

theorem strlenUserLocked_triple (ptr max : ℕ) :
    Triple (Permitted pml4 old) (strlenUserLocked ptr max)
      (fun n m => Permitted pml4 old m ∧ RangeAccessible pml4 .read ptr n)
      (Permitted pml4 old) := by
  refine (scan_triple max ptr ptr 0).mono (fun m hm => ⟨hm, fun a hle hlt => ?_⟩) ?_
  · omega
  · rintro n m ⟨hm, k, rfl, hk⟩
    rw [Nat.zero_add]
    exact ⟨hm, hk⟩

theorem readUserBytes_maintains (ptr max : ℕ) :
    Maintains (Permitted pml4 old) (readUserBytes ptr max) :=
  .require_bind (fun _ hm => hm) fun _ =>
    (strlenUserLocked_triple ptr max).bind fun _ _ ⟨hm, hrange⟩ => hm.record hrange

end Permitted

/-! ## Strings -/

/-- A string of `n` bytes with a NUL after it, in bytes that ring 3 may read. -/
structure StringAt (m : UserMemory) (ptr n : ℕ) : Prop where
  ptr_pos : 0 < ptr
  le_max : ptr + n ≤ USER_SPACE_MAX
  accessible : RangeAccessible m.pml4 .read ptr (n + 1)
  ne_nul : ∀ i < n, m.byteAt (ptr + i) ≠ 0
  nul : m.byteAt (ptr + n) = 0

theorem byteAt_record (m : UserMemory) (access : Access) (addrs : List ℕ) :
    (m.record access addrs).byteAt = m.byteAt := rfl

theorem StringAt.tail {ptr n : ℕ} (h : StringAt m ptr (n + 1)) (access : Access) (addrs : List ℕ) :
    StringAt (m.record access addrs) (ptr + 1) n := by
  have hshift (i : ℕ) : ptr + 1 + i = ptr + (i + 1) := by omega
  refine ⟨by omega, by have := h.le_max; omega, fun i hi => ?_, fun i hi => ?_, ?_⟩
  · rw [hshift]
    exact h.accessible (i + 1) (by omega)
  · rw [byteAt_record, hshift]
    exact h.ne_nul (i + 1) (by omega)
  · rw [byteAt_record, hshift]
    exact h.nul

theorem StringAt.nextPageEnd {ptr n : ℕ} (h : StringAt m ptr n) (pageEnd : ℕ) :
    ∃ stop, nextPageEnd ptr pageEnd m = .ok stop m := by
  rw [UserCopy.nextPageEnd]
  by_cases hlt : ptr < pageEnd
  · exact ⟨pageEnd, by rw [if_pos hlt]; rfl⟩
  · have hacc := h.accessible 0 (Nat.succ_pos n)
    refine ⟨pageStart ptr + pageSize, ?_⟩
    rw [if_neg hlt, enterPage_run, if_pos ⟨by have := h.le_max; omega, hacc⟩]

/-- The scan finds the end of a string that is shorter than `max`. -/
theorem scan_of_stringAt {ptr n left : ℕ} (h : StringAt m ptr n) (hleft : n < left)
    (pageEnd len : ℕ) :
    ∃ log, scan left ptr pageEnd len m = .ok (len + n) { m with accessed := log } := by
  induction n generalizing m ptr left pageEnd len with
  | zero =>
    obtain ⟨left, rfl⟩ := Nat.exists_eq_add_of_lt hleft
    obtain ⟨stop, hstop⟩ := h.nextPageEnd pageEnd
    have hnul : m.byteAt ptr = 0 := h.nul
    rw [Nat.zero_add, scan, bind_of_ok hstop, bind_run, load]
    refine ⟨(Access.read, ptr) :: m.accessed, ?_⟩
    simp only [List.range'_one, List.map_cons, List.map_nil, hnul, if_true]
    rfl
  | succ n ih =>
    obtain ⟨left, rfl⟩ := Nat.exists_eq_add_of_lt hleft
    obtain ⟨stop, hstop⟩ := h.nextPageEnd pageEnd
    have hne : m.byteAt ptr ≠ 0 := h.ne_nul 0 (Nat.succ_pos n)
    have hlt : n < n + 1 + left := by omega
    obtain ⟨log, hlog⟩ := ih (h.tail .read (List.range' ptr 1)) hlt stop (len + 1)
    refine ⟨log, ?_⟩
    rw [scan, bind_of_ok hstop, bind_run, load]
    simp only [List.range'_one, List.map_cons, List.map_nil, List.cons.injEq, and_true, hne,
      if_false] at hlog ⊢
    rw [hlog, Nat.add_assoc len, Nat.add_comm 1 n]
    rfl

/-- A string that is shorter than `max` is read up to its NUL. -/
theorem readUserBytes_of_stringAt {ptr n max : ℕ} (h : StringAt m ptr n) (hmax : n < max) :
    ∃ m', readUserBytes ptr max m = .ok ((List.range' ptr n).map m.byteAt) m' := by
  obtain ⟨log, hlog⟩ := scan_of_stringAt h hmax ptr 0
  have hle := h.le_max
  have hpos := h.ptr_pos
  rw [readUserBytes, require_bind_run, if_pos (by omega), strlenUserLocked, bind_of_ok hlog,
    Nat.zero_add]
  exact ⟨_, rfl⟩

/-! ## The bytes that ring 3 may access are the bytes that can be copied -/

/-- A range between address 1 and `USER_SPACE_MAX`. -/
def InUserSpace (ptr len : ℕ) : Prop :=
  1 ≤ ptr ∧ ptr ≤ USER_SPACE_MAX ∧ ptr + len ≤ USER_SPACE_MAX + 1

instance (ptr len : ℕ) : Decidable (InUserSpace ptr len) :=
  inferInstanceAs (Decidable (_ ∧ _ ∧ _))

/-- A copy succeeds on ranges that ring 3 may access only, and on all of them that lie in
user space. -/
structure CopiesExactly {α : Type} (copy : UserM α) (access : Access) (m : UserMemory)
    (ptr len : ℕ) : Prop where
  sound : ∀ a m', copy m = .ok a m' → RangeAccessible m.pml4 access ptr len
  complete : ∀ e m', copy m = .error e m' → InUserSpace ptr len →
    ¬RangeAccessible m.pml4 access ptr len

/-- User memory access at a pointer and a length is what ring 3 may do. -/
structure LikeRingThree (m : UserMemory) (ptr len : ℕ) : Prop where
  copyFromUser : CopiesExactly (copyFromUser len ptr) .read m ptr len
  copyToUser : ∀ src : List UInt8, src.length = len →
    CopiesExactly (copyToUser ptr src) .write m ptr len
  readUserBytes : ∀ n max, StringAt m ptr n → n < max →
    ∃ m', readUserBytes ptr max m = .ok ((List.range' ptr n).map m.byteAt) m' ∧
      ∀ x ∈ m'.accessed, x ∈ m.accessed ∨ Accessible m.pml4 .read x.2

/-- The range reaches to the last byte of user space, and all of it may be accessed. -/
def EndsUserSpace (pml4 : Pml4) (access : Access) (ptr len : ℕ) : Prop :=
  InUserSpace ptr len ∧ ptr + len = USER_SPACE_MAX + 1 ∧ RangeAccessible pml4 access ptr len

/-- A copy after the check is exact but for ranges that reach to the last byte. -/
theorem copiesExactly_iff {α : Type} {body : UserM α} {ptr len : ℕ}
    (hbody : ∃ a m', body m = .ok a m') :
    CopiesExactly (do checkUserRange ptr len access; body) access m ptr len ↔
      ¬EndsUserSpace m.pml4 access ptr len := by
  obtain ⟨b, mb, hbody⟩ := hbody
  by_cases h : ptr ≠ 0 ∧ ptr + len ≤ USER_SPACE_MAX ∧ RangeAccessible m.pml4 access ptr len
  · have hrun : (do checkUserRange ptr len access; body) m = .ok b mb := by
      rw [bind_of_ok (by rw [checkUserRange_run, if_pos h]), hbody]
    refine iff_of_true ⟨fun _ _ _ => h.2.2, fun e m' he => ?_⟩ fun hends => ?_
    · rw [hrun] at he
      cases he
    · have := hends.2.1
      omega
  · have hrun : (do checkUserRange ptr len access; body) m = .error .EFAULT m := by
      rw [bind_of_error (by rw [checkUserRange_run, if_neg h])]
    constructor
    · rintro hexact ⟨hspace, -, hrange⟩
      exact hexact.complete _ _ hrun hspace hrange
    · refine fun hends => ⟨fun a m' ha => ?_, fun _ _ _ hspace hrange => ?_⟩
      · rw [hrun] at ha
        cases ha
      · refine hends ⟨hspace, ?_, hrange⟩
        obtain ⟨hpos, -, hle⟩ := hspace
        have hnot : ¬ptr + len ≤ USER_SPACE_MAX := fun hle => h ⟨by omega, hle, hrange⟩
        omega

/-- The kernel accesses user memory like ring 3, but for readable ranges that reach to
`USER_SPACE_MAX`. -/
theorem likeRingThree_iff (m : UserMemory) (ptr len : ℕ) :
    LikeRingThree m ptr len ↔ ¬EndsUserSpace m.pml4 .read ptr len := by
  have hfrom : CopiesExactly (copyFromUser len ptr) .read m ptr len ↔ _ :=
    copiesExactly_iff ⟨_, _, rfl⟩
  constructor
  · exact fun h => hfrom.mp h.copyFromUser
  · intro hends
    refine ⟨hfrom.mpr hends, ?_, fun n max hstring hmax => ?_⟩
    · rintro src rfl
      have hto : CopiesExactly (copyToUser ptr src) .write m ptr src.length ↔ _ :=
        copiesExactly_iff ⟨_, _, rfl⟩
      refine hto.mpr fun hwrite => hends ?_
      exact ⟨hwrite.1, hwrite.2.1, fun i hi => (hwrite.2.2 i hi).read⟩
    · obtain ⟨m', hm'⟩ := readUserBytes_of_stringAt hstring hmax
      refine ⟨m', hm', fun x hx => ?_⟩
      have hpermitted := (readUserBytes_maintains ptr max).of_ok (permitted_self m) hm'
      exact (hpermitted.accessible x hx).imp_right Accessible.read

/-- A process that may write all of its lower half, through pages of 1 GiB. -/
def wholeLowerHalf : UserMemory where
  pml4 := fun _ => ⟨⟨0, {.present, .writable, .user}⟩,
    fun _ => ⟨⟨0, {.present, .writable, .user, .hugePage}⟩, Pd.empty⟩⟩
  phys := fun _ => 0
  accessed := []

/-- The byte at `USER_SPACE_MAX` cannot be copied by a process that may write it. -/
theorem not_likeRingThree_last :
    InUserSpace USER_SPACE_MAX 1 ∧ RangeAccessible wholeLowerHalf.pml4 .write USER_SPACE_MAX 1 ∧
      outcome (copyFromUser 1 USER_SPACE_MAX) wholeLowerHalf = .error .EFAULT ∧
      ¬LikeRingThree wholeLowerHalf USER_SPACE_MAX 1 := by
  have hspace : InUserSpace USER_SPACE_MAX 1 := by decide
  have hwrite : RangeAccessible wholeLowerHalf.pml4 .write USER_SPACE_MAX 1 := by decide +kernel
  have hrun : copyFromUser 1 USER_SPACE_MAX wholeLowerHalf = .error .EFAULT wholeLowerHalf := rfl
  refine ⟨hspace, hwrite, by rw [outcome, hrun], fun h => ?_⟩
  exact h.copyFromUser.complete _ _ hrun hspace fun i hi => (hwrite i hi).read

end RacOS.UserCopy
