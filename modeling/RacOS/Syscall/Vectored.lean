import RacOS.Syscall.UserCopy

/-!
# Vectored writes

The model of `sys_writev` over any file object.  A file object answers a write with an
error or with the number of bytes it takes from the beginning of the buffer.  A session
is the file object with a record of the bytes it has taken and of their places: the
number of the iovec and the offset in it.

The loop of `sys_writev` goes on to the next iovec after a short write, so that the
bytes it hands over have a gap if the file takes bytes again.
-/

namespace RacOS.Vectored

open Program UserCopy
open Vfs (VfsError)

/-- A file object: how it answers a write.  It takes no more than it is offered. -/
structure FileObject (σ : Type) where
  write : List UInt8 → EStateM VfsError σ ℕ
  le_length : ∀ {buf : List UInt8} {s s' : σ} {n : ℕ}, write buf s = .ok n s' → n ≤ buf.length

/-- A file object during a call, with the bytes it has taken and their places. -/
structure Session (σ : Type) where
  file : σ
  taken : List UInt8 := []
  places : List (ℕ × ℕ) := []

abbrev Handler (σ α : Type) := EStateM SyscallError (Session σ) α

structure IoVec where
  base : ℕ
  len : ℕ

variable {σ : Type}

/-- The serial line, which takes everything. -/
def serialLine : FileObject σ where
  write buf := pure buf.length
  le_length h := by
    cases h
    exact Nat.le_refl _

/-- The file of a descriptor.  Without a descriptor table the two output descriptors mean the
serial line. -/
def fileFor (fds : Option (Int32 → Except VfsError (FileObject σ))) (fd : Int32) :
    Except SyscallError (FileObject σ) :=
  match fds with
  | some get => (get fd).mapError mapVfsError
  | none => if fd = 1 ∨ fd = 2 then .ok serialLine else .error .EBADF

/-- Write the buffer to the file, which takes a part of it. -/
def handOver (file : FileObject σ) (bounce : List UInt8) : Handler σ ℕ := fun s =>
  match file.write bounce s.file with
  | .ok n f => .ok n { s with file := f, taken := s.taken ++ bounce.take n }
  | .error e f => .error (mapVfsError e) { s with file := f }

section Calls

variable (m : UserMemory) (fds : Option (Int32 → Except VfsError (FileObject σ))) (fd : Int32)

/-- Write to a file descriptor. -/
def sysWrite (buf count : ℕ) : Handler σ ℕ :=
  if count = 0 then do
    MonadExcept.ofExcept (outcome (checkUserRange buf 0 .read) m)
    return 0
  else do
    let bounce ← MonadExcept.ofExcept (outcome (copyFromUser (min count userIoChunk) buf) m)
    let file ← MonadExcept.ofExcept (fileFor fds fd)
    handOver file bounce

/-- The iovec that memory holds at an address. -/
def ioVecAt (addr : ℕ) : IoVec where
  base := Bytes.readLe 8 m.byteAt addr
  len := Bytes.readLe 8 m.byteAt (addr + 8)

/-- Read one iovec from user memory. -/
def getIoVec (addr : ℕ) : Except SyscallError IoVec := do
  outcome (checkUserRange addr 16 .read) m
  return ioVecAt m addr

/-- The places of the first `n` bytes of an iovec. -/
def placesOf (i n : ℕ) : List (ℕ × ℕ) := (List.range n).map (i, ·)

/-- Note where the bytes come from that a write has handed over. -/
def notePlaces (i n : ℕ) (s : Session σ) : Session σ :=
  { s with places := s.places ++ placesOf i n }

/-- The body of the loop, with what is done next. -/
def writevBody (next : ℕ → Handler σ ℕ) (i total : ℕ) (iov : IoVec) : Handler σ ℕ :=
  if iov.len = 0 then next total
  else do
    match ← attempt (sysWrite m fds fd iov.base iov.len) with
    | .ok n =>
      modify (notePlaces i n)
      next (total + n)
    | .error e => if 0 < total then pure total else throw e

/-- The loop over the iovecs, with the number of those that are left. -/
def writevLoop (iovPtr : ℕ) : (left i total : ℕ) → Handler σ ℕ
  | 0, _, total => pure total
  | left + 1, i, total => do
      let iov ← MonadExcept.ofExcept (getIoVec m (iovPtr + i * 16))
      writevBody m fds fd (writevLoop iovPtr left (i + 1)) i total iov

def sysWritev (iovPtr : ℕ) (iovcnt : Int32) : Handler σ ℕ := do
  require (¬(iovcnt ≤ 0 ∨ 1024 < iovcnt)) .EINVAL
  let count := iovcnt.toInt.toNat
  MonadExcept.ofExcept (outcome (checkUserRange iovPtr (count * 16) .read) m)
  writevLoop m fds fd iovPtr count 0 0

/-! ## What the file takes -/

/-- The iovecs of an array in user memory, from the `i`-th on. -/
def ioVecs (iovPtr : ℕ) : (left i : ℕ) → List IoVec
  | 0, _ => []
  | left + 1, i => ioVecAt m (iovPtr + i * 16) :: ioVecs iovPtr left (i + 1)

/-- The places of all bytes of the iovecs, in order, when the first has number `i`. -/
def allPlaces : ℕ → List IoVec → List (ℕ × ℕ)
  | _, [] => []
  | i, v :: rest => placesOf i v.len ++ allPlaces (i + 1) rest

/-- The byte at a place. -/
def byteAt (iovPtr : ℕ) (place : ℕ × ℕ) : UInt8 :=
  m.byteAt ((ioVecAt m (iovPtr + place.1 * 16)).base + place.2)

/-- How the file answers a write of a range of user memory. -/
def answer (buf count : ℕ) : EStateM SyscallError σ ℕ := do
  let bounce ← MonadExcept.ofExcept (outcome (copyFromUser (min count userIoChunk) buf) m)
  let file ← MonadExcept.ofExcept (fileFor fds fd)
  focus id (fun _ f => f) mapVfsError (file.write bounce)

/-- No write takes a byte any more, until one fails. -/
def Silent : List IoVec → σ → Prop
  | [], _ => True
  | v :: rest, f =>
    if v.len = 0 then Silent rest f
    else
      match answer m fds fd v.base v.len f with
      | .ok n f' => n = 0 ∧ Silent rest f'
      | .error _ _ => True

/-- Once a write has taken less than its whole iovec, no later one takes a byte. -/
def Orderly : List IoVec → σ → Prop
  | [], _ => True
  | v :: rest, f =>
    if v.len = 0 then Orderly rest f
    else
      match answer m fds fd v.base v.len f with
      | .ok n f' => if n = v.len then Orderly rest f' else Silent m fds fd rest f'
      | .error _ _ => True

/-- The places of the bytes that are taken from the iovecs, when the first has number `i`. -/
def takenPlaces : ℕ → List IoVec → σ → List (ℕ × ℕ)
  | _, [], _ => []
  | i, v :: rest, f =>
    if v.len = 0 then takenPlaces (i + 1) rest f
    else
      match answer m fds fd v.base v.len f with
      | .ok n f' => placesOf i n ++ takenPlaces (i + 1) rest f'
      | .error _ _ => []

variable {m fds fd}

/-- A successful copy gives the bytes of the range. -/
theorem outcome_copyFromUser {len src : ℕ} {bytes : List UInt8}
    (h : outcome (copyFromUser len src) m = .ok bytes) :
    bytes = (List.range' src len).map m.byteAt := by
  obtain ⟨_, m₁, hcheck, hload⟩ := bind_ok_iff.mp (run_of_outcome h)
  rw [checkUserRange_run] at hcheck
  split_ifs at hcheck
  cases hcheck
  exact (EStateM.Result.ok.inj hload).1.symm

/-- A write is answered by the file, which takes the first bytes of the range. -/
theorem sysWrite_run {buf count : ℕ} (hcount : count ≠ 0) (s : Session σ) :
    sysWrite m fds fd buf count s =
      match answer m fds fd buf count s.file with
      | .ok n f => .ok n { s with
          file := f, taken := s.taken ++ (List.range' buf n).map m.byteAt }
      | .error e f => .error e { s with file := f } := by
  rw [sysWrite, if_neg hcount, answer]
  cases hcopy : outcome (copyFromUser (min count userIoChunk) buf) m with
  | error e => rfl
  | ok bounce =>
    cases hfile : fileFor fds fd with
    | error e => rfl
    | ok file =>
      have hbounce := outcome_copyFromUser hcopy
      change handOver file bounce s =
        match focus id (fun _ f => f) mapVfsError (file.write bounce) s.file with
        | .ok n f => _
        | .error e f => _
      unfold handOver focus
      simp only [id_eq]
      cases hwrite : file.write bounce s.file with
      | error e f => rfl
      | ok n f =>
        have hle := file.le_length hwrite
        have htake : bounce.take n = (List.range' buf n).map m.byteAt := by
          rw [hbounce] at hle ⊢
          rw [List.length_map, List.length_range'] at hle
          rw [← List.map_take, List.take_range'_of_length_ge hle]
        simp only [htake]

/-- The file takes no more than the range. -/
theorem answer_le {buf count n : ℕ} {f f' : σ}
    (h : answer m fds fd buf count f = .ok n f') : n ≤ count := by
  rw [answer] at h
  cases hcopy : outcome (copyFromUser (min count userIoChunk) buf) m with
  | error e =>
    rw [hcopy] at h
    cases h
  | ok bounce =>
    cases hfile : fileFor fds fd with
    | error e =>
      rw [hcopy, hfile] at h
      cases h
    | ok file =>
      rw [hcopy, hfile] at h
      change focus id (fun _ f => f) mapVfsError (file.write bounce) f = .ok n f' at h
      obtain ⟨f₁, hwrite, -⟩ := focus_ok_iff.mp h
      have hle := file.le_length hwrite
      rw [outcome_copyFromUser hcopy, List.length_map, List.length_range'] at hle
      exact hle.trans (min_le_left _ _)

/-! ## The loop -/

/-- Every iovec of an array that was checked can be read. -/
theorem getIoVec_of_check {iovPtr count i : ℕ}
    (h : outcome (checkUserRange iovPtr (count * 16) .read) m = .ok ()) (hi : i < count) :
    getIoVec m (iovPtr + i * 16) = .ok (ioVecAt m (iovPtr + i * 16)) := by
  have hrun := run_of_outcome h
  rw [checkUserRange_run] at hrun
  split_ifs at hrun with hrange
  obtain ⟨hptr, hend, haccess⟩ := hrange
  have hone : checkUserRange (iovPtr + i * 16) 16 .read m = .ok () m := by
    rw [checkUserRange_run, if_pos]
    refine ⟨by omega, by omega, fun j hj => ?_⟩
    have := haccess (i * 16 + j) (by omega)
    rwa [← Nat.add_assoc] at this
  have hok : outcome (checkUserRange (iovPtr + i * 16) 16 .read) m = .ok () := by
    rw [outcome, hone]
  rw [getIoVec, hok]
  rfl

/-- What a run of the loop leaves: the record of the places and bytes that were taken, and a
count of them.  It fails only if nothing was taken. -/
structure Counted (iovPtr total : ℕ) (new : List (ℕ × ℕ)) (x : Handler σ ℕ) (s : Session σ) :
    Prop where
  places : (final x s).places = s.places ++ new
  taken : (final x s).taken = s.taken ++ new.map (byteAt m iovPtr)
  count : outcome x s = .ok (total + new.length) ∨
    (∃ e, outcome x s = .error e) ∧ total = 0 ∧ new = []

theorem map_byteAt_placesOf (iovPtr i n : ℕ) :
    (placesOf i n).map (byteAt m iovPtr) =
      (List.range' (ioVecAt m (iovPtr + i * 16)).base n).map m.byteAt := by
  rw [placesOf, List.map_map, List.range'_eq_map_range, List.map_map]
  rfl

theorem length_placesOf (i n : ℕ) : (placesOf i n).length = n := by
  simp [placesOf]

theorem outcome_of_run_eq {x y : Handler σ ℕ} {s t : Session σ} (h : x s = y t) :
    outcome x s = outcome y t := by
  rw [outcome, h, outcome]

theorem ofExcept_ok_bind {α β : Type} (a : α) (f : α → Handler σ β) (s : Session σ) :
    ((MonadExcept.ofExcept (.ok a : Except SyscallError α) : Handler σ α) >>= f) s = f a s :=
  rfl

theorem Counted.congr {iovPtr total : ℕ} {new : List (ℕ × ℕ)} {x y : Handler σ ℕ}
    {s : Session σ} (h : Counted (m := m) iovPtr total new x s) (heq : y s = x s) :
    Counted (m := m) iovPtr total new y s := by
  refine ⟨?_, ?_, ?_⟩
  · rw [final_congr heq, h.places]
  · rw [final_congr heq, h.taken]
  · rw [outcome_of_run_eq heq]
    exact h.count

/-- A round of the loop takes what the file takes from its iovec, and then what the rest of the
loop takes. -/
theorem writevBody_counted {iovPtr i : ℕ} {rest : List IoVec} {next : ℕ → Handler σ ℕ}
    (hnext : ∀ total s, Counted (m := m) iovPtr total
      (takenPlaces m fds fd (i + 1) rest s.file) (next total) s) (total : ℕ) (s : Session σ) :
    Counted (m := m) iovPtr total
      (takenPlaces m fds fd i (ioVecAt m (iovPtr + i * 16) :: rest) s.file)
      (writevBody m fds fd next i total (ioVecAt m (iovPtr + i * 16))) s := by
  have hbytes := map_byteAt_placesOf (m := m) iovPtr i
  generalize ioVecAt m (iovPtr + i * 16) = v at hbytes ⊢
  rw [takenPlaces]
  by_cases hlen : v.len = 0
  · rw [if_pos hlen]
    exact (hnext total s).congr (by rw [writevBody, if_pos hlen])
  rw [if_neg hlen]
  have hwrite : sysWrite m fds fd v.base v.len s = _ := sysWrite_run hlen s
  cases hanswer : answer m fds fd v.base v.len s.file with
  | error e f =>
    rw [hanswer] at hwrite
    have hbody : writevBody m fds fd next i total v s =
        (if 0 < total then pure total else throw e : Handler σ ℕ) { s with file := f } := by
      rw [writevBody, if_neg hlen, bind_of_ok (attempt_of_error hwrite)]
    by_cases htotal : 0 < total
    · rw [if_pos htotal] at hbody
      refine ⟨?_, ?_, Or.inl ?_⟩
      · rw [final_of_ok hbody, List.append_nil]
      · rw [final_of_ok hbody, List.map_nil, List.append_nil]
      · rw [outcome, hbody]
        rfl
    · rw [if_neg htotal] at hbody
      refine ⟨?_, ?_, Or.inr ⟨⟨e, ?_⟩, by omega, rfl⟩⟩
      · rw [final_of_error hbody, List.append_nil]
      · rw [final_of_error hbody, List.map_nil, List.append_nil]
      · rw [outcome, hbody]
        rfl
  | ok n f =>
    rw [hanswer] at hwrite
    have hbody : writevBody m fds fd next i total v s =
        next (total + n) (notePlaces i n { s with
          file := f, taken := s.taken ++ (List.range' v.base n).map m.byteAt }) := by
      rw [writevBody, if_neg hlen, bind_of_ok (attempt_of_ok hwrite)]
      rfl
    have hrest := hnext (total + n) (notePlaces i n { s with
      file := f, taken := s.taken ++ (List.range' v.base n).map m.byteAt })
    refine ⟨?_, ?_, ?_⟩
    · rw [final_congr hbody, hrest.places, ← List.append_assoc]
      rfl
    · rw [final_congr hbody, hrest.taken, List.map_append, hbytes, ← List.append_assoc]
      rfl
    · rw [outcome_of_run_eq hbody]
      rcases hrest.count with hok | ⟨herror, htotal, hnil⟩
      · refine Or.inl (hok.trans ?_)
        rw [List.length_append, length_placesOf, Nat.add_assoc]
        rfl
      · refine Or.inr ⟨herror, by omega, ?_⟩
        obtain rfl : n = 0 := by omega
        exact hnil

/-- The loop takes what the file takes, iovec by iovec. -/
theorem writevLoop_counted {iovPtr left i : ℕ}
    (hread : ∀ k < left, getIoVec m (iovPtr + (i + k) * 16) =
      .ok (ioVecAt m (iovPtr + (i + k) * 16))) (total : ℕ) (s : Session σ) :
    Counted (m := m) iovPtr total (takenPlaces m fds fd i (ioVecs m iovPtr left i) s.file)
      (writevLoop m fds fd iovPtr left i total) s := by
  induction left generalizing i total s with
  | zero => exact ⟨(List.append_nil _).symm, (List.append_nil _).symm, Or.inl rfl⟩
  | succ left ih =>
    have hrest : ∀ k < left, getIoVec m (iovPtr + (i + 1 + k) * 16) =
        .ok (ioVecAt m (iovPtr + (i + 1 + k) * 16)) := fun k hk => by
      have := hread (k + 1) (by omega)
      rwa [show i + (k + 1) = i + 1 + k by omega] at this
    have hfirst := hread 0 (by omega)
    rw [Nat.add_zero] at hfirst
    refine (writevBody_counted (fun total s => ih hrest total s) total s).congr ?_
    rw [writevLoop, hfirst, ofExcept_ok_bind]

/-! ## Prefixes -/

variable {i : ℕ} {iovs : List IoVec} {f : σ}

/-- Nothing is taken exactly if no write takes a byte. -/
theorem takenPlaces_eq_nil_iff : takenPlaces m fds fd i iovs f = [] ↔ Silent m fds fd iovs f := by
  induction iovs generalizing i f with
  | nil => simp [takenPlaces, Silent]
  | cons v rest ih =>
    rw [takenPlaces, Silent]
    split_ifs with hlen
    · exact ih
    · cases answer m fds fd v.base v.len f with
      | error e f' => simp
      | ok n f' =>
        rw [List.append_eq_nil_iff, ih, ← List.length_eq_zero_iff, length_placesOf]

/-- What is taken comes from the iovec at hand or from a later one. -/
theorem le_of_mem_takenPlaces {p : ℕ × ℕ} (h : p ∈ takenPlaces m fds fd i iovs f) : i ≤ p.1 := by
  induction iovs generalizing i f with
  | nil => cases h
  | cons v rest ih =>
    rw [takenPlaces] at h
    split_ifs at h
    · exact Nat.le_of_succ_le (ih h)
    · cases hanswer : answer m fds fd v.base v.len f with
      | error e f' =>
        rw [hanswer] at h
        cases h
      | ok n f' =>
        rw [hanswer] at h
        rcases List.mem_append.mp h with hmem | hmem
        · obtain ⟨j, -, rfl⟩ := List.mem_map.mp hmem
          exact le_rfl
        · exact Nat.le_of_succ_le (ih hmem)

theorem placesOf_add (i n k : ℕ) :
    placesOf i (n + k) = placesOf i n ++ (List.range' n k).map (i, ·) := by
  have hrange : List.range (n + k) = List.range n ++ List.range' n k := by
    rw [List.range_eq_range', List.range_eq_range', ← List.range'_append_1, Nat.zero_add]
  rw [placesOf, placesOf, hrange, List.map_append]

/-- After a short write, bytes of later iovecs do not continue a prefix. -/
theorem short_prefix_iff {i n len : ℕ} (hn : n < len) {later all : List (ℕ × ℕ)}
    (hlater : ∀ p ∈ later, i < p.1) :
    placesOf i n ++ later <+: placesOf i len ++ all ↔ later = [] := by
  obtain ⟨k, rfl⟩ := Nat.exists_eq_add_of_lt hn
  rw [Nat.add_assoc, placesOf_add, List.append_assoc, List.prefix_append_right_inj]
  constructor
  · intro h
    cases later with
    | nil => rfl
    | cons p later =>
      have hp := hlater p List.mem_cons_self
      rw [List.range'_succ, List.map_cons, List.cons_append, List.cons_prefix_cons] at h
      rw [h.1] at hp
      exact absurd hp (lt_irrefl i)
  · rintro rfl
    exact List.nil_prefix

/-- What is taken is a prefix exactly if no write takes a byte after a short one. -/
theorem takenPlaces_prefix_iff :
    takenPlaces m fds fd i iovs f <+: allPlaces i iovs ↔ Orderly m fds fd iovs f := by
  induction iovs generalizing i f with
  | nil => simp [takenPlaces, Orderly]
  | cons v rest ih =>
    rw [takenPlaces, Orderly, allPlaces]
    by_cases hlen : v.len = 0
    · rw [if_pos hlen, if_pos hlen, hlen]
      exact ih
    rw [if_neg hlen, if_neg hlen]
    cases hanswer : answer m fds fd v.base v.len f with
    | error e f' => simp
    | ok n f' =>
      dsimp only
      by_cases hn : n = v.len
      · rw [if_pos hn, hn, List.prefix_append_right_inj]
        exact ih
      · have hlt : n < v.len := lt_of_le_of_ne (answer_le hanswer) hn
        rw [if_neg hn, short_prefix_iff hlt fun p hp => le_of_mem_takenPlaces hp]
        exact takenPlaces_eq_nil_iff

variable (m fds fd)

/-- The bytes that the file has taken are those at the first places of the iovecs, in order,
and the call returns their number; it fails only if there are none. -/
structure PrefixWrite (iovPtr count : ℕ) (x : Handler σ ℕ) (s : Session σ) : Prop where
  places : (final x s).places <+: allPlaces 0 (ioVecs m iovPtr count 0)
  taken : (final x s).taken = (final x s).places.map (byteAt m iovPtr)
  count : ∀ n, outcome x s = .ok n → n = (final x s).taken.length
  error : ∀ e, outcome x s = .error e → (final x s).taken = []

/-- The call takes the iovecs up. -/
def Accepted (iovPtr : ℕ) (iovcnt : Int32) : Prop :=
  ¬(iovcnt ≤ 0 ∨ 1024 < iovcnt) ∧
    outcome (checkUserRange iovPtr (iovcnt.toInt.toNat * 16) .read) m = .ok ()

/-- A call that takes up the iovecs is the loop over them. -/
theorem sysWritev_of_accepted {iovPtr : ℕ} {iovcnt : Int32} (h : Accepted m iovPtr iovcnt)
    (s : Session σ) :
    sysWritev m fds fd iovPtr iovcnt s = writevLoop m fds fd iovPtr iovcnt.toInt.toNat 0 0 s := by
  rw [sysWritev, require_bind_run, if_pos h.1, h.2, ofExcept_ok_bind]

/-- A call that does not take them up fails and hands nothing over. -/
theorem sysWritev_of_not_accepted {iovPtr : ℕ} {iovcnt : Int32} (h : ¬Accepted m iovPtr iovcnt)
    (s : Session σ) : ∃ e, sysWritev m fds fd iovPtr iovcnt s = .error e s := by
  rw [sysWritev, require_bind_run]
  by_cases hcount : ¬(iovcnt ≤ 0 ∨ 1024 < iovcnt)
  · rw [if_pos hcount]
    cases hcheck : outcome (checkUserRange iovPtr (iovcnt.toInt.toNat * 16) .read) m with
    | ok u => exact absurd ⟨hcount, hcheck⟩ h
    | error e => exact ⟨e, rfl⟩
  · rw [if_neg hcount]
    exact ⟨.EINVAL, rfl⟩

/-- The bytes that a call hands to the file are a prefix of the iovecs, and the call returns
their number, exactly if the file takes no byte after a write that was short. -/
theorem sysWritev_prefixWrite_iff (iovPtr : ℕ) (iovcnt : Int32) (f : σ) :
    PrefixWrite m iovPtr iovcnt.toInt.toNat (sysWritev m fds fd iovPtr iovcnt) { file := f } ↔
      (Accepted m iovPtr iovcnt → Orderly m fds fd (ioVecs m iovPtr iovcnt.toInt.toNat 0) f) := by
  by_cases haccepted : Accepted m iovPtr iovcnt
  · have hcounted : Counted (m := m) iovPtr 0
        (takenPlaces m fds fd 0 (ioVecs m iovPtr iovcnt.toInt.toNat 0) f)
        (sysWritev m fds fd iovPtr iovcnt) { file := f } := by
      refine Counted.congr (writevLoop_counted (fun k hk => ?_) 0 { file := f })
        (sysWritev_of_accepted m fds fd haccepted _)
      rw [Nat.zero_add]
      exact getIoVec_of_check haccepted.2 hk
    have hplaces := hcounted.places
    have htaken := hcounted.taken
    rw [List.nil_append] at hplaces htaken
    rw [← hplaces] at htaken
    constructor
    · intro h _
      exact takenPlaces_prefix_iff.mp (hplaces ▸ h.places)
    · intro h
      refine ⟨hplaces ▸ takenPlaces_prefix_iff.mpr (h haccepted), htaken, ?_, ?_⟩
      · intro n hn
        rcases hcounted.count with hok | ⟨⟨e, herror⟩, -⟩
        · rw [htaken, List.length_map, hplaces]
          cases hn.symm.trans hok
          exact Nat.zero_add _
        · cases hn.symm.trans herror
      · intro e he
        rcases hcounted.count with hok | ⟨-, -, hnil⟩
        · cases he.symm.trans hok
        · rw [htaken, hplaces, hnil]
          rfl
  · obtain ⟨e, hrun⟩ := sysWritev_of_not_accepted m fds fd haccepted { file := f }
    refine iff_of_true ⟨?_, ?_, ?_, ?_⟩ fun h => absurd h haccepted
    · rw [final_of_error hrun]
      exact List.nil_prefix
    · rw [final_of_error hrun]
      rfl
    · intro n hn
      rw [outcome, hrun] at hn
      cases hn
    · intro _ _
      rw [final_of_error hrun]

end Calls

/-- A file that takes one byte at a time. -/
def byteByByte : FileObject Unit where
  write buf := pure (min 1 buf.length)
  le_length h := by
    cases h
    exact min_le_right _ _

/-- Two iovecs of two bytes each, at address 4096. -/
def twoPairs : UserMemory where
  pml4 := wholeLowerHalf.pml4
  phys addr := if addr = 4097 ∨ addr = 4113 then 32 else if addr = 4104 ∨ addr = 4120 then 2 else 0
  accessed := []

/-- The file takes the first byte of each iovec, and the call goes on. -/
theorem sysWritev_skips_byte :
    outcome (sysWritev twoPairs (some fun _ => .ok byteByByte) 1 4096 2) { file := () } = .ok 2 ∧
      (final (sysWritev twoPairs (some fun _ => .ok byteByByte) 1 4096 2)
        { file := () }).places = [(0, 0), (1, 0)] ∧
      ¬PrefixWrite twoPairs 4096 2 (sysWritev twoPairs (some fun _ => .ok byteByByte) 1 4096 2)
        { file := () } := by
  have hplaces : (final (sysWritev twoPairs (some fun _ => .ok byteByByte) 1 4096 2)
      { file := () }).places = [(0, 0), (1, 0)] := by decide +kernel
  refine ⟨by decide +kernel, hplaces, fun h => ?_⟩
  have hprefix := h.places
  rw [hplaces] at hprefix
  revert hprefix
  decide +kernel

end RacOS.Vectored
