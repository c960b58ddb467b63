import RacOS.Lib.CStrings
import RacOS.Syscall.UserCopy

/-!
# The strings of a new program

The model of `collect_user_argv` and `collect_user_envp`, which read the arguments and the
environment of a new program from user memory.  Whatever the process has there, the
strings are short, have no NUL in them, and are limited in number.
-/

namespace RacOS.UserCopy

open Program

/-- A word of user memory. -/
def getUser (ptr : ℕ) : UserM ℕ := do
  let bytes ← copyFromUser 8 ptr
  return Bytes.readLe 8 (fun i => bytes.getD i 0) 0

/-- A string, with its bytes, which must be UTF-8. -/
def readUserString (ptr max : ℕ) : UserM (List UInt8) := do
  let bytes ← readUserBytes ptr max
  require ((Utf8.decode bytes).isSome) .EINVAL
  return bytes

abbrev maxArgs : ℕ := 64
abbrev maxEnvVars : ℕ := 256
abbrev maxString : ℕ := 4096

/-- The loop over an array of pointers to strings, which ends with a null pointer or after
the greatest number of strings. -/
def collectStrings (arrayPtr : ℕ) : (left i : ℕ) → List (List UInt8) → UserM (List (List UInt8))
  | 0, _, strings => return strings
  | left + 1, i, strings => do
      require (arrayPtr + i * 8 < 2 ^ 64) .EFAULT
      let strPtr ← getUser (arrayPtr + i * 8)
      if strPtr = 0 then return strings
      else do
        let s ← readUserBytes strPtr maxString
        collectStrings arrayPtr left (i + 1) (strings ++ [s])

def collectUserArgv (path : List UInt8) (argvPtr : ℕ) : UserM (List (List UInt8)) :=
  if argvPtr = 0 then return [path]
  else do
    let args ← collectStrings argvPtr maxArgs 0 []
    if args = [] then return [path]
    else return args

def collectUserEnvp (envpPtr : ℕ) : UserM (List (List UInt8)) :=
  if envpPtr = 0 then return []
  else collectStrings envpPtr maxEnvVars 0 []

/-! ## What is read -/

/-- A string that fits with its NUL into `maxString` bytes, without a NUL in it. -/
structure Text (s : List UInt8) : Prop where
  short : s.length < maxString
  ne_nul : 0 ∉ s

variable {m m' : UserMemory}

theorem nextPageEnd_ok {addr pageEnd stop : ℕ} (h : nextPageEnd addr pageEnd m = .ok stop m') :
    m' = m := by
  unfold nextPageEnd at h
  split at h
  · exact (pure_ok_iff.mp h).2.symm
  · rw [enterPage_run] at h
    split at h
    · exact (EStateM.Result.ok.inj h).2.symm
    · exact nomatch h

/-- The scan stops at the first NUL, before the limit. -/
theorem scan_ok {left addr pageEnd len n : ℕ} (h : scan left addr pageEnd len m = .ok n m') :
    m'.byteAt = m.byteAt ∧ ∃ k < left, n = len + k ∧ ∀ i < k, m.byteAt (addr + i) ≠ 0 := by
  induction left generalizing addr pageEnd len m with
  | zero =>
    obtain ⟨_, _, -, h⟩ := bind_ok_iff.mp h
    exact absurd h (by simp [throw_ok_iff])
  | succ left ih =>
    obtain ⟨stop, m₁, hstop, hrest⟩ := bind_ok_iff.mp h
    obtain rfl := nextPageEnd_ok hstop
    obtain ⟨bytes, m₂, hload, hrest⟩ := bind_ok_iff.mp hrest
    obtain ⟨rfl, rfl⟩ := EStateM.Result.ok.inj hload
    split at hrest
    · obtain ⟨rfl, rfl⟩ := pure_ok_iff.mp hrest
      exact ⟨rfl, 0, Nat.succ_pos left, rfl, nofun⟩
    · rename_i hne
      have hbyte : m₁.byteAt addr ≠ 0 := by simpa using hne
      obtain ⟨heq, k, hk, hn, hbytes⟩ := ih hrest
      refine ⟨heq, k + 1, Nat.succ_lt_succ hk, by omega, fun i hi => ?_⟩
      cases i with
      | zero => exact hbyte
      | succ i =>
        have := hbytes i (Nat.lt_of_succ_lt_succ hi)
        rwa [Nat.add_assoc, Nat.add_comm 1] at this

theorem text_of_readUserBytes {ptr : ℕ} {s : List UInt8}
    (h : readUserBytes ptr maxString m = .ok s m') : Text s := by
  obtain ⟨_, _, hptr, h⟩ := bind_ok_iff.mp h
  obtain ⟨-, rfl⟩ := require_ok_iff.mp hptr
  obtain ⟨len, m₁, hscan, h⟩ := bind_ok_iff.mp h
  obtain ⟨rfl, -⟩ := EStateM.Result.ok.inj h
  obtain ⟨heq, k, hk, hlen, hbytes⟩ := scan_ok hscan
  rw [Nat.zero_add] at hlen
  subst hlen
  constructor
  · rwa [List.length_map, List.length_range']
  · intro hnul
    obtain ⟨a, ha, hzero⟩ := List.mem_map.mp hnul
    obtain ⟨i, hi, rfl⟩ := List.mem_range'.mp ha
    rw [heq, Nat.one_mul] at hzero
    exact hbytes i hi hzero

theorem text_of_readUserString {ptr : ℕ} {s : List UInt8}
    (h : readUserString ptr maxString m = .ok s m') : Text s := by
  obtain ⟨bytes, m₁, hread, h⟩ := bind_ok_iff.mp h
  obtain ⟨_, _, -, h⟩ := bind_ok_iff.mp h
  obtain ⟨rfl, -⟩ := pure_ok_iff.mp h
  exact text_of_readUserBytes hread

/-- The loop adds texts, not more than it may. -/
theorem collectStrings_ok {arrayPtr left i : ℕ} {strings result : List (List UInt8)}
    (htexts : ∀ s ∈ strings, Text s)
    (h : collectStrings arrayPtr left i strings m = .ok result m') :
    result.length ≤ strings.length + left ∧ ∀ s ∈ result, Text s := by
  induction left generalizing i strings m with
  | zero =>
    obtain ⟨rfl, -⟩ := pure_ok_iff.mp h
    exact ⟨le_rfl, htexts⟩
  | succ left ih =>
    obtain ⟨_, m₁, -, h⟩ := bind_ok_iff.mp h
    obtain ⟨strPtr, m₂, -, h⟩ := bind_ok_iff.mp h
    split at h
    · obtain ⟨rfl, -⟩ := pure_ok_iff.mp h
      exact ⟨Nat.le_add_right _ _, htexts⟩
    · obtain ⟨s, m₃, hread, h⟩ := bind_ok_iff.mp h
      have hall : ∀ t ∈ strings ++ [s], Text t := by
        intro t ht
        rcases List.mem_append.mp ht with ht | ht
        · exact htexts t ht
        · rw [List.mem_singleton.mp ht]
          exact text_of_readUserBytes hread
      obtain ⟨hlen, hresult⟩ := ih hall h
      rw [List.length_append, List.length_singleton] at hlen
      exact ⟨by omega, hresult⟩

theorem collectUserArgv_ok {path : List UInt8} (hpath : Text path) {argvPtr : ℕ}
    {argv : List (List UInt8)} (h : collectUserArgv path argvPtr m = .ok argv m') :
    argv.length ≤ maxArgs ∧ ∀ s ∈ argv, Text s := by
  have hfallback : [path].length ≤ maxArgs ∧ ∀ s ∈ [path], Text s :=
    ⟨by simp, fun s hs => List.mem_singleton.mp hs ▸ hpath⟩
  unfold collectUserArgv at h
  split at h
  · obtain ⟨rfl, -⟩ := pure_ok_iff.mp h
    exact hfallback
  · obtain ⟨args, m₁, hargs, h⟩ := bind_ok_iff.mp h
    split at h
    · obtain ⟨rfl, -⟩ := pure_ok_iff.mp h
      exact hfallback
    · obtain ⟨rfl, -⟩ := pure_ok_iff.mp h
      obtain ⟨hlen, htexts⟩ := collectStrings_ok (by simp) hargs
      exact ⟨by rwa [List.length_nil, Nat.zero_add] at hlen, htexts⟩

theorem collectUserEnvp_ok {envpPtr : ℕ} {envp : List (List UInt8)}
    (h : collectUserEnvp envpPtr m = .ok envp m') :
    envp.length ≤ maxEnvVars ∧ ∀ s ∈ envp, Text s := by
  unfold collectUserEnvp at h
  split at h
  · obtain ⟨rfl, -⟩ := pure_ok_iff.mp h
    exact ⟨by decide, nofun⟩
  · obtain ⟨hlen, htexts⟩ := collectStrings_ok (by simp) h
    exact ⟨by rwa [List.length_nil, Nat.zero_add] at hlen, htexts⟩

end RacOS.UserCopy
