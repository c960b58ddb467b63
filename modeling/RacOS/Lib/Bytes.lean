import Mathlib.Data.Nat.Notation
import Mathlib.Algebra.Order.Ring.Nat
import Mathlib.Tactic.Ring

/-!
# Little-endian fields in byte buffers

A byte buffer is a function from offsets to bytes.  Fields of `w` bytes are
read and written little-endian at an offset; a read of a field does not see
writes to other bytes, and a read of a field just written gives the value
modulo its width.
-/

/-- A byte buffer. -/
abbrev Bytes := ℕ → UInt8

namespace Bytes

/-- The buffer of zeros. -/
def zero : Bytes := fun _ => 0

/-- The little-endian value of the `w` bytes at `off`. -/
def readLe : ℕ → Bytes → ℕ → ℕ
  | 0, _, _ => 0
  | w + 1, b, off => (b off).toNat + 256 * readLe w b (off + 1)

/-- Write the low `w` bytes of `v` at `off`, little-endian. -/
def writeLe (w : ℕ) (b : Bytes) (off v : ℕ) : Bytes := fun i =>
  if off ≤ i ∧ i < off + w then UInt8.ofNat (v / 256 ^ (i - off)) else b i

/-- Copy the first `n` bytes of `src` to offset `off`. -/
def patch (b : Bytes) (off n : ℕ) (src : Bytes) : Bytes := fun i =>
  if off ≤ i ∧ i < off + n then src (i - off) else b i

/-- The buffer from offset `off` on. -/
def slice (b : Bytes) (off : ℕ) : Bytes := fun i => b (off + i)

/-- Set one byte. -/
def setByte (b : Bytes) (off : ℕ) (v : UInt8) : Bytes := fun i =>
  if i = off then v else b i

/-- Write consecutive fields of `w` bytes from `off` on. -/
def writeArray (w : ℕ) : Bytes → ℕ → List ℕ → Bytes
  | b, _, [] => b
  | b, off, v :: vs => writeArray w (writeLe w b off v) (off + w) vs

/-! ## Reading -/

variable {w off off' : ℕ}

theorem readLe_congr {b b' : Bytes} (h : ∀ i < w, b (off + i) = b' (off' + i)) :
    readLe w b off = readLe w b' off' := by
  induction w generalizing off off' with
  | zero => rfl
  | succ w ih =>
    have h₀ : b off = b' off' := h 0 (by omega)
    have hrest : readLe w b (off + 1) = readLe w b' (off' + 1) := by
      apply ih
      intro i hi
      have := h (i + 1) (by omega)
      rwa [Nat.add_assoc, Nat.add_assoc, Nat.add_comm 1 i]
    rw [readLe, readLe, h₀, hrest]

theorem readLe_lt (w : ℕ) (b : Bytes) (off : ℕ) : readLe w b off < 256 ^ w := by
  induction w generalizing off with
  | zero => simp [readLe]
  | succ w ih =>
    have h₀ := (b off).toNat_lt
    have := ih (off + 1)
    rw [readLe, pow_succ]
    omega

/-! ## Writing one field -/

variable {b : Bytes}

theorem writeLe_of_disjoint {off v i : ℕ} (h : i < off ∨ off + w ≤ i) :
    writeLe w b off v i = b i := by
  unfold writeLe
  rw [if_neg (by omega)]

variable {w' : ℕ}

theorem readLe_writeLe_of_disjoint {off off' v : ℕ} (h : off' + w' ≤ off ∨ off + w ≤ off') :
    readLe w' (writeLe w b off v) off' = readLe w' b off' := by
  apply readLe_congr
  intro i hi
  exact writeLe_of_disjoint (by omega)

variable {n : ℕ}

theorem readLe_writeLe_of_le (b : Bytes) (off v : ℕ) (h : n ≤ w) :
    readLe n (writeLe w b off v) off = v % 256 ^ n := by
  suffices hgen : ∀ k, k + n ≤ w → readLe n (writeLe w b off v) (off + k) = v / 256 ^ k % 256 ^ n by
    have := hgen 0 (by omega)
    simpa using this
  clear h
  induction n with
  | zero => intro k _; simp [readLe, Nat.mod_one]
  | succ n ih =>
    intro k hk
    have hbyte : writeLe w b off v (off + k) = UInt8.ofNat (v / 256 ^ k) := by
      unfold writeLe
      rw [if_pos (by omega), Nat.add_sub_cancel_left]
    have hrest := ih (k + 1) (by omega)
    have hdiv : v / 256 ^ (k + 1) = v / 256 ^ k / 256 := by
      rw [pow_succ, Nat.div_div_eq_div_mul]
    have hpow : 256 ^ (n + 1) = 256 * 256 ^ n := by
      rw [pow_succ, Nat.mul_comm]
    rw [readLe, hbyte, Nat.add_assoc, hrest, hdiv, hpow, Nat.mod_mul, UInt8.toNat_ofNat']

theorem readLe_writeLe_same (w : ℕ) (b : Bytes) (off v : ℕ) :
    readLe w (writeLe w b off v) off = v % 256 ^ w :=
  readLe_writeLe_of_le b off v le_rfl

/-! ## Copying -/

variable {src : Bytes} {i : ℕ}

theorem patch_of_mem (h : off ≤ i ∧ i < off + n) : patch b off n src i = src (i - off) := by
  unfold patch
  rw [if_pos h]

theorem patch_of_disjoint (h : i < off ∨ off + n ≤ i) : patch b off n src i = b i := by
  unfold patch
  rw [if_neg (by omega)]

/-! ## Arrays of fields -/

variable {vs : List ℕ}

theorem writeArray_of_disjoint (h : i < off ∨ off + w * vs.length ≤ i) :
    writeArray w b off vs i = b i := by
  induction vs generalizing b off with
  | nil => rfl
  | cons v vs ih =>
    rw [List.length_cons, Nat.mul_succ] at h
    rw [writeArray, ih (by omega), writeLe_of_disjoint (by omega)]

theorem readLe_writeArray_of_disjoint (h : off' + w' ≤ off ∨ off + w * vs.length ≤ off') :
    readLe w' (writeArray w b off vs) off' = readLe w' b off' := by
  apply readLe_congr
  intro i hi
  exact writeArray_of_disjoint (by omega)

theorem readLe_writeArray_of_le {off k v : ℕ} (h : n ≤ w) (hk : vs[k]? = some v) :
    readLe n (writeArray w b off vs) (off + w * k) = v % 256 ^ n := by
  induction vs generalizing b off k with
  | nil => simp at hk
  | cons u vs ih =>
    cases k with
    | zero =>
      obtain rfl : u = v := by simpa using hk
      rw [writeArray, Nat.mul_zero, Nat.add_zero,
        readLe_writeArray_of_disjoint (by omega), readLe_writeLe_of_le _ _ _ h]
    | succ k =>
      have hk' : vs[k]? = some v := by simpa using hk
      rw [writeArray, Nat.mul_succ, Nat.add_comm (w * k), ← Nat.add_assoc]
      exact ih hk'

/-! ## Fields of fixed-width integers -/

def writeU16Le (b : Bytes) (off : ℕ) (v : UInt16) : Bytes :=
  writeLe 2 b off v.toNat

def writeU32Le (b : Bytes) (off : ℕ) (v : UInt32) : Bytes :=
  writeLe 4 b off v.toNat

end Bytes
