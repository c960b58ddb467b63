import Mathlib.Data.Nat.Notation
import Mathlib.Logic.Function.Basic

/-!
# Bit tables packed into words

A table of bits kept in words of a fixed width, as bitmap allocators keep
them, with the two updates such code makes: an or with a one-bit mask and an
and with its complement.  A position is read through its word, and both
updates change the position they name and no other.
-/

namespace Bitmap

variable {w : ℕ}

/-- The word with one bit set, at the place of position `i` in its word. -/
def mask (w i : ℕ) : BitVec w := 1#w <<< (i % w)

/-- The bit at position `i`. -/
def bit (words : ℕ → BitVec w) (i : ℕ) : Bool :=
  (words (i / w)).getLsbD (i % w)

/-- Or the word of position `i` with its mask. -/
def setBit (words : ℕ → BitVec w) (i : ℕ) : ℕ → BitVec w :=
  Function.update words (i / w) (words (i / w) ||| mask w i)

/-- And the word of position `i` with the complement of its mask. -/
def clearBit (words : ℕ → BitVec w) (i : ℕ) : ℕ → BitVec w :=
  Function.update words (i / w) (words (i / w) &&& ~~~mask w i)

theorem eq_of_div_eq_of_mod_eq {i j : ℕ} (hdiv : i / w = j / w) (hmod : i % w = j % w) : i = j := by
  rw [← Nat.div_add_mod i w, ← Nat.div_add_mod j w, hdiv, hmod]

/-- A word that is not all ones has a clear bit, and the number of trailing
ones is the place of its first clear bit. -/
theorem trailingOnes_spec {word : BitVec w} (h : word ≠ BitVec.allOnes w) :
    (~~~word).ctz.toNat < w ∧ word.getLsbD (~~~word).ctz.toNat = false ∧
      ∀ k < (~~~word).ctz.toNat, word.getLsbD k = true := by
  have hne : ~~~word ≠ 0#w := by
    intro hzero
    apply h
    rw [← BitVec.not_not (b := word), hzero, BitVec.not_zero]
  have hset := BitVec.getLsbD_true_ctz_of_ne_zero hne
  rw [BitVec.getLsbD_not] at hset
  simp only [Bool.and_eq_true, decide_eq_true_eq, Bool.not_eq_true'] at hset
  refine ⟨hset.1, hset.2, fun k hk => ?_⟩
  have hclear := BitVec.getLsbD_false_of_lt_ctz hk
  rw [BitVec.getLsbD_not] at hclear
  simpa [Nat.lt_trans hk hset.1] using hclear

variable (hw : 0 < w) (words : ℕ → BitVec w)

include hw

theorem getLsbD_mask (i j : ℕ) : (mask w i).getLsbD (j % w) = decide (i % w = j % w) := by
  rw [mask, ← BitVec.twoPow_eq, BitVec.getLsbD_twoPow]
  simp [Nat.mod_lt i hw]

/-- The mask test by which code reads a bit. -/
theorem and_mask_eq_zero_iff (i : ℕ) :
    words (i / w) &&& mask w i = 0#w ↔ bit words i = false := by
  have hi := Nat.mod_lt i hw
  constructor
  · intro h
    have hbit := congrArg (BitVec.getLsbD · (i % w)) h
    simpa [BitVec.getLsbD_and, getLsbD_mask hw, bit] using hbit
  · intro h
    apply BitVec.eq_of_getLsbD_eq
    intro k hk
    have hmask := getLsbD_mask hw i k
    rw [Nat.mod_eq_of_lt hk] at hmask
    rw [BitVec.getLsbD_and, hmask]
    by_cases hik : i % w = k
    · subst hik
      rw [bit] at h
      simp [h]
    · simp [hik]

theorem bit_setBit (i j : ℕ) :
    bit (setBit words i) j = (bit words j || decide (i = j)) := by
  by_cases hword : j / w = i / w
  · have hij : i % w = j % w ↔ i = j :=
      ⟨eq_of_div_eq_of_mod_eq hword.symm, fun h => h ▸ rfl⟩
    simp only [bit, setBit, hword, Function.update_self, BitVec.getLsbD_or, getLsbD_mask hw, hij]
  · have hij : i ≠ j := fun h => hword (h ▸ rfl)
    simp [bit, setBit, hword, hij]

theorem bit_clearBit (i j : ℕ) :
    bit (clearBit words i) j = (bit words j && decide (i ≠ j)) := by
  have hj := Nat.mod_lt j hw
  by_cases hword : j / w = i / w
  · have hij : i % w = j % w ↔ i = j :=
      ⟨eq_of_div_eq_of_mod_eq hword.symm, fun h => h ▸ rfl⟩
    rw [bit, clearBit, hword, Function.update_self, BitVec.getLsbD_and,
      BitVec.getLsbD_not, getLsbD_mask hw, bit, hword]
    simp [hij, hj]
  · have hij : i ≠ j := fun h => hword (h ▸ rfl)
    simp [bit, clearBit, hword, hij]

/-- The positions of word `idx` are the ones from `idx * w` on. -/
theorem bit_word (idx : ℕ) {k : ℕ} (hk : k < w) :
    bit words (idx * w + k) = (words idx).getLsbD k := by
  have hdiv : (idx * w + k) / w = idx := by
    rw [Nat.mul_comm, Nat.mul_add_div hw, Nat.div_eq_of_lt hk, Nat.add_zero]
  have hmod : (idx * w + k) % w = k := by
    rw [Nat.mul_comm, Nat.mul_add_mod, Nat.mod_eq_of_lt hk]
  rw [bit, hdiv, hmod]

end Bitmap
