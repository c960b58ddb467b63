import Mathlib.Algebra.GroupWithZero.Nat
import Mathlib.Data.Nat.Notation
import Mathlib.Order.Defs.Unbundled

/-!
# Computations that succeed

A computation of type `Option α` fails where the code it models would stop with an error: an
index out of range, or a subtraction below zero.  To say that it succeeds with a value that has a
property is a total specification, and one rule for each way of building a computation reduces it
to specifications of the parts.  Loops over a range of numbers have a rule with an invariant, and
one for a preorder that every round respects.

What a computation leaves alone does not depend on whether it succeeds.  Such facts have rules of
their own, which ask for nothing about indices.
-/

namespace Total

variable {α β σ : Type}

/-- The computation succeeds, with a value that has the property. -/
def Yields (x : Option α) (P : α → Prop) : Prop := ∃ a, x = some a ∧ P a

/-- `a - b`, if that is not below zero. -/
def checkedSub (a b : ℕ) : Option ℕ := if b ≤ a then some (a - b) else none

/-- Overwrite the entry at an index, if there is one. -/
def setAt (l : List α) (i : ℕ) (a : α) : Option (List α) :=
  if i < l.length then some (l.set i a) else none

/-- Run `f` for every index from `lo` up to, and without, `hi`. -/
def loop (lo hi : ℕ) (f : σ → ℕ → Option σ) (s : σ) : Option σ :=
  (List.range' lo (hi - lo)).foldlM f s

/-- Run `f` for every index below `hi` down to `lo`. -/
def loopDown (lo hi : ℕ) (f : σ → ℕ → Option σ) (s : σ) : Option σ :=
  (List.range' lo (hi - lo)).reverse.foldlM f s

theorem checkedSub_eq {a b : ℕ} (h : b ≤ a) : checkedSub a b = some (a - b) := if_pos h

variable {l : List α} {a : α}

theorem setAt_eq {i : ℕ} (h : i < l.length) : setAt l i a = some (l.set i a) :=
  if_pos h

variable {lo hi : ℕ} {f : σ → ℕ → Option σ}

namespace Yields

variable {x : Option α} {P Q : α → Prop}

theorem pure (h : P a) : Yields (some a) P := ⟨a, rfl, h⟩

theorem mono (h : Yields x P) (hPQ : ∀ a, P a → Q a) : Yields x Q := by
  obtain ⟨a, hx, ha⟩ := h
  exact ⟨a, hx, hPQ a ha⟩

theorem bind {f : α → Option β} {R : β → Prop} (h : Yields x P)
    (hf : ∀ a, P a → Yields (f a) R) : Yields (x >>= f) R := by
  obtain ⟨a, rfl, ha⟩ := h
  exact hf a ha

theorem ite {p : Prop} [Decidable p] {y : Option α} (hx : p → Yields x P)
    (hy : ¬p → Yields y P) : Yields (if p then x else y) P := by
  split
  · exact hx ‹_›
  · exact hy ‹_›

/-- What every entry of a list preserves holds after all of them. -/
theorem foldlM {I : σ → Prop} {f : σ → α → Option σ} {s : σ}
    (hf : ∀ a ∈ l, ∀ s, I s → Yields (f s a) I) (h : I s) : Yields (l.foldlM f s) I := by
  induction l generalizing s with
  | nil => exact .pure h
  | cons a l ih =>
    rw [List.foldlM_cons]
    refine (hf a List.mem_cons_self s h).bind fun s' hs' => ?_
    exact ih (fun b hb => hf b (List.mem_cons_of_mem a hb)) hs'

/-- The rule for loops, with an invariant that speaks of the index. -/
theorem loop_index {I : ℕ → σ → Prop} {s : σ}
    (hf : ∀ i, lo ≤ i → i < hi → ∀ s, I i s → Yields (f s i) (I (i + 1))) (hle : lo ≤ hi)
    (h : I lo s) : Yields (loop lo hi f s) (I hi) := by
  obtain ⟨n, rfl⟩ := Nat.exists_eq_add_of_le hle
  unfold loop
  rw [Nat.add_sub_cancel_left]
  clear hle
  induction n generalizing lo s with
  | zero => exact .pure h
  | succ n ih =>
    rw [List.range'_succ, List.foldlM_cons]
    refine (hf lo (Nat.le_refl lo) (by omega) s h).bind fun s' hs' => ?_
    have hrest := ih hs' fun i hlo hhi => hf i (by omega) (by omega)
    rwa [Nat.add_right_comm] at hrest

section Preorder

variable {R : σ → σ → Prop} [IsTrans σ R] {s : σ}

theorem seq {y : Option σ} {f : σ → Option σ} (h : Yields y (R s))
    (hf : ∀ s', R s s' → Yields (f s') (R s')) : Yields (y >>= f) (R s) := by
  refine h.bind fun s' hs' => ?_
  exact (hf s' hs').mono fun s'' hs'' => Trans.trans hs' hs''

variable [Std.Refl R]

theorem foldlM_rel {f : σ → α → Option σ} (hf : ∀ a ∈ l, ∀ s', R s s' → Yields (f s' a) (R s')) :
    Yields (l.foldlM f s) (R s) := by
  refine foldlM (fun a ha s' hs' => ?_) (Std.Refl.refl s)
  exact (hf a ha s' hs').mono fun s'' hs'' => Trans.trans hs' hs''

theorem loop_rel (hf : ∀ i, lo ≤ i → i < hi → ∀ s', R s s' → Yields (f s' i) (R s')) :
    Yields (loop lo hi f s) (R s) := by
  refine foldlM_rel fun i hi' s' hs' => ?_
  obtain ⟨hlo, hhi⟩ := List.mem_range'_1.mp hi'
  exact hf i hlo (by omega) s' hs'

theorem loopDown_rel (hf : ∀ i, lo ≤ i → i < hi → ∀ s', R s s' → Yields (f s' i) (R s')) :
    Yields (loopDown lo hi f s) (R s) := by
  refine foldlM_rel fun i hi' s' hs' => ?_
  obtain ⟨hlo, hhi⟩ := List.mem_range'_1.mp (List.mem_reverse.mp hi')
  exact hf i hlo (by omega) s' hs'

end Preorder

end Yields

/-- If the computation succeeds, its value has the property. -/
def Ensures (x : Option α) (P : α → Prop) : Prop := ∀ a, x = some a → P a

theorem Yields.and {x : Option α} {P Q : α → Prop} (h : Yields x P) (h' : Ensures x Q) :
    Yields x fun a => P a ∧ Q a := by
  obtain ⟨a, hx, ha⟩ := h
  exact ⟨a, hx, ha, h' a hx⟩

namespace Ensures

variable {x : Option α} {P Q : α → Prop}

theorem pure (h : P a) : Ensures (some a) P := by
  intro a' ha'
  exact Option.some.inj ha' ▸ h

theorem mono (h : Ensures x P) (hPQ : ∀ a, P a → Q a) : Ensures x Q := fun a ha => hPQ a (h a ha)

theorem bind {f : α → Option β} {R : β → Prop} (h : Ensures x P)
    (hf : ∀ a, P a → Ensures (f a) R) : Ensures (x >>= f) R := by
  intro b hb
  obtain ⟨a, hx, ha⟩ := Option.bind_eq_some_iff.mp hb
  exact hf a (h a hx) b ha

theorem after {f : α → Option β} {R : β → Prop} (hf : ∀ a, Ensures (f a) R) : Ensures (x >>= f) R :=
  bind (P := fun _ => True) (fun _ _ => trivial) fun a _ => hf a

theorem ite {p : Prop} [Decidable p] {y : Option α} (hx : p → Ensures x P)
    (hy : ¬p → Ensures y P) : Ensures (if p then x else y) P := by
  split
  · exact hx ‹_›
  · exact hy ‹_›

/-- The rule for loops, with an invariant that speaks of the index. -/
theorem loop_index {I : ℕ → σ → Prop} {s : σ}
    (hf : ∀ i, lo ≤ i → i < hi → ∀ s, I i s → Ensures (f s i) (I (i + 1))) (hle : lo ≤ hi)
    (h : I lo s) : Ensures (loop lo hi f s) (I hi) := by
  obtain ⟨n, rfl⟩ := Nat.exists_eq_add_of_le hle
  unfold loop
  rw [Nat.add_sub_cancel_left]
  clear hle
  induction n generalizing lo s with
  | zero => exact .pure h
  | succ n ih =>
    rw [List.range'_succ, List.foldlM_cons]
    refine (hf lo (Nat.le_refl lo) (by omega) s h).bind fun s' hs' => ?_
    have hrest := ih hs' fun i hlo hhi => hf i (by omega) (by omega)
    rwa [Nat.add_right_comm] at hrest

section Preorder

variable {R : σ → σ → Prop} [IsTrans σ R] {s : σ}

theorem seq {y : Option σ} {f : σ → Option σ} (h : Ensures y (R s))
    (hf : ∀ s', Ensures (f s') (R s')) : Ensures (y >>= f) (R s) := by
  refine h.bind fun s' hs' => ?_
  exact (hf s').mono fun s'' hs'' => Trans.trans hs' hs''

variable [Std.Refl R]

theorem foldlM_rel {f : σ → α → Option σ} (hf : ∀ s a, Ensures (f s a) (R s)) :
    Ensures (l.foldlM f s) (R s) := by
  induction l generalizing s with
  | nil => exact .pure (Std.Refl.refl s)
  | cons a l ih =>
    rw [List.foldlM_cons]
    exact seq (hf s a) fun s' => ih

theorem loop_rel (hf : ∀ s i, Ensures (f s i) (R s)) : Ensures (loop lo hi f s) (R s) :=
  foldlM_rel hf

theorem loopDown_rel (hf : ∀ s i, Ensures (f s i) (R s)) : Ensures (loopDown lo hi f s) (R s) :=
  foldlM_rel hf

end Preorder

end Ensures

end Total
