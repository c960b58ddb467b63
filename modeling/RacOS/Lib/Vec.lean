import Mathlib.Data.Nat.Notation
import Mathlib.Data.List.Induction
import Mathlib.Data.List.Perm.Basic

/-!
# Growable arrays as lists

The operations on growable arrays that imperative code uses and the standard
library of lists does not have: removal by swapping in the last element, and
updating the first element that satisfies a test.
-/

namespace Vec

variable {α β : Type}

/-- Remove position `i`, moving the last element into its place. -/
def swapRemove (l : List α) (i : ℕ) : List α :=
  match l.getLast? with
  | none => []
  | some last => (l.set i last).dropLast

/-- Apply `f` to the first element that satisfies `p`. -/
def updateFirst (p : α → Bool) (f : α → α) : List α → List α
  | [] => []
  | a :: l => if p a then f a :: l else a :: updateFirst p f l

theorem swapRemove_concat (l : List α) (last : α) (i : ℕ) :
    swapRemove (l ++ [last]) i = if i < l.length then l.set i last else l := by
  unfold swapRemove
  rw [List.getLast?_concat]
  by_cases h : i < l.length
  · simp [h, List.set_append_left]
  · have h' : l.length ≤ i := by omega
    simp [h, List.set_append_right _ _ h']
    cases hi : i - l.length <;> simp

theorem length_swapRemove (l : List α) (i : ℕ) : (swapRemove l i).length = l.length - 1 := by
  induction l using List.reverseRecOn with
  | nil => rfl
  | append_singleton l last _ =>
    rw [swapRemove_concat]
    split <;> simp

/-- Swapping out position `i` leaves the other elements, in some order. -/
theorem swapRemove_perm {l : List α} {i : ℕ} (hi : i < l.length) :
    (swapRemove l i).Perm (l.eraseIdx i) := by
  induction l using List.reverseRecOn with
  | nil => simp at hi
  | append_singleton l last _ =>
    rw [swapRemove_concat]
    by_cases h : i < l.length
    · rw [if_pos h, List.eraseIdx_append_of_lt_length h]
      exact (List.set_perm_cons_eraseIdx h last).trans
        (List.perm_append_singleton last _).symm
    · have hil : i = l.length := by
        simp at hi
        omega
      rw [if_neg h, List.eraseIdx_append_of_length_le (by omega), hil]
      simp

variable {p : α → Bool} {f : α → α}

theorem map_updateFirst_of_eq {g : α → β} (h : ∀ a, p a = true → g (f a) = g a) (l : List α) :
    (updateFirst p f l).map g = l.map g := by
  induction l with
  | nil => rfl
  | cons a l ih =>
    unfold updateFirst
    split
    next hp => simp [h a hp]
    next hp => simp [ih]

theorem length_updateFirst (p : α → Bool) (f : α → α) (l : List α) :
    (updateFirst p f l).length = l.length := by
  induction l with
  | nil => rfl
  | cons a l ih =>
    unfold updateFirst
    split <;> simp [ih]

/-- An element of the updated array is the updated one or an old one. -/
theorem mem_updateFirst {l : List α} {b : α} (hb : b ∈ updateFirst p f l) :
    b ∈ l ∨ ∃ a ∈ l, p a = true ∧ b = f a := by
  induction l with
  | nil => simp [updateFirst] at hb
  | cons a l ih =>
    unfold updateFirst at hb
    split at hb
    next hp =>
      rcases List.mem_cons.mp hb with rfl | hb
      · exact Or.inr ⟨a, List.mem_cons_self, hp, rfl⟩
      · exact Or.inl (List.mem_cons_of_mem _ hb)
    next hp =>
      rcases List.mem_cons.mp hb with rfl | hb
      · exact Or.inl List.mem_cons_self
      · rcases ih hb with hb | ⟨c, hc, hpc, rfl⟩
        · exact Or.inl (List.mem_cons_of_mem _ hb)
        · exact Or.inr ⟨c, List.mem_cons_of_mem _ hc, hpc, rfl⟩

/-- Elements that fail the test stay. -/
theorem mem_updateFirst_of_not {l : List α} {a : α} (ha : a ∈ l) (hp : p a = false) :
    a ∈ updateFirst p f l := by
  induction l with
  | nil => simp at ha
  | cons b l ih =>
    unfold updateFirst
    rcases List.mem_cons.mp ha with rfl | ha
    · simp [hp]
    · split
      · exact List.mem_cons_of_mem _ ha
      · exact List.mem_cons_of_mem _ (ih ha)

/-- Every element is still there, the updated one in its new form. -/
theorem mem_updateFirst_or {l : List α} {a : α} (ha : a ∈ l) :
    a ∈ updateFirst p f l ∨ (p a = true ∧ f a ∈ updateFirst p f l) := by
  induction l with
  | nil => simp at ha
  | cons b l ih =>
    unfold updateFirst
    split
    next hp =>
      rcases List.mem_cons.mp ha with rfl | ha
      · exact Or.inr ⟨hp, List.mem_cons_self⟩
      · exact Or.inl (List.mem_cons_of_mem _ ha)
    next hp =>
      rcases List.mem_cons.mp ha with rfl | ha
      · exact Or.inl List.mem_cons_self
      · rcases ih ha with h | ⟨h, h'⟩
        · exact Or.inl (List.mem_cons_of_mem _ h)
        · exact Or.inr ⟨h, List.mem_cons_of_mem _ h'⟩

theorem find?_updateFirst (hpf : ∀ a, p a = true → p (f a) = true) (l : List α) :
    (updateFirst p f l).find? p = (l.find? p).map f := by
  induction l with
  | nil => rfl
  | cons a l ih =>
    unfold updateFirst
    split
    next hp => simp [hp, hpf a hp]
    next hp => simp [hp, ih]

end Vec
