import Mathlib.Data.Nat.Notation
import Mathlib.Data.List.Basic

/-!
# Stores and write logs

A store maps keys to values; a write log is a list of writes in the order in
which they are carried out.  Applying a log gives every key the value of its
last write: a key that a log does not mention is untouched, and the values
before a log do not matter where the log writes.
-/

namespace WriteLog

variable {κ β : Type} [DecidableEq κ]

/-- The store after one write. -/
def put (d : κ → β) (k : κ) (v : β) : κ → β :=
  fun x => if x = k then v else d x

/-- The store after all writes of a log. -/
def apply (d : κ → β) : List (κ × β) → κ → β
  | [] => d
  | w :: ws => apply (put d w.1 w.2) ws

variable (d : κ → β)

@[simp] theorem put_same (k : κ) (v : β) : put d k v k = v := by
  simp [put]

theorem put_of_ne {k x : κ} (v : β) (h : x ≠ k) : put d k v x = d x := by
  simp [put, h]

@[simp] theorem apply_nil : apply d [] = d := rfl

@[simp] theorem apply_cons (w : κ × β) (ws : List (κ × β)) :
    apply d (w :: ws) = apply (put d w.1 w.2) ws := rfl

theorem apply_append (ws vs : List (κ × β)) :
    apply d (ws ++ vs) = apply (apply d ws) vs := by
  induction ws generalizing d with
  | nil => rfl
  | cons w ws ih => exact ih _

theorem apply_concat (ws : List (κ × β)) (w : κ × β) :
    apply d (ws ++ [w]) = put (apply d ws) w.1 w.2 := by
  rw [apply_append]
  rfl

/-- A key the log does not write keeps its value. -/
theorem apply_of_notMem {d : κ → β} {ws : List (κ × β)} {x : κ}
    (h : ∀ w ∈ ws, w.1 ≠ x) : apply d ws x = d x := by
  induction ws generalizing d with
  | nil => rfl
  | cons w ws ih =>
    rw [apply_cons, ih fun v hv => h v (List.mem_cons_of_mem _ hv)]
    exact put_of_ne d _ (Ne.symm (h w List.mem_cons_self))

/-- A log that writes to every written key the value it has in `d'` takes a
store to `d'` on these keys. -/
theorem apply_of_mem {d d' : κ → β} {ws : List (κ × β)} {x : κ} (hval : ∀ w ∈ ws, w.2 = d' w.1)
    (hx : ∃ w ∈ ws, w.1 = x) : apply d ws x = d' x := by
  induction ws generalizing d with
  | nil => simp at hx
  | cons w ws ih =>
    rw [apply_cons]
    by_cases hmem : ∃ v ∈ ws, v.1 = x
    · exact ih (fun v hv => hval v (List.mem_cons_of_mem _ hv)) hmem
    · have hne : ∀ v ∈ ws, v.1 ≠ x := fun v hv hvx => hmem ⟨v, hv, hvx⟩
      rw [apply_of_notMem hne]
      obtain ⟨v, hv, hvx⟩ := hx
      rcases List.mem_cons.mp hv with rfl | hv
      · rw [← hvx, put_same, hval v List.mem_cons_self]
      · exact absurd hvx (hne v hv)

end WriteLog
