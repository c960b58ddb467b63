import Mathlib.Data.List.Basic
import Mathlib.Order.Nat

/-!
# Lists threaded through a table

Nodes are indices into a table, and each entry names the node after it.  A list is the
nodes from a first one on, either a given number of them or up to a node that has no
successor.  Changes to the entries of other nodes do not change a list.
-/

namespace Threaded

/-- The first `n` nodes from `i` on. -/
def walk (next : ℕ → ℕ) : ℕ → ℕ → List ℕ
  | 0, _ => []
  | n + 1, i => i :: walk next n (next i)

theorem length_walk (next : ℕ → ℕ) (n i : ℕ) : (walk next n i).length = n := by
  induction n generalizing i with
  | zero => rfl
  | succ n ih => rw [walk, List.length_cons, ih]

theorem walk_congr {next next' : ℕ → ℕ} {n i : ℕ}
    (h : ∀ j ∈ walk next n i, next j = next' j) : walk next n i = walk next' n i := by
  induction n generalizing i with
  | zero => rfl
  | succ n ih =>
    rw [walk, List.forall_mem_cons] at h
    rw [walk, walk, ← h.1, ih h.2]

/-- The nodes from `i` on are those of the list, and the last one has no successor. -/
inductive IsChain (succ : ℕ → Option ℕ) : ℕ → List ℕ → Prop
  | last {i : ℕ} (h : succ i = none) : IsChain succ i [i]
  | cons {i j : ℕ} {c : List ℕ} (h : succ i = some j) (hc : IsChain succ j c) :
      IsChain succ i (i :: c)

/-- The nodes from `i` on, at most `n` of them. -/
def follow (succ : ℕ → Option ℕ) : ℕ → ℕ → List ℕ
  | 0, _ => []
  | n + 1, i =>
    i :: match succ i with
      | none => []
      | some j => follow succ n j

theorem length_follow_le (succ : ℕ → Option ℕ) (n i : ℕ) : (follow succ n i).length ≤ n := by
  induction n generalizing i with
  | zero => exact Nat.le_refl _
  | succ n ih =>
    rw [follow, List.length_cons]
    cases succ i with
    | none => exact Nat.succ_le_succ (Nat.zero_le n)
    | some j => exact Nat.succ_le_succ (ih j)

namespace IsChain

variable {succ succ' : ℕ → Option ℕ} {i : ℕ} {c : List ℕ}

theorem length_pos (h : IsChain succ i c) : 0 < c.length := by
  cases h with
  | last => exact Nat.one_pos
  | cons => exact Nat.succ_pos _

theorem head_mem (h : IsChain succ i c) : i ∈ c := by
  cases h with
  | last => exact List.mem_cons_self
  | cons => exact List.mem_cons_self

theorem eq_singleton (h : IsChain succ i c) (hlast : succ i = none) : c = [i] := by
  cases h with
  | last => rfl
  | cons hnext =>
    rw [hlast] at hnext
    cases hnext

theorem follow_eq (h : IsChain succ i c) {n : ℕ} (hn : c.length ≤ n) : follow succ n i = c := by
  induction h generalizing n with
  | last hlast =>
    cases n with
    | zero => simp at hn
    | succ n => rw [follow, hlast]
  | cons hnext _ ih =>
    cases n with
    | zero => simp at hn
    | succ n =>
      rw [follow, hnext]
      exact congrArg _ (ih (Nat.le_of_succ_le_succ hn))

theorem congr (h : IsChain succ i c) (hsame : ∀ j ∈ c, succ j = succ' j) : IsChain succ' i c := by
  induction h with
  | last hlast => exact .last ((hsame _ List.mem_cons_self).symm.trans hlast)
  | cons hnext _ ih =>
    rw [List.forall_mem_cons] at hsame
    exact .cons (hsame.1.symm.trans hnext) (ih hsame.2)

end IsChain

end Threaded
