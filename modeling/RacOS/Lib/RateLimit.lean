import Mathlib.Data.List.Basic
import Mathlib.Order.Basic

/-!
# Rate limits over a sliding window

A limiter keeps the times of recent events.  At every new event it forgets the times that are
further back than its window and writes the new time down; the event is admitted if no more times
than the limit are left then.  For times that do not decrease this bounds the number of admitted
events in every window, and an event is only refused when the window before it is full.
-/

namespace RateLimit

/-- The times kept when an event is recorded. -/
def record (window now : ℕ) (kept : List ℕ) : List ℕ :=
  kept.filter (fun t => now - t ≤ window) ++ [now]

/-- The times of events that were all admitted, with the times kept after them. -/
inductive Admitted (window limit : ℕ) : (kept times : List ℕ) → Prop
  | nil : Admitted window limit [] []
  | snoc {kept times : List ℕ} {now : ℕ} (h : Admitted window limit kept times)
      (hle : (record window now kept).length ≤ limit) :
      Admitted window limit (record window now kept) (times ++ [now])

variable {window limit : ℕ} {kept times : List ℕ} {now : ℕ}

/-- Of the times that still count, none was forgotten. -/
theorem Admitted.filter_eq (h : Admitted window limit kept times) (hlast : ∀ t ∈ times, t ≤ now) :
    kept.filter (fun t => now - t ≤ window) = times.filter (fun t => now - t ≤ window) := by
  induction h generalizing now with
  | nil => rfl
  | @snoc kept times last h _ ih =>
    have hle : last ≤ now := hlast last (by simp)
    have hpast : ∀ t ∈ times, t ≤ now := fun t ht => hlast t (by simp [ht])
    -- what counts now counted at the last event
    have hcount : ∀ t ∈ kept, (decide (now - t ≤ window) && decide (last - t ≤ window)) =
        decide (now - t ≤ window) := by
      intro t _
      by_cases ht : now - t ≤ window
      · have hback : last - t ≤ window := by omega
        simp [ht, hback]
      · simp [ht]
    rw [record, List.filter_append, List.filter_append, List.filter_filter,
      List.filter_congr hcount, ih hpast]

/-- No window has more admitted events than the limit. -/
theorem Admitted.length_window_le (h : Admitted window limit kept times)
    (hmono : times.Pairwise (· ≤ ·)) (start : ℕ) :
    (times.filter fun t => start ≤ t ∧ t ≤ start + window).length ≤ limit := by
  induction h with
  | nil => exact Nat.zero_le _
  | @snoc kept times now h hle ih =>
    obtain ⟨hmono, -, hlast⟩ := List.pairwise_append.mp hmono
    have hlast : ∀ t ∈ times, t ≤ now := fun t ht => hlast t ht now (by simp)
    rw [List.filter_append]
    by_cases hin : start ≤ now ∧ now ≤ start + window
    · -- every time in the window still counts at its last event
      have hsub : (times.filter fun t => start ≤ t ∧ t ≤ start + window).Sublist
          (times.filter fun t => now - t ≤ window) := by
        apply List.monotone_filter_right
        intro t ht
        rw [decide_eq_true_eq] at ht ⊢
        omega
      have hlen := hsub.length_le
      rw [record, h.filter_eq hlast, List.length_append, List.length_singleton] at hle
      rw [List.length_append]
      have hone : ([now].filter fun t => start ≤ t ∧ t ≤ start + window).length ≤ 1 :=
        List.length_filter_le _ _
      omega
    · rw [List.filter_cons_of_neg (by simpa using hin), List.filter_nil, List.append_nil]
      exact ih hmono

/-- Before the first event that is refused the window is full. -/
theorem Admitted.le_length_of_refused (h : Admitted window limit kept times)
    (hlast : ∀ t ∈ times, t ≤ now) (hrefused : limit < (record window now kept).length) :
    limit ≤ (times.filter fun t => now - window ≤ t ∧ t ≤ now).length := by
  rw [record, h.filter_eq hlast, List.length_append, List.length_singleton] at hrefused
  have hsame : times.filter (fun t => now - t ≤ window) =
      times.filter fun t => now - window ≤ t ∧ t ≤ now := by
    apply List.filter_congr
    intro t ht
    have := hlast t ht
    rw [decide_eq_decide]
    omega
  rw [hsame] at hrefused
  exact Nat.le_of_lt_succ hrefused

end RateLimit
