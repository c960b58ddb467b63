/-!
# Runs of a state machine

Runs of a machine whose steps are given by a function, conditions on the steps
of a run, and the rule that derives what holds in every state of a run from
what one step preserves.
-/

namespace Runs

variable {σ ε : Type} (step : ε → σ → σ)

/-- The state after a sequence of events. -/
def run : List ε → σ → σ
  | [], s => s
  | e :: events, s => run events (step e s)

theorem run_append (events events' : List ε) (s : σ) :
    run step (events ++ events') s = run step events' (run step events s) := by
  induction events generalizing s with
  | nil => rfl
  | cons e events ih => exact ih (step e s)

/-- Every event of a run meets a condition in the state it finds. -/
def Along (C : ε → σ → Prop) : List ε → σ → Prop
  | [], _ => True
  | e :: events, s => C e s ∧ Along C events (step e s)

instance Along.decidable (C : ε → σ → Prop) [∀ e s, Decidable (C e s)] :
    (events : List ε) → (s : σ) → Decidable (Along step C events s)
  | [], _ => isTrue trivial
  | e :: events, s =>
    have := Along.decidable C events (step e s)
    inferInstanceAs (Decidable (_ ∧ _))

variable {step} {C : ε → σ → Prop} {I : σ → Prop} {events : List ε} {s : σ}

/-- The last event of a run meets the condition in the state that the others lead to. -/
theorem Along.last {e : ε} (h : Along step C (events ++ [e]) s) : C e (run step events s) := by
  induction events generalizing s with
  | nil => exact h.1
  | cons _ events ih => exact ih h.2

theorem Along.and {D : ε → σ → Prop} (h : Along step C events s) (h' : Along step D events s) :
    Along step (fun e s => C e s ∧ D e s) events s := by
  induction events generalizing s with
  | nil => trivial
  | cons _ events ih => exact ⟨⟨h.1, h'.1⟩, ih h.2 h'.2⟩

/-- What every step preserves under a condition holds after every run whose
steps meet the condition. -/
theorem invariant_of_along (hstep : ∀ e s, I s → C e s → I (step e s)) (hs : I s)
    (h : Along step C events s) : I (run step events s) := by
  induction events generalizing s with
  | nil => exact hs
  | cons e events ih =>
    obtain ⟨he, hrest⟩ := h
    exact ih (hstep e s hs he) hrest

/-- What a condition and an invariant give for one step holds of every step of a run. -/
theorem along_of_along {D : ε → σ → Prop} (hstep : ∀ e s, I s → C e s → I (step e s))
    (hD : ∀ e s, I s → C e s → D e s) (hs : I s) (h : Along step C events s) :
    Along step D events s := by
  induction events generalizing s with
  | nil => trivial
  | cons e events ih =>
    obtain ⟨he, hrest⟩ := h
    exact ⟨hD e s hs he, ih (hstep e s hs he) hrest⟩

/-- What every step preserves holds after every run. -/
theorem invariant (hstep : ∀ e s, I s → I (step e s)) (events : List ε) (hs : I s) :
    I (run step events s) := by
  induction events generalizing s with
  | nil => exact hs
  | cons e events ih => exact ih (hstep e s hs)

/-- What an invariant gives for one step holds of every step of a run. -/
theorem along_of_invariant (hstep : ∀ e s, I s → I (step e s)) (hC : ∀ e s, I s → C e s)
    (events : List ε) (hs : I s) : Along step C events s := by
  induction events generalizing s with
  | nil => trivial
  | cons e events ih => exact ⟨hC e s hs, ih (hstep e s hs)⟩

end Runs
