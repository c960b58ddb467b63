import RacOS.Lib.Program

/-!
# Outcomes of programs in one state

Total specifications of fallible stateful programs, one state at a time: what holds of the
value and the state when the program returns, and what holds of the error when it fails.
-/

namespace Program

variable {ε σ α β : Type}

/-- Run in `s`, the program returns with `Q` or fails with an error in `E`. -/
def Ends (x : EStateM ε σ α) (s : σ) (Q : α → σ → Prop) (E : ε → Prop) : Prop :=
  match x s with
  | .ok a s' => Q a s'
  | .error e _ => E e

namespace Ends

variable {x : EStateM ε σ α} {s : σ} {Q Q' : α → σ → Prop} {E E' : ε → Prop}

theorem of_ok {a : α} {s' : σ} (h : x s = .ok a s') (hQ : Q a s') : Ends x s Q E := by
  rw [Ends, h]
  exact hQ

theorem of_error {e : ε} {s' : σ} (h : x s = .error e s') (hE : E e) : Ends x s Q E := by
  rw [Ends, h]
  exact hE

theorem mono (h : Ends x s Q E) (hQ : ∀ a s', Q a s' → Q' a s') (hE : ∀ e, E e → E' e) :
    Ends x s Q' E' := by
  unfold Ends at h ⊢
  cases hx : x s with
  | ok a s' => exact hQ a s' (by simpa [hx] using h)
  | error e s' => exact hE e (by simpa [hx] using h)

theorem pure {a : α} (h : Q a s) : Ends (Pure.pure a) s Q E := h

theorem throw {e : ε} (h : E e) : Ends (MonadExcept.throw e : EStateM ε σ α) s Q E := h

theorem bind {f : α → EStateM ε σ β} {R : β → σ → Prop} (hx : Ends x s Q E)
    (hf : ∀ a s', Q a s' → Ends (f a) s' R E) : Ends (x >>= f) s R E := by
  unfold Ends at hx
  cases h : x s with
  | ok a s' =>
    have hQ : Q a s' := by simpa [h] using hx
    unfold Ends at hf ⊢
    rw [bind_of_ok h]
    exact hf a s' hQ
  | error e s' =>
    refine of_error (bind_of_error h) ?_
    simpa [h] using hx

theorem get_bind {f : σ → EStateM ε σ α} (h : Ends (f s) s Q E) :
    Ends (do let s ← get; f s) s Q E := h

theorem require_bind {p : Prop} [Decidable p] {e : ε} {f : Unit → EStateM ε σ α}
    (hfail : ¬p → E e) (hok : p → Ends (f ()) s Q E) : Ends (require p e >>= f) s Q E := by
  by_cases hp : p
  · unfold Ends at hok ⊢
    rw [bind_of_ok (require_ok_iff.mpr ⟨hp, rfl⟩)]
    exact hok hp
  · exact of_error (bind_of_error (require_error_iff.mpr ⟨hp, rfl, rfl⟩)) (hfail hp)

end Ends

end Program
