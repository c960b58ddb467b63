import RacOS.Lib.Program

/-!
# Pre- and postconditions of programs

Partial specifications of fallible stateful programs.  A triple gives what
holds when the program returns, which may speak about the value returned, and
what holds in the state that an error leaves behind.  One rule for each way of
building a program reduces a triple to triples of the parts.
-/

namespace Program

variable {ε ε' σ α β : Type}

/-- Started where `P` holds, the program ends with `Q` or fails with `E`. -/
def Triple (P : σ → Prop) (x : EStateM ε σ α) (Q : α → σ → Prop) (E : σ → Prop) : Prop :=
  ∀ s, P s →
    match x s with
    | .ok a s' => Q a s'
    | .error _ s' => E s'

/-- The program keeps a property of the state, whatever its outcome. -/
def Maintains (I : σ → Prop) (x : EStateM ε σ α) : Prop :=
  Triple I x (fun _ => I) I

variable {P P' : σ → Prop} {Q Q' : α → σ → Prop} {E I : σ → Prop}
  {x : EStateM ε σ α} {s : σ}

theorem Triple.final (h : Triple P x (fun _ => I) I) (hs : P s) : I (final x s) := by
  have := h s hs
  unfold Program.final
  cases hx : x s <;> simpa [hx] using this

theorem Maintains.final (h : Maintains I x) (hs : I s) : I (final x s) :=
  Triple.final h hs

/-- A program that keeps `I` may be started wherever `I` holds. -/
theorem Maintains.weaken (h : Maintains I x) (hP : ∀ s, P s → I s) : Triple P x (fun _ => I) I :=
  fun s hs => h s (hP s hs)

/-- A program on a part of the state keeps what follows from what it keeps of the part. -/
theorem Maintains.focus {τ : Type} {J : τ → Prop} {x : EStateM ε τ α} (h : Maintains J x)
    {proj : σ → τ} {put : σ → τ → σ} {conv : ε → ε'} (hproj : ∀ s, I s → J (proj s))
    (hput : ∀ s t, I s → J t → I (put s t)) : Maintains I (focus proj put conv x) := by
  intro s hs
  have hx := h (proj s) (hproj s hs)
  unfold Program.focus
  cases hrun : x (proj s) with
  | ok a t =>
    rw [hrun] at hx
    exact hput s t hs hx
  | error e t =>
    rw [hrun] at hx
    exact hput s t hs hx

namespace Triple

theorem of_final (h : ∀ s, P s → I (Program.final x s)) : Triple P x (fun _ => I) I := by
  intro s hs
  have hfinal := h s hs
  unfold Program.final at hfinal
  cases hx : x s with
  | ok a s' => rwa [hx] at hfinal
  | error e s' => rwa [hx] at hfinal

variable {s' : σ} {e : ε}

theorem of_error (h : Triple P x Q E) (hs : P s) (hx : x s = .error e s') : E s' := by
  simpa [hx] using h s hs

variable {a : α}

theorem of_ok (h : Triple P x Q E) (hs : P s) (hx : x s = .ok a s') : Q a s' := by
  simpa [hx] using h s hs

theorem mono (h : Triple P x Q E) (hP : ∀ s, P' s → P s)
    (hQ : ∀ a s, Q a s → Q' a s) : Triple P' x Q' E := by
  intro s hs
  have := h s (hP s hs)
  cases hx : x s with
  | ok a s' => exact hQ a s' (by simpa [hx] using this)
  | error e s' => simpa [hx] using this

variable {E' : σ → Prop}

theorem mono_error (h : Triple P x Q E) (hE : ∀ s, E s → E' s) : Triple P x Q E' := by
  intro s hs
  have := h s hs
  cases hx : x s with
  | ok a s' => simpa [hx] using this
  | error e s' => exact hE s' (by simpa [hx] using this)

theorem pure (h : ∀ s, P s → Q a s) : Triple P (Pure.pure a : EStateM ε σ α) Q E := h

theorem throw (h : ∀ s, P s → E s) : Triple P (MonadExcept.throw e : EStateM ε σ α) Q E := h

theorem modify {f : σ → σ} {Q : PUnit → σ → Prop} (h : ∀ s, P s → Q ⟨⟩ (f s)) :
    Triple P (modify f : EStateM ε σ PUnit) Q E := h

variable {f : α → EStateM ε σ β} {R : β → σ → Prop}

theorem bind (hx : Triple P x Q E) (hf : ∀ a, Triple (Q a) (f a) R E) : Triple P (x >>= f) R E := by
  intro s hs
  have := hx s hs
  rw [bind_run]
  cases h : x s with
  | ok a s' => exact hf a s' (by simpa [h] using this)
  | error e s' => simpa [h] using this

theorem bind_eq (hx : Triple P x (fun b s => b = a ∧ I s) E) (hf : Triple I (f a) R E) :
    Triple P (x >>= f) R E := by
  apply hx.bind
  rintro _ s ⟨rfl, hs⟩
  exact hf s hs

/-- What is read from the state is fixed for the rest of the program. -/
theorem get_bind {f : σ → EStateM ε σ α}
    (h : ∀ s₀, P s₀ → Triple (fun s => P s ∧ s = s₀) (f s₀) Q E) :
    Triple P (do let s ← get; f s) Q E :=
  fun s hs => h s hs s ⟨hs, rfl⟩

variable {p : Prop}

theorem require_bind [Decidable p] {f : Unit → EStateM ε σ α} (hE : ∀ s, P s → E s)
    (h : p → Triple P (f ()) Q E) : Triple P (require p e >>= f) Q E := by
  intro s hs
  rw [require_bind_run]
  by_cases hp : p
  · rw [if_pos hp]
    exact h hp s hs
  · rw [if_neg hp]
    exact hE s hs

/-- A computation without state that may fail. -/
theorem ofExcept_bind {a : Except ε β} {f : β → EStateM ε σ α} (hE : ∀ s, P s → E s)
    (h : ∀ b, a = .ok b → Triple P (f b) Q E) : Triple P (MonadExcept.ofExcept a >>= f) Q E := by
  cases a with
  | ok b => exact h b rfl
  | error e => exact hE

theorem ite [Decidable p] {y : EStateM ε σ α} (hx : p → Triple P x Q E) (hy : ¬p → Triple P y Q E) :
    Triple P (if p then x else y) Q E := by
  split
  · exact hx ‹_›
  · exact hy ‹_›

theorem ignore (h : Triple P x (fun _ => I) I) :
    Triple P (ignore x : EStateM ε' σ Unit) (fun _ => I) E' := by
  intro s hs
  have := h s hs
  have hrun : Program.ignore x s = (.ok ⟨⟩ (Program.final x s) : EStateM.Result ε' σ Unit) := by
    rw [Program.ignore, bind_run, attempt]
    unfold Program.final
    cases x s <;> rfl
  simp only [hrun]
  unfold Program.final
  cases hx : x s <;> simpa [hx] using this

end Triple

end Program
