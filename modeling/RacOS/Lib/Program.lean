import Mathlib.Algebra.GroupWithZero.Nat
import Mathlib.Data.Nat.Notation
import Mathlib.Logic.Relation

/-!
# Fallible stateful programs

Programs of type `EStateM ε σ α` keep the state they reached when they fail,
as imperative code with early returns does.  This module collects the
inversion lemmas by which a run of a composed program is taken apart, a few
combinators, and the closure principle for programs generated by a set of
primitive steps: a preorder on states that every primitive respects is
respected by every program built from them.
-/

/-- How a call can end without a value: with an error that is handed to the
caller, or in a panic that stops the system. -/
inductive Failure (ε : Type)
  | error (e : ε)
  | panic
  deriving DecidableEq

namespace Program

variable {ε ε' σ τ α β : Type}

/-! ## Combinators -/

/-- Fail with `e` unless `p` holds. -/
def require (p : Prop) [Decidable p] (e : ε) : EStateM ε σ Unit :=
  if p then pure () else throw e

/-- Run `x` and hand its outcome to the caller; the state is kept either way. -/
def attempt (x : EStateM ε σ α) : EStateM ε' σ (Except ε α) := fun s =>
  match x s with
  | .ok a s' => .ok (.ok a) s'
  | .error e s' => .ok (.error e) s'

/-- Run `x` and go on whatever its outcome. -/
def ignore (x : EStateM ε σ α) : EStateM ε' σ Unit := do
  let _ ← attempt x

/-- Run `x` on one component of the state, converting its errors. -/
def focus (proj : σ → τ) (put : σ → τ → σ) (conv : ε → ε')
    (x : EStateM ε τ α) : EStateM ε' σ α := fun s =>
  match x (proj s) with
  | .ok a t => .ok a (put s t)
  | .error e t => .error (conv e) (put s t)

/-- Hand on the outcome of a computation that touches no state. -/
def ofExcept : Except ε α → EStateM (Failure ε) σ α
  | .ok a => pure a
  | .error e => throw (.error e)

/-- The outcome of a run, without the state it ends in. -/
def outcome (x : EStateM ε σ α) (s : σ) : Except ε α :=
  match x s with
  | .ok a _ => .ok a
  | .error e _ => .error e

/-- The state in which a run ends, whatever its outcome. -/
def final (x : EStateM ε σ α) (s : σ) : σ :=
  match x s with
  | .ok _ s' => s'
  | .error _ s' => s'

/-! ## Taking runs apart -/

variable {s s' : σ}

theorem pure_ok_iff {a b : α} : (pure a : EStateM ε σ α) s = .ok b s' ↔ a = b ∧ s = s' := by
  change EStateM.Result.ok a s = .ok b s' ↔ _
  simp

variable {e : ε}

theorem throw_ok_iff {b : α} : (throw e : EStateM ε σ α) s = .ok b s' ↔ False := by
  change EStateM.Result.error e s = .ok b s' ↔ _
  simp

variable {x : EStateM ε σ α}

/-- A search that ends with a sought value, or fails when there is none, is exact. -/
theorem exact_of_search {P : α → Prop}
    (h : (∃ a s', x s = .ok a s' ∧ P a) ∨ ∃ e s', x s = .error e s' ∧ ∀ a, ¬P a) :
    (∀ a s', x s = .ok a s' → P a) ∧ ((∃ a s', x s = .ok a s') ↔ ∃ a, P a) := by
  rcases h with ⟨a, s', hrun, ha⟩ | ⟨e, s', hrun, hnone⟩
  · refine ⟨fun b s'' hb => ?_, iff_of_true ⟨a, s', hrun⟩ ⟨a, ha⟩⟩
    obtain ⟨rfl, -⟩ := EStateM.Result.ok.inj (hrun.symm.trans hb)
    exact ha
  · have hfails : ∀ b s'', x s ≠ .ok b s'' := by simp [hrun]
    exact ⟨fun b s'' hb => absurd hb (hfails b s''),
      iff_of_false (fun ⟨b, s'', hb⟩ => hfails b s'' hb) fun ⟨a, ha⟩ => hnone a ha⟩

theorem bind_run (x : EStateM ε σ α) (f : α → EStateM ε σ β) (s : σ) :
    (x >>= f) s =
      match x s with
      | .ok a s' => f a s'
      | .error e s' => .error e s' := rfl

variable {f : α → EStateM ε σ β}

theorem bind_ok_iff {s s'' : σ} {b : β} :
    (x >>= f) s = .ok b s'' ↔ ∃ a s', x s = .ok a s' ∧ f a s' = .ok b s'' := by
  rw [bind_run]
  cases x s <;> simp [and_assoc]

theorem bind_error_iff {s s'' : σ} :
    (x >>= f) s = .error e s'' ↔
      x s = .error e s'' ∨ ∃ a s', x s = .ok a s' ∧ f a s' = .error e s'' := by
  rw [bind_run]
  cases x s <;> simp [and_assoc]

variable {a : α}

theorem bind_of_ok (h : x s = .ok a s') : (x >>= f) s = f a s' := by
  rw [bind_run, h]

theorem bind_of_error (h : x s = .error e s') : (x >>= f) s = .error e s' := by
  rw [bind_run, h]

theorem get_bind_run (f : σ → EStateM ε σ α) (s : σ) :
    (do let s ← get; f s : EStateM ε σ α) s = f s s := rfl

theorem modify_bind_run (f : σ → σ) (g : PUnit → EStateM ε σ α) (s : σ) :
    (modify f >>= g) s = g ⟨⟩ (f s) := rfl

theorem require_bind_run (p : Prop) [Decidable p] (e : ε) (f : Unit → EStateM ε σ α) (s : σ) :
    (require p e >>= f) s = if p then f () s else .error e s := by
  by_cases hp : p
  · simp only [require, hp, if_true]
    rfl
  · simp only [require, hp, if_false]
    rfl

variable {p : Prop}

theorem require_ok_iff [Decidable p] {u : Unit} :
    (require p e : EStateM ε σ Unit) s = .ok u s' ↔ p ∧ s = s' := by
  unfold require
  split <;> rename_i hp
  · rw [pure_ok_iff]
    simp [hp]
  · rw [throw_ok_iff]
    simp [hp]

theorem require_error_iff [Decidable p] {e e' : ε} :
    (require p e : EStateM ε σ Unit) s = .error e' s' ↔ ¬p ∧ e = e' ∧ s = s' := by
  unfold require
  split <;> rename_i hp
  · change EStateM.Result.ok _ _ = _ ↔ _
    simp [hp]
  · change EStateM.Result.error e s = _ ↔ _
    simp [hp]

theorem ofExcept_bind_run (x : Except ε α) (f : α → EStateM (Failure ε) σ β) (s : σ) :
    (ofExcept x >>= f) s =
      match x with
      | .ok a => f a s
      | .error e => .error (.error e) s := by
  cases x <;> rfl

theorem focus_ok_iff {proj : σ → τ} {put : σ → τ → σ} {conv : ε → ε'} {x : EStateM ε τ α} :
    focus proj put conv x s = .ok a s' ↔ ∃ t, x (proj s) = .ok a t ∧ s' = put s t := by
  unfold focus
  cases x (proj s) <;> grind

theorem focus_error_iff {proj : σ → τ} {put : σ → τ → σ} {conv : ε → ε'} {x : EStateM ε τ α}
    {e' : ε'} :
    focus proj put conv x s = .error e' s' ↔
      ∃ e t, x (proj s) = .error e t ∧ e' = conv e ∧ s' = put s t := by
  unfold focus
  cases x (proj s) <;> grind

theorem attempt_of_ok (h : x s = .ok a s') :
    (attempt x : EStateM ε' σ (Except ε α)) s = .ok (.ok a) s' := by
  unfold attempt
  rw [h]

theorem attempt_of_error (h : x s = .error e s') :
    (attempt x : EStateM ε' σ (Except ε α)) s = .ok (.error e) s' := by
  unfold attempt
  rw [h]

/-! ## Computations without state -/

theorem except_bind_ok_iff {x : Except ε α} {f : α → Except ε β} {b : β} :
    (x >>= f) = .ok b ↔ ∃ a, x = .ok a ∧ f a = .ok b := by
  cases x with
  | ok a =>
    change f a = .ok b ↔ _
    simp
  | error e =>
    change Except.error e = .ok b ↔ _
    simp

theorem except_bind_congr {x : Except ε α} {f g : α → Except ε β}
    (h : ∀ a, x = .ok a → f a = g a) : (x >>= f) = (x >>= g) := by
  cases x with
  | ok a => exact h a rfl
  | error e => rfl

/-! ## Outcomes and final states -/

theorem run_of_outcome (h : outcome x s = .ok a) : x s = .ok a (final x s) := by
  unfold outcome at h
  unfold final
  cases hx : x s with
  | ok b s' =>
    simp only [hx, Except.ok.injEq] at h
    rw [h]
  | error e s' => simp [hx] at h

theorem final_of_ok (h : x s = .ok a s') : final x s = s' := by
  simp [final, h]

theorem final_of_error (h : x s = .error e s') : final x s = s' := by
  simp [final, h]

theorem final_congr {x y : EStateM ε σ α} {s t : σ} (h : x s = y t) : final x s = final y t := by
  simp [final, h]

@[simp] theorem final_pure (a : α) (s : σ) : final (pure a : EStateM ε σ α) s = s := rfl

@[simp] theorem final_throw (e : ε) (s : σ) : final (throw e : EStateM ε σ α) s = s := rfl

@[simp] theorem final_modify (f : σ → σ) (s : σ) :
    final (modify f : EStateM ε σ PUnit) s = f s := rfl

theorem final_bind (x : EStateM ε σ α) (f : α → EStateM ε σ β) (s : σ) :
    final (x >>= f) s =
      match x s with
      | .ok a s' => final (f a) s'
      | .error _ s' => s' := by
  cases h : x s with
  | ok a s' => simp [final, bind_of_ok h]
  | error e s' => simp [final, bind_of_error h]

theorem final_ofExcept_bind (x : Except ε α) (f : α → EStateM (Failure ε) σ β) (s : σ) :
    final (ofExcept x >>= f) s =
      match x with
      | .ok a => final (f a) s
      | .error _ => s := by
  cases x <;> rfl

theorem final_bind_pure (x : EStateM ε σ α) (f : α → β) (s : σ) :
    final (do let a ← x; pure (f a)) s = final x s := by
  rw [final_bind]
  unfold final
  cases x s <;> rfl

theorem final_require_bind (p : Prop) [Decidable p] (e : ε) (x : EStateM ε σ α) (s : σ) :
    final (do require p e; x) s = if p then final x s else s := by
  rw [final_bind, require]
  by_cases hp : p
  · rw [if_pos hp, if_pos hp]
    rfl
  · rw [if_neg hp, if_neg hp]
    rfl

/-- A guard that refuses leaves the state. -/
theorem final_require_rule {P : σ → Prop} [Decidable p] (hs : P s) (h : p → P (final x s)) :
    P (final (do require p e; x) s) := by
  rw [final_require_bind]
  split
  · rename_i hp
    exact h hp
  · exact hs

@[simp] theorem final_attempt (x : EStateM ε σ α) (s : σ) :
    final (attempt x : EStateM ε' σ (Except ε α)) s = final x s := by
  unfold final attempt
  cases x s <;> rfl

/-! ## Programs generated by primitive steps -/

/-- Programs built from the primitives `P` by sequencing, by catching errors
and by reading the state; what is read may be assumed to satisfy `I`. -/
inductive Generated (I : σ → Prop) (P : (α : Type) → EStateM ε σ α → Prop) :
    (α : Type) → EStateM ε σ α → Prop
  | prim {α : Type} {x : EStateM ε σ α} (h : P α x) : Generated I P α x
  | pure {α : Type} (a : α) : Generated I P α (pure a)
  | throw {α : Type} (e : ε) : Generated I P α (throw e)
  | bind {α β : Type} {x : EStateM ε σ α} {f : α → EStateM ε σ β}
      (hx : Generated I P α x) (hf : ∀ a, Generated I P β (f a)) : Generated I P β (x >>= f)
  | attempt {α : Type} {x : EStateM ε σ α} (hx : Generated I P α x) :
      Generated I P (Except ε α) (attempt x)
  | read {α : Type} {f : σ → EStateM ε σ α}
      (hf : ∀ s, I s → Generated I P α (f s)) : Generated I P α (fun s => f s s)

namespace Generated

variable {I : σ → Prop} {P Q : (α : Type) → EStateM ε σ α → Prop}

theorem require (p : Prop) [Decidable p] (e : ε) : Generated I P Unit (require p e) := by
  unfold Program.require
  split
  · exact .pure ()
  · exact .throw e

theorem get_bind {f : σ → EStateM ε σ α} (hf : ∀ s, I s → Generated I P α (f s)) :
    Generated I P α (do let s ← get; f s) := by
  change Generated I P α (fun s => f s s)
  exact .read hf

theorem require_bind [Decidable p] {f : Unit → EStateM ε σ α} (hf : p → Generated I P α (f ())) :
    Generated I P α (Program.require p e >>= f) := by
  unfold Program.require
  by_cases hp : p
  · rw [if_pos hp]
    exact .bind (.pure ()) fun _ => hf hp
  · rw [if_neg hp]
    change Generated I P α (MonadExcept.throw e)
    exact .throw e

theorem ofExcept_bind {P : (α : Type) → EStateM (Failure ε) σ α → Prop} {x : Except ε α}
    {f : α → EStateM (Failure ε) σ β} (hf : ∀ a, x = .ok a → Generated I P β (f a)) :
    Generated I P β (ofExcept x >>= f) := by
  cases x with
  | ok a =>
    change Generated I P β (f a)
    exact hf a rfl
  | error e =>
    change Generated I P β (MonadExcept.throw (Failure.error e))
    exact .throw _

theorem ofExcept (a : Except ε α) : Generated I P α (MonadExcept.ofExcept a) := by
  cases a with
  | ok a => exact .pure a
  | error e => exact .throw e

theorem mono {J : σ → Prop} (hJI : ∀ s, J s → I s)
    (hPQ : ∀ (α : Type) (x : EStateM ε σ α), P α x → Q α x) (h : Generated I P α x) :
    Generated J Q α x := by
  induction h with
  | prim h => exact .prim (hPQ _ _ h)
  | pure a => exact .pure a
  | throw e => exact .throw e
  | bind _ _ ihx ihf => exact .bind ihx ihf
  | attempt _ ih => exact .attempt ih
  | read _ ih => exact .read fun s hs => ih s (hJI s hs)

/-- A preorder respected by every primitive is respected by every generated
program, and the invariant `I` is kept along the way. -/
theorem final_rel {R : σ → σ → Prop} (hrefl : ∀ s, R s s)
    (htrans : ∀ {a b c}, R a b → R b c → R a c) (hprim : ∀ (α : Type) (x : EStateM ε σ α), P α x →
      ∀ s, I s → I (final x s) ∧ R s (final x s)) (h : Generated I P α x) :
    ∀ s, I s → I (final x s) ∧ R s (final x s) := by
  induction h with
  | prim h => exact hprim _ _ h
  | pure a => exact fun s hs => ⟨hs, hrefl s⟩
  | throw e => exact fun s hs => ⟨hs, hrefl s⟩
  | @bind α β x f _ _ ihx ihf =>
    intro s hs
    have hx := ihx s hs
    rw [final_bind]
    cases hr : x s with
    | ok a s' =>
      rw [final_of_ok hr] at hx
      have hf := ihf a s' hx.1
      exact ⟨hf.1, htrans hx.2 hf.2⟩
    | error e s' =>
      rwa [final_of_error hr] at hx
  | attempt _ ih =>
    intro s hs
    rw [final_attempt]
    exact ih s hs
  | @read α f _ ih => exact fun s hs => ih s hs s hs

end Generated

end Program
