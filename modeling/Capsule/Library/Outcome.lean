import Mathlib

/-!
# Outcomes of computations that keep their state on an exception

A computation in `EStateM ε σ` ends either with a value or with an exception, and in both
cases it leaves a state behind: whatever was assigned before a `throw` stays assigned.
`Outcome Q E r` says that the result `r` is a value satisfying `Q` or an exception
satisfying `E`; both postconditions speak of the final state.

The rules below are the ones needed to run through a program by hand: consequence,
sequencing, a conditional, and `zoom`, which runs a computation on a component of a larger
state and leaves the rest of that state untouched.
-/

set_option autoImplicit false

namespace Capsule.Library

variable {ε σ τ α β : Type}

/-- The result is a value satisfying `Q` or an exception satisfying `E`. -/
def Outcome (Q : α → σ → Prop) (E : ε → σ → Prop) : EStateM.Result ε σ α → Prop
  | .ok a s => Q a s
  | .error e s => E e s

/-- A value satisfies the first postcondition. -/
@[simp] theorem outcome_ok (Q : α → σ → Prop) (E : ε → σ → Prop) (a : α) (s : σ) :
    Outcome Q E (.ok a s) ↔ Q a s := Iff.rfl

/-- An exception satisfies the second postcondition. -/
@[simp] theorem outcome_error (Q : α → σ → Prop) (E : ε → σ → Prop) (e : ε) (s : σ) :
    Outcome Q E (.error e s) ↔ E e s := Iff.rfl

/-- On a result at hand, decidable postconditions can be checked. -/
instance decidableOutcome (Q : α → σ → Prop) (E : ε → σ → Prop) [∀ a s, Decidable (Q a s)]
    [∀ e s, Decidable (E e s)] : (r : EStateM.Result ε σ α) → Decidable (Outcome Q E r)
  | .ok a s => inferInstanceAs (Decidable (Q a s))
  | .error e s => inferInstanceAs (Decidable (E e s))

namespace Outcome

/-- **Consequence**: both postconditions may be weakened. -/
theorem mono {Q Q' : α → σ → Prop} {E E' : ε → σ → Prop} {r : EStateM.Result ε σ α}
    (h : Outcome Q E r) (hQ : ∀ a s, Q a s → Q' a s) (hE : ∀ e s, E e s → E' e s) :
    Outcome Q' E' r := by
  cases r with
  | ok a s => exact hQ a s h
  | error e s => exact hE e s h

/-- Two facts about one result hold together. -/
theorem and {Q Q' : α → σ → Prop} {E E' : ε → σ → Prop} {r : EStateM.Result ε σ α}
    (h : Outcome Q E r) (h' : Outcome Q' E' r) :
    Outcome (fun a s => Q a s ∧ Q' a s) (fun e s => E e s ∧ E' e s) r := by
  cases r with
  | ok a s => exact ⟨h, h'⟩
  | error e s => exact ⟨h, h'⟩

/-- A result is what it is: this keeps the equation at hand through a sequence of steps. -/
theorem self (r : EStateM.Result ε σ α) :
    Outcome (fun a s => r = .ok a s) (fun e s => r = .error e s) r := by
  cases r <;> exact rfl

/-- A value. -/
theorem pure {Q : α → σ → Prop} {E : ε → σ → Prop} {a : α} {s : σ} (h : Q a s) :
    Outcome Q E ((Pure.pure a : EStateM ε σ α) s) := h

/-- An exception. -/
theorem throw {Q : α → σ → Prop} {E : ε → σ → Prop} {e : ε} {s : σ} (h : E e s) :
    Outcome Q E ((MonadExcept.throw e : EStateM ε σ α) s) := h

/-- **Sequencing**: the second computation runs from the state the first one left, and an
exception of the first is an exception of the whole. -/
theorem bind {Q : α → σ → Prop} {R : β → σ → Prop} {E E' : ε → σ → Prop}
    {x : EStateM ε σ α} {f : α → EStateM ε σ β} {s : σ} (hx : Outcome Q E (x s))
    (hE : ∀ e s', E e s' → E' e s') (hf : ∀ a s', Q a s' → Outcome R E' (f a s')) :
    Outcome R E' ((x >>= f) s) := by
  show Outcome R E' (EStateM.bind x f s)
  unfold EStateM.bind
  cases hr : x s with
  | ok a s' =>
    rw [hr] at hx
    exact hf a s' hx
  | error e s' =>
    rw [hr] at hx
    exact hE e s' hx

/-- A look at the state. -/
theorem get_bind {R : β → σ → Prop} {E : ε → σ → Prop} {f : σ → EStateM ε σ β} {s : σ}
    (h : Outcome R E (f s s)) : Outcome R E ((MonadState.get >>= f) s) := h

/-- A change of the state. -/
theorem modify_bind {R : β → σ → Prop} {E : ε → σ → Prop} {g : σ → σ}
    {f : PUnit → EStateM ε σ β} {s : σ} (h : Outcome R E (f ⟨⟩ (g s))) :
    Outcome R E ((modify g >>= f) s) := h

/-- A conditional. -/
theorem ite {Q : α → σ → Prop} {E : ε → σ → Prop} {c : Prop} [Decidable c]
    {x y : EStateM ε σ α} {s : σ} (hx : c → Outcome Q E (x s)) (hy : ¬ c → Outcome Q E (y s)) :
    Outcome Q E ((if c then x else y) s) := by
  split
  · exact hx ‹_›
  · exact hy ‹_›

/-- What is known of a computation that returns. -/
theorem of_ok {Q : α → σ → Prop} {E : ε → σ → Prop} {r : EStateM.Result ε σ α} {a : α} {s : σ}
    (h : Outcome Q E r) (hr : r = .ok a s) : Q a s := by
  rw [hr] at h
  exact h

/-- What is known of a computation that throws. -/
theorem of_error {Q : α → σ → Prop} {E : ε → σ → Prop} {r : EStateM.Result ε σ α} {e : ε} {s : σ}
    (h : Outcome Q E r) (hr : r = .error e s) : E e s := by
  rw [hr] at h
  exact h

end Outcome

/-- Run `x` on the component `read t` of the state `t`, writing its final state back with
`write`, also when `x` throws. -/
def zoom (read : τ → σ) (write : σ → τ → τ) (x : EStateM ε σ α) : EStateM ε τ α := fun t =>
  match x (read t) with
  | .ok a s => .ok a (write s t)
  | .error e s => .error e (write s t)

/-- **Zooming**: what holds of the component's computation holds of the larger state with the
component written back. -/
theorem Outcome.zoom {Q : α → σ → Prop} {E : ε → σ → Prop} {read : τ → σ} {write : σ → τ → τ}
    {x : EStateM ε σ α} {t : τ} (h : Outcome Q E (x (read t))) :
    Outcome (fun a t' => ∃ s, t' = write s t ∧ Q a s) (fun e t' => ∃ s, t' = write s t ∧ E e s)
      (Library.zoom read write x t) := by
  unfold Library.zoom
  cases hx : x (read t) with
  | ok a s =>
    rw [hx] at h
    exact ⟨s, rfl, h⟩
  | error e s =>
    rw [hx] at h
    exact ⟨s, rfl, h⟩

/-- Run `x`, with other names for its exceptions. -/
def mapError {ε' : Type} (f : ε → ε') (x : EStateM ε σ α) : EStateM ε' σ α := fun s =>
  match x s with
  | .ok a s' => .ok a s'
  | .error e s' => .error (f e) s'

/-- Renaming exceptions does not change a value. -/
theorem mapError_pure {ε' : Type} (f : ε → ε') (a : α) :
    Library.mapError f (pure a : EStateM ε σ α) = pure a := rfl

/-- Renaming exceptions of a sequence renames those of its parts. -/
theorem mapError_bind {ε' : Type} (f : ε → ε') (x : EStateM ε σ α) (k : α → EStateM ε σ β) :
    Library.mapError f (x >>= k) = Library.mapError f x >>= fun a => Library.mapError f (k a) := by
  funext s
  show Library.mapError f (EStateM.bind x k) s =
    EStateM.bind (Library.mapError f x) (fun a => Library.mapError f (k a)) s
  unfold Library.mapError EStateM.bind
  cases hx : x s <;> simp only [hx]

/-- The outcome under other names of the exceptions. -/
theorem Outcome.mapError {ε' : Type} {Q : α → σ → Prop} {E : ε → σ → Prop} {f : ε → ε'}
    {x : EStateM ε σ α} {s : σ} (h : Outcome Q E (x s)) :
    Outcome Q (fun e' s' => ∃ e, e' = f e ∧ E e s') (Library.mapError f x s) := by
  unfold Library.mapError
  cases hx : x s with
  | ok a s' => exact h.of_ok hx
  | error e s' => exact ⟨e, rfl, h.of_error hx⟩

/-- Run a pure computation that may throw inside a stateful one. -/
def lift (x : Except ε α) : EStateM ε σ α := fun s =>
  match x with
  | .ok a => .ok a s
  | .error e => .error e s

/-- A pure computation that returns leaves the state alone. -/
@[simp] theorem lift_ok (a : α) (s : σ) : (lift (.ok a) : EStateM ε σ α) s = .ok a s := rfl

/-- A pure computation that throws leaves the state alone. -/
@[simp] theorem lift_error (e : ε) (s : σ) :
    (lift (.error e : Except ε α) : EStateM ε σ α) s = .error e s := rfl

/-- A pure computation that returns, in front of another. -/
theorem Outcome.lift_bind {R : β → σ → Prop} {E : ε → σ → Prop} {a : α} {f : α → EStateM ε σ β}
    {s : σ} (h : Outcome R E (f a s)) : Outcome R E ((lift (.ok a) >>= f) s) := h

end Capsule.Library
