import Capsule.Library.Outcome

/-!
# The exceptions of a computation, from any state

`Throws E x` says that whatever the state is in which `x` starts, an exception of `x` satisfies `E`;
nothing is said of what `x` returns.  It is a property of the text of a program: it is kept by
sequencing, by conditionals and by running on a component of a larger state, and needs no invariant.
`Raises` is the same for computations without a state.
-/

set_option autoImplicit false

namespace Capsule.Library

variable {ε σ τ α β : Type} {E : ε → σ → Prop}

/-- An exception of the computation satisfies `E`. -/
def Raises (E : ε → Prop) (x : Except ε α) : Prop := ∀ e, x = .error e → E e

namespace Raises

variable {E : ε → Prop}

/-- A value raises nothing. -/
theorem ok (a : α) : Raises E (.ok a : Except ε α) := fun _ h => by cases h

/-- An exception that is allowed. -/
theorem error {e : ε} (h : E e) : Raises E (.error e : Except ε α) := fun _ he => by
  cases he
  exact h

/-- **Sequencing.** -/
theorem bind {x : Except ε α} {f : α → Except ε β} (hx : Raises E x) (hf : ∀ a, Raises E (f a)) :
    Raises E (x >>= f) := by
  cases hr : x with
  | ok a => exact hf a
  | error e => exact error (hx e hr)

/-- A conditional raises what its branches raise. -/
theorem ite {c : Prop} [Decidable c] {x y : Except ε α} (hx : Raises E x) (hy : Raises E y) :
    Raises E (if c then x else y) := by
  split
  · exact hx
  · exact hy

end Raises

/-- Every exception of the computation satisfies `E`, from any state. -/
def Throws (E : ε → σ → Prop) (x : EStateM ε σ α) : Prop := ∀ s, Outcome (fun _ _ => True) E (x s)

namespace Throws

/-- A value throws nothing. -/
theorem pure (a : α) : Throws E (Pure.pure a : EStateM ε σ α) := fun _ => trivial

/-- A look at the state throws nothing. -/
theorem get : Throws E (MonadState.get : EStateM ε σ σ) := fun _ => trivial

/-- A change of the state throws nothing. -/
theorem modify (g : σ → σ) : Throws E (modify g : EStateM ε σ PUnit) := fun _ => trivial

/-- An exception that is allowed in every state. -/
theorem throw {e : ε} (h : ∀ s, E e s) : Throws E (MonadExcept.throw e : EStateM ε σ α) := h

/-- Running a pure computation. -/
theorem lift {x : Except ε α} (h : Raises (fun e => ∀ s, E e s) x) : Throws E (Library.lift x) := by
  intro s
  cases hx : x with
  | ok a => exact trivial
  | error e => exact h e hx s

/-- **Sequencing.** -/
theorem bind {x : EStateM ε σ α} {f : α → EStateM ε σ β} (hx : Throws E x)
    (hf : ∀ a, Throws E (f a)) : Throws E (x >>= f) :=
  fun s => (hx s).bind (fun _ _ he => he) fun a s' _ => hf a s'

/-- A conditional throws what its branches throw. -/
theorem ite {c : Prop} [Decidable c] {x y : EStateM ε σ α} (hx : Throws E x) (hy : Throws E y) :
    Throws E (if c then x else y) :=
  fun s => Outcome.ite (fun _ => hx s) fun _ => hy s

/-- **Zooming**: what was written back is what the component's computation left. -/
theorem zoom {read : τ → σ} {write : σ → τ → τ} {x : EStateM ε σ α} (hx : Throws E x)
    (hread : ∀ s t, read (write s t) = s) :
    Throws (fun e t => E e (read t)) (Library.zoom read write x) := by
  intro t
  refine (Outcome.zoom (hx (read t))).mono (fun _ _ _ => trivial) ?_
  rintro e _ ⟨s, rfl, he⟩
  rwa [hread]

end Throws

end Capsule.Library
