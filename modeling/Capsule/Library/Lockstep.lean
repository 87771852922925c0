import Capsule.Library.Outcome

/-!
# Two computations in lockstep

`Lockstep ignored R r r'` compares the results of two computations that are meant to do the same
on different representations: if both return, their values and final states are related by `R`, and
otherwise both throw the same exception.  Exceptions that are `ignored`, such as those of a
device that either side may see on its own, excuse both sides.

The rules follow those of `Outcome`: consequence, sequencing, a conditional on which both sides
agree, and running both computations on a component of a larger state.  A computation that both
sides run can also be known by an `Outcome` on each side (`Lockstep.of_outcomes`).
-/

set_option autoImplicit false

namespace Capsule.Library

variable {ε σ σ' τ τ' α α' β β' : Type}

/-- Both results are values related by `R`, or the same exception, unless one of them is an ignored
exception. -/
def Lockstep (ignored : ε → Prop) (R : α → σ → α' → σ' → Prop) :
    EStateM.Result ε σ α → EStateM.Result ε σ' α' → Prop
  | .ok a s, .ok a' s' => R a s a' s'
  | .ok _ _, .error e' _ => ignored e'
  | .error e _, .ok _ _ => ignored e
  | .error e _, .error e' _ => e = e' ∨ ignored e ∨ ignored e'

namespace Lockstep

variable {ignored : ε → Prop}

/-- **Consequence.** -/
theorem mono {R R' : α → σ → α' → σ' → Prop} {r : EStateM.Result ε σ α}
    {r' : EStateM.Result ε σ' α'} (h : Lockstep ignored R r r')
    (hR : ∀ a s a' s', R a s a' s' → R' a s a' s') : Lockstep ignored R' r r' := by
  cases r <;> cases r' <;> first | exact hR _ _ _ _ h | exact h

/-- Two values that are related. -/
theorem pure {R : α → σ → α' → σ' → Prop} {a : α} {a' : α'} {s : σ} {s' : σ'}
    (h : R a s a' s') : Lockstep ignored R ((Pure.pure a : EStateM ε σ α) s)
      ((Pure.pure a' : EStateM ε σ' α') s') := h

/-- The same exception on both sides. -/
theorem throw {R : α → σ → α' → σ' → Prop} {e : ε} {s : σ} {s' : σ'} :
    Lockstep ignored R ((MonadExcept.throw e : EStateM ε σ α) s)
      ((MonadExcept.throw e : EStateM ε σ' α') s') := Or.inl rfl

/-- **Sequencing.** -/
theorem bind {Q : α → σ → α' → σ' → Prop} {R : β → σ → β' → σ' → Prop}
    {x : EStateM ε σ α} {x' : EStateM ε σ' α'} {f : α → EStateM ε σ β} {f' : α' → EStateM ε σ' β'}
    {s : σ} {s' : σ'} (hx : Lockstep ignored Q (x s) (x' s'))
    (hf : ∀ a t a' t', Q a t a' t' → Lockstep ignored R (f a t) (f' a' t')) :
    Lockstep ignored R ((x >>= f) s) ((x' >>= f') s') := by
  show Lockstep ignored R (EStateM.bind x f s) (EStateM.bind x' f' s')
  unfold EStateM.bind
  cases hr : x s with
  | ok a t =>
    cases hr' : x' s' with
    | ok a' t' =>
      rw [hr, hr'] at hx
      exact hf a t a' t' hx
    | error e' t' =>
      -- the other side threw an ignored exception
      rw [hr, hr'] at hx
      simp only
      cases f a t with
      | ok b u => exact hx
      | error e u => exact Or.inr (Or.inr hx)
  | error e t =>
    cases hr' : x' s' with
    | ok a' t' =>
      rw [hr, hr'] at hx
      simp only
      cases f' a' t' with
      | ok b u => exact hx
      | error e' u => exact Or.inr (Or.inl hx)
    | error e' t' =>
      rw [hr, hr'] at hx
      exact hx

/-- A look at both states. -/
theorem get_bind {R : β → σ → β' → σ' → Prop} {f : σ → EStateM ε σ β} {f' : σ' → EStateM ε σ' β'}
    {s : σ} {s' : σ'} (h : Lockstep ignored R (f s s) (f' s' s')) :
    Lockstep ignored R ((MonadState.get >>= f) s) ((MonadState.get >>= f') s') := h

/-- A change of both states. -/
theorem modify_bind {R : β → σ → β' → σ' → Prop} {g : σ → σ} {g' : σ' → σ'}
    {f : PUnit → EStateM ε σ β} {f' : PUnit → EStateM ε σ' β'} {s : σ} {s' : σ'}
    (h : Lockstep ignored R (f ⟨⟩ (g s)) (f' ⟨⟩ (g' s'))) :
    Lockstep ignored R ((modify g >>= f) s) ((modify g' >>= f') s') := h

/-- A conditional on which both sides agree. -/
theorem ite {R : α → σ → α' → σ' → Prop} {c c' : Prop} [Decidable c] [Decidable c']
    {x y : EStateM ε σ α} {x' y' : EStateM ε σ' α'} {s : σ} {s' : σ'} (hc : c' ↔ c)
    (hx : c → Lockstep ignored R (x s) (x' s')) (hy : ¬ c → Lockstep ignored R (y s) (y' s')) :
    Lockstep ignored R ((if c then x else y) s) ((if c' then x' else y') s') := by
  by_cases h : c
  · rw [if_pos h, if_pos (hc.mpr h)]
    exact hx h
  · rw [if_neg h, if_neg (mt hc.mp h)]
    exact hy h

/-- Two computations that are known one by one, and whose exceptions are all ignored. -/
theorem of_outcomes {Q : α → σ → Prop} {Q' : α' → σ' → Prop} {E : ε → σ → Prop}
    {E' : ε → σ' → Prop} {r : EStateM.Result ε σ α} {r' : EStateM.Result ε σ' α'}
    (h : Outcome Q E r) (h' : Outcome Q' E' r') (hE : ∀ e s, E e s → ignored e)
    (hE' : ∀ e s, E' e s → ignored e) :
    Lockstep ignored (fun a s a' s' => Q a s ∧ Q' a' s') r r' := by
  cases r with
  | ok a s =>
    cases r' with
    | ok a' s' => exact ⟨h, h'⟩
    | error e' s' => exact hE' e' s' h'
  | error e s =>
    cases r' with
    | ok a' s' => exact hE e s h
    | error e' s' => exact Or.inr (Or.inl (hE e s h))

/-- **Zooming** on both sides. -/
theorem zoom {R : α → σ → α' → σ' → Prop} {read : τ → σ} {write : σ → τ → τ} {read' : τ' → σ'}
    {write' : σ' → τ' → τ'} {x : EStateM ε σ α} {x' : EStateM ε σ' α'} {t : τ} {t' : τ'}
    (h : Lockstep ignored R (x (read t)) (x' (read' t'))) :
    Lockstep ignored (fun a u a' u' => ∃ s s', u = write s t ∧ u' = write' s' t' ∧ R a s a' s')
      (Library.zoom read write x t) (Library.zoom read' write' x' t') := by
  unfold Library.zoom
  cases hx : x (read t) <;> cases hx' : x' (read' t') <;> rw [hx, hx'] at h
  · exact ⟨_, _, rfl, rfl, h⟩
  all_goals exact h

/-- **Other names for the exceptions** on both sides. -/
theorem mapError {ε' : Type} {ignored' : ε' → Prop} {R : α → σ → α' → σ' → Prop} {f : ε → ε'}
    {x : EStateM ε σ α} {x' : EStateM ε σ' α'} {s : σ} {s' : σ'}
    (h : Lockstep ignored R (x s) (x' s')) (hf : ∀ e, ignored e → ignored' (f e)) :
    Lockstep ignored' R (Library.mapError f x s) (Library.mapError f x' s') := by
  unfold Library.mapError
  cases hx : x s <;> cases hx' : x' s' <;> rw [hx, hx'] at h
  · exact h
  · exact hf _ h
  · exact hf _ h
  · exact h.imp (congrArg f) (Or.imp (hf _) (hf _))

/-- Pure computations of which one is the image of the other. -/
theorem lift_bind {R : β → σ → β' → σ' → Prop} {x : Except ε α} {x' : Except ε α'}
    {f : α → EStateM ε σ β} {f' : α' → EStateM ε σ' β'} {g : α → α'} {s : σ} {s' : σ'}
    (hx : x' = x.map g) (hf : ∀ a, x = .ok a → Lockstep ignored R (f a s) (f' (g a) s')) :
    Lockstep ignored R ((lift x >>= f) s) ((lift x' >>= f') s') := by
  subst hx
  cases x with
  | error e => exact Or.inl rfl
  | ok a => exact hf a rfl

/-- What is known of each side alone may be added. -/
theorem and_outcomes {R : α → σ → α' → σ' → Prop} {Q : α → σ → Prop} {Q' : α' → σ' → Prop}
    {E : ε → σ → Prop} {E' : ε → σ' → Prop} {r : EStateM.Result ε σ α}
    {r' : EStateM.Result ε σ' α'} (h : Lockstep ignored R r r') (hl : Outcome Q E r)
    (hr : Outcome Q' E' r') :
    Lockstep ignored (fun a s a' s' => R a s a' s' ∧ Q a s ∧ Q' a' s') r r' := by
  cases r with
  | ok a s =>
    cases r' with
    | ok a' s' => exact ⟨h, hl, hr⟩
    | error e' s' => exact h
  | error e s => cases r' <;> exact h

/-- What is known of two computations that return. -/
theorem of_ok {R : α → σ → α' → σ' → Prop} {r : EStateM.Result ε σ α} {r' : EStateM.Result ε σ' α'}
    {a : α} {s : σ} {a' : α'} {s' : σ'} (h : Lockstep ignored R r r') (hr : r = .ok a s)
    (hr' : r' = .ok a' s') : R a s a' s' := by
  rw [hr, hr'] at h
  exact h

end Lockstep

end Capsule.Library
