import Mathlib

/-!
# Runs of a system and the events they leave behind

A system is a relation `step s e t`: from the state `s` it may go to `t`, and what can be seen of
that is the event `e`.  `Run step s es t` is a finite run with the events `es`.

The rules: runs are composed (`Run.append`), what every step keeps holds after every run, where the
invariant may speak of the events so far (`Run.invariant`), a system that answers every step of
another with a step of the same event has all of its runs (`Run.simulated`), and what every two
steps of two systems keep holds after two runs side by side (`Run.alongside`).
-/

set_option autoImplicit false

namespace Capsule.Library

variable {σ τ ε ε' : Type} {step : σ → ε → σ → Prop} {s t u : σ} {es fs : List ε}

/-- A run from one state to another, and its events. -/
inductive Run (step : σ → ε → σ → Prop) : σ → List ε → σ → Prop
  /-- nothing happens -/
  | nil (s : σ) : Run step s [] s
  /-- one step more -/
  | snoc {s t u : σ} {es : List ε} {e : ε} (h : Run step s es t) (hstep : step t e u) :
      Run step s (es ++ [e]) u

namespace Run

/-- One step is a run. -/
theorem single {e : ε} (h : step s e t) : Run step s [e] t := Run.snoc (Run.nil s) h

/-- A run that goes on where another one ended. -/
theorem append (h : Run step s es t) (h' : Run step t fs u) : Run step s (es ++ fs) u := by
  induction h' with
  | nil => rwa [List.append_nil]
  | snoc _ hstep ih =>
    rw [← List.append_assoc]
    exact Run.snoc ih hstep

/-- The last step of a run. -/
theorem snoc_inv {e : ε} (h : Run step s (es ++ [e]) u) : ∃ t, Run step s es t ∧ step t e u := by
  generalize hfs : es ++ [e] = fs at h
  cases h with
  | nil => simp at hfs
  | snoc h hstep =>
    obtain ⟨rfl, he⟩ := List.append_inj' hfs rfl
    obtain rfl := List.singleton_inj.mp he
    exact ⟨_, h, hstep⟩

/-- **Invariants of runs**: what holds at the start and is kept by every step holds at the end.  The
step may use which events came before, and that they are events of this run. -/
theorem invariant {P : List ε → σ → Prop} (h : Run step s es t) (h0 : P [] s)
    (hstep : ∀ pre e u v, pre ++ [e] <+: es → Run step s pre u → P pre u → step u e v →
      P (pre ++ [e]) v) : P es t := by
  induction h with
  | nil => exact h0
  | @snoc t u es e h hlast ih =>
    refine hstep es e t u (List.prefix_refl _) h (ih ?_) hlast
    intro pre e' v v' hpre
    exact hstep pre e' v v' (hpre.trans (List.prefix_append _ _))

/-- **Simulation**: a system that can follow every step of another, with the same event, has its
runs. -/
theorem simulated {step' : τ → ε → τ → Prop} {R : List ε → σ → τ → Prop} {s' : τ}
    (h : Run step s es t) (h0 : R [] s s')
    (hstep : ∀ pre e u v u', pre ++ [e] <+: es → R pre u u' → step u e v →
      ∃ v', step' u' e v' ∧ R (pre ++ [e]) v v') :
    ∃ t', Run step' s' es t' ∧ R es t t' := by
  refine h.invariant (P := fun pre u => ∃ u', Run step' s' pre u' ∧ R pre u u')
    ⟨s', Run.nil s', h0⟩ ?_
  rintro pre e u v hpre - ⟨u', hrun, hR⟩ hlast
  obtain ⟨v', hstep', hR'⟩ := hstep pre e u v u' hpre hR hlast
  exact ⟨v', Run.snoc hrun hstep', hR'⟩

/-- **Two runs side by side** whose events are paired by `C`: the relation `R` that every two paired
steps keep holds at the end, and what they show of their events holds of all. -/
theorem alongside {step' : τ → ε' → τ → Prop} {C Q : ε → ε' → Prop} {R : σ → τ → Prop} {s' t' : τ}
    {es' : List ε'} (h : Run step s es t) (h' : Run step' s' es' t') (hes : List.Forall₂ C es es')
    (h0 : R s s') (hstep : ∀ u v u' v' e e', C e e' → R u u' → step u e v → step' u' e' v' →
      R v v' ∧ Q e e') : R t t' ∧ List.Forall₂ Q es es' := by
  induction h generalizing es' t' with
  | nil =>
    cases hes
    generalize hnil : ([] : List ε') = fs at h'
    cases h' with
    | nil => exact ⟨h0, List.Forall₂.nil⟩
    | snoc => simp at hnil
  | @snoc t u es e _ hlast ih =>
    -- the events of the other run end with the partner of `e`
    have hrev := List.forall₂_reverse_iff.mpr hes
    rw [List.reverse_append, List.reverse_singleton, List.singleton_append] at hrev
    generalize hfs : es'.reverse = fs at hrev
    cases hrev with
    | @cons _ e' _ fs he hes' =>
      rw [List.reverse_eq_cons_iff] at hfs
      subst hfs
      obtain ⟨v, hv, hlast'⟩ := h'.snoc_inv
      obtain ⟨hR, hQ⟩ := ih hv (by simpa using List.forall₂_reverse_iff.mpr hes')
      obtain ⟨hR', hQ'⟩ := hstep _ _ _ _ _ _ he hR hlast hlast'
      exact ⟨hR', List.rel_append hQ (List.Forall₂.cons hQ' List.Forall₂.nil)⟩

end Run

end Capsule.Library
