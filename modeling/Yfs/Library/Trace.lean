import Mathlib.Logic.Function.Basic

/-!
# Runs of a Labelled Transition System

What "in every reachable state" means for the systems of this development.

A system is a partial step function: `step s a` is the state after action `a`,
or `none` when `a` is not enabled in `s`. Interleaving is the choice of the
action, so a system with any number of concurrent parties is one step function
whose actions name the party that moves.

`Reaches` carries a condition `ok` on every step it takes, read in the state
before the step. A law of all runs takes the condition that is always true; a
law that only holds while some step never happens puts the excluded step there.
Both are proved by the same induction, `invariant_of_step`, so each safety
result is two small goals: the initial state, and one step.

`run` executes a list of actions, checking a decidable condition on the way. It
is how a concrete run is exhibited: the kernel evaluates the list, and
`reaches_of_run` turns it into a `Reaches`.

## Main definitions

* `Reaches`: The states reached by steps that all meet a condition.
* `Always`: The condition every step meets.
* `run`: Executing a list of actions.
* `Along`: A condition on every step of an executed list.

## Theorems

* `invariant_of_step`: What a step preserves, a run preserves.
* `reaches_weaken`: A run under a condition is a run under a weaker one.
* `reaches_of_run`, `reaches_always_of_run`, `reaches_of_run_forall`: An
  executed list of actions is a run.
-/

namespace Yfs

namespace Trace

variable {S A : Type}

/-- The states reached from `s₀` by steps of `step`, every one of which meets
    `ok` in the state it starts from. -/
inductive Reaches (step : S → A → Option S) (ok : S → A → Prop) (s₀ : S) : S → Prop where
  | init : Reaches step ok s₀ s₀
  | step (s : S) (a : A) (s' : S) (hr : Reaches step ok s₀ s) (hok : ok s a)
      (hs : step s a = some s') : Reaches step ok s₀ s'

/-- The condition that excludes no step. -/
def Always (_ : S) (_ : A) : Prop := True

/-- The rule by which all invariants here are proved: what holds at the start and is kept by every
    step that is allowed holds in every state that is reached. -/
theorem invariant_of_step {step : S → A → Option S} {ok : S → A → Prop} {s₀ s : S}
    (I : S → Prop) (h0 : I s₀)
    (hstep : ∀ s a s', I s → ok s a → step s a = some s' → I s')
    (h : Reaches step ok s₀ s) : I s := by
  induction h with
  | init => exact h0
  | step s a s' _ hok hs ih => exact hstep s a s' ih hok hs

theorem reaches_weaken {step : S → A → Option S} {ok ok' : S → A → Prop} {s₀ s : S}
    (himp : ∀ s a, ok s a → ok' s a) (h : Reaches step ok s₀ s) : Reaches step ok' s₀ s := by
  induction h with
  | init => exact Reaches.init
  | step s a s' _ hok hs ih => exact Reaches.step s a s' ih (himp s a hok) hs

/-- Execute a list of actions, or `none` if one of them is not enabled or is
    refused by `ok`. -/
def run (step : S → A → Option S) (ok : S → A → Bool) : S → List A → Option S
  | s, [] => some s
  | s, a :: as => match ok s a, step s a with
    | true, some s' => run step ok s' as
    | _, _ => none

theorem reaches_run_from {step : S → A → Option S} {ok : S → A → Bool} {s₀ : S} :
    ∀ (as : List A) (s t : S), Reaches step (fun s a => ok s a = true) s₀ s →
      run step ok s as = some t → Reaches step (fun s a => ok s a = true) s₀ t := by
  intro as
  induction as with
  | nil =>
      intro s t hr h
      simp only [run, Option.some.injEq] at h
      rw [← h]
      exact hr
  | cons a as ih =>
      intro s t hr h
      simp only [run] at h
      -- The run goes on only if the condition and the step both succeed.
      split at h
      · rename_i s' hok hs
        exact ih s' t (Reaches.step s a s' hr hok hs) h
      · exact absurd h (by simp only [reduceCtorEq, not_false_eq_true])

/-- An executed list of actions is a run. -/
theorem reaches_of_run {step : S → A → Option S} {ok : S → A → Bool} {s₀ t : S} (as : List A)
    (h : run step ok s₀ as = some t) : Reaches step (fun s a => ok s a = true) s₀ t :=
  reaches_run_from as s₀ t Reaches.init h

/-- The same without a condition. -/
theorem reaches_always_of_run {step : S → A → Option S} {s₀ t : S} (as : List A)
    (h : run step (fun _ _ => true) s₀ as = some t) : Reaches step Always s₀ t :=
  reaches_weaken (fun _ _ _ => trivial) (reaches_of_run as h)

/-- The same with a condition on the actions that the list is known to meet. -/
theorem reaches_of_run_forall {step : S → A → Option S} {ok : A → Prop} {s₀ t : S} (as : List A)
    (h : run step (fun _ _ => true) s₀ as = some t) (hok : ∀ a ∈ as, ok a) :
    Reaches step (fun _ a => ok a) s₀ t := by
  have hfrom : ∀ (as : List A) (s : S), Reaches step (fun _ a => ok a) s₀ s →
      run step (fun _ _ => true) s as = some t → (∀ a ∈ as, ok a) →
      Reaches step (fun _ a => ok a) s₀ t := by
    intro as
    induction as with
    | nil =>
        intro s hr h _
        rwa [← Option.some.inj h]
    | cons a as ih =>
        intro s hr h hok
        simp only [run] at h
        split at h
        · rename_i s' _ hs
          exact ih s' (Reaches.step s a s' hr (hok a List.mem_cons_self) hs) h
            fun x hx => hok x (List.mem_cons_of_mem a hx)
        · cases h
  exact hfrom as s₀ Reaches.init h hok

/-- An executed list of actions is its first step and the rest. -/
theorem run_cons {step : S → A → Option S} {s t : S} {a : A} {as : List A}
    (h : run step (fun _ _ => true) s (a :: as) = some t) :
    ∃ s', step s a = some s' ∧ run step (fun _ _ => true) s' as = some t := by
  simp only [run] at h
  split at h
  · rename_i s' _ hs
    exact ⟨s', hs, h⟩
  · cases h

/-- Every step of an executed list of actions meets a condition, in the state it starts
    from. -/
def Along (step : S → A → Option S) (P : S → A → Prop) : S → List A → Prop
  | _, [] => True
  | s, a :: as => P s a ∧ ∀ s', step s a = some s' → Along step P s' as

theorem along_cons {step : S → A → Option S} {P : S → A → Prop} {s s' : S} {a : A}
    {as : List A} (hs : step s a = some s') :
    Along step P s (a :: as) ↔ P s a ∧ Along step P s' as := by
  refine and_congr_right fun _ => ⟨fun h => h s' hs, fun h s'' hs'' => ?_⟩
  rw [hs, Option.some.injEq] at hs''
  exact hs'' ▸ h

end Trace

end Yfs
