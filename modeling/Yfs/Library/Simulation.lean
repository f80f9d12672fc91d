import Yfs.Library.Trace

/-!
# Simulation

When the runs of one system are runs of another.

The system below may take more steps than the one above: a step is matched by one step
above or by none. The relation is between states, and it may be kept only in states that
the system below reaches, so the matching of one step has the run up to there as a
hypothesis. Its invariants are then at hand and need not be part of the relation.

## Theorems

* `reaches_trans`: One run after another.
* `simulation`: Matching one step at a time matches every run.
* `projection`: The case of a relation that is a function.
-/

namespace Yfs

namespace Trace

variable {S A T B : Type}

/-- A run that starts where another one ends. -/
theorem reaches_trans {step : S → A → Option S} {ok : S → A → Prop} {s₀ s s' : S}
    (h : Reaches step ok s₀ s) (h' : Reaches step ok s s') : Reaches step ok s₀ s' := by
  induction h' with
  | init => exact h
  | step s₁ a s₂ _ hok hs ih => exact Reaches.step s₁ a s₂ ih hok hs

/-- Every step below is matched by one above, or by none. -/
theorem simulation {step : S → A → Option S} {ok : S → A → Prop} {step' : T → B → Option T}
    {ok' : T → B → Prop} {s₀ s : S} {t₀ : T} (R : S → T → Prop) (h0 : R s₀ t₀)
    (hstep : ∀ s a s' t, Reaches step ok s₀ s → R s t → ok s a → step s a = some s' →
      R s' t ∨ ∃ b t', ok' t b ∧ step' t b = some t' ∧ R s' t')
    (h : Reaches step ok s₀ s) : ∃ t, Reaches step' ok' t₀ t ∧ R s t := by
  induction h with
  | init => exact ⟨t₀, Reaches.init, h0⟩
  | step s a s' hr hok hs ih =>
      rcases ih with ⟨t, ht, hst⟩
      rcases hstep s a s' t hr hst hok hs with hsame | ⟨b, t', hok', hs', hst'⟩
      · exact ⟨t, ht, hsame⟩
      · exact ⟨t', Reaches.step t b t' ht hok' hs', hst'⟩

/-- A part of the state that moves on its own, or not at all. -/
theorem projection {step : S → A → Option S} {ok : S → A → Prop} {step' : T → B → Option T}
    {ok' : T → B → Prop} {s₀ s : S} (f : S → T)
    (hstep : ∀ s a s', ok s a → step s a = some s' →
      f s' = f s ∨ ∃ b, ok' (f s) b ∧ step' (f s) b = some (f s'))
    (h : Reaches step ok s₀ s) : Reaches step' ok' (f s₀) (f s) := by
  -- A projection is a simulation by a function, so that the state above is determined.
  have hmatch : ∀ s a s' t, Reaches step ok s₀ s → f s = t → ok s a → step s a = some s' →
      f s' = t ∨ ∃ b t', ok' t b ∧ step' t b = some t' ∧ f s' = t' := by
    intro s a s' t _ ht hok hs
    subst ht
    rcases hstep s a s' hok hs with hsame | ⟨b, hok', hs'⟩
    · exact Or.inl hsame
    · exact Or.inr ⟨b, f s', hok', hs', rfl⟩
  rcases simulation (fun s t => f s = t) rfl hmatch h with ⟨t, ht, rfl⟩
  exact ht

end Trace

end Yfs
