import Mathlib.Logic.Function.Basic

/-!
# Threads That Move One at a Time

The threads of a system are a function from their names to the places where they are, and a step
moves one of them: it updates the function at one point. A fact about all threads is then kept
by every thread but the one that moves, and by that one too if its old place and its new place
look the same to the observer.

`of_update` reads a fact about the threads after a step back, `observe_update` carries an
observation across a step, and `stays_update` follows a thread that is not the one that moves.
They are stated for the place that the moving thread leaves, so that the guard of a step is all
that has to be known about it.

A mutex that is held exactly by the thread inside some section (`HeldBy`) stays so if it is taken
by the step that enters the section and dropped by the step that leaves it. A map that records who
has what (`Records`) is kept in the same way by a step that gives one thing to somebody or takes
it back.

## Main definitions

* `HeldBy`: A mutex is held exactly by the thread inside a section.
* `Records`: A map from things to those who have them.

## Theorems

* `of_update`, `observe_update`, `stays_update`: One thread moves.
* `HeldBy.unique`: One thread at a time is inside.
* `HeldBy.enter`, `HeldBy.leave`: The steps that take the mutex and drop it.
* `Records.give`, `Records.takeBack`: The steps that change who has one thing.
-/

namespace Yfs

namespace Threads

variable {K P : Type}

section Update

variable [DecidableEq K]

/-- What holds of a thread after a step holds of the new place, if it is the thread that moved,
    and held before if it is another one. -/
theorem of_update (Q : P → Prop) {f : K → P} {k₀ k : K} {p : P}
    (h : Q (Function.update f k₀ p k)) : (k = k₀ ∧ Q p) ∨ (k ≠ k₀ ∧ Q (f k)) := by
  by_cases hk : k = k₀
  · rw [hk, Function.update_self] at h
    exact Or.inl ⟨hk, h⟩
  · rw [Function.update_of_ne hk] at h
    exact Or.inr ⟨hk, h⟩

/-- If it does not hold of the new place, then it held before. -/
theorem before_of_update (Q : P → Prop) {f : K → P} {k₀ k : K} {p : P} (hp : ¬ Q p)
    (h : Q (Function.update f k₀ p k)) : Q (f k) := by
  rcases of_update Q h with ⟨_, hnew⟩ | ⟨_, hold⟩
  · exact absurd hnew hp
  · exact hold

/-- A move between two places that look the same is not seen. -/
theorem observe_update {β : Sort*} (g : P → β) {f : K → P} {k₀ : K} {p q : P} (hq : f k₀ = q)
    (hsame : g p = g q) (k : K) : g (Function.update f k₀ p k) = g (f k) := by
  by_cases hk : k = k₀
  · rw [hk, Function.update_self, hsame, hq]
  · rw [Function.update_of_ne hk]

/-- A thread that is not where the moving thread was stays where it is. -/
theorem stays_update {f : K → P} {k₀ k : K} {p q r : P} (hk : f k = r) (hq : f k₀ = q)
    (hne : q ≠ r) : Function.update f k₀ p k = r := by
  have hother : k ≠ k₀ := by
    rintro rfl
    exact hne (hq.symm.trans hk)
  rw [Function.update_of_ne hother, hk]

end Update

/-- The mutex `m` is held by the thread inside the section, and by nobody if there is none. -/
def HeldBy (m : Option K) (inside : K → Prop) : Prop :=
  ∀ k, m = some k ↔ inside k

namespace HeldBy

variable {m : Option K} {inside inside' : K → Prop} {k₀ : K}

theorem unique (h : HeldBy m inside) {k k' : K} (hk : inside k) (hk' : inside k') : k = k' := by
  have hm := (h k).mpr hk
  rw [(h k').mpr hk'] at hm
  exact (Option.some.inj hm).symm

/-- While the mutex is free nobody is inside. -/
theorem not_inside (h : HeldBy m inside) (hm : m = none) (k : K) : ¬ inside k := by
  intro hk
  have hheld := (h k).mpr hk
  rw [hm] at hheld
  cases hheld

theorem congr (h : HeldBy m inside) (hsame : ∀ k, inside' k ↔ inside k) : HeldBy m inside' :=
  fun k => (h k).trans (hsame k).symm

/-- The step that enters the section takes the mutex, which was free. -/
theorem enter (h : HeldBy m inside) (hm : m = none) (hself : inside' k₀)
    (hothers : ∀ k, k ≠ k₀ → (inside' k ↔ inside k)) : HeldBy (some k₀) inside' := by
  intro k
  -- Everybody else would have been inside while the mutex was free.
  by_cases hk : k = k₀
  · rw [hk]
    exact iff_of_true rfl hself
  · refine iff_of_false (fun heq => hk (Option.some.inj heq).symm) fun hin => ?_
    exact h.not_inside hm k ((hothers k hk).mp hin)

/-- The step that leaves the section drops the mutex. -/
theorem leave (h : HeldBy m inside) (hin : inside k₀) (hself : ¬ inside' k₀)
    (hothers : ∀ k, k ≠ k₀ → (inside' k ↔ inside k)) : HeldBy none inside' := by
  intro k
  refine iff_of_false (by simp only [reduceCtorEq, not_false_eq_true]) fun hin' => ?_
  by_cases hk : k = k₀
  · rw [hk] at hin'
    exact hself hin'
  · exact hk (h.unique ((hothers k hk).mp hin') hin)

end HeldBy

/-- The map `f` says of every thing who has it, and that nobody has what nobody has. -/
def Records {X Y : Type} (f : Y → Option X) (has : X → Y → Prop) : Prop :=
  ∀ y x, f y = some x ↔ has x y

namespace Records

variable {X Y : Type} [DecidableEq Y] {f : Y → Option X} {has has' : X → Y → Prop} {x₀ : X} {y₀ : Y}

/-- A thing that nobody has is given to `x₀`. -/
theorem give (h : Records f has) (hfree : ∀ x, ¬ has x y₀)
    (hhas : ∀ x y, has' x y ↔ has x y ∨ (x = x₀ ∧ y = y₀)) :
    Records (Function.update f y₀ (some x₀)) has' := by
  intro y x
  rw [hhas]
  by_cases hy : y = y₀
  · rw [hy, Function.update_self, or_iff_right (hfree x), Option.some.injEq]
    exact ⟨fun heq => ⟨heq.symm, rfl⟩, fun heq => heq.1.symm⟩
  · rw [Function.update_of_ne hy, or_iff_left fun heq => hy heq.2]
    exact h y x

/-- A thing is taken back from `x₀`, the only one who has it. -/
theorem takeBack (h : Records f has) (honly : ∀ x, has x y₀ → x = x₀)
    (hhas : ∀ x y, has' x y ↔ has x y ∧ ¬ (x = x₀ ∧ y = y₀)) :
    Records (Function.update f y₀ none) has' := by
  intro y x
  rw [hhas]
  by_cases hy : y = y₀
  · rw [hy, Function.update_self]
    refine iff_of_false (by simp only [reduceCtorEq, not_false_eq_true]) ?_
    rintro ⟨hx, hne⟩
    exact hne ⟨honly x hx, rfl⟩
  · rw [Function.update_of_ne hy, and_iff_left fun heq => hy heq.2]
    exact h y x

end Records

end Threads

end Yfs
