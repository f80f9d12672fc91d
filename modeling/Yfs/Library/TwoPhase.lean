import Mathlib.Data.Set.Insert
import Yfs.Library.Txn

/-!
# Two-Phase Programs

Programs that take locks, then give them back, and call an object only while they
have its lock. The first release ends the first phase: after it a program does
nothing but release, so its result is already decided.

The predicate is about two programs at once. They take the same locks and make the
same calls, and they stay together when their answers are related by `ans`, up to
results related by `res`. With equality for both relations it says that one program
is two-phase; with weaker relations it also says which part of an answer the program
does not look at.

`Answers` is how a call is answered on the two sides. Two implementations of the
objects that are related by it stay related while they execute related programs, with
and without locks.

## Main definitions

* `Releasing`: Nothing but releases is left.
* `TwoPhase`: The two phases.
* `Plain`: A part that takes and gives back nothing.
* `outcome`: The result of a program that only releases.
* `Answers`: Two implementations of the objects, related call by call.

## Theorems

* `TwoPhase.mono`, `TwoPhase.bind`, `TwoPhase.ite`, `TwoPhase.withLock`: How two-phase
  programs are built.
* `Plain.bind`, `Plain.andThen`: What a part without locks can be followed by.
* `TwoPhase.right`: Related programs are two-phase.
* `run_of_outcome`, `Releasing.outcome_eq`: Releases do not touch the objects.
* `TwoPhase.run_related`, `TwoPhase.runLocked_related`, `TwoPhase.runLocked_of_some`:
  Related implementations give related results.
-/

namespace Yfs

namespace Txn

variable {I O : Type} {A : O → Type} {α β γ δ σ τ : Type}

/-- Two programs that release the same locks and return related results. -/
inductive Releasing (res : α → β → Prop) : Txn I O A α → Txn I O A β → Prop where
  | ret (a : α) (b : β) (h : res a b) : Releasing res (.ret a) (.ret b)
  | release (i : I) (p : Txn I O A α) (q : Txn I O A β) (h : Releasing res p q) :
      Releasing res (.release i p) (.release i q)

/-- Two programs in their first phase, with the locks `H`. -/
inductive TwoPhase (ans : (o : O) → A o → A o → Prop) (res : α → β → Prop) :
    Set I → Txn I O A α → Txn I O A β → Prop where
  | ret (H : Set I) (a : α) (b : β) (h : res a b) : TwoPhase ans res H (.ret a) (.ret b)
  | acquire (H : Set I) (i : I) (p : Txn I O A α) (q : Txn I O A β)
      (h : TwoPhase ans res (insert i H) p q) : TwoPhase ans res H (.acquire i p) (.acquire i q)
  | release (H : Set I) (i : I) (p : Txn I O A α) (q : Txn I O A β) (h : Releasing res p q) :
      TwoPhase ans res H (.release i p) (.release i q)
  | call (H : Set I) (i : I) (o : O) (p : A o → Txn I O A α) (q : A o → Txn I O A β)
      (hi : i ∈ H) (h : ∀ x y, ans o x y → TwoPhase ans res H (p x) (q y)) :
      TwoPhase ans res H (.call i o p) (.call i o q)

/-- Two programs that call objects of `H` and neither take nor give back a lock. -/
inductive Plain (ans : (o : O) → A o → A o → Prop) (H : Set I) (res : α → β → Prop) :
    Txn I O A α → Txn I O A β → Prop where
  | ret (a : α) (b : β) (h : res a b) : Plain ans H res (.ret a) (.ret b)
  | call (i : I) (o : O) (p : A o → Txn I O A α) (q : A o → Txn I O A β)
      (hi : i ∈ H) (h : ∀ x y, ans o x y → Plain ans H res (p x) (q y)) :
      Plain ans H res (.call i o p) (.call i o q)

/-- The result of a program that only releases. -/
def outcome : Txn I O A α → Option α
  | .ret a => some a
  | .release _ next => next.outcome
  | .acquire _ _ => none
  | .call _ _ _ => none

section Build

variable {ans : (o : O) → A o → A o → Prop} {res : α → β → Prop} {res' : γ → δ → Prop}
  {H : Set I}

/-- Programs that only release go on with programs that only release. -/
theorem Releasing.bind {p : Txn I O A α} {q : Txn I O A β} {f : α → Txn I O A γ}
    {g : β → Txn I O A δ} (h : Releasing res p q)
    (hf : ∀ a b, res a b → Releasing res' (f a) (g b)) : Releasing res' (p >>= f) (q >>= g) := by
  induction h with
  | ret a b hab => exact hf a b hab
  | release i p q _ ih => exact Releasing.release i _ _ ih

/-- Having released everything is the end of the first phase. -/
theorem Releasing.twoPhase {p : Txn I O A α} {q : Txn I O A β} (h : Releasing res p q) :
    TwoPhase ans res H p q := by
  cases h with
  | ret a b hab => exact TwoPhase.ret H a b hab
  | release i p q h => exact TwoPhase.release H i p q h

/-- More locks allow more calls. -/
theorem TwoPhase.mono {p : Txn I O A α} {q : Txn I O A β} {H' : Set I} (hH : H ⊆ H')
    (h : TwoPhase ans res H p q) : TwoPhase ans res H' p q := by
  induction h generalizing H' with
  | ret H a b hab => exact TwoPhase.ret H' a b hab
  | acquire H i p q _ ih =>
      exact TwoPhase.acquire H' i p q (ih (Set.insert_subset_insert hH))
  | release H i p q h => exact TwoPhase.release H' i p q h
  | call H i o p q hi _ ih =>
      -- The object of a call is among the locks that there were.
      exact TwoPhase.call H' i o p q (hH hi) fun x y hxy => ih x y hxy hH

/-- What follows a program that may have released something can only release. `Plain.bind` is the
    rule for a program that cannot. -/
theorem TwoPhase.bind {p : Txn I O A α} {q : Txn I O A β} {f : α → Txn I O A γ}
    {g : β → Txn I O A δ} (h : TwoPhase ans res H p q)
    (hf : ∀ a b, res a b → Releasing res' (f a) (g b)) :
    TwoPhase ans res' H (p >>= f) (q >>= g) := by
  induction h with
  | ret H a b hab => exact (hf a b hab).twoPhase
  | acquire H i p q _ ih => exact TwoPhase.acquire H i _ _ ih
  | release H i p q h => exact TwoPhase.release H i _ _ (h.bind hf)
  | call H i o p q hi _ ih => exact TwoPhase.call H i o _ _ hi fun x y hxy => ih x y hxy

/-- A program without locks of its own, followed by one in its first phase. -/
theorem Plain.bind {p : Txn I O A α} {q : Txn I O A β} {f : α → Txn I O A γ}
    {g : β → Txn I O A δ} (h : Plain ans H res p q)
    (hf : ∀ a b, res a b → TwoPhase ans res' H (f a) (g b)) :
    TwoPhase ans res' H (p >>= f) (q >>= g) := by
  induction h with
  | ret a b hab => exact hf a b hab
  | call i o p q hi _ ih => exact TwoPhase.call H i o _ _ hi fun x y hxy => ih x y hxy

/-- The same for two programs without locks. -/
theorem Plain.andThen {p : Txn I O A α} {q : Txn I O A β} {f : α → Txn I O A γ}
    {g : β → Txn I O A δ} (h : Plain ans H res p q)
    (hf : ∀ a b, res a b → Plain ans H res' (f a) (g b)) :
    Plain ans H res' (p >>= f) (q >>= g) := by
  induction h with
  | ret a b hab => exact hf a b hab
  | call i o p q hi _ ih => exact Plain.call i o _ _ hi fun x y hxy => ih x y hxy

/-- Each of two related programs is two-phase by itself. -/
theorem Releasing.right {p : Txn I O A α} {q : Txn I O A β} (h : Releasing res p q) :
    Releasing Eq q q := by
  induction h with
  | ret a b _ => exact Releasing.ret b b rfl
  | release i p q _ ih => exact Releasing.release i q q ih

/-- Each of two related programs is two-phase by itself: it is related to itself by equality. -/
theorem TwoPhase.right {p : Txn I O A α} {q : Txn I O A β} (hans : ∀ o x, ans o x x)
    (h : TwoPhase ans res H p q) : TwoPhase (fun _ => Eq) Eq H q q := by
  induction h with
  | ret H a b _ => exact TwoPhase.ret H b b rfl
  | acquire H i p q _ ih => exact TwoPhase.acquire H i q q ih
  | release H i p q h => exact TwoPhase.release H i q q h.right
  | call H i o p q hi _ ih =>
      refine TwoPhase.call H i o q q hi fun x y hxy => ?_
      -- The answers are one and the same, and an answer is related to itself.
      subst hxy
      exact ih x x (hans o x)

/-- A branch is two-phase if both sides are. -/
theorem TwoPhase.ite {c : Prop} [Decidable c] {p p' : Txn I O A α} {q q' : Txn I O A β}
    (hp : TwoPhase ans res H p q) (hp' : TwoPhase ans res H p' q') :
    TwoPhase ans res H (if c then p else p') (if c then q else q') := by
  split
  · exact hp
  · exact hp'

/-- The bracket: its body may use the lock, and what comes after the body is the release. -/
theorem TwoPhase.withLock (i : I) {p : Txn I O A α} {q : Txn I O A β}
    (h : TwoPhase ans res (insert i H) p q) :
    TwoPhase ans res H (withLock i p) (withLock i q) := by
  refine TwoPhase.acquire H i _ _ (h.bind fun a b hab => ?_)
  exact Releasing.release i _ _ (Releasing.ret a b hab)

end Build

section Related

variable {ans : (o : O) → A o → A o → Prop} {res : α → β → Prop} {H : Set I}
  {serve : I → (o : O) → σ → A o × σ} {serve' : I → (o : O) → τ → A o × τ} {R : σ → τ → Prop}

/-- Implementations that answer every call alike and stay related. -/
def Answers (ans : (o : O) → A o → A o → Prop) (R : σ → τ → Prop)
    (serve : I → (o : O) → σ → A o × σ) (serve' : I → (o : O) → τ → A o × τ) : Prop :=
  ∀ i o s t, R s t → ans o (serve i o s).1 (serve' i o t).1 ∧ R (serve i o s).2 (serve' i o t).2

/-- Releases do not touch the objects, and the result is decided. -/
theorem run_of_outcome {p : Txn I O A α} {a : α} (h : p.outcome = some a)
    (serve : I → (o : O) → σ → A o × σ) (s : σ) : p.run serve s = (a, s) := by
  induction p with
  | ret b => rw [run, Option.some.inj h]
  | acquire i next ih => exact absurd h (by simp only [outcome, reduceCtorEq, not_false_eq_true])
  | release i next ih => exact ih h
  | call i o next ih => exact absurd h (by simp only [outcome, reduceCtorEq, not_false_eq_true])

/-- The results of related programs that only release are related, and are known already. -/
theorem Releasing.outcome_eq {p : Txn I O A α} {q : Txn I O A β} (h : Releasing res p q) :
    ∃ a b, p.outcome = some a ∧ q.outcome = some b ∧ res a b := by
  induction h with
  | ret a b hab => exact ⟨a, b, rfl, rfl, hab⟩
  | release i p q _ ih => exact ih

/-- Related programs on implementations that answer alike: the results are related and so are the
    states. The induction is on the pair of programs, and the states go along. -/
theorem TwoPhase.run_related {p : Txn I O A α} {q : Txn I O A β} (h : TwoPhase ans res H p q)
    (hR : Answers ans R serve serve') {s : σ} {t : τ} (hst : R s t) :
    res (p.run serve s).1 (q.run serve' t).1 ∧ R (p.run serve s).2 (q.run serve' t).2 := by
  induction h generalizing s t with
  | ret H a b hab => exact ⟨hab, hst⟩
  | acquire H i p q _ ih => exact ih hst
  | release H i p q h =>
      rcases h.outcome_eq with ⟨a, b, ha, hb, hab⟩
      -- From the first release on the result no longer depends on the state.
      simp only [run, run_of_outcome ha, run_of_outcome hb]
      exact ⟨hab, hst⟩
  | call H i o p q _ _ ih =>
      rcases hR i o s t hst with ⟨hans, hnext⟩
      exact ih _ _ hans hnext

variable [DecidableEq I]

/-- The same under locks. A release never blocks. -/
theorem Releasing.runLocked_related {p : Txn I O A α} {q : Txn I O A β} (h : Releasing res p q)
    (held : Finset I) {s : σ} {t : τ} (hst : R s t) :
    Option.Rel (fun r r' => res r.1 r'.1 ∧ r.2.1 = r'.2.1 ∧ R r.2.2 r'.2.2)
      (p.runLocked serve held s) (q.runLocked serve' held t) := by
  induction h generalizing held with
  | ret a b hab => exact Option.Rel.some ⟨hab, rfl, hst⟩
  | release i p q _ ih => exact ih (held.erase i)

/-- Related programs take the same locks, so one blocks where the other blocks; where they return,
    they have the same locks left, and related results and states. -/
theorem TwoPhase.runLocked_related {p : Txn I O A α} {q : Txn I O A β}
    (h : TwoPhase ans res H p q) (hR : Answers ans R serve serve') (held : Finset I) {s : σ}
    {t : τ} (hst : R s t) :
    Option.Rel (fun r r' => res r.1 r'.1 ∧ r.2.1 = r'.2.1 ∧ R r.2.2 r'.2.2)
      (p.runLocked serve held s) (q.runLocked serve' held t) := by
  induction h generalizing held s t with
  | ret H a b hab => exact Option.Rel.some ⟨hab, rfl, hst⟩
  | acquire H i p q _ ih =>
      simp only [runLocked]
      -- Both callers have the same locks, so both block or neither does.
      by_cases hi : i ∈ held
      · rw [if_pos hi, if_pos hi]
        exact Option.Rel.none
      · rw [if_neg hi, if_neg hi]
        exact ih (insert i held) hst
  | release H i p q h => exact h.runLocked_related (held.erase i) hst
  | call H i o p q _ _ ih =>
      rcases hR i o s t hst with ⟨hans, hnext⟩
      exact ih _ _ hans held hnext

/-- A run of the second program that returns is matched by one of the first. -/
theorem TwoPhase.runLocked_of_some {p : Txn I O A α} {q : Txn I O A β}
    (h : TwoPhase ans res H p q) (hR : Answers ans R serve serve') {held : Finset I} {s : σ}
    {t : τ} (hst : R s t) {r' : β × Finset I × τ} (hq : q.runLocked serve' held t = some r') :
    ∃ r, p.runLocked serve held s = some r ∧ res r.1 r'.1 ∧ r.2.1 = r'.2.1 ∧ R r.2.2 r'.2.2 := by
  have hrel := h.runLocked_related hR held hst
  rw [hq] at hrel
  cases hp : p.runLocked serve held s with
  | none =>
      rw [hp] at hrel
      cases hrel
  | some r =>
      rw [hp] at hrel
      cases hrel with
      | some hr => exact ⟨r, rfl, hr⟩

end Related

end Txn

end Yfs
