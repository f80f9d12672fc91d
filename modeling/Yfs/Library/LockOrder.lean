import Mathlib.Data.Set.Insert
import Mathlib.Data.Set.Lattice
import Mathlib.Order.CompletePartialOrder
import Mathlib.Order.WellFounded
import Yfs.Library.Serial

/-!
# Lock Invariants and Ordered Locking

Rules of pre- and postconditions for programs over locked objects, and what they say about
clients that run such programs side by side.

An object has an invariant, which holds while nobody has its lock. A program that takes the
lock may rely on the invariant, may break it while it has the lock, and has to restore it
before it releases. In between it knows the value of the object, since nobody else changes
it. So a condition is about the locks that the program has taken and the values of the
objects under them. Locks come with a relation `before` and are taken in its direction: a
program that waits for a lock only has locks that are before it.

The rules say nothing about locks that a program still has when it returns. Such a lock is
kept: the client never releases it, since a program releases only what it has taken itself.
If `before` has no infinite ascending chain, this is the only way to get stuck
(`progress`): a chain of programs that wait for each other goes upwards and ends at one that
does not wait, or at a lock that was kept.

## Main definitions

* `Rules`: An order of locks, and the invariants of objects.
* `Txn.wp`: The weakest precondition of a program.
* `Leftover`: What the completed programs of a client have kept.
* `Phase.taken`, `Phase.kept`: The locks that a program has taken, and those that were
  kept, after its next step.
* `Orderly`: Clients that keep to the rules.

## Theorems

* `Txn.wp_bind`, `Txn.wp_withLock`, `Txn.wp_mono`: The rules.
* `Txn.wp_congr`: Only objects under the program's own locks matter.
* `orderly_begin`, `orderly_advance`: Clients keep to the rules, one step at a time.
* `orderly_run`: They do so in a run, and keep what they have kept.
* `progress`: Someone can go on, or someone waits for a lock that was kept.
-/

namespace Yfs

/-- In which order locks are taken, and what holds of an object that is not locked. -/
structure Rules (I V : Type) where
  before : I → I → Prop
  inv : I → V → Prop

namespace Txn

variable {I O V : Type} {A : O → Type} {α β : Type} [DecidableEq I] (rules : Rules I V)
  (act : (o : O) → V → A o × V)

/-- What has to hold of the locks `H` that the program has and of the objects under them,
    for it to keep to the rules and to end in `Q`. -/
def wp : Txn I O A α → (α → Set I → (I → V) → Prop) → Set I → (I → V) → Prop
  | ret a, Q, H, f => Q a H f
  | acquire i next, Q, H, f =>
      (∀ j ∈ H, rules.before j i) ∧
        -- A second acquire of a lock never returns.
        (i ∉ H → ∀ v, rules.inv i v → next.wp Q (insert i H) (Function.update f i v))
  | release i next, Q, H, f => i ∈ H ∧ rules.inv i (f i) ∧ next.wp Q (H \ {i}) f
  | call i o next, Q, H, f =>
      i ∈ H ∧ (next (act o (f i)).1).wp Q H (Function.update f i (act o (f i)).2)

variable {rules act}

@[simp]
theorem wp_pure (a : α) (Q : α → Set I → (I → V) → Prop) (H : Set I) (f : I → V) :
    (pure a : Txn I O A α).wp rules act Q H f ↔ Q a H f := Iff.rfl

@[simp]
theorem wp_lock (i : I) (Q : Unit → Set I → (I → V) → Prop) (H : Set I) (f : I → V) :
    (lock i : Txn I O A Unit).wp rules act Q H f ↔ (∀ j ∈ H, rules.before j i) ∧
      (i ∉ H → ∀ v, rules.inv i v → Q () (insert i H) (Function.update f i v)) := Iff.rfl

@[simp]
theorem wp_unlock (i : I) (Q : Unit → Set I → (I → V) → Prop) (H : Set I) (f : I → V) :
    (unlock i : Txn I O A Unit).wp rules act Q H f ↔
      i ∈ H ∧ rules.inv i (f i) ∧ Q () (H \ {i}) f := Iff.rfl

@[simp]
theorem wp_ask (i : I) (o : O) (Q : A o → Set I → (I → V) → Prop) (H : Set I) (f : I → V) :
    (ask i o : Txn I O A (A o)).wp rules act Q H f ↔
      i ∈ H ∧ Q (act o (f i)).1 H (Function.update f i (act o (f i)).2) := Iff.rfl

/-- The rule for sequences. The induction is on the first program, under any locks and objects. -/
@[simp]
theorem wp_bind (p : Txn I O A α) (k : α → Txn I O A β) (Q : β → Set I → (I → V) → Prop)
    (H : Set I) (f : I → V) :
    (p >>= k).wp rules act Q H f
      ↔ p.wp rules act (fun a H' f' => (k a).wp rules act Q H' f') H f := by
  change (p.bind k).wp rules act Q H f ↔ _
  induction p generalizing H f with
  | ret a => exact Iff.rfl
  | acquire i next ih =>
      refine and_congr_right fun _ => forall_congr' fun _ => forall_congr' fun v => ?_
      exact forall_congr' fun _ => ih _ _
  | release i next ih =>
      exact and_congr_right fun _ => and_congr_right fun _ => ih _ _
  | call i o next ih => exact and_congr_right fun _ => ih _ _ _

/-- The rule for brackets: the lock comes behind those that are had, and the body ends with it and
    with the object as the rules want it. -/
@[simp]
theorem wp_withLock (i : I) (p : Txn I O A α) (Q : α → Set I → (I → V) → Prop) (H : Set I)
    (f : I → V) :
    (withLock i p).wp rules act Q H f ↔ (∀ j ∈ H, rules.before j i) ∧
      (i ∉ H → ∀ v, rules.inv i v →
        p.wp rules act (fun a K f' => i ∈ K ∧ rules.inv i (f' i) ∧ Q a (K \ {i}) f')
          (insert i H) (Function.update f i v)) := by
  simp only [withLock, wp_bind, wp_lock, wp_unlock, wp_pure]

/-- A weaker end is reached too. -/
theorem wp_mono {p : Txn I O A α} {Q Q' : α → Set I → (I → V) → Prop} {H : Set I} {f : I → V}
    (hQ : ∀ a H f, Q a H f → Q' a H f) (h : p.wp rules act Q H f) : p.wp rules act Q' H f := by
  induction p generalizing H f with
  | ret a => exact hQ a H f h
  | acquire i next ih => exact ⟨h.1, fun hi v hv => ih (h.2 hi v hv)⟩
  | release i next ih => exact ⟨h.1, h.2.1, ih h.2.2⟩
  | call i o next ih => exact ⟨h.1, ih _ h.2⟩

/-- Nothing depends on objects that the program has not locked. What is acquired later comes with
    any value that keeps the invariant. -/
theorem wp_congr {p : Txn I O A α} {Q : α → Set I → Prop} {H : Set I} {f g : I → V}
    (hfg : ∀ i ∈ H, f i = g i) (h : p.wp rules act (fun a H' _ => Q a H') H f) :
    p.wp rules act (fun a H' _ => Q a H') H g := by
  have hupdate : ∀ {H : Set I} {f g : I → V} (i : I) (v : V), (∀ j ∈ H, j ≠ i → f j = g j) →
      ∀ j ∈ H, Function.update f i v j = Function.update g i v j := by
    intro H f g i v hsame j hj
    by_cases hji : j = i
    · rw [hji, Function.update_self, Function.update_self]
    · rw [Function.update_of_ne hji, Function.update_of_ne hji]
      exact hsame j hj hji
  induction p generalizing H f g with
  | ret a => exact h
  | acquire i next ih =>
      refine ⟨h.1, fun hi v hv => ih (hupdate i v ?_) (h.2 hi v hv)⟩
      exact fun j hj hji => hfg j (hj.resolve_left hji)
  | release i next ih =>
      refine ⟨h.1, ?_, ih (fun j hj => hfg j hj.1) h.2.2⟩
      rw [← hfg i h.1]
      exact h.2.1
  | call i o next ih =>
      refine ⟨h.1, ?_⟩
      rw [← hfg i h.1]
      exact ih _ (hupdate i _ fun j hj _ => hfg j hj) h.2

end Txn

namespace Serial

open Txn

variable {C I V O Q R : Type} {A : O → Type}

/-- What is kept after these programs, if `left` says what each of them keeps. -/
inductive Leftover (left : Q × R → Set I → Prop) : List (Q × R) → Set I → Prop where
  | nil : Leftover left [] ∅
  | snoc (l : List (Q × R)) (K : Set I) (x : Q × R) (H : Set I) (hl : Leftover left l K)
      (hx : left x H) (hapart : Disjoint H K) : Leftover left (l ++ [x]) (H ∪ K)

/-- The locks `H` that a program has taken and not released, after its next step. One that
    returns leaves nothing that a later program has taken. -/
def Phase.taken (H : Set I) : Phase I O A Q R → Set I
  | .running _ (.acquire i _) _ => insert i H
  | .running _ (.release i _) _ => H \ {i}
  | .running _ (.ret _) _ => ∅
  | _ => H

/-- The locks `K` that were kept, after the next step of a program that has taken `H`. -/
def Phase.kept (H K : Set I) : Phase I O A Q R → Set I
  | .running _ (.ret _) _ => H ∪ K
  | _ => K

/-- What was kept stays so. -/
theorem Phase.subset_kept (H K : Set I) (ph : Phase I O A Q R) : K ⊆ ph.kept H K := by
  cases ph with
  | idle => exact Set.Subset.rfl
  | running q p releasing =>
      cases p with
      | ret r => exact Set.subset_union_right
      | acquire i next => exact Set.Subset.rfl
      | release i next => exact Set.Subset.rfl
      | call i o next => exact Set.Subset.rfl

section Orderly

variable [DecidableEq I] (rules : Rules I V) (act : (o : O) → V → A o × V)
  (left : Q × R → Set I → Prop)

/-- What is left of a program that has taken the locks `H` keeps to the rules. -/
def Follows (store : I → V) (H : Set I) : Phase I O A Q R → Prop
  | .idle => H = ∅
  | .running q p _ => p.wp rules act (fun r K _ => left (q, r) K) H store

/-- Every lock of a client has been taken by the program that it is running, or was kept. -/
structure Orderly (s : Sys C I V O A Q R) (own kept : C → Set I) : Prop where
  resting : ∀ i, s.holder i = none → rules.inv i (s.store i)
  locks : ∀ c i, s.holder i = some c ↔ i ∈ own c ∨ i ∈ kept c
  apart : ∀ c, Disjoint (own c) (kept c)
  phase : ∀ c, Follows rules act left s.store (own c) (s.phase c)
  left : ∀ c, Leftover left (s.completed c) (kept c)

variable {rules act left}

/-- At the start nothing is locked, and the objects are as the rules want them. -/
theorem orderly_init (f₀ : I → V) (h : ∀ i, rules.inv i (f₀ i)) :
    Orderly rules act left (Sys.init f₀ : Sys C I V O A Q R) (fun _ => ∅) fun _ => ∅ where
  resting := fun i _ => h i
  locks := fun c i => by simp [Sys.init]
  apart := fun _ => Set.disjoint_empty _
  phase := fun _ => rfl
  left := fun _ => .nil

/-- What a program does depends on what it has locked. -/
theorem Follows.congr {store store' : I → V} {H : Set I} {ph : Phase I O A Q R}
    (h : Follows rules act left store H ph) (hsame : ∀ i ∈ H, store i = store' i) :
    Follows rules act left store' H ph := by
  cases ph with
  | idle => exact h
  | running q p releasing => exact wp_congr hsame h

variable [DecidableEq C] {s s' : Sys C I V O A Q R} {own kept : C → Set I} {c : C}

/-- A step of `c` that leaves alone what the others have locked. -/
theorem Orderly.update (h : Orderly rules act left s own kept) {ph : Phase I O A Q R}
    {H K : Set I} (hphase : s'.phase = Function.update s.phase c ph)
    (hothers : ∀ c', c' ≠ c → ∀ i, (s'.holder i = some c' ↔ s.holder i = some c') ∧
      (s.holder i = some c' → s'.store i = s.store i))
    (hcompleted : ∀ c', c' ≠ c → s'.completed c' = s.completed c')
    (hresting : ∀ i, s'.holder i = none → rules.inv i (s'.store i))
    (hlocks : ∀ i, s'.holder i = some c ↔ i ∈ H ∨ i ∈ K) (hapart : Disjoint H K)
    (hfollows : Follows rules act left s'.store H ph)
    (hleft : Leftover left (s'.completed c) K) :
    Orderly rules act left s' (Function.update own c H) (Function.update kept c K) := by
  refine ⟨hresting, fun c' i => ?_, fun c' => ?_, fun c' => ?_, fun c' => ?_⟩
  all_goals by_cases hc : c' = c
  · rw [hc, Function.update_self, Function.update_self]
    exact hlocks i
  · rw [Function.update_of_ne hc, Function.update_of_ne hc, (hothers c' hc i).1]
    exact h.locks c' i
  · rw [hc, Function.update_self, Function.update_self]
    exact hapart
  · rw [Function.update_of_ne hc, Function.update_of_ne hc]
    exact h.apart c'
  · rw [hphase, hc, Function.update_self, Function.update_self]
    exact hfollows
  · rw [hphase, Function.update_of_ne hc, Function.update_of_ne hc]
    refine (h.phase c').congr fun i hi => ?_
    exact ((hothers c' hc i).2 ((h.locks c' i).mpr (Or.inl hi))).symm
  · rw [hc, Function.update_self]
    exact hleft
  · rw [Function.update_of_ne hc, hcompleted c' hc]
    exact h.left c'

omit [DecidableEq C] in
/-- A lock goes from nobody to `c` or back. -/
theorem holder_update_iff {holder : I → Option C} {i : I} {x : Option C}
    (hx : x = none ∨ x = some c) (hi : holder i = none ∨ holder i = some c) {c' : C}
    (hc : c' ≠ c) (j : I) :
    Function.update holder i x j = some c' ↔ holder j = some c' := by
  by_cases hj : j = i
  · subst hj
    rw [Function.update_self]
    refine iff_of_false (fun heq => ?_) fun heq => ?_
    · rw [heq] at hx
      rcases hx with hx | hx
      · cases hx
      · exact hc (Option.some.inj hx)
    · rw [heq] at hi
      rcases hi with hi | hi
      · cases hi
      · exact hc (Option.some.inj hi)
  · rw [Function.update_of_ne hj]

/-- A lock is taken. The object under it is as the rules want it, since nobody had the lock. -/
theorem orderly_acquire (h : Orderly rules act left s own kept) {q : Q} {i : I}
    {next : Txn I O A R} {releasing : Bool}
    (hc : s.phase c = .running q (.acquire i next) releasing) (hfree : s.holder i = none) :
    Orderly rules act left
      { s with
        holder := Function.update s.holder i (some c)
        phase := Function.update s.phase c (.running q next releasing) }
      (Function.update own c (insert i (own c))) (Function.update kept c (kept c)) := by
  have hwp := h.phase c
  rw [hc] at hwp
  -- The lock is free, so the client neither has taken it nor has kept it.
  have hnew : i ∉ own c ∧ i ∉ kept c := by
    have hno := mt (h.locks c i).mpr (by rw [hfree]; simp)
    exact ⟨fun hi => hno (Or.inl hi), fun hi => hno (Or.inr hi)⟩
  refine h.update rfl (fun c' hc' j => ⟨?_, fun _ => rfl⟩) (fun _ _ => rfl) ?_ ?_ ?_ ?_ (h.left c)
  · exact holder_update_iff (Or.inr rfl) (Or.inl hfree) hc' j
  · intro j hj
    change Function.update s.holder i (some c) j = none at hj
    by_cases hji : j = i
    · rw [hji, Function.update_self] at hj
      cases hj
    · rw [Function.update_of_ne hji] at hj
      exact h.resting j hj
  · intro j
    by_cases hji : j = i
    · simp [hji]
    · simp only [Function.update_of_ne hji, Set.mem_insert_iff, hji, false_or]
      exact h.locks c j
  · exact Set.disjoint_insert_left.mpr ⟨hnew.2, h.apart c⟩
  · have hnext := hwp.2 hnew.1 (s.store i) (h.resting i hfree)
    rwa [Function.update_eq_self] at hnext

/-- A call changes an object that its client has locked, so no other program and no unlocked object
    is concerned. -/
theorem orderly_call (h : Orderly rules act left s own kept) {q : Q} {i : I} {o : O}
    {next : A o → Txn I O A R} {releasing : Bool}
    (hc : s.phase c = .running q (.call i o next) releasing) :
    Orderly rules act left
      { s with
        store := (serveAt act i o s.store).2
        phase := Function.update s.phase c (.running q (next (act o (s.store i)).1) releasing) }
      (Function.update own c (own c)) (Function.update kept c (kept c)) := by
  have hwp := h.phase c
  rw [hc] at hwp
  have hi : s.holder i = some c := (h.locks c i).mpr (Or.inl hwp.1)
  have hother : ∀ j, s.holder j ≠ some c → (serveAt act i o s.store).2 j = s.store j := by
    intro j hj
    refine Function.update_of_ne ?_ _ _
    rintro rfl
    exact hj hi
  refine h.update rfl (fun c' hc' j => ⟨Iff.rfl, fun hj => hother j ?_⟩) (fun _ _ => rfl) ?_
    (h.locks c) (h.apart c) hwp.2 (h.left c)
  · rw [hj, ne_eq, Option.some.injEq]
    exact hc'
  · intro j hj
    change rules.inv j ((serveAt act i o s.store).2 j)
    rw [hother j (by rw [show s.holder j = none from hj]; simp)]
    exact h.resting j hj

/-- A lock is given back, with the object as the rules want it. -/
theorem orderly_release (h : Orderly rules act left s own kept) {q : Q} {i : I}
    {next : Txn I O A R} {releasing : Bool} {order : List (C × Q)}
    (hc : s.phase c = .running q (.release i next) releasing) :
    Orderly rules act left
      { s with
        holder := Function.update s.holder i none
        phase := Function.update s.phase c (.running q next true)
        order := order }
      (Function.update own c (own c \ {i})) (Function.update kept c (kept c)) := by
  have hwp := h.phase c
  rw [hc] at hwp
  rcases hwp with ⟨hown, hinv, hnext⟩
  have hi : s.holder i = some c := (h.locks c i).mpr (Or.inl hown)
  have hkept : i ∉ kept c := Set.disjoint_left.mp (h.apart c) hown
  refine h.update rfl (fun c' hc' j => ⟨?_, fun _ => rfl⟩) (fun _ _ => rfl) ?_ ?_ ?_ hnext
    (h.left c)
  · exact holder_update_iff (Or.inl rfl) (Or.inr hi) hc' j
  · intro j hj
    change Function.update s.holder i none j = none at hj
    by_cases hji : j = i
    · rw [hji]
      exact hinv
    · rw [Function.update_of_ne hji] at hj
      exact h.resting j hj
  · intro j
    by_cases hji : j = i
    · simp [hji, hkept]
    · simp only [Function.update_of_ne hji, Set.mem_sdiff, Set.mem_singleton_iff, hji,
        not_false_eq_true, and_true]
      exact h.locks c j
  · exact (h.apart c).mono_left Set.sdiff_subset

/-- What a program still has when it returns is kept. -/
theorem orderly_ret (h : Orderly rules act left s own kept) {q : Q} {r : R} {releasing : Bool}
    {order : List (C × Q)} (hc : s.phase c = .running q (.ret r) releasing) :
    Orderly rules act left
      { s with
        phase := Function.update s.phase c .idle
        completed := Function.update s.completed c (s.completed c ++ [(q, r)])
        order := order }
      (Function.update own c ∅) (Function.update kept c (own c ∪ kept c)) := by
  have hwp := h.phase c
  rw [hc] at hwp
  refine h.update rfl (fun _ _ _ => ⟨Iff.rfl, fun _ => rfl⟩) ?_ h.resting ?_
    (Set.empty_disjoint _) rfl ?_
  · exact fun c' hc' => Function.update_of_ne hc' _ _
  · intro i
    rw [Set.mem_union, or_iff_right (Set.notMem_empty i)]
    exact h.locks c i
  · dsimp only
    rw [Function.update_self]
    exact .snoc _ _ _ _ (h.left c) hwp (h.apart c)

variable {prog : Q → Txn I O A R}

/-- A client is asked for a program that keeps to the rules. -/
theorem orderly_begin {q : Q} (h : Orderly rules act left s own kept)
    (hq : ∀ f, (prog q).wp rules act (fun r K _ => left (q, r) K) ∅ f)
    (hs : step act prog s (.begin c q) = some s') : Orderly rules act left s' own kept := by
  simp only [step] at hs
  split at hs
  · rename_i hidle
    cases hs
    have hown := h.phase c
    rw [hidle] at hown
    have hnext : Orderly rules act left
        { s with phase := Function.update s.phase c (.running q (prog q) false) }
        (Function.update own c (own c)) (Function.update kept c (kept c)) := by
      refine h.update rfl (fun _ _ _ => ⟨Iff.rfl, fun _ => rfl⟩) (fun _ _ => rfl) h.resting
        (h.locks c) (h.apart c) ?_ (h.left c)
      rw [show own c = ∅ from hown]
      exact hq s.store
    rwa [Function.update_eq_self, Function.update_eq_self] at hnext
  · cases hs

/-- A program takes its next step. -/
theorem orderly_advance (h : Orderly rules act left s own kept)
    (hs : step act prog s (.advance c) = some s') :
    Orderly rules act left s' (Function.update own c ((s.phase c).taken (own c)))
      (Function.update kept c ((s.phase c).kept (own c) (kept c))) := by
  simp only [step] at hs
  split at hs
  · cases hs
  · rename_i q p releasing hc
    rw [hc]
    cases p with
    | acquire i next =>
        simp only [Sys.exec] at hs
        split at hs
        · rename_i hfree
          cases hs
          exact orderly_acquire h hc hfree
        · cases hs
    | call i o next =>
        cases hs
        exact orderly_call h hc
    | release i next =>
        simp only [Sys.exec] at hs
        split at hs
        · cases hs
          exact orderly_release h hc
        · cases hs
    | ret r =>
        cases hs
        exact orderly_ret h hc

/-- One step of either kind: what was kept stays so. -/
theorem orderly_step {a : Action C Q} (h : Orderly rules act left s own kept)
    (hprog : ∀ q f, (prog q).wp rules act (fun r K _ => left (q, r) K) ∅ f)
    (hs : step act prog s a = some s') :
    ∃ own' kept', Orderly rules act left s' own' kept' ∧ ∀ c, kept c ⊆ kept' c := by
  cases a with
  | begin c q => exact ⟨own, kept, orderly_begin h (hprog q) hs, fun _ => Set.Subset.rfl⟩
  | advance c =>
      refine ⟨_, _, orderly_advance h hs, fun c' => ?_⟩
      by_cases hc : c' = c
      · rw [hc, Function.update_self]
        exact Phase.subset_kept _ _ _
      · rw [Function.update_of_ne hc]

/-- If every program keeps to the rules, then so do the clients in every run, and what was
    kept stays so. -/
theorem orderly_run {s₀ : Sys C I V O A Q R} (h₀ : Orderly rules act left s₀ own kept)
    (hs : Trace.Reaches (step act prog) Trace.Always s₀ s)
    (hprog : ∀ q f, (prog q).wp rules act (fun r K _ => left (q, r) K) ∅ f) :
    ∃ own' kept', Orderly rules act left s own' kept' ∧ ∀ c, kept c ⊆ kept' c := by
  induction hs with
  | init => exact ⟨own, kept, h₀, fun _ => Set.Subset.rfl⟩
  | step s a s' _ _ hstep ih =>
      rcases ih with ⟨own', kept', h, hsub⟩
      rcases orderly_step h hprog hstep with ⟨own'', kept'', h', hsub'⟩
      exact ⟨own'', kept'', h', fun c => (hsub c).trans (hsub' c)⟩

/-- If a client has something to do, then one of the clients can take a step, or one of them waits
    for a lock that was kept. Otherwise every lock that is waited for would be had by a client that
    waits for a later one, and the order is well-founded. -/
theorem progress (hwf : WellFounded fun i j => rules.before j i)
    (h : Orderly rules act left s own kept) (hc : s.phase c ≠ .idle) :
    (∃ c' s', step act prog s (.advance c') = some s') ∨
      ∃ c' q i next releasing c'', s.phase c' = .running q (.acquire i next) releasing ∧
        i ∈ kept c'' := by
  by_contra hstuck
  rw [not_or] at hstuck
  rcases hstuck with ⟨hnone, hkept⟩
  -- A client that has something to do waits.
  have hwaits : ∀ c, s.phase c ≠ .idle → ∃ q i next releasing c',
      s.phase c = .running q (.acquire i next) releasing ∧ s.holder i = some c' := by
    intro c hc
    have hwp := h.phase c
    cases hph : s.phase c with
    | idle => exact absurd hph hc
    | running q p releasing =>
        rw [hph] at hwp
        cases p with
        | acquire i next =>
            cases hi : s.holder i with
            | some c' => exact ⟨q, i, next, releasing, c', rfl, hi⟩
            | none =>
                exact absurd ⟨c, _, by simp only [step, hph, Sys.exec, hi, if_true]; rfl⟩ hnone
        | call i o next => exact absurd ⟨c, _, by simp only [step, hph]; rfl⟩ hnone
        | release i next =>
            have hi : s.holder i = some c := (h.locks c i).mpr (Or.inl hwp.1)
            exact absurd ⟨c, _, by simp only [step, hph, Sys.exec, hi, if_true]; rfl⟩ hnone
        | ret r => exact absurd ⟨c, _, by simp only [step, hph]; rfl⟩ hnone
  -- Whoever has the lock that is waited for waits for one that is after it.
  have hchain : ∀ i c q next releasing, s.phase c ≠ .running q (.acquire i next) releasing := by
    intro i
    induction i using hwf.induction with
    | _ i ih =>
        intro c q next releasing hc
        rcases hwaits c (by rw [hc]; simp) with ⟨q₁, i₁, next₁, releasing₁, c', hc₁, hi⟩
        rw [hc] at hc₁
        cases hc₁
        rcases (h.locks c' i).mp hi with hown | hk
        -- Its holder has taken it in a program, which is therefore under way and waits as well.
        · have hbusy : s.phase c' ≠ .idle := by
            intro hidle
            have hempty := h.phase c'
            rw [hidle] at hempty
            rw [show own c' = ∅ from hempty] at hown
            exact hown
          rcases hwaits c' hbusy with ⟨q', j, next', releasing', _, hc', _⟩
          have hwp := h.phase c'
          rw [hc'] at hwp
          exact ih j (hwp.1 i hown) c' q' next' releasing' hc'
        · exact hkept ⟨c, q, i, next, releasing, c', hc, hk⟩
  rcases hwaits c hc with ⟨q, i, next, releasing, _, hc, _⟩
  exact hchain i c q next releasing hc

end Orderly

end Serial

end Yfs
