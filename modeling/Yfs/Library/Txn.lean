import Mathlib.Data.Finset.Basic

/-!
# Programs over Locked Objects

Sequential programs whose only effects are taking a lock, giving one back, and
calling an object. The objects are named by `I`, a call `o : O` is answered by an
`A o`, and the program is a tree: what it does next is a function of the answer.

A tree commits to no implementation of the objects. `run` executes it against
anything that answers calls and takes the locks for granted. `runLocked` keeps
the set of locks the caller has: taking a lock that it already has never returns,
so the result is an option. Quantifying over the answering function covers every
content of the objects and every pattern of failures.

`withLock` brackets a program by a lock, which is how a program comes to give back
what it takes. `Balanced` is closed under it and under sequencing, so a program
written with it is balanced by construction.

## Main definitions

* `Txn`: The programs.
* `run`, `runLocked`: Executing them.
* `withLock`: A program bracketed by a lock.
* `LockFree`: A program without locks.
* `Returns`: A program returns, with these locks.
* `Balanced`: What the program takes, it gives back.

## Theorems

* `runLocked_bind`: Execution of a sequence.
* `runLocked_withLock`: Execution under a lock.
* `run_bind`, `run_withLock`: The same with every lock granted.
* `run_of_runLocked`: The locks decide whether a program returns, and nothing else.
* `LockFree.returns`, `Returns.bind`, `Returns.withLock`, `Returns.bracket`: When a program
  returns to a caller that has locks already.
* `balanced_withLock`, `balanced_bind`, `balanced_ite`: How balanced programs are built.
-/

namespace Yfs

/-- A program over objects named by `I`, with calls `O` answered by `A`. -/
inductive Txn (I O : Type) (A : O → Type) (α : Type) where
  | ret (a : α)
  | acquire (i : I) (next : Txn I O A α)
  | release (i : I) (next : Txn I O A α)
  | call (i : I) (o : O) (next : A o → Txn I O A α)

namespace Txn

variable {I O : Type} {A : O → Type} {α β σ : Type}

protected def bind : Txn I O A α → (α → Txn I O A β) → Txn I O A β
  | ret a, f => f a
  | acquire i next, f => acquire i (next.bind f)
  | release i next, f => release i (next.bind f)
  | call i o next, f => call i o fun x => (next x).bind f

instance : Monad (Txn I O A) where
  pure := ret
  bind := Txn.bind

def lock (i : I) : Txn I O A Unit :=
  acquire i (ret ())

def unlock (i : I) : Txn I O A Unit :=
  release i (ret ())

def ask (i : I) (o : O) : Txn I O A (A o) :=
  call i o ret

/-- Every way out of `p` passes the release. -/
def withLock (i : I) (p : Txn I O A α) : Txn I O A α := do
  lock i
  let a ← p
  unlock i
  return a

/-- Execution, with every lock granted at once. -/
def run (serve : I → (o : O) → σ → A o × σ) : Txn I O A α → σ → α × σ
  | ret a, s => (a, s)
  | acquire _ next, s => next.run serve s
  | release _ next, s => next.run serve s
  | call i o next, s => (next (serve i o s).1).run serve (serve i o s).2

/-- Execution by a caller that has the locks `held`. A second acquire of a lock
    that the caller has waits for its own release. -/
def runLocked [DecidableEq I] (serve : I → (o : O) → σ → A o × σ) :
    Txn I O A α → Finset I → σ → Option (α × Finset I × σ)
  | ret a, held, s => some (a, held, s)
  | acquire i next, held, s =>
      if i ∈ held then none else next.runLocked serve (insert i held) s
  | release i next, held, s => next.runLocked serve (held.erase i) s
  | call i o next, held, s =>
      (next (serve i o s).1).runLocked serve held (serve i o s).2

section RunLocked

variable [DecidableEq I] (serve : I → (o : O) → σ → A o × σ)

@[simp]
theorem runLocked_pure (a : α) (held : Finset I) (s : σ) :
    (pure a : Txn I O A α).runLocked serve held s = some (a, held, s) := rfl

theorem runLocked_lock (i : I) (held : Finset I) (s : σ) :
    (lock i : Txn I O A Unit).runLocked serve held s
      = if i ∈ held then none else some ((), insert i held, s) := rfl

/-- A sequence runs its first part and then, if that has returned, the second with the locks and the
    state that are left. -/
theorem runLocked_bind (p : Txn I O A α) (f : α → Txn I O A β) (held : Finset I) (s : σ) :
    (p >>= f).runLocked serve held s
      = (p.runLocked serve held s).bind fun r => (f r.1).runLocked serve r.2.1 r.2.2 := by
  change (p.bind f).runLocked serve held s = _
  induction p generalizing held s with
  | ret a => rfl
  | acquire i next ih =>
      -- Only an acquire can block, and then the continuation is not reached.
      simp only [Txn.bind, runLocked]
      by_cases hi : i ∈ held
      · rw [if_pos hi, if_pos hi]
        rfl
      · rw [if_neg hi, if_neg hi]
        exact ih (insert i held) s
  | release i next ih => exact ih (held.erase i) s
  | call i o next ih => exact ih (serve i o s).1 held (serve i o s).2

/-- A bracket blocks if the caller has the lock, and else gives it back whatever its body
    returns. -/
theorem runLocked_withLock (i : I) (p : Txn I O A α) (held : Finset I) (s : σ) :
    (withLock i p).runLocked serve held s
      = if i ∈ held then none
        else (p.runLocked serve (insert i held) s).map fun r => (r.1, r.2.1.erase i, r.2.2) := by
  simp only [withLock, runLocked_bind, lock, runLocked]
  by_cases hi : i ∈ held
  · rw [if_pos hi, if_pos hi]
    rfl
  · rw [if_neg hi, if_neg hi, Option.map_eq_bind]
    rfl

/-- What returns under locks returns the same with every lock granted. -/
theorem run_of_runLocked {p : Txn I O A α} {held : Finset I} {s : σ} {r : α × Finset I × σ}
    (h : p.runLocked serve held s = some r) : p.run serve s = (r.1, r.2.2) := by
  induction p generalizing held s with
  | ret a =>
      cases h
      rfl
  | acquire i next ih =>
      simp only [runLocked] at h
      by_cases hi : i ∈ held
      · rw [if_pos hi] at h
        cases h
      · rw [if_neg hi] at h
        exact ih h
  | release i next ih => exact ih h
  | call i o next ih => exact ih (serve i o s).1 h

end RunLocked

section Run

variable (serve : I → (o : O) → σ → A o × σ)

@[simp]
theorem run_pure (a : α) (s : σ) : (pure a : Txn I O A α).run serve s = (a, s) := rfl

@[simp]
theorem run_lock (i : I) (s : σ) : (lock i : Txn I O A Unit).run serve s = ((), s) := rfl

@[simp]
theorem run_unlock (i : I) (s : σ) : (unlock i : Txn I O A Unit).run serve s = ((), s) := rfl

@[simp]
theorem run_ask (i : I) (o : O) (s : σ) :
    (ask i o : Txn I O A (A o)).run serve s = serve i o s := rfl

/-- With every lock granted a sequence is a sequence of state transformers. -/
@[simp]
theorem run_bind (p : Txn I O A α) (f : α → Txn I O A β) (s : σ) :
    (p >>= f).run serve s = (f (p.run serve s).1).run serve (p.run serve s).2 := by
  change (p.bind f).run serve s = _
  induction p generalizing s with
  | ret a => rfl
  | acquire i next ih => exact ih s
  | release i next ih => exact ih s
  | call i o next ih => exact ih (serve i o s).1 (serve i o s).2

/-- With every lock granted, a bracket makes no difference. -/
@[simp]
theorem run_withLock (i : I) (p : Txn I O A α) (s : σ) :
    (withLock i p).run serve s = p.run serve s := by
  simp only [withLock, run_bind, run_lock, run_unlock, run_pure]

end Run

section LockFree

/-- No lock is taken or given back, whatever the calls answer. -/
def LockFree : Txn I O A α → Prop
  | ret _ => True
  | acquire _ _ => False
  | release _ _ => False
  | call _ _ next => ∀ x, (next x).LockFree

theorem lockFree_pure (a : α) : (pure a : Txn I O A α).LockFree :=
  trivial

theorem lockFree_ask (i : I) (o : O) : (ask i o : Txn I O A (A o)).LockFree :=
  fun _ => trivial

/-- A sequence without locks is made of parts without locks. -/
theorem LockFree.bind {p : Txn I O A α} {f : α → Txn I O A β} (hp : p.LockFree)
    (hf : ∀ a, (f a).LockFree) : (p >>= f).LockFree := by
  change (p.bind f).LockFree
  induction p with
  | ret a => exact hf a
  | acquire i next _ => exact hp.elim
  | release i next _ => exact hp.elim
  | call i o next ih => exact fun x => ih x (hp x)

theorem LockFree.ite {c : Prop} [Decidable c] {p q : Txn I O A α} (hp : p.LockFree)
    (hq : q.LockFree) : (if c then p else q).LockFree := by
  split
  · exact hp
  · exact hq

variable [DecidableEq I] (serve : I → (o : O) → σ → A o × σ)

/-- A program without locks returns, and its caller has the locks it had. The induction is on the
    program, with the answers of the calls as they come. -/
theorem LockFree.runLocked {p : Txn I O A α} (hp : p.LockFree) (held : Finset I) (s : σ) :
    p.runLocked serve held s = some ((p.run serve s).1, held, (p.run serve s).2) := by
  induction p generalizing s with
  | ret a => rfl
  | acquire i next _ => exact hp.elim
  | release i next _ => exact hp.elim
  | call i o next ih => exact ih (serve i o s).1 (hp _) (serve i o s).2

end LockFree

section Returns

variable [DecidableEq I] (serve : I → (o : O) → σ → A o × σ)

/-- A caller that has the locks `held` gets those that the program takes, and has `held'` when
    it returns. -/
def Returns (p : Txn I O A α) (held : Finset I) (s : σ) (held' : Finset I) : Prop :=
  p.runLocked serve held s = some ((p.run serve s).1, held', (p.run serve s).2)

variable {serve} {held held' held'' : Finset I} {s : σ}

theorem returns_pure (a : α) : Returns serve (pure a : Txn I O A α) held s held :=
  rfl

theorem returns_lock {i : I} (hi : i ∉ held) :
    Returns serve (lock i : Txn I O A Unit) held s (insert i held) := by
  rw [Returns, runLocked_lock, if_neg hi]
  rfl

theorem LockFree.returns {p : Txn I O A α} (hp : p.LockFree) : Returns serve p held s held :=
  hp.runLocked serve held s

/-- A sequence returns if its first part does and its second part does from there. -/
theorem Returns.bind {p : Txn I O A α} {f : α → Txn I O A β} (h : Returns serve p held s held')
    (hf : Returns serve (f (p.run serve s).1) held' (p.run serve s).2 held'') :
    Returns serve (p >>= f) held s held'' := by
  rw [Returns, runLocked_bind, h, run_bind]
  exact hf

/-- Under a lock that the caller does not have. -/
theorem Returns.withLock {p : Txn I O A α} {i : I} (h : Returns serve p (insert i held) s held')
    (hi : i ∉ held) : Returns serve (withLock i p) held s (held'.erase i) := by
  rw [Returns, runLocked_withLock, if_neg hi, h, run_withLock]
  rfl

/-- A bracket around a program that keeps nothing. -/
theorem Returns.bracket {p : Txn I O A α} {i : I}
    (h : Returns serve p (insert i held) s (insert i held)) (hi : i ∉ held) :
    Returns serve (Txn.withLock i p) held s held := by
  have hleft := h.withLock hi
  rw [Finset.erase_insert hi] at hleft
  exact hleft

end Returns

section Balanced

variable [DecidableEq I]

/-- Whatever the calls answer, an execution that returns leaves the caller with
    the locks it came with. -/
def Balanced (p : Txn I O A α) : Prop :=
  ∀ (σ : Type) (serve : I → (o : O) → σ → A o × σ) (held : Finset I) (s : σ)
    (r : α × Finset I × σ), p.runLocked serve held s = some r → r.2.1 = held

theorem balanced_pure (a : α) : Balanced (pure a : Txn I O A α) := by
  intro σ serve held s r h
  cases h
  rfl

theorem balanced_ask (i : I) (o : O) : Balanced (ask i o : Txn I O A (A o)) := by
  intro σ serve held s r h
  cases h
  rfl

/-- Balance is kept by sequences, branches and brackets, which is all that the operations are made
    of. -/
theorem balanced_bind (p : Txn I O A α) (f : α → Txn I O A β) (hp : Balanced p)
    (hf : ∀ a, Balanced (f a)) : Balanced (p >>= f) := by
  intro σ serve held s r h
  rw [runLocked_bind] at h
  rcases Option.bind_eq_some_iff.mp h with ⟨q, hq, hr⟩
  rw [hf q.1 σ serve _ _ r hr, hp σ serve _ _ q hq]

theorem balanced_ite {c : Prop} [Decidable c] (p q : Txn I O A α) (hp : Balanced p)
    (hq : Balanced q) : Balanced (if c then p else q) := by
  split
  · exact hp
  · exact hq

/-- A bracket is balanced if its body is. -/
theorem balanced_withLock (i : I) (p : Txn I O A α) (hp : Balanced p) :
    Balanced (withLock i p) := by
  intro σ serve held s r h
  rw [runLocked_withLock] at h
  split at h
  · exact absurd h (by simp only [reduceCtorEq, not_false_eq_true])
  · rename_i hi
    rcases Option.map_eq_some_iff.mp h with ⟨q, hq, rfl⟩
    change q.2.1.erase i = held
    rw [hp σ serve _ _ q hq]
    -- The lock was not held before, so giving it back undoes taking it.
    exact Finset.erase_insert hi

end Balanced

end Txn

end Yfs
