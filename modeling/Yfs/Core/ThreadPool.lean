import Mathlib.Algebra.Group.Nat.Defs
import Mathlib.Data.Fin.Basic
import Mathlib.Logic.Function.Basic

/-!
# The Thread Pool

`fifo<T>` and `ThrPool`: threads that add jobs, `sz` workers that take them, and the
destructor, all on one bounded queue.

The critical sections of the queue are one action each. A thread that waits for space or
for an entry tests again when it is woken, so a wait is an action that is not enabled, and
it does not matter which signal ends it or whether one was needed.

An entry of the queue is a job or a poison pill, which is a job whose function is `NULL`.
Every call of `addObjJob` allocates its own wrapper, so jobs are told apart by the call
that made them; what a job does is left open. With `blockadd_` a call that finds the queue
full waits inside `enq` (`blocked`), and without it the call returns false.

The destructor may only run when no other thread uses the pool or is blocked in it, as the
comment on it says: it starts when `blocked` is empty, and no call is made afterwards. It
adds a pill for every worker and then joins the workers in order.

`accepted`, `refused` and `taken` are not fields of the source. They list the jobs for
which `addObjJob` has entered or refused the job, and what the workers took, oldest first.

## Main definitions

* `Fifo`, `enq`, `deq`: The queue.
* `ThrPool`, `PoolAction`, `ThrPool.step`: The pool.
-/

namespace Yfs

/-- `fifo<T>`. A limit of 0 is none. -/
structure Fifo (α : Type) where
  q : List α
  max : Nat

namespace Fifo

variable {α : Type}

/-- `enq` once there is space. -/
def enq (f : Fifo α) (e : α) : Option (Fifo α) :=
  if f.max = 0 ∨ f.q.length < f.max then some { f with q := f.q ++ [e] } else none

/-- `deq` once there is an entry. -/
def deq (f : Fifo α) : Option (α × Fifo α) :=
  match f.q with
  | [] => none
  | e :: q => some (e, { f with q })

end Fifo

/-- A job, with the number of the call of `addObjJob` that made it. -/
structure Job (A : Type) where
  call : Nat
  arg : A
  deriving DecidableEq, Repr

/-- A thread in `do_worker`. -/
inductive Worker (A : Type) where
  | waiting
  | running (j : Job A)
  | exited
  deriving DecidableEq, Repr

/-- The destructor, with the pills it has added or the workers it has joined. -/
inductive Destructor where
  | notStarted
  | adding (pills : Nat)
  | joining (joined : Nat)
  deriving DecidableEq, Repr

structure ThrPool (A : Type) (sz : Nat) where
  blockadd : Bool
  jobq : Fifo (Option (Job A))
  workers : Fin sz → Worker A
  blocked : List (Job A)
  destructor : Destructor
  calls : Nat
  accepted : List (Job A)
  refused : List (Job A)
  taken : List (Fin sz × Option (Job A))

inductive PoolAction (A : Type) (sz : Nat) where
  | addObjJob (a : A)
  | enterBlocked (i : Nat)
  | takeJob (w : Fin sz)
  | finishJob (w : Fin sz)
  | destroy
  | addPill
  | join

namespace ThrPool

variable {A : Type} {sz : Nat}

/-- The constructor. The limit of the queue is an `unsigned int`. -/
def new (A : Type) (sz : Nat) (blocking : Bool) : ThrPool A sz where
  blockadd := blocking
  jobq := ⟨[], 100 * sz % 2 ^ 32⟩
  workers := fun _ => .waiting
  blocked := []
  destructor := .notStarted
  calls := 0
  accepted := []
  refused := []
  taken := []

/-- `addObjJob`, up to its return or to the wait for space. -/
def addObjJob (s : ThrPool A sz) (a : A) : ThrPool A sz :=
  let j : Job A := ⟨s.calls, a⟩
  let s := { s with calls := s.calls + 1 }
  -- `addJob` calls `enq(j, blockadd_)`: a full queue blocks the caller or refuses the job.
  match s.jobq.enq (some j) with
  | some jobq => { s with jobq, accepted := s.accepted ++ [j] }
  | none =>
    if s.blockadd then { s with blocked := s.blocked ++ [j] }
    else { s with refused := s.refused ++ [j] }

/-- A call that has waited for space goes on. -/
def enterBlocked (s : ThrPool A sz) (i : Nat) : Option (ThrPool A sz) := do
  let j ← s.blocked[i]?
  let jobq ← s.jobq.enq (some j)
  some { s with jobq, blocked := s.blocked.eraseIdx i, accepted := s.accepted ++ [j] }

/-- `takeJob`. A worker that takes a pill ends. -/
def takeJob (s : ThrPool A sz) (w : Fin sz) : Option (ThrPool A sz) := do
  let (e, jobq) ← s.jobq.deq
  some { s with
    jobq
    workers := Function.update s.workers w (match e with
      | some j => .running j
      | none => .exited)
    taken := s.taken ++ [(w, e)] }

/-- The loop that adds the pills goes on, or the loop that joins begins. -/
def added (sz n : Nat) : Destructor :=
  if n < sz then .adding n else .joining 0

/-- `jobq_.enq(j)` of the destructor. -/
def addPill (s : ThrPool A sz) (n : Nat) : Option (ThrPool A sz) := do
  let jobq ← s.jobq.enq none
  some { s with jobq, destructor := added sz (n + 1) }

def step (s : ThrPool A sz) : PoolAction A sz → Option (ThrPool A sz)
  -- The destructor may run only when nobody uses the pool any more, nor is blocked in it.
  | .addObjJob a => if s.destructor = .notStarted then some (s.addObjJob a) else none
  | .enterBlocked i => s.enterBlocked i
  | .takeJob w =>
    match s.workers w with
    | .waiting => s.takeJob w
    | _ => none
  | .finishJob w =>
    match s.workers w with
    | .running _ => some { s with workers := Function.update s.workers w .waiting }
    | _ => none
  | .destroy =>
    if s.destructor = .notStarted ∧ s.blocked.isEmpty = true then
      some { s with destructor := added sz 0 }
    else none
  | .addPill =>
    match s.destructor with
    | .adding n => s.addPill n
    | _ => none
  -- `pthread_join(th_[k])`: the workers are waited for in the order in which they were made.
  | .join =>
    match s.destructor with
    | .joining k =>
      if h : k < sz then
        match s.workers ⟨k, h⟩ with
        | .exited => some { s with destructor := .joining (k + 1) }
        | _ => none
      else none
    | _ => none

end ThrPool

end Yfs
