import Yfs.Core.ThreadPool
import Yfs.Library.CondVar

/-!
# The Queue with Its Condition Variables

`fifo<T>` for any number of threads, with what `Fifo` leaves out: the threads that wait for an
entry or for space, and the signals.

`enq` and `deq` run under `m_`, and a thread that waits goes round its loop when it has been
woken and has `m_` again. So each is one section up to its return or its wait, and one more for
every wait. An action comes with the thread that its signal wakes, any one of those that wait.

`entered` and `taken` are not fields of the source. They list what has been entered and what
has been taken, oldest first.

## Main definitions

* `BlockingFifo`, `FifoAction`: The queue and its threads.
* `BlockingFifo.enqLoop`, `BlockingFifo.deqLoop`: One turn of each loop.
* `BlockingFifo.step`: The sections.
-/

namespace Yfs

/-- `hasSpace` has the threads in `enq`, with what they enter. -/
structure BlockingFifo (T α : Type) where
  fifo : Fifo α
  nonEmpty : CondVar T
  hasSpace : CondVar (T × α)
  entered : List α
  taken : List α

inductive FifoAction (T α : Type) where
  | enq (t : T) (e : α) (blocking : Bool) (next : Option T)
  | deq (t : T) (next : Option (T × α))
  | enqResumes (t : T) (e : α) (next : Option T)
  | deqResumes (t : T) (next : Option (T × α))
  /-- A wait ends without a signal. -/
  | enqWakes (t : T) (e : α)
  | deqWakes (t : T)

namespace BlockingFifo

variable {T α : Type}

def new (T α : Type) (limit : Nat) : BlockingFifo T α where
  fifo := ⟨[], limit⟩
  nonEmpty := .new
  hasSpace := .new
  entered := []
  taken := []

variable [DecidableEq T] [DecidableEq α]

omit [DecidableEq α] in
/-- One turn of the loop of `enq`. Without `blocking` it returns false if there is no space. -/
def enqLoop (s : BlockingFifo T α) (t : T) (e : α) (blocking : Bool) (next : Option T) :
    Option (BlockingFifo T α) :=
  match s.fifo.enq e with
  | some fifo => (s.nonEmpty.signal next).map fun nonEmpty =>
      { s with fifo, nonEmpty, entered := s.entered ++ [e] }
  -- The loop tests the condition again after every wait, so a wake-up is no promise.
  | none =>
    if blocking then some { s with hasSpace := s.hasSpace.wait (t, e) } else some s

/-- One turn of the loop of `deq`. A queue without a limit has no one to signal. -/
def deqLoop (s : BlockingFifo T α) (t : T) (next : Option (T × α)) :
    Option (BlockingFifo T α) :=
  match s.fifo.deq with
  | some (e, fifo) =>
    -- Tested after the entry has been taken, so a queue with a limit always has space here.
    if fifo.max ≠ 0 ∧ fifo.q.length < fifo.max then
      (s.hasSpace.signal next).map fun hasSpace =>
        { s with fifo, hasSpace, taken := s.taken ++ [e] }
    else some { s with fifo, taken := s.taken ++ [e] }
  | none => some { s with nonEmpty := s.nonEmpty.wait t }

def step (s : BlockingFifo T α) : FifoAction T α → Option (BlockingFifo T α)
  | .enq t e blocking next => s.enqLoop t e blocking next
  | .deq t next => s.deqLoop t next
  | .enqResumes t e next =>
    if (t, e) ∈ s.hasSpace.woken then
      enqLoop { s with hasSpace := s.hasSpace.resume (t, e) } t e true next
    else none
  | .deqResumes t next =>
    if t ∈ s.nonEmpty.woken then
      deqLoop { s with nonEmpty := s.nonEmpty.resume t } t next
    else none
  -- `pthread_cond_wait` may return without a signal.
  | .enqWakes t e =>
    if (t, e) ∈ s.hasSpace.waiting then some { s with hasSpace := s.hasSpace.wake (t, e) }
    else none
  | .deqWakes t =>
    if t ∈ s.nonEmpty.waiting then some { s with nonEmpty := s.nonEmpty.wake t } else none

end BlockingFifo

end Yfs
