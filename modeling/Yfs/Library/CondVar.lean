import Mathlib.Data.List.Basic

/-!
# Condition Variables

The threads that wait for something to become available, and how many of them know.

A thread that waits is woken by a signal, which goes to any one of those that wait, or wakes
up without one. Being woken is not having run: the thread is in `woken` until it gets the mutex
again, and what it was woken for may be gone by then, in which case it waits again.

`Served` relates the two lists to the number of things that are available. If each thing that
becomes available comes with a signal, then while any thread is still waiting there are as many
on their way as there are things to take. Things may be taken by a thread that never waited;
that leaves one too many on their way, and does no harm.

## Main definitions

* `CondVar`: The threads.
* `wait`, `wake`, `signal`, `resume`: What happens to them.
* `Served`: Enough threads have been woken.

## Theorems

* `Served.signal`, `Served.resume`, `Served.wake`, `Served.mono`, `served_wait`: The uses.
-/

namespace Yfs

/-- The threads in a wait, and those whose wait has ended and who have not run yet. -/
structure CondVar (A : Type) where
  waiting : List A
  woken : List A
  deriving DecidableEq, Repr

namespace CondVar

variable {A : Type}

def new : CondVar A where
  waiting := []
  woken := []

def wait (c : CondVar A) (a : A) : CondVar A :=
  { c with waiting := a :: c.waiting }

section Wake

variable [DecidableEq A]

/-- The wait of a thread ends. -/
def wake (c : CondVar A) (a : A) : CondVar A where
  waiting := c.waiting.erase a
  woken := a :: c.woken

/-- A signal to the given thread; it does nothing if there is no one to wake. -/
def signal (c : CondVar A) : Option A → Option (CondVar A)
  | none => if c.waiting = [] then some c else none
  | some a => if a ∈ c.waiting then some (c.wake a) else none

/-- A thread that has been woken runs. -/
def resume (c : CondVar A) (a : A) : CondVar A :=
  { c with woken := c.woken.erase a }

end Wake

/-- While threads are waiting, `n` others have been woken. -/
def Served (c : CondVar A) (n : Nat) : Prop :=
  c.waiting ≠ [] → n ≤ c.woken.length

variable {c c' : CondVar A} {n m : Nat}

theorem served_new (n : Nat) : (new : CondVar A).Served n :=
  fun h => absurd rfl h

theorem Served.mono (h : c.Served n) (hm : m ≤ n) : c.Served m :=
  fun hw => Nat.le_trans hm (h hw)

/-- A thread waits when there is nothing to take. -/
theorem served_wait (c : CondVar A) (a : A) : (c.wait a).Served 0 :=
  fun _ => Nat.zero_le _

variable [DecidableEq A]

theorem Served.wake (h : c.Served n) (a : A) : (c.wake a).Served (n + 1) := by
  intro hw
  have hwaiting : c.waiting ≠ [] := by
    intro hnil
    rw [CondVar.wake, hnil] at hw
    exact hw (List.erase_nil a)
  have := h hwaiting
  simp only [CondVar.wake, List.length_cons]
  omega

/-- One more thing is available, and it is announced. -/
theorem Served.signal (h : c.Served n) {next : Option A} (hs : c.signal next = some c') :
    c'.Served (n + 1) := by
  cases next with
  -- A signal that wakes nobody finds nobody waiting, so that nothing is promised.
  | none =>
      rcases Option.ite_none_right_eq_some.mp hs with ⟨hnil, heq⟩
      cases heq
      exact fun hw => absurd hnil hw
  | some a =>
      rcases Option.ite_none_right_eq_some.mp hs with ⟨-, heq⟩
      cases heq
      exact h.wake a

/-- A thread that was woken takes one. -/
theorem Served.resume (h : c.Served (n + 1)) {a : A} (ha : a ∈ c.woken) :
    (c.resume a).Served n := by
  intro hw
  have hlength := List.length_erase_add_one ha
  have := h hw
  simp only [CondVar.resume]
  omega

end CondVar

end Yfs
