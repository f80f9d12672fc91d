import Mathlib.Logic.Function.Basic

/-!
# The Blocking Lock Server

`lock_server`, in which a request for a lock that is taken waits inside its handler.

The handlers run under `lockmap_mutex`, so a handler is one section, or two if it waits: up to
`pthread_cond_wait`, and after it. `lock_inuse_map` counts the requests for a lock, those that
wait included. A request waits once. It is not tested again when the wait ends whether the
lock is free, so the lock is handed over by the signal of `release`, and a wait that ends
without one takes the lock as well.

Clients may ask for anything at any time. `release` does not look at who asks: it signals and
counts down for a client that does not have the lock as well, and `releasesOwn` tells such
requests apart. `pthread_cond_signal` wakes one of the waiting requests, any of them; waits
that end without a signal are an action of their own. `held` lists the clients whose `acquire`
has returned, and `spurious` counts the waits that ended without a signal; they are not fields
of the source. `nacquire` is never changed.

## Main definitions

* `BlockingLockServer`: The server and its handlers.
* `BlockingAction`, `BlockingLockServer.step`: What happens to it.
* `BlockingLockServer.releasesOwn`: A client releases what it has.
-/

namespace Yfs

/-- `waiting` is `lock_cv_map` with the requests in `pthread_cond_wait`, and `woken` the ones
    that have been woken and have not returned yet. -/
structure BlockingLockServer (L C : Type) where
  lockInuseMap : L → Option Int
  waiting : L → List C
  woken : L → List C
  held : L → List C
  spurious : L → Nat

inductive BlockingAction (L C : Type) where
  | acquire (clt : C) (lid : L)
  /-- `next` is the request that the signal wakes. -/
  | release (clt : C) (lid : L) (next : Option C)
  | wake (clt : C) (lid : L)
  | returns (clt : C) (lid : L)

namespace BlockingLockServer

variable {L C : Type}

def new (L C : Type) : BlockingLockServer L C where
  lockInuseMap := fun _ => none
  waiting := fun _ => []
  woken := fun _ => []
  held := fun _ => []
  spurious := fun _ => 0

variable [DecidableEq L] [DecidableEq C]

def setInuse (s : BlockingLockServer L C) (lid : L) (n : Int) : BlockingLockServer L C :=
  { s with lockInuseMap := Function.update s.lockInuseMap lid (some n) }

/-- The handler returns `OK`. -/
def grant (s : BlockingLockServer L C) (clt : C) (lid : L) : BlockingLockServer L C :=
  { s with held := Function.update s.held lid (clt :: s.held lid) }

def wait (s : BlockingLockServer L C) (clt : C) (lid : L) : BlockingLockServer L C :=
  { s with waiting := Function.update s.waiting lid (clt :: s.waiting lid) }

/-- `lock_server::acquire`, up to its wait. -/
def acquire (s : BlockingLockServer L C) (clt : C) (lid : L) : BlockingLockServer L C :=
  match s.lockInuseMap lid with
  | none => (s.setInuse lid 1).grant clt lid
  | some n =>
    -- The counter counts the requests; it was 0 if the lock is free.
    if n + 1 = 1 then (s.setInuse lid (n + 1)).grant clt lid
    else (s.setInuse lid (n + 1)).wait clt lid

/-- A wait ends. -/
def unwait (s : BlockingLockServer L C) (clt : C) (lid : L) : BlockingLockServer L C :=
  { s with
    waiting := Function.update s.waiting lid ((s.waiting lid).erase clt)
    woken := Function.update s.woken lid (clt :: s.woken lid) }

/-- `pthread_cond_signal`, which does nothing if there is no one to wake. -/
def signal (s : BlockingLockServer L C) (lid : L) : Option C → Option (BlockingLockServer L C)
  | none => if s.waiting lid = [] then some s else none
  | some clt => if clt ∈ s.waiting lid then some (s.unwait clt lid) else none

/-- `lock_server::release`. For a lock that is not in the map, `iter` is past the end and
    nothing is known of what happens. -/
def release (s : BlockingLockServer L C) (clt : C) (lid : L) (next : Option C) :
    Option (BlockingLockServer L C) := do
  -- The signal comes first, but the mutex is held until the counter is down.
  let s ← s.signal lid next
  let n ← s.lockInuseMap lid
  return { s.setInuse lid (n - 1) with
    held := Function.update s.held lid ((s.held lid).erase clt) }

def step (s : BlockingLockServer L C) : BlockingAction L C → Option (BlockingLockServer L C)
  | .acquire clt lid => some (s.acquire clt lid)
  | .release clt lid next => s.release clt lid next
  -- The wait is not in a loop, so a wait that ends without a signal grants the lock.
  | .wake clt lid =>
    if clt ∈ s.waiting lid then
      some { s.unwait clt lid with
        spurious := Function.update s.spurious lid (s.spurious lid + 1) }
    else none
  | .returns clt lid =>
    if clt ∈ s.woken lid then
      some { s.grant clt lid with woken := Function.update s.woken lid ((s.woken lid).erase clt) }
    else none

/-- A request to release a lock comes from a client that has it. -/
def releasesOwn (s : BlockingLockServer L C) : BlockingAction L C → Bool
  | .release clt lid _ => decide (clt ∈ s.held lid)
  | _ => true

end BlockingLockServer

end Yfs
