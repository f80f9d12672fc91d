import Yfs.Library.Trace
import Mathlib.Data.List.Nodup

/-!
# The Caching Lock Protocol

The lock service as one transition system: any number of `lock_client_cache`
processes, each with any number of application threads and its `give_back`
thread, and the single `lock_server_cache`.

Every critical section of the source is one action. Two mutexes are held across
a remote call and are therefore part of the state: `acquire` keeps its client's
`lockmap_mutex` while it calls the server, and the server's `release` keeps
`serverlock_mutex` while it calls `retry`. Everything else takes and drops its
mutex inside one action, which is enabled only while the mutex is free.

A remote call is a value inside the caller's program counter. `AcquireCall` and
`ReleaseCall` follow the server's handler for that call, because the handler is
identified by the thread that is blocked in it: a thread has at most one call
outstanding, and calls are delivered and executed exactly once. The callbacks
`revoke` and `retry` are in turn values inside the server handler that issued
them.

`give_back` tests a lock for `FREE` without taking the mutex and overwrites the
state later under the mutex, so it is two actions. After the overwrite it runs
the same steps as a `release` whose lock was revoked.

Remote calls do not time out. The server's `acquire` reads the owner it revokes
after it has dropped its mutex, so it can read the empty id; the bind to that
address then never returns, and the handler stays where it is.

## Main definitions

* `ClientLockState`, `Status`: The protocol's enumerations.
* `AcquireCall`, `ReleaseCall`: How far the server is with a call.
* `ThreadPc`: Where a client thread is.
* `Sys`: The state of all clients and the server.
* `acquireLoop`, `releaseBody`, `revokeHandler`, `retryHandler`: The client's
  critical sections.
* `serverAcquire`, `serverRelease`: The server's critical sections.
* `Action`, `step`: The interleaved system.
-/

namespace Yfs

namespace LockProtocol

/-- `client_lock_state`: what a client believes about one lock. -/
inductive ClientLockState where
  | none
  | free
  | locked
  | acquiring
  | releasing
  deriving DecidableEq, Repr

/-- `lock_protocol::xxstatus`. -/
inductive Status where
  | ok
  | retry
  | rpcerr
  | noent
  | ioerr
  deriving DecidableEq, Repr

/-- How far the server's `acquire` handler is with one call. -/
inductive AcquireCall (C : Type) where
  /-- The handler waits for `serverlock_mutex`. -/
  | sent
  /-- The requester is in the waiting list; the mutex has been dropped. -/
  | queued (needRevoke : Bool)
  /-- The handler is inside the `revoke` call to this address. -/
  | revoking (owner : Option C)
  /-- The owner's `revoke_handler` has returned. -/
  | revoked
  /-- The handler has returned this status. -/
  | replied (st : Status)
  deriving DecidableEq, Repr

/-- How far the server's `release` handler is with one call. -/
inductive ReleaseCall (C : Type) where
  /-- The handler waits for `serverlock_mutex`. -/
  | sent
  /-- The handler holds the mutex inside the `retry` call to this client. -/
  | retrying (c : C)
  /-- That client's `retry_handler` has returned; the mutex is still held. -/
  | retried (c : C)
  /-- The handler has returned. -/
  | replied
  deriving DecidableEq, Repr

/-- Where a client thread is in `acquire`, `release` or `give_back`. -/
inductive ThreadPc (C L : Type) where
  /-- Outside the lock client (`give_back`: asleep). -/
  | idle
  /-- Entering `acquire`, before it has `lockmap_mutex`. -/
  | acquire (lid : L)
  /-- Inside the `acquire` call, with `lockmap_mutex` held. -/
  | acquireRpc (lid : L) (call : AcquireCall C)
  /-- In `pthread_cond_wait` on the lock's condition variable. -/
  | condWait (lid : L)
  /-- Entering `release`, before it has `lockmap_mutex`. -/
  | release (lid : L)
  /-- `give_back` has read `FREE` and not yet taken `lockmap_mutex`. -/
  | tested (lid : L)
  /-- In `lu->dorelease`, the state already being `NONE`. -/
  | dorelease (lid : L)
  /-- Inside the `release` call, with no mutex held. -/
  | releaseRpc (lid : L) (call : ReleaseCall C)
  deriving DecidableEq, Repr

/-- A client's threads: the application's, and the one started by the
    constructor. -/
inductive ThreadId (T : Type) where
  | app (t : T)
  | giveBack
  deriving DecidableEq, Repr

/-- All clients and the server. Maps of the source are functions into `Option`;
    in `whereIsLock` the inner `none` is the empty id. `holds` is not a field of
    the source: it records the threads between a return of `acquire` and their
    next call of `release`. -/
structure Sys (C T L : Type) where
  lockstateMap : C × L → Option ClientLockState
  lockCvMap : C × L → Bool
  lockmapMutex : C → Option (ThreadId T)
  thread : C × ThreadId T → ThreadPc C L
  holds : C × T × L → Bool
  whereIsLock : L → Option (Option C)
  whoWaitingLock : L → List C
  serverlockMutex : Option (C × ThreadId T)

/-- Nothing acquired, nothing called. -/
def init (C T L : Type) : Sys C T L where
  lockstateMap := fun _ => none
  lockCvMap := fun _ => false
  lockmapMutex := fun _ => none
  thread := fun _ => .idle
  holds := fun _ => false
  whereIsLock := fun _ => none
  whoWaitingLock := fun _ => []
  serverlockMutex := none

variable {C T L : Type} [DecidableEq C] [DecidableEq T] [DecidableEq L]

namespace Sys

/-- `lockstate_map[lid]`: an absent entry is created as zero, which is `NONE`. -/
def lockstate (s : Sys C T L) (c : C) (lid : L) : ClientLockState :=
  (s.lockstateMap (c, lid)).getD .none

def setLockstate (s : Sys C T L) (c : C) (lid : L) (v : ClientLockState) : Sys C T L :=
  { s with lockstateMap := Function.update s.lockstateMap (c, lid) (some v) }

def setThread (s : Sys C T L) (c : C) (i : ThreadId T) (pc : ThreadPc C L) : Sys C T L :=
  { s with thread := Function.update s.thread (c, i) pc }

def setMutex (s : Sys C T L) (c : C) (m : Option (ThreadId T)) : Sys C T L :=
  { s with lockmapMutex := Function.update s.lockmapMutex c m }

def setHolds (s : Sys C T L) (c : C) (t : T) (lid : L) (b : Bool) : Sys C T L :=
  { s with holds := Function.update s.holds (c, t, lid) b }

def setWhere (s : Sys C T L) (lid : L) (o : Option C) : Sys C T L :=
  { s with whereIsLock := Function.update s.whereIsLock lid (some o) }

def setWaiting (s : Sys C T L) (lid : L) (q : List C) : Sys C T L :=
  { s with whoWaitingLock := Function.update s.whoWaitingLock lid q }

/-- `lock_cv_map[lid]`, by `pthread_cond_init` or by the wait's own lookup. -/
def setCv (s : Sys C T L) (c : C) (lid : L) : Sys C T L :=
  { s with lockCvMap := Function.update s.lockCvMap (c, lid) true }

/-- The first lines of `lock_client_cache::acquire`: a lock never seen before
    gets its state and its condition variable. -/
def initLock (s : Sys C T L) (c : C) (lid : L) : Sys C T L :=
  match s.lockstateMap (c, lid) with
  | none => (s.setLockstate c lid .none).setCv c lid
  | some _ => s

/-- One turn of the loop of `lock_client_cache::acquire`, up to where it gives
    the mutex up or enters the remote call with it. Its lookups of the state
    create the entry. -/
def acquireLoop (s : Sys C T L) (c : C) (t : T) (lid : L) : Sys C T L :=
  match s.lockstate c lid with
  | .free => ((s.setLockstate c lid .locked).setThread c (.app t) .idle).setHolds c t lid true
  | .none => ((s.setLockstate c lid .none).setMutex c (some (.app t))).setThread c (.app t)
      (.acquireRpc lid .sent)
  -- `LOCKED`, `ACQUIRING` and `RELEASING` each wait on the condition variable.
  | st => ((s.setLockstate c lid st).setCv c lid).setThread c (.app t) (.condWait lid)

/-- The rest of that turn once the server has answered. A status it does not
    know sends the loop round again, and the state is still `NONE`. -/
def acquireReply (s : Sys C T L) (c : C) (t : T) (lid : L) : Status → Sys C T L
  | .ok => (((s.setLockstate c lid .locked).setMutex c none).setThread c (.app t) .idle).setHolds
      c t lid true
  | .retry => (((s.setLockstate c lid .acquiring).setCv c lid).setMutex c none).setThread
      c (.app t) (.condWait lid)
  | _ => s.setThread c (.app t) (.acquireRpc lid .sent)

/-- `lock_client_cache::release` up to where it drops the mutex. A lock the
    client has never heard of is refused with `NOENT`. -/
def releaseBody (s : Sys C T L) (c : C) (t : T) (lid : L) : Sys C T L :=
  match s.lockstateMap (c, lid) with
  | none => s.setThread c (.app t) .idle
  | some .releasing => (s.setLockstate c lid .none).setThread c (.app t) (.dorelease lid)
  | some _ => (s.setLockstate c lid .free).setThread c (.app t) .idle

/-- The guarded part of `give_back`: the state is overwritten, whatever it has
    become since the test. -/
def giveBackBody (s : Sys C T L) (c : C) (lid : L) : Sys C T L :=
  (s.setLockstate c lid .none).setThread c .giveBack (.dorelease lid)

/-- `lock_client_cache::revoke_handler` at client `o`. -/
def revokeHandler (s : Sys C T L) (o : C) (lid : L) : Sys C T L :=
  match s.lockstate o lid with
  | .free => s
  | .locked => s.setLockstate o lid .releasing
  | st => s.setLockstate o lid st

/-- `lock_client_cache::retry_handler` at client `c`: without a condition
    variable it answers `RPCERR` and changes nothing. -/
def retryHandler (s : Sys C T L) (c : C) (lid : L) : Sys C T L :=
  match s.lockCvMap (c, lid) with
  | false => s
  | true => s.setLockstate c lid .none

/-- The waiting list after the contended branch of `lock_server_cache::acquire`:
    an id already in it is not added again. -/
def enqueue (q : List C) (c : C) : List C :=
  if c ∈ q then q else q ++ [c]

/-- `lock_server_cache::acquire` up to where it drops `serverlock_mutex`. -/
def serverAcquire (s : Sys C T L) (c : C) (i : ThreadId T) (lid : L) : Sys C T L :=
  match s.whereIsLock lid with
  | none => (s.setWhere lid (some c)).setThread c i (.acquireRpc lid (.replied .ok))
  | some none => (s.setWhere lid (some c)).setThread c i (.acquireRpc lid (.replied .ok))
  | some (some _) =>
      (s.setWaiting lid (enqueue (s.whoWaitingLock lid) c)).setThread c i
        (.acquireRpc lid (.queued (s.whoWaitingLock lid).isEmpty))

/-- `lock_server_cache::release` up to its return, or up to the `retry` call it
    makes with `serverlock_mutex` held. -/
def serverRelease (s : Sys C T L) (c : C) (i : ThreadId T) (lid : L) : Sys C T L :=
  match s.whoWaitingLock lid with
  | [] => (s.setWhere lid none).setThread c i (.releaseRpc lid .replied)
  | first :: rest =>
      { ((s.setWhere lid none).setWaiting lid rest).setThread c i
          (.releaseRpc lid (.retrying first)) with serverlockMutex := some (c, i) }

end Sys

/-- Who moves, and what it does. -/
inductive Action (C T L : Type) where
  /-- A thread outside the lock client calls `acquire(lid)`. -/
  | callAcquire (c : C) (t : T) (lid : L)
  /-- It gets `lockmap_mutex` and runs the loop. -/
  | enterAcquire (c : C) (t : T)
  /-- A waiter returns from `pthread_cond_wait` and runs the loop again. -/
  | wake (c : C) (t : T)
  /-- The answer of the `acquire` call reaches the thread. -/
  | acquireReturns (c : C) (t : T)
  /-- A thread that holds the lock calls `release(lid)`. -/
  | callRelease (c : C) (t : T) (lid : L)
  /-- It gets `lockmap_mutex` and runs `release`. -/
  | enterRelease (c : C) (t : T)
  /-- `lu->dorelease` is done and the `release` call is sent. -/
  | doreleaseReturns (c : C) (i : ThreadId T)
  /-- The answer of the `release` call reaches the thread. -/
  | releaseReturns (c : C) (i : ThreadId T)
  /-- `give_back` reads `FREE`, without the mutex. -/
  | giveBackTest (c : C) (lid : L)
  /-- `give_back` gets `lockmap_mutex` and writes `NONE`. -/
  | giveBackUpdate (c : C)
  /-- The server's `acquire` handler gets `serverlock_mutex`. -/
  | serverAcquire (c : C) (i : ThreadId T)
  /-- It reads the owner, without the mutex, and calls `revoke` there. -/
  | serverReadOwner (c : C) (i : ThreadId T)
  /-- The owner's `revoke_handler` gets its `lockmap_mutex` and runs. -/
  | clientRevoke (c : C) (i : ThreadId T)
  /-- The `acquire` handler returns `RETRY`. -/
  | serverRetryReply (c : C) (i : ThreadId T)
  /-- The server's `release` handler gets `serverlock_mutex`. -/
  | serverRelease (c : C) (i : ThreadId T)
  /-- The popped client's `retry_handler` gets its `lockmap_mutex` and runs. -/
  | clientRetry (c : C) (i : ThreadId T)
  /-- The `release` handler drops `serverlock_mutex` and returns. -/
  | serverReleaseReply (c : C) (i : ThreadId T)
  deriving DecidableEq, Repr

/-- The interleaved system. -/
def step (s : Sys C T L) : Action C T L → Option (Sys C T L)
  | .callAcquire c t lid => match s.thread (c, .app t) with
    | .idle => some (s.setThread c (.app t) (.acquire lid))
    | _ => none
  | .enterAcquire c t => match s.thread (c, .app t), s.lockmapMutex c with
    | .acquire lid, none => some ((s.initLock c lid).acquireLoop c t lid)
    | _, _ => none
  -- A wake-up needs no signal: `pthread_cond_wait` may return without one.
  | .wake c t => match s.thread (c, .app t), s.lockmapMutex c with
    | .condWait lid, none => some (s.acquireLoop c t lid)
    | _, _ => none
  | .acquireReturns c t => match s.thread (c, .app t) with
    | .acquireRpc lid (.replied st) => some (s.acquireReply c t lid st)
    | _ => none
  | .callRelease c t lid => match s.thread (c, .app t), s.holds (c, t, lid) with
    | .idle, true => some ((s.setThread c (.app t) (.release lid)).setHolds c t lid false)
    | _, _ => none
  | .enterRelease c t => match s.thread (c, .app t), s.lockmapMutex c with
    | .release lid, none => some (s.releaseBody c t lid)
    | _, _ => none
  | .doreleaseReturns c i => match s.thread (c, i) with
    | .dorelease lid => some (s.setThread c i (.releaseRpc lid .sent))
    | _ => none
  | .releaseReturns c i => match s.thread (c, i) with
    | .releaseRpc _ .replied => some (s.setThread c i .idle)
    | _ => none
  | .giveBackTest c lid => match s.thread (c, .giveBack), s.lockstateMap (c, lid) with
    | .idle, some .free => some (s.setThread c .giveBack (.tested lid))
    | _, _ => none
  | .giveBackUpdate c => match s.thread (c, .giveBack), s.lockmapMutex c with
    | .tested lid, none => some (s.giveBackBody c lid)
    | _, _ => none
  | .serverAcquire c i => match s.thread (c, i), s.serverlockMutex with
    | .acquireRpc lid .sent, none => some (s.serverAcquire c i lid)
    | _, _ => none
  | .serverReadOwner c i => match s.thread (c, i) with
    | .acquireRpc lid (.queued true) =>
        some (s.setThread c i (.acquireRpc lid (.revoking (s.whereIsLock lid).join)))
    | _ => none
  | .clientRevoke c i => match s.thread (c, i) with
    -- There is no case for the empty id: that call does not return.
    | .acquireRpc lid (.revoking (some o)) => match s.lockmapMutex o with
      | none => some ((s.revokeHandler o lid).setThread c i (.acquireRpc lid .revoked))
      | some _ => none
    | _ => none
  | .serverRetryReply c i => match s.thread (c, i) with
    -- Only the first one in the waiting list has the owner revoked.
    | .acquireRpc lid (.queued false) =>
        some (s.setThread c i (.acquireRpc lid (.replied .retry)))
    | .acquireRpc lid .revoked => some (s.setThread c i (.acquireRpc lid (.replied .retry)))
    | _ => none
  | .serverRelease c i => match s.thread (c, i), s.serverlockMutex with
    | .releaseRpc lid .sent, none => some (s.serverRelease c i lid)
    | _, _ => none
  | .clientRetry c i => match s.thread (c, i) with
    | .releaseRpc lid (.retrying first) => match s.lockmapMutex first with
      | none => some ((s.retryHandler first lid).setThread c i (.releaseRpc lid (.retried first)))
      | some _ => none
    | _ => none
  | .serverReleaseReply c i => match s.thread (c, i) with
    | .releaseRpc lid (.retried _) =>
        some { s.setThread c i (.releaseRpc lid .replied) with serverlockMutex := none }
    | _ => none

end LockProtocol

end Yfs
