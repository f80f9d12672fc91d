import Yfs.Core.LockServer

/-!
# The Lock Server's Handlers, Interleaved

`lock_server_cache` with any number of requests under way at once. Each request has a
handler of its own, and nothing is assumed of who sends what and when.

A critical section is one action, that of `LockServer`. What `acquire` does after it has
dropped `serverlock_mutex` is more: it reads the owner, binds to that address, calls
`revoke` there and returns, and other handlers may run at each of these points. `release`
keeps the mutex across its `retry` call.

The error branch of `acquire` unlocks the mutex once more, which it has not locked. For the
mutexes that `pthread_mutex_init` makes by default that frees the mutex, whoever has it.

`revokes` is there to be spoken about: it records the `revoke` calls.

## Main definitions

* `Revoke`: A `revoke` call, with the owner when its address was read.
* `Pc`: Where a handler is.
* `Sys`, `Action`, `step`: The interleaved handlers.
-/

namespace Yfs

namespace LockHandlers

open LockProtocol (Status)

/-- A request as it arrives. -/
inductive Request (L : Type) where
  | acquire (lid : L) (id : Bytes)
  | release (lid : L) (id : Bytes)
  deriving DecidableEq, Repr

/-- A `revoke` that the `acquire` of `requester` makes. `owner` is the client that had the
    lock when the address was read. -/
structure Revoke (L : Type) where
  lid : L
  requester : Bytes
  address : Bytes
  owner : Option Bytes
  deriving DecidableEq, Repr

inductive Pc (L : Type) where
  /-- No request has arrived. -/
  | idle
  /-- Waiting for `serverlock_mutex`. -/
  | arrived (r : Request L)
  /-- `acquire` has put the client into the waiting list and dropped the mutex. -/
  | queued (lid : L) (id : Bytes) (needRevoke : Bool)
  /-- It has read the address and is in `safebind`. -/
  | binding (v : Revoke L)
  /-- It is in the `revoke` call. -/
  | revoking (v : Revoke L)
  /-- `release` is in the `retry` call, with the mutex held. -/
  | retrying (lid : L) (first : Bytes)
  | returned (st : Status)
  deriving DecidableEq, Repr

/-- A server with handlers `H`. -/
structure Sys (H L : Type) where
  server : LockServer L
  serverlockMutex : Option H
  handler : H → Pc L
  revokes : List (Revoke L)

inductive Action (H L : Type) where
  | arrive (h : H) (r : Request L)
  /-- The handler gets the mutex. -/
  | enter (h : H)
  /-- `acquire` returns without a `revoke`. -/
  | noRevoke (h : H)
  /-- `acquire` reads the owner, without the mutex. -/
  | readOwner (h : H)
  | bindReturns (h : H) (bound : Bool)
  | revokeReturns (h : H) (ok : Bool)
  | retryReturns (h : H)
  deriving DecidableEq, Repr

variable {H L : Type} [DecidableEq H] [DecidableEq L]

/-- Nothing granted, nothing asked for. -/
def Sys.init (H L : Type) : Sys H L where
  server := LockServer.new
  serverlockMutex := none
  handler := fun _ => .idle
  revokes := []

def Sys.setPc (s : Sys H L) (h : H) (pc : Pc L) : Sys H L :=
  { s with handler := Function.update s.handler h pc }

/-- `acquire` up to where it drops the mutex. -/
def Sys.enterAcquire (s : Sys H L) (h : H) (lid : L) (id : Bytes) : Sys H L :=
  -- What becomes of the `revoke` call does not show in the server's maps.
  let (st, server) := s.server.acquire lid id .ok
  { s with server }.setPc h (match st with
    | .ok => .returned .ok
    | _ => .queued lid id (s.server.whoWaitingLock lid).isEmpty)

/-- `release` up to its return, or to the `retry` call. -/
def Sys.enterRelease (s : Sys H L) (h : H) (lid : L) (id : Bytes) : Option (Sys H L) :=
  (s.server.release lid id .ok).map fun server =>
    match s.server.whoWaitingLock lid with
    | [] => { s with server }.setPc h (.returned .ok)
    | first :: _ => { s with server, serverlockMutex := some h }.setPc h (.retrying lid first)

/-- `where_is_lock[lid]` outside the mutex; the lookup creates a missing entry. -/
def Sys.readOwner (s : Sys H L) (h : H) (lid : L) (id : Bytes) : Sys H L :=
  let owner := (s.server.whereIsLock lid).getD []
  { s with server := s.server.setWhere lid owner }.setPc h
    (.binding ⟨lid, id, owner, s.server.owner lid⟩)

/-- The error branch. -/
def Sys.revokeFailed (s : Sys H L) (h : H) : Sys H L :=
  { s with serverlockMutex := none }.setPc h (.returned .rpcerr)

def step (s : Sys H L) : Action H L → Option (Sys H L)
  | .arrive h r => match s.handler h with
    | .idle => some (s.setPc h (.arrived r))
    | _ => none
  | .enter h => match s.handler h, s.serverlockMutex with
    | .arrived (.acquire lid id), none => some (s.enterAcquire h lid id)
    | .arrived (.release lid id), none => s.enterRelease h lid id
    | _, _ => none
  | .noRevoke h => match s.handler h with
    | .queued _ _ false => some (s.setPc h (.returned .retry))
    | _ => none
  | .readOwner h => match s.handler h with
    | .queued lid id true => some (s.readOwner h lid id)
    | _ => none
  | .bindReturns h bound => match s.handler h, bound with
    | .binding v, true => some ({ s with revokes := v :: s.revokes }.setPc h (.revoking v))
    | .binding _, false => some (s.revokeFailed h)
    | _, _ => none
  | .revokeReturns h ok => match s.handler h, ok with
    | .revoking _, true => some (s.setPc h (.returned .retry))
    | .revoking _, false => some (s.revokeFailed h)
    | _, _ => none
  -- A client that cannot be bound crashes the server, and there is no action for that.
  | .retryReturns h => match s.handler h with
    | .retrying _ _ => some ({ s with serverlockMutex := none }.setPc h (.returned .ok))
    | _ => none

end LockHandlers

end Yfs
