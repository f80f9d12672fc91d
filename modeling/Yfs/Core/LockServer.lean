import Yfs.Core.LockProtocol
import Yfs.Core.Protocol

/-!
# The Lock Server

`lock_server_cache` by itself, with client ids as the strings that arrive on the wire.
Nothing is assumed of the clients: any request may come from anyone at any time.

A request is handled in one piece. That is the critical section of its handler;
what `acquire` does after it has dropped `serverlock_mutex` is the `revoke` call, which
decides between the two statuses that are not `OK`. The outcome of a callback is part
of the request, since the server has no say in it.

The empty string stands for "the server has the lock". A client id is compared with it
like any other.

## Main definitions

* `Callback`: What became of a `revoke` or `retry` call.
* `LockServer`, `acquire`, `release`: The server and its handlers.
* `LockServer.owner`: The client that has a lock.
* `Request`, `Event`, `Session`, `Session.step`: Requests handled one after another.
-/

namespace Yfs

open LockProtocol (Status)

inductive LockServer.Callback where
  /-- The client was called and answered `OK`. -/
  | ok
  /-- The client was called and the call failed. -/
  | failed
  /-- `safebind` returned `NULL`. -/
  | unbound
  deriving DecidableEq, Repr

@[ext]
structure LockServer (L : Type) where
  whereIsLock : L → Option Bytes
  whoWaitingLock : L → List Bytes

namespace LockServer

variable {L : Type} [DecidableEq L]

def new : LockServer L where
  whereIsLock := fun _ => none
  whoWaitingLock := fun _ => []

/-- The client that has the lock. The empty id is no client. -/
def owner (s : LockServer L) (lid : L) : Option Bytes :=
  (s.whereIsLock lid).filter (· ≠ [])

/-- `where_is_lock[lid] = id`. -/
def setWhere (s : LockServer L) (lid : L) (id : Bytes) : LockServer L :=
  { s with whereIsLock := Function.update s.whereIsLock lid (some id) }

def setWaiting (s : LockServer L) (lid : L) (q : List Bytes) : LockServer L :=
  { s with whoWaitingLock := Function.update s.whoWaitingLock lid q }

def acquire (s : LockServer L) (lid : L) (id : Bytes) (revoke : Callback) :
    Status × LockServer L :=
  match s.whereIsLock lid with
  | none => (.ok, s.setWhere lid id)
  | some o =>
      if o = [] then (.ok, s.setWhere lid id)
      else
        -- The owner is revoked for the first one in the list only.
        (if (s.whoWaitingLock lid).isEmpty ∧ revoke ≠ .ok then .rpcerr else .retry,
          s.setWaiting lid (LockProtocol.Sys.enqueue (s.whoWaitingLock lid) id))

/-- The id is not looked at. The client that `safebind` returns is used without a
    test, so a client that cannot be bound crashes the server. -/
def release (s : LockServer L) (lid : L) (_id : Bytes) (retry : Callback) :
    Option (LockServer L) :=
  match s.whoWaitingLock lid with
  | [] => some (s.setWhere lid [])
  | _ :: rest =>
      if retry = .unbound then none
      else some ((s.setWhere lid []).setWaiting lid rest)

end LockServer

namespace LockServer

/-- A request, and what becomes of the callback its handler makes. -/
inductive Request (L : Type) where
  | acquire (lid : L) (id : Bytes) (revoke : Callback)
  | release (lid : L) (id : Bytes) (retry : Callback)
  deriving DecidableEq, Repr

/-- A request that has been handled, and the answer. -/
inductive Event (L : Type) where
  | acquire (lid : L) (id : Bytes) (st : Status)
  | release (lid : L) (id : Bytes)
  deriving DecidableEq, Repr

/-- A server and the requests it has handled, oldest first. -/
structure Session (L : Type) where
  server : LockServer L
  handled : List (Event L)

variable {L : Type} [DecidableEq L]

def Session.new : Session L where
  server := LockServer.new
  handled := []

def Session.step (s : Session L) : Request L → Option (Session L)
  | .acquire lid id revoke =>
      let (st, server) := s.server.acquire lid id revoke
      some ⟨server, s.handled ++ [.acquire lid id st]⟩
  | .release lid id retry => (s.server.release lid id retry).map fun server =>
      ⟨server, s.handled ++ [.release lid id]⟩

end LockServer

end Yfs
