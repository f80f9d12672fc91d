import Yfs.Core.YfsClient
import Yfs.Library.Trace

/-!
# Extents Shared by Clients

Any number of `extent_client` objects in front of one `extent_server`, with their calls
one at a time and under the discipline of the lock cache: a client calls `get`, `put`,
`getattr` or `flush` on an extent while it owns the extent's lock, and the lock passes on
only after a `flush`, when the owner has nothing of the extent in its cache.

Remote calls do not fail here. The clock is read once by every call that looks at it, and
the times it shows are an argument.

## Main definitions

* `Sys`: The server, the caches and the owners of the locks.
* `Sys.view`, `Sys.answer`: What a client works on, and the answer to its call.
* `Action`, `step`: A call, a write-back, or a lock that passes on.
-/

namespace Yfs

namespace Sharing

structure Sys (C : Type) where
  server : ExtentServer
  client : C → ExtentClient
  owner : Inum → Option C
  ticks : Nat

inductive Action (C : Type) where
  | call (c : C) (eid : Inum) (o : ExtentCall)
  | flush (c : C) (eid : Inum)
  | handover (eid : Inum) (c : C)

/-- New clients in front of a new server; nobody owns a lock. -/
def Sys.init (C : Type) (now : UInt32) : Sys C where
  server := ExtentServer.new now
  client := fun _ => ExtentClient.new
  owner := fun _ => none
  ticks := 0

variable {C : Type}

/-- The client's cache and the server behind it. -/
def Sys.view (s : Sys C) (c : C) : Cached where
  client := s.client c
  server := s.server
  ticks := s.ticks

/-- The answer to a call that the client makes now. -/
def Sys.answer (clock : Nat → UInt32) (s : Sys C) (c : C) (eid : Inum) (o : ExtentCall) :
    o.Answer :=
  (Cached.serve clock eid o (s.view c)).1

variable [DecidableEq C]

/-- The state after something that one client has done. -/
def Sys.update (s : Sys C) (c : C) (t : Cached) : Sys C where
  server := t.server
  client := Function.update s.client c t.client
  owner := s.owner
  ticks := t.ticks

def step (clock : Nat → UInt32) (s : Sys C) : Action C → Option (Sys C)
  | .call c eid o =>
      if s.owner eid = some c then some (s.update c (Cached.serve clock eid o (s.view c)).2)
      else none
  | .flush c eid =>
      if s.owner eid = some c then
        ((s.view c).step clock (.flush eid)).map (s.update c)
      else none
  | .handover eid c =>
      -- The owner has flushed the extent before it gives the lock away.
      if (s.owner eid).all (fun d => (s.client d).isClear eid) then
        some { s with owner := Function.update s.owner eid (some c) }
      else none

end Sharing

end Yfs
