import Yfs.Core.YfsClient
import Yfs.Library.Serial

/-!
# Clients on one Extent Server

Any number of `yfs_client` instances, each with its own extent cache and one operation
at a time, over an ideal lock service.

A lock has at most one owner. The owner keeps it cached when its thread releases it, and
a client's acquire is a local step once the client owns the lock and the lock is not
taken. `giveBack` is the release action of the lock cache: the owner flushes the extent
and gives the lock up. `grant` passes a lock that nobody owns to a client. Remote calls
do not fail.

## Main definitions

* `Sys`: The clients, their caches, the server and the locks.
* `Action`, `step`: One step of an operation, or of a lock.
-/

namespace Yfs

namespace Cluster

open Serial

structure Sys (C : Type) where
  server : ExtentServer
  ticks : Nat
  client : C → ExtentClient
  owner : Inum → Option C
  /-- A thread of the owner has acquired the lock and not released it. -/
  held : Inum → Bool
  phase : C → Phase Inum ExtentCall ExtentCall.Answer Op Result
  completed : C → List (Op × Result)

inductive Action (C : Type) where
  | begin (c : C) (op : Op)
  | advance (c : C)
  | giveBack (lid : Inum)
  | grant (lid : Inum) (c : C)

def Sys.init (C : Type) (now : UInt32) : Sys C where
  server := ExtentServer.new now
  ticks := 0
  client := fun _ => ExtentClient.new
  owner := fun _ => none
  held := fun _ => false
  phase := fun _ => .idle
  completed := fun _ => []

variable {C : Type} [DecidableEq C]

/-- One step of an operation's program. -/
def Sys.exec (clock : Nat → UInt32) (s : Sys C) (c : C) (op : Op) (releasing : Bool) :
    Prog Result → Option (Sys C)
  | .acquire lid next =>
      -- A lock that the client owns is taken locally; for another one the thread waits.
      if s.owner lid = some c ∧ s.held lid = false then some { s with
        held := Function.update s.held lid true
        phase := Function.update s.phase c (.running op next releasing) }
      else none
  | .call eid o next =>
      let r := Cached.serve clock eid o ⟨s.client c, s.server, s.ticks⟩
      some { s with
        server := r.2.server
        ticks := r.2.ticks
        client := Function.update s.client c r.2.client
        phase := Function.update s.phase c (.running op (next r.1) releasing) }
  | .release lid next =>
      if s.owner lid = some c ∧ s.held lid = true then some { s with
        held := Function.update s.held lid false
        phase := Function.update s.phase c (.running op next true) }
      else none
  | .ret r => some { s with
      phase := Function.update s.phase c .idle
      completed := Function.update s.completed c (s.completed c ++ [(op, r)]) }

def step (u : Uninit) (clock : Nat → UInt32) (s : Sys C) : Action C → Option (Sys C)
  | .begin c op => match s.phase c with
    | .idle => some { s with phase := Function.update s.phase c (.running op (op.prog u) false) }
    | .running _ _ _ => none
  | .advance c => match s.phase c with
    | .idle => none
    | .running op p releasing => s.exec clock c op releasing p
  | .giveBack lid => match s.owner lid with
    | none => none
    | some c =>
        -- `dorelease` flushes the extent before the lock goes back to the server.
        if s.held lid then none else
          let r := (s.client c).writeBack s.server (clock s.ticks) lid
          some { s with
            server := r.2
            ticks := s.ticks + 1
            client := Function.update s.client c r.1
            owner := Function.update s.owner lid none }
  | .grant lid c => match s.owner lid with
    | none => some { s with owner := Function.update s.owner lid (some c) }
    | some _ => none

end Cluster

end Yfs
