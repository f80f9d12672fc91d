import Yfs.Core.LockProtocol
import Yfs.Core.YfsClient
import Yfs.Library.Serial

/-!
# The File System as it Is Deployed

Any number of `yfs_client` processes with their extent caches and lock caches, one
`lock_server_cache` and one `extent_server`. The locks are those of the lock protocol with
every one of its steps; nothing is assumed of them.

A process executes one operation at a time, as `fuse_session_loop` does, next to the
`give_back` thread of its lock cache. An operation calls the lock cache and waits there
until the call returns. `dorelease`, wherever the lock cache calls it, flushes the extent
of the lock.

A call of `extent_client` is one step, and so is a flush: two threads of a process are in
there at the same time only with different extents. Remote calls do not fail.

## Main definitions

* `Sys`: The lock protocol, the extents, and what the operations have left to do.
* `Action`, `step`: One step of an operation, or of the lock protocol.
-/

namespace Yfs

namespace Service

open Serial

structure Sys (C : Type) where
  locks : LockProtocol.Sys C Unit Inum
  server : ExtentServer
  ticks : Nat
  client : C → ExtentClient
  /-- What is left of each operation; where it is inside a lock call, what is left after
      that call. -/
  phase : C → Phase Inum ExtentCall ExtentCall.Answer Op Result
  completed : C → List (Op × Result)

inductive Action (C : Type) where
  | begin (c : C) (op : Op)
  | advance (c : C)
  | lock (a : LockProtocol.Action C Unit Inum)

def Sys.init (C : Type) (now : UInt32) : Sys C where
  locks := LockProtocol.init C Unit Inum
  server := ExtentServer.new now
  ticks := 0
  client := fun _ => ExtentClient.new
  phase := fun _ => .idle
  completed := fun _ => []

variable {C : Type} [DecidableEq C]

/-- One step of an operation whose thread is outside the lock cache. -/
def Sys.exec (clock : Nat → UInt32) (s : Sys C) (c : C) (op : Op) (releasing : Bool) :
    Prog Result → Option (Sys C)
  | .acquire lid next =>
      (LockProtocol.step s.locks (.callAcquire c () lid)).map fun locks => { s with
        locks := locks
        phase := Function.update s.phase c (.running op next releasing) }
  | .call eid o next =>
      let r := Cached.serve clock eid o ⟨s.client c, s.server, s.ticks⟩
      some { s with
        server := r.2.server
        ticks := r.2.ticks
        client := Function.update s.client c r.2.client
        phase := Function.update s.phase c (.running op (next r.1) releasing) }
  | .release lid next =>
      (LockProtocol.step s.locks (.callRelease c () lid)).map fun locks => { s with
        locks := locks
        phase := Function.update s.phase c (.running op next releasing) }
  | .ret r => some { s with
      phase := Function.update s.phase c .idle
      completed := Function.update s.completed c (s.completed c ++ [(op, r)]) }

/-- The operation has released a lock. -/
def released : Phase Inum ExtentCall ExtentCall.Answer Op Result →
    Phase Inum ExtentCall ExtentCall.Answer Op Result
  | .idle => .idle
  | .running op p _ => .running op p true

/-- What a step of the lock protocol does outside the locks. -/
def Sys.besides (clock : Nat → UInt32) (s : Sys C) : LockProtocol.Action C Unit Inum → Sys C
  | .enterRelease c _ => { s with phase := Function.update s.phase c (released (s.phase c)) }
  | .doreleaseReturns c i => match s.locks.thread (c, i) with
    | .dorelease lid =>
        let r := (s.client c).writeBack s.server (clock s.ticks) lid
        { s with
          server := r.2
          ticks := s.ticks + 1
          client := Function.update s.client c r.1 }
    | _ => s
  | _ => s

def step (u : Uninit) (clock : Nat → UInt32) (s : Sys C) : Action C → Option (Sys C)
  | .begin c op => match s.phase c with
    | .idle => some { s with phase := Function.update s.phase c (.running op (op.prog u) false) }
    | .running _ _ _ => none
  | .advance c => match s.locks.thread (c, .app ()), s.phase c with
    | .idle, .running op p releasing => s.exec clock c op releasing p
    | _, _ => none
  | .lock a => match a with
    -- The calls into the lock cache are made by the operations.
    | .callAcquire _ _ _ => none
    | .callRelease _ _ _ => none
    | _ => (LockProtocol.step s.locks a).map fun locks => { s.besides clock a with locks := locks }

end Service

end Yfs
