import Yfs.Core.RpcClient

/-!
# Cancelling the Calls of a Client

The whole of `rpcc::cancel`: it fails the calls that are in `calls_`, and waits on
`destroy_wait_c_` until the threads that made them have taken them out.

`Client` has the first part, up to the wait. Here the thread in `cancel` has a place in the
loop, next to the threads in `call1`. A wait ends when a call that ends signals it, or by
itself, which `pthread_cond_wait` is allowed to do; the thread then tests its condition when
it has got `m_` again, and other threads may have had it in between.

`cancel` is called by `handle_mgr::delete_handle_wo`, with `handle_mutex` held and before the
object is deleted, so there is one thread that calls it, once. `before` is not a field of the
source. It is the number of the calls that had returned by then.

## Main definitions

* `Canceller`: The places in `cancel`.
* `Draining`, `DrainingAction`: A client with a thread in `cancel`.
* `Draining.untilEmpty`: The loop of `cancel`.
* `Draining.step`: The critical sections.
-/

namespace Yfs

namespace Rpc

inductive Canceller where
  | out
  | waiting
  | woken
  | returned
  deriving DecidableEq, Repr

structure Draining (T : Type) where
  client : Client T
  canceller : Canceller
  before : Nat

inductive DrainingAction (T : Type) where
  | call1 (t : T) (proc : Nat) (args : List UInt8)
  | gotPdu (pdu : Bytes)
  | endCall (t : T)
  | bindReturns (o : Outcome)
  | cancel
  | spurious
  | resume

namespace Draining

variable {T : Type}

def new (T : Type) (nonce : Nat) : Draining T where
  client := Client.new T nonce
  canceller := .out
  before := 0

/-- The loop of `cancel`, from its condition to the wait or to the return. -/
def untilEmpty (s : Draining T) : Draining T :=
  if s.client.rpcc.calls.isEmpty then { s with canceller := .returned }
  -- `destroy_wait_` is set again in every turn, and nothing ever clears it.
  else { s with
    client := { s.client with rpcc := { s.client.rpcc with destroyWait := true } }
    canceller := .waiting }

/-- `rpcc::cancel`, up to the first wait. -/
def cancel (s : Draining T) : Draining T :=
  untilEmpty { s with
    client := { s.client with rpcc := s.client.rpcc.cancel }
    before := s.client.results.length }

/-- `pthread_cond_signal(&destroy_wait_c_)`. -/
def signal (s : Draining T) : Draining T :=
  if s.canceller = .waiting then { s with canceller := .woken } else s

variable [DecidableEq T]

/-- A section of the client's code that has nothing to do with `cancel`. -/
def within (s : Draining T) (a : ClientAction T) : Option (Draining T) :=
  (s.client.step a).map fun c => { s with client := c }

def step (s : Draining T) : DrainingAction T → Option (Draining T)
  | .call1 t proc args => s.within (.call1 t proc args)
  | .gotPdu pdu => s.within (.gotPdu pdu)
  -- The end of `call1`: the entry is erased, and a canceller that waits is told.
  | .endCall t => (s.within (.endCall t)).map fun s' =>
      if s'.client.rpcc.destroyWait then s'.signal else s'
  | .bindReturns o => s.within (.bindReturns o)
  | .cancel => if s.canceller = .out then some s.cancel else none
  | .spurious => if s.canceller = .waiting then some s.signal else none
  | .resume => if s.canceller = .woken then some s.untilEmpty else none

/-- `xid_` does not wrap around. -/
def fewCalls (s : Draining T) : DrainingAction T → Bool
  | .call1 t proc args => s.client.fewCalls (.call1 t proc args)
  | _ => true

end Draining

end Rpc

end Yfs
