import Yfs.Core.Rpc

/-!
# The Threads of One Client

One `rpcc` with any number of threads inside `call1`, and the PDUs that its
connections hand to `got_pdu`.

`Rpcc` is the object that the threads share. Here the threads are told apart: a
thread in `call1` has the request it packed and the `unmarshall` on its own stack,
which its record in `calls_` points to and which `got_pdu` fills. A PDU is a
string of bytes, of any origin; `got_pdu` drops one that is too short for a reply
header. Nothing is assumed about the order of the PDUs, or about how often or
whether the reply to a request is among them.

`handled` and `results` are not fields of the source. They list the PDUs that
`got_pdu` was called with and the returns of `call1`, oldest first. `unsolicited`
lists the PDUs that were handled before any request had the xid they carry.

## Main definitions

* `replyHeader`, `Carries`: What `got_pdu` reads from a PDU.
* `Client`, `CallResult`: The threads and what they were given.
* `ClientAction`, `Client.step`: The critical sections.
* `fewCalls`: Fewer than `2 ^ 32 - 1` calls.
-/

namespace Yfs

namespace Rpc

/-- The header as `got_pdu` unpacks it, unless the PDU is too short for one. -/
def replyHeader (pdu : Bytes) : Option ReplyHeader :=
  let (h, u) := (Unmarshall.new pdu).unpackReplyHeader
  if u.ok then some h else none

/-- The xid in the header of a PDU. -/
def Carries (pdu : Bytes) (xid : Nat) : Prop :=
  (replyHeader pdu).map (fun h => h.xid.toNat) = some xid

/-- A return of `call1`. A call that is refused has made no request. -/
structure CallResult (T : Type) where
  thread : T
  request : Option Request
  ret : Int
  un : Unmarshall

/-- An `rpcc`, the requests of the threads inside `call1`, and the `unmarshall`
    that each of them passed to it. -/
structure Client (T : Type) where
  nonce : Nat
  rpcc : Rpcc
  inCall : T → Option Request
  un : T → Unmarshall
  handled : List Bytes
  unsolicited : List Bytes
  results : List (CallResult T)

inductive ClientAction (T : Type) where
  | call1 (t : T) (proc : Nat) (args : List UInt8)
  | gotPdu (pdu : Bytes)
  | endCall (t : T)
  | bindReturns (o : Outcome)
  | cancel

namespace Client

variable {T : Type}

/-- The default constructor of `unmarshall`. -/
def emptyUn : Unmarshall where
  buf := []
  ind := 0
  ok := false

def new (T : Type) (nonce : Nat) : Client T where
  nonce
  rpcc := Rpcc.new
  inCall := fun _ => none
  un := fun _ => emptyUn
  handled := []
  unsolicited := []
  results := []

/-- The record in `calls_` of the thread's call. -/
def record (s : Client T) (t : T) : Option Caller :=
  (s.inCall t).bind fun req => s.rpcc.calls.find? fun ca => ca.xid == req.xid

/-- The thread's call has this xid and is not done. -/
def awaits (s : Client T) (t : T) (xid : Nat) : Bool :=
  (s.record t).any fun ca => ca.xid == xid && !ca.done

/-- `rpcc::got_pdu`. -/
def gotPdu (s : Client T) (pdu : Bytes) : Client T :=
  match replyHeader pdu with
  | none => { s with handled := s.handled ++ [pdu] }
  | some h => { s with
      rpcc := s.rpcc.gotPdu ⟨h.xid.toNat, h.ret.toInt, pdu.drop rpcHeaderSz⟩
      -- `ca->un->take_in(rep)`
      un := fun t => if s.awaits t h.xid.toNat then Unmarshall.takeIn pdu else s.un t
      handled := s.handled ++ [pdu]
      unsolicited :=
        if h.xid.toNat < s.rpcc.xid then s.unsolicited else s.unsolicited ++ [pdu] }

variable [DecidableEq T]

/-- The first section of `call1`, on a fresh `unmarshall`. -/
def call1 (s : Client T) (t : T) (proc : Nat) (args : List UInt8) : Client T :=
  match s.rpcc.call1 s.nonce proc args with
  | .error ret => { s with results := s.results ++ [⟨t, none, ret, emptyUn⟩] }
  | .ok (c, req) => { s with
      rpcc := c
      inCall := Function.update s.inCall t (some req)
      un := Function.update s.un t emptyUn }

/-- The last section of `call1`, after a reply, a timeout or a cancel. -/
def endCall (s : Client T) (t : T) (req : Request) : Option (Client T) := do
  let c ← s.rpcc.endCall req.xid
  let o ← c.returned.getLast?
  some { s with
    rpcc := c
    inCall := Function.update s.inCall t none
    results := s.results ++ [⟨t, some req, o.ret, s.un t⟩] }

def step (s : Client T) : ClientAction T → Option (Client T)
  | .call1 t proc args => if s.inCall t = none then some (s.call1 t proc args) else none
  | .gotPdu pdu => some (s.gotPdu pdu)
  | .endCall t => (s.inCall t).bind (s.endCall t)
  | .bindReturns o => (s.rpcc.bindReturns o).map fun c => { s with rpcc := c }
  | .cancel => some { s with rpcc := s.rpcc.cancel }

/-- `xid_` does not wrap around: the calls are fewer than `2 ^ 32 - 1`. -/
def fewCalls (s : Client T) : ClientAction T → Bool
  | .call1 _ _ _ => decide (s.rpcc.xid + 1 < 2 ^ 32)
  | _ => true

end Client

end Rpc

end Yfs
