import Yfs.Core.Dispatch

/-!
# Restarts of a Server

Any number of `rpcc` clients and one server after the other: each restart is a new `rpcs`
object with a nonce of its own.

A client is here an object with its threads and with `calls_` as the map it is: `xid_` wraps
around, a call that gets the xid of one that still waits takes its place in `calls_`, and
whichever of the two ends first removes the entry. A client has a nonce, which several may
share; it is 0 for those that do not retransmit. `bind` is a call and, if that has returned
0, a second section which sets `bind_done_` and `srv_nonce_`; several threads may be in it.

A connection has one client at its other end. A request may reach any instance of the
server on any connection of the client that has packed it, any number of times, and what an
instance has sent on a connection may reach that client. Nothing is ever taken out of the
network, and an instance goes on answering after later ones have been started. Which
connections are dead and how they are counted is up to the environment.

`obtained` and `executed` are not in the source. They list the nonces that a client has got
from its binds and the requests whose handler an instance has called.

## Main definitions

* `PeerPc`, `Peer`: A client and where its threads are.
* `Instance`: A server.
* `Wiring`, `Restarts`, `RestartAction`, `Restarts.step`: All of them.
-/

namespace Yfs

namespace Rpc

/-! ## Clients -/

/-- Where a thread of a client is: in `call1` with the request it packed, before or after
    its `caller` is done, or in `bind` with the result of its call. -/
inductive PeerPc where
  | idle
  | waiting (r : Request)
  | done (r : Request) (ret : Int) (body : List UInt8)
  | bound (v : Nat)
  deriving DecidableEq, Repr

/-- `rpcc`. -/
structure Peer (T : Type) where
  xid : Nat
  calls : SortedMap Nat T
  xidRepWindow : List Nat
  bindDone : Bool
  srvNonce : Nat
  destroyWait : Bool
  thread : T → PeerPc
  obtained : List Nat

namespace Peer

variable {T : Type}

def new (T : Type) : Peer T where
  xid := 1
  calls := SortedMap.empty
  xidRepWindow := [0]
  bindDone := false
  srvNonce := 0
  destroyWait := false
  thread := fun _ => .idle
  obtained := []

variable [DecidableEq T]

def setThread (p : Peer T) (t : T) (pc : PeerPc) : Peer T :=
  { p with thread := Function.update p.thread t pc }

/-- The first section of `call1`, of a client with nonce `n`. -/
def call1 (p : Peer T) (n : Nat) (t : T) (proc : Nat) (args : List UInt8) :
    Except Int (Peer T × Request) :=
  if (proc ≠ RpcConst.bind ∧ p.bindDone = false) ∨ (proc = RpcConst.bind ∧ p.bindDone = true) then
    .error RpcConst.bindFailure
  else if p.destroyWait = true then .error RpcConst.cancelFailure
  else
    let r : Request := {
      xid := p.xid, proc, cltNonce := n, srvNonce := p.srvNonce
      xidRep := p.xidRepWindow.headD 0, args }
    .ok ({ p.setThread t (.waiting r) with
      xid := (p.xid + 1) % 2 ^ 32
      calls := p.calls.insert p.xid t }, r)

/-- `got_pdu`. -/
def gotPdu (p : Peer T) (rep : Reply) : Peer T :=
  let p := { p with xidRepWindow := updateXidRep rep.xid p.xidRepWindow }
  match p.calls.lookup rep.xid with
  | none => p
  | some t => match p.thread t with
    | .waiting r => p.setThread t (.done r rep.ret rep.body)
    | _ => p

/-- The last section of `call1`. -/
def forget (p : Peer T) (t : T) (r : Request) (pc : PeerPc) : Peer T :=
  { p.setThread t pc with
    calls := p.calls.erase r.xid
    xidRepWindow := updateXidRep r.xid p.xidRepWindow }

/-- The thread stops waiting, and `call1` returns. A result of `bind` that is not an `int`
    ends the process. -/
def endCall (p : Peer T) (t : T) : Option (Peer T) :=
  match p.thread t with
  | .waiting r => some (p.forget t r .idle)
  | .done r ret body =>
    if ret < 0 ∨ r.proc ≠ RpcConst.bind then some (p.forget t r .idle)
    else (bindResult body).map fun v => p.forget t r (if ret = 0 then .bound v else .idle)
  | _ => none

/-- The end of `bind`, after a call that returned 0. -/
def bindReturns (p : Peer T) (t : T) : Option (Peer T) :=
  match p.thread t with
  | .bound v => some { p.setThread t .idle with
      bindDone := true
      srvNonce := v
      obtained := p.obtained ++ [v] }
  | _ => none

/-- What `cancel` does to the `caller` of a thread. -/
def cancelled (p : Peer T) (t : T) : PeerPc :=
  match p.thread t with
  | .waiting r =>
    if p.calls.lookup r.xid = some t then .done r RpcConst.cancelFailure [] else .waiting r
  | .done r ret body =>
    .done r (if p.calls.lookup r.xid = some t then RpcConst.cancelFailure else ret) body
  | pc => pc

/-- `cancel`. -/
def cancel (p : Peer T) : Peer T :=
  { p with
    thread := p.cancelled
    destroyWait := p.destroyWait || !p.calls.entries.isEmpty }

end Peer

/-! ## Servers -/

/-- `rpcs`, with the requests whose handler is running and those whose handler has been
    called. -/
structure Instance (K : Type) where
  srv : Dispatcher K
  handling : List (K × Request)
  executed : List (K × Request)

namespace Instance

variable {K : Type}

def new (K : Type) (nonce : Nat) (procs : List Nat) : Instance K where
  srv := ⟨Rpcs.new nonce procs, SortedMap.empty, fun _ => ⟨0, false, (0, 0)⟩, []⟩
  handling := []
  executed := []

def nonce (inst : Instance K) : Nat :=
  inst.srv.server.nonce

variable [DecidableEq K]

/-- `dispatch`, up to the handler. -/
def dispatch (inst : Instance K) (k : K) (r : Request) : Option (Instance K) :=
  (inst.srv.receive k r).map fun
    | .returned srv => { inst with srv }
    | .handling srv r => {
        srv
        handling := inst.handling ++ [(k, r)]
        executed := inst.executed ++ [(k, r)] }

/-- A handler returns; `rpcbind` returns the nonce. -/
def handlerReturns (inst : Instance K) (k : K) (r : Request) (ret : Int) (body : List UInt8) :
    Option (Instance K) :=
  if inst.handling.contains (k, r) ∧
      (r.proc = RpcConst.bind → ret = 0 ∧ body = Word.be32 (UInt32.ofNat inst.nonce)) then
    (inst.srv.finish k r ret body).map fun srv =>
      { inst with srv, handling := inst.handling.erase (k, r) }
  else none

end Instance

/-! ## The system -/

/-- The nonces of the clients, and the client at the other end of a connection. -/
structure Wiring (C K : Type) where
  nonce : C → Nat
  owner : K → C

/-- The instances of the server, oldest first, the clients, and the requests with those who
    have packed them. -/
structure Restarts (C K T : Type) where
  instances : List (Instance K)
  peers : C → Peer T
  requests : List (C × Request)

inductive RestartAction (C K T : Type) where
  | restart (nonce : Nat) (procs : List Nat)
  | call1 (c : C) (t : T) (proc : Nat) (args : List UInt8)
  | gotPdu (i : Nat) (k : K) (rep : Reply)
  | endCall (c : C) (t : T)
  | bindReturns (c : C) (t : T)
  | cancel (c : C)
  | dispatch (i : Nat) (k : K) (r : Request)
  | handlerReturns (i : Nat) (k : K) (r : Request) (ret : Int) (body : List UInt8)
  | link (i : Nat) (k : K) (l : Link)

namespace Restarts

variable {C K T : Type}

def new (C K T : Type) : Restarts C K T where
  instances := []
  peers := fun _ => Peer.new T
  requests := []

/-- The nonces of the instances. -/
def nonces (s : Restarts C K T) : List Nat :=
  s.instances.map Instance.nonce

variable [DecidableEq C] [DecidableEq K] [DecidableEq T]

def setPeer (s : Restarts C K T) (c : C) (p : Peer T) : Restarts C K T :=
  { s with peers := Function.update s.peers c p }

/-- An action of one instance. -/
def atInstance (s : Restarts C K T) (i : Nat) (f : Instance K → Option (Instance K)) :
    Option (Restarts C K T) := do
  let inst ← s.instances[i]?
  let inst ← f inst
  some { s with instances := s.instances.set i inst }

def step (w : Wiring C K) (s : Restarts C K T) : RestartAction C K T → Option (Restarts C K T)
  | .restart nonce procs =>
    -- A nonce is 32 bits wide, not zero and not that of an earlier instance.
    if nonce ≠ 0 ∧ nonce < 2 ^ 32 ∧ nonce ∉ s.nonces then
      some { s with instances := s.instances ++ [Instance.new K nonce procs] }
    else none
  | .call1 c t proc args =>
    if (s.peers c).thread t = .idle then
      match (s.peers c).call1 (w.nonce c) t proc args with
      | .ok (p, r) => some { s.setPeer c p with requests := s.requests ++ [(c, r)] }
      | .error _ => some s
    else none
  | .gotPdu i k rep => do
    let inst ← s.instances[i]?
    if (k, rep) ∈ inst.srv.sent then
      some (s.setPeer (w.owner k) ((s.peers (w.owner k)).gotPdu rep))
    else none
  | .endCall c t => ((s.peers c).endCall t).map (s.setPeer c)
  | .bindReturns c t => ((s.peers c).bindReturns t).map (s.setPeer c)
  | .cancel c => some (s.setPeer c (s.peers c).cancel)
  | .dispatch i k r =>
    if s.requests.contains (w.owner k, r) then s.atInstance i fun inst => inst.dispatch k r
    else none
  | .handlerReturns i k r ret body =>
    s.atInstance i fun inst => inst.handlerReturns k r ret body
  | .link i k l => s.atInstance i fun inst => some { inst with srv := inst.srv.setLink k l }

end Restarts

end Rpc

end Yfs
