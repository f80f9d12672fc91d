import Yfs.Core.Rpc
import Yfs.Library.SortedMap

/-!
# Dispatch and the Connections

`rpcs::dispatch` with the references it takes and drops, the pool that calls it and the
listener that owns the connections.

A `connection` is here what `rpcs` uses of it: the count of references, whether it is dead
and when it was made. `conns_` has for every client the latest connection that is known;
each of its entries is a reference. A job comes with a reference of its own, taken in
`got_pdu`. A count below zero fails the `VERIFY` of `decref`, a null pointer from `conns_`
is used at once, and the other ways to end the process are an unknown procedure, a negative
result and a window that runs out: all of these are `none`.

`dispatch` is two actions, up to the call of the handler and after it. When the handler
returns, the server is as other threads have left it. The counters of `updatestat` are left
out.

`sent` records what is sent on which connection; `leaked` is not in the source either, it
counts the dispatches of requests for another instance of the server.

## Main definitions

* `Link`, `compare`: A connection.
* `Dispatcher`, `saveConn`, `latestConn`: The server and its connections.
* `receive`, `dispatch`, `finish`: The two parts of `rpcs::dispatch`.
* `Serving`, `ServingAction`, `Serving.step`: The listener, the pool and the server.
-/

namespace Yfs

namespace Rpc

/-- What `rpcs` uses of a `connection`. -/
structure Link where
  refno : Int
  dead : Bool
  createTime : Int × Int
  deriving DecidableEq, Repr

namespace Link

def incref (l : Link) : Link :=
  { l with refno := l.refno + 1 }

def decref (l : Link) : Option Link :=
  if 0 ≤ l.refno - 1 then some { l with refno := l.refno - 1 } else none

/-- `connection::compare`. -/
def compare (l another : Link) : Int :=
  if l.createTime.1 > another.createTime.1 then 1
  else if l.createTime.1 < another.createTime.1 then -1
  else if l.createTime.2 > another.createTime.2 then 1
  else if l.createTime.2 < another.createTime.2 then -1
  else 0

end Link

/-- `djob_t`. -/
structure Job (C : Type) where
  conn : C
  pdu : Bytes
  deriving DecidableEq, Repr

/-- The server, `conns_` and the connections. -/
structure Dispatcher (C : Type) where
  server : Rpcs
  conns : SortedMap Nat C
  link : C → Link
  sent : List (C × Reply)

/-- Where the first part of `dispatch` ends. -/
inductive Dispatched (C : Type) where
  | returned (s : Dispatcher C)
  | handling (s : Dispatcher C) (r : Request)

/-- The header as `dispatch` unpacks it, unless the PDU is too short for one. -/
def requestOf (pdu : Bytes) : Option Request :=
  let (h, u) := (Unmarshall.new pdu).unpackReqHeader
  if u.ok then some {
    xid := h.xid.toNat, proc := h.proc.toNat, cltNonce := h.cltNonce.toNat
    srvNonce := h.srvNonce.toNat, xidRep := h.xidRep.toNat, args := pdu.drop rpcHeaderSz }
  else none

namespace Dispatcher

variable {C : Type}

def send (s : Dispatcher C) (c : C) (r : Reply) : Dispatcher C :=
  { s with sent := s.sent ++ [(c, r)] }

def setWindow (s : Dispatcher C) (n : Nat) (w : List ReplyT) (bound : Nat) : Dispatcher C :=
  { s with server := { s.server with
      replyWindow := Function.update s.server.replyWindow n w
      windowBound := Function.update s.server.windowBound n bound } }

/-- The client has bound to another instance of the server. -/
def oldServer (s : Dispatcher C) (r : Request) : Bool :=
  r.srvNonce != 0 && r.srvNonce != s.server.nonce

variable [DecidableEq C]

def setLink (s : Dispatcher C) (c : C) (l : Link) : Dispatcher C :=
  { s with link := Function.update s.link c l }

def incref (s : Dispatcher C) (c : C) : Dispatcher C :=
  s.setLink c (s.link c).incref

def decref (s : Dispatcher C) (c : C) : Option (Dispatcher C) :=
  (s.link c).decref.map (s.setLink c)

/-- `conns_[n] = c`, with a reference for it. -/
def assign (s : Dispatcher C) (n : Nat) (c : C) : Dispatcher C :=
  { s.incref c with conns := s.conns.insert n c }

/-- The latest good connection to the client is saved. -/
def saveConn (s : Dispatcher C) (n : Nat) (c : C) : Option (Dispatcher C) :=
  match s.conns.lookup n with
  | none => some (s.assign n c)
  | some old =>
    -- Of two connections the later one is kept, by the time of its creation.
    if (s.link old).compare (s.link c) < 0 then (s.decref old).map fun s => s.assign n c
    else some s

/-- The latest connection to the client, in place of one that is dead. -/
def latestConn (s : Dispatcher C) (n : Nat) (c : C) : Option (C × Dispatcher C) :=
  if (s.link c).dead then
    match s.conns.lookup n with
    -- `conns_[n]` would create a null entry here. It does not come to that for a client with a
    -- nonce, whose connection was saved before the handler.
    | none => none
    | some latest =>
      if c ≠ latest then (s.decref c).map fun s => (latest, s.incref latest) else some (c, s)
  else some (c, s)

/-- The switch of `dispatch`, when the request is not new. -/
def answer (s : Dispatcher C) (c : C) (r : Request) : RpcState → Dispatcher C
  | .new | .inprogress => s
  | .done rep => s.send c rep
  | .forgotten => s.send c ⟨r.xid, RpcConst.atmostonceFailure, []⟩

/-- `dispatch` for a client with a nonce, once the procedure is known. -/
def dispatchOnce (s : Dispatcher C) (c : C) (r : Request) : Option (Dispatched C) := do
  let s ← s.saveConn r.cltNonce c
  let (st, w, bound) ← checkduplicateAndUpdate (s.server.replyWindow r.cltNonce)
    (s.server.windowBound r.cltNonce) r.xid r.xidRep
  let s := s.setWindow r.cltNonce w bound
  -- The other states are answered at once, and the reference of the job is given back.
  if st = .new then some (.handling s r)
  else ((s.answer c r st).decref c).map .returned

/-- `dispatch` of a request whose header is good, up to the handler. -/
def receive (s : Dispatcher C) (c : C) (r : Request) : Option (Dispatched C) :=
  -- This return is the only one that keeps the reference.
  if s.oldServer r then some (.returned (s.send c ⟨r.xid, RpcConst.oldsrvFailure, []⟩))
  else if r.proc ∉ s.server.procs then none
  else if r.cltNonce = 0 then some (.handling s r)
  else s.dispatchOnce c r

/-- `rpcs::dispatch`, up to the handler. -/
def dispatch (s : Dispatcher C) (j : Job C) : Option (Dispatched C) :=
  match requestOf j.pdu with
  | none => (s.decref j.conn).map .returned
  | some r => s.receive j.conn r

/-- `rpcs::dispatch`, after the handler. Arguments that could not be unmarshalled are a negative
    `ret`, as every other failure that the handler may not return, and fail a `VERIFY`. -/
def finish (s : Dispatcher C) (c : C) (r : Request) (ret : Int) (body : List UInt8) :
    Option (Dispatcher C) :=
  if ret < 0 then none
  else do
    let rep : Reply := ⟨r.xid, ret, body⟩
    let w := s.server.replyWindow r.cltNonce
    -- Only for clients that ask for at-most-once is the reply remembered.
    let s := if r.cltNonce > 0 then
        s.setWindow r.cltNonce (addReply r.xid rep w) (s.server.windowBound r.cltNonce)
      else s
    let (c, s) ← s.latestConn r.cltNonce c
    (s.send c rep).decref c

end Dispatcher

/-! ## The listener and the pool -/

/-- The connections that the listener has, and the jobs: those in the queue of the pool and
    those whose handler is running. -/
structure Serving (C : Type) where
  rpcs : Dispatcher C
  accepted : C → Bool
  queued : List (Job C)
  handling : List (C × Request)
  leaked : C → Nat

inductive ServingAction (C : Type) where
  | accept (c : C) (createTime : Int × Int)
  | collect (c : C)
  | dies (c : C)
  | gotPdu (c : C) (pdu : Bytes) (succ : Bool)
  | dispatch (j : Job C)
  | handlerReturns (c : C) (r : Request) (ret : Int) (body : List UInt8)

namespace Serving

variable {C : Type}

def new (C : Type) (server : Rpcs) : Serving C where
  rpcs := ⟨server, SortedMap.empty, fun _ => ⟨0, false, (0, 0)⟩, []⟩
  accepted := fun _ => false
  queued := []
  handling := []
  leaked := fun _ => 0

variable [DecidableEq C]

/-- `process_accept` for a new connection: an object that nothing refers to. -/
def accept (s : Serving C) (c : C) (createTime : Int × Int) : Option (Serving C) :=
  -- The memory of a connection that was collected may be used for a new one.
  if s.accepted c = false ∧ (s.rpcs.link c).refno = 0 then some { s with
    rpcs := s.rpcs.setLink c ⟨1, false, createTime⟩
    accepted := Function.update s.accepted c true
    leaked := Function.update s.leaked c 0 }
  else none

/-- `process_accept` for an old one: it is dead and only the listener refers to it. -/
def collect (s : Serving C) (c : C) : Option (Serving C) :=
  if s.accepted c = true ∧ (s.rpcs.link c).dead = true ∧ (s.rpcs.link c).refno = 1 then
    (s.rpcs.decref c).map fun rpcs =>
      { s with rpcs, accepted := Function.update s.accepted c false }
  else none

/-- `rpcs::got_pdu`; `succ` is what `addObjJob` returns. -/
def gotPdu (s : Serving C) (c : C) (pdu : Bytes) (succ : Bool) : Option (Serving C) :=
  if s.accepted c = true then
    let rpcs := s.rpcs.incref c
    if succ then some { s with rpcs, queued := s.queued ++ [⟨c, pdu⟩] }
    else (rpcs.decref c).map fun rpcs => { s with rpcs }
  else none

/-- A worker of the pool calls `dispatch`. -/
def dispatch (s : Serving C) (j : Job C) : Option (Serving C) :=
  if j ∈ s.queued then
    (s.rpcs.dispatch j).map fun
      | .returned rpcs => { s with
          rpcs, queued := s.queued.erase j
          leaked := if (requestOf j.pdu).any s.rpcs.oldServer then
              Function.update s.leaked j.conn (s.leaked j.conn + 1)
            else s.leaked }
      | .handling rpcs r => { s with
          rpcs, queued := s.queued.erase j, handling := s.handling ++ [(j.conn, r)] }
  else none

def step (s : Serving C) : ServingAction C → Option (Serving C)
  | .accept c createTime => s.accept c createTime
  | .collect c => s.collect c
  | .dies c => some { s with rpcs := s.rpcs.setLink c { s.rpcs.link c with dead := true } }
  | .gotPdu c pdu succ => s.gotPdu c pdu succ
  | .dispatch j => s.dispatch j
  | .handlerReturns c r ret body =>
    if (c, r) ∈ s.handling then
      (s.rpcs.finish c r ret body).map fun rpcs =>
        { s with rpcs, handling := s.handling.erase (c, r) }
    else none

end Serving

end Rpc

end Yfs
