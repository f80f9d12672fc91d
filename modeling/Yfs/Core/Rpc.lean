import Yfs.Core.Marshall
import Yfs.Library.Trace

/-!
# Remote Procedure Calls

Any number of `rpcc` clients and one `rpcs` server, with the network between them.

A client is its nonce. Its critical sections under `m_` are one action each: the
first section of `call1`, which numbers the request and packs the header; `got_pdu`;
the last section of `call1`, which forgets the call, after a reply or a timeout;
and `cancel`. What happens in `call1` between its two sections is sending the same
bytes any number of times, so a request is in the network from the moment it is
packed, and nothing is ever taken out of the network: every request and every
reply may arrive at any time, any number of times, or never.

The server answers a request in two actions. `dispatch` decides, under
`reply_window_m_`, what the request is, and starts the handler of a new one;
`handlerReturns` ends that handler, records its reply and sends it. Any number of
handlers run in between.

The window of replies is pruned by a loop that keeps a reference to its first
element across `pop_front` and assigns the new first element through it. It is
modelled as reading the first element each time; the loop then ends at the first
element above `xid_rep`, and running out of elements is `none`.

Numbers on the wire are 32 bits wide. `xid_` is incremented modulo `2 ^ 32`, and
so is the comparison of neighbours in the client's window.

## Main definitions

* `Rpcc`, `call1`, `gotPdu`, `endCall`, `cancel`: The client.
* `updateXidRep`: The client's window of acknowledged replies.
* `Rpcs`, `checkduplicateAndUpdate`, `addReply`: The server's window of replies.
* `WindowCall`, `WindowLog`: Any calls of these two, for any clients.
* `Sys`, `Action`, `step`: The two and the network.
* `env`: Clients have non-zero nonces and make fewer than `2 ^ 32 - 1` calls.
-/

namespace Yfs

namespace Rpc

/-- A request PDU: its header and its marshalled arguments. -/
structure Request where
  xid : Nat
  proc : Nat
  cltNonce : Nat
  srvNonce : Nat
  xidRep : Nat
  args : List UInt8
  deriving DecidableEq, Repr

/-- A reply PDU: its header and its marshalled result. -/
structure Reply where
  xid : Nat
  ret : Int
  body : List UInt8
  deriving DecidableEq, Repr

/-! ## The client -/

/-- `rpcc::caller`, with the procedure its thread called. -/
structure Caller where
  xid : Nat
  proc : Nat
  un : Option (List UInt8)
  intret : Int
  done : Bool
  deriving DecidableEq, Repr

/-- What `call1` returned to its caller. -/
structure Outcome where
  xid : Nat
  proc : Nat
  ret : Int
  un : Option (List UInt8)
  deriving DecidableEq, Repr

/-- `rpcc`. `returned` is not a field of the source: it lists what the calls have
    returned so far. -/
structure Rpcc where
  xid : Nat
  calls : List Caller
  xidRepWindow : List Nat
  bindDone : Bool
  srvNonce : Nat
  destroyWait : Bool
  returned : List Outcome
  deriving DecidableEq, Repr

/-- The constructor: xids start with 1, and the window with 0. -/
def Rpcc.new : Rpcc where
  xid := 1
  calls := []
  xidRepWindow := [0]
  bindDone := false
  srvNonce := 0
  destroyWait := false
  returned := []

/-- The first loop of `update_xid_rep`: in front of the first larger element. -/
def insertXid (x : Nat) : List Nat → List Nat
  | [] => [x]
  | y :: ys => if x < y then x :: y :: ys else y :: insertXid x ys

/-- The second loop: `pre` is the window in front of the iterator, and is popped
    while its first element precedes the one the iterator is at. -/
def compress (pre : List Nat) : List Nat → List Nat
  | [] => pre
  | x :: suf => compress (pre.dropWhile (fun y => (y + 1) % 2 ^ 32 == x) ++ [x]) suf

/-- `rpcc::update_xid_rep`. -/
def updateXidRep (x : Nat) (w : List Nat) : List Nat :=
  -- A number at or below the front has been acknowledged already.
  if x ≤ w.headD 0 then w
  else match insertXid x w with
    | [] => []
    | y :: ys => compress [y] ys

/-- The first section of `call1`. -/
def Rpcc.call1 (c : Rpcc) (cltNonce proc : Nat) (args : List UInt8) :
    Except Int (Rpcc × Request) :=
  -- Only a bind is allowed before the bind is done, and no other bind after it.
  if (proc ≠ RpcConst.bind ∧ c.bindDone = false) ∨ (proc = RpcConst.bind ∧ c.bindDone = true) then
    .error RpcConst.bindFailure
  else if c.destroyWait = true then .error RpcConst.cancelFailure
  else .ok (
    { c with
      xid := (c.xid + 1) % 2 ^ 32
      calls := c.calls ++ [{ xid := c.xid, proc, un := none, intret := 0, done := false }] },
    -- The header acknowledges everything up to the front of the window.
    { xid := c.xid, proc, cltNonce, srvNonce := c.srvNonce, xidRep := c.xidRepWindow.headD 0,
      args })

/-- The first reply completes the call; later ones find it done. -/
def Caller.complete (r : Reply) (ca : Caller) : Caller :=
  if ca.xid = r.xid ∧ ca.done = false then
    { ca with un := some r.body, intret := r.ret, done := true }
  else ca

/-- `rpcc::got_pdu`. -/
def Rpcc.gotPdu (c : Rpcc) (r : Reply) : Rpcc :=
  { c with
    -- The window moves on even if no call waits for this reply.
    xidRepWindow := updateXidRep r.xid c.xidRepWindow
    calls := c.calls.map (Caller.complete r) }

/-- The last section of `call1`, and what it returns. -/
def Rpcc.endCall (c : Rpcc) (xid : Nat) : Option Rpcc :=
  match c.calls.find? (fun ca => ca.xid == xid) with
  | none => none
  | some ca => some { c with
      calls := c.calls.filter (fun ca => ca.xid != xid)
      -- A call that timed out is acknowledged like one that was answered.
      xidRepWindow := updateXidRep xid c.xidRepWindow
      returned := c.returned ++ [{
        xid, proc := ca.proc
        ret := if ca.done then ca.intret else RpcConst.timeoutFailure
        un := ca.un }] }

/-- `rpcc::cancel`. While calls are left, new ones are refused, and the flag that
    says so is not cleared again. -/
def Rpcc.cancel (c : Rpcc) : Rpcc :=
  { c with
    calls := c.calls.map fun ca => { ca with done := true, intret := RpcConst.cancelFailure }
    destroyWait := c.destroyWait || !c.calls.isEmpty }

/-- `call_m` of a bind: the result is read as an `int`. -/
def bindResult (body : List UInt8) : Option Nat :=
  let (x, u) := (Unmarshall.mk body 0 true).getUint
  if u.okdone then some x.toNat else none

/-- The end of `rpcc::bind`, after a call that succeeded. -/
def Rpcc.bindReturns (c : Rpcc) (o : Outcome) : Option Rpcc :=
  if o ∈ c.returned ∧ o.proc = RpcConst.bind ∧ o.ret = 0 then
    match o.un.bind bindResult with
    | some r => some { c with bindDone := true, srvNonce := r }
    | none => none
  else none

/-! ## The server -/

/-- `reply_t`: the reply is there once `cb_present` is set. -/
structure ReplyT where
  xid : Nat
  cb : Option Reply
  deriving DecidableEq, Repr

/-- `rpcstate_t`. `DONE` comes with the remembered reply. -/
inductive RpcState where
  | new
  | inprogress
  | done (r : Reply)
  | forgotten
  deriving DecidableEq, Repr

/-- The loop that looks for a duplicate. It does not stop at the first one. -/
def scan (xid : Nat) : List ReplyT → RpcState → RpcState
  | [], ret => ret
  | e :: es, ret =>
      scan xid es (if xid = e.xid then
        match e.cb with
        | some r => .done r
        | none => .inprogress
      else ret)

/-- A fresh entry, in front of the first larger xid. -/
def insertReply (xid : Nat) : List ReplyT → List ReplyT
  | [] => [⟨xid, none⟩]
  | e :: es => if xid < e.xid then ⟨xid, none⟩ :: e :: es else e :: insertReply xid es

/-- The loop that drops acknowledged entries; `none` is the front of an empty
    list. -/
def prune (xidRep : Nat) : List ReplyT → Option (List ReplyT)
  | [] => none
  | e :: es => if e.xid ≤ xidRep then prune xidRep es else some (e :: es)

/-- What a request is, by the client's window and bound. -/
def classify (window : List ReplyT) (bound xid : Nat) : RpcState :=
  if window.isEmpty then .new
  else if xid ≤ bound then .forgotten
  else scan xid window .new

/-- `rpcs::checkduplicate_and_update`, on one client's window and bound. A new
    request overwrites the bound with its own `xid_rep`. -/
def checkduplicateAndUpdate (window : List ReplyT) (bound xid xidRep : Nat) :
    Option (RpcState × List ReplyT × Nat) :=
  match classify window bound xid with
  | .new => (prune xidRep (insertReply xid window)).map fun w => (.new, w, xidRep)
  | st => some (st, window, bound)

/-- `rpcs::add_reply`: the first entry with this xid. -/
def addReply (xid : Nat) (r : Reply) : List ReplyT → List ReplyT
  | [] => []
  | e :: es => if xid = e.xid then ⟨e.xid, some r⟩ :: es else e :: addReply xid r es

/-- `rpcs`, with the procedures registered. -/
structure Rpcs where
  nonce : Nat
  procs : List Nat
  replyWindow : Nat → List ReplyT
  windowBound : Nat → Nat

/-- The constructor registers `rpcbind`. -/
def Rpcs.new (nonce : Nat) (procs : List Nat) : Rpcs where
  nonce
  procs := RpcConst.bind :: procs
  replyWindow := fun _ => []
  windowBound := fun _ => 0

/-- A call on the windows of replies, of the client with nonce `n`. -/
inductive WindowCall where
  | checkduplicateAndUpdate (n xid xidRep : Nat)
  | addReply (n xid : Nat) (r : Reply)
  deriving DecidableEq, Repr

/-- One call, and the answer of a `checkduplicate_and_update`. -/
def Rpcs.perform (srv : Rpcs) : WindowCall → Option (Option RpcState × Rpcs)
  | .checkduplicateAndUpdate n xid xidRep =>
      (Rpc.checkduplicateAndUpdate (srv.replyWindow n) (srv.windowBound n) xid xidRep).map
        fun (st, w, bound) => (some st, { srv with
          replyWindow := Function.update srv.replyWindow n w
          windowBound := Function.update srv.windowBound n bound })
  | .addReply n xid r => some (none, { srv with
      replyWindow := Function.update srv.replyWindow n (Rpc.addReply xid r (srv.replyWindow n)) })

/-- A server's windows, and the calls made on them with their answers, latest first. -/
structure WindowLog where
  server : Rpcs
  past : List (WindowCall × Option RpcState)

def WindowLog.step (s : WindowLog) (call : WindowCall) : Option WindowLog :=
  (s.server.perform call).map fun (ans, srv) => ⟨srv, (call, ans) :: s.past⟩

/-! ## The system -/

/-- The clients by their nonces, the server, and every PDU sent so far. `executed`
    lists the requests whose handler has been started, in order. -/
structure Sys where
  clients : Nat → Rpcc
  server : Rpcs
  requests : List Request
  replies : List (Nat × Reply)
  running : List Request
  executed : List (Nat × Nat)

def init (nonce : Nat) (procs : List Nat) : Sys where
  clients := fun _ => Rpcc.new
  server := Rpcs.new nonce procs
  requests := []
  replies := []
  running := []
  executed := []

namespace Sys

def setClient (s : Sys) (n : Nat) (c : Rpcc) : Sys :=
  { s with clients := Function.update s.clients n c }

def setWindow (s : Sys) (n : Nat) (w : List ReplyT) (bound : Nat) : Sys :=
  { s with server := { s.server with
      replyWindow := Function.update s.server.replyWindow n w
      windowBound := Function.update s.server.windowBound n bound } }

def send (s : Sys) (n : Nat) (r : Reply) : Sys :=
  { s with replies := s.replies ++ [(n, r)] }

/-- The handler of a new request is called. -/
def start (s : Sys) (r : Request) : Sys :=
  { s with
    running := s.running ++ [r]
    executed := s.executed ++ [(r.cltNonce, r.xid)] }

/-- The switch of `dispatch`. -/
def answer (s : Sys) (r : Request) : RpcState → Sys
  | .new => s.start r
  | .inprogress => s
  | .done rep => s.send r.cltNonce rep
  | .forgotten => s.send r.cltNonce ⟨r.xid, RpcConst.atmostonceFailure, []⟩

/-- `rpcs::dispatch` up to the handler. An unknown procedure aborts the server.
    Client nonce 0 asks for no duplicate detection. -/
def dispatch (s : Sys) (r : Request) : Option Sys :=
  -- The client has bound to another instance of the server.
  if r.srvNonce ≠ 0 ∧ r.srvNonce ≠ s.server.nonce then
    some (s.send r.cltNonce ⟨r.xid, RpcConst.oldsrvFailure, []⟩)
  else if r.proc ∉ s.server.procs then none
  else if r.cltNonce = 0 then some (s.answer r .new)
  else match checkduplicateAndUpdate (s.server.replyWindow r.cltNonce)
      (s.server.windowBound r.cltNonce) r.xid r.xidRep with
    | none => none
    | some (st, w, bound) => some ((s.setWindow r.cltNonce w bound).answer r st)

/-- The marshalled result of `rpcbind`. -/
def bindBody (s : Sys) : List UInt8 :=
  Word.be32 (UInt32.ofNat s.server.nonce)

/-- The rest of `dispatch`, once the handler has returned. -/
def handlerReturns (s : Sys) (r : Request) (rep : Reply) : Sys :=
  let w := s.server.replyWindow r.cltNonce
  let s := if r.cltNonce > 0 then
      s.setWindow r.cltNonce (addReply r.xid rep w) (s.server.windowBound r.cltNonce)
    else s
  { s with running := s.running.erase r, replies := s.replies ++ [(r.cltNonce, rep)] }

end Sys

inductive Action where
  /-- A thread of client `n` enters `call1`. -/
  | call1 (n proc : Nat) (args : List UInt8)
  /-- A reply in the network reaches client `n`. -/
  | gotPdu (n : Nat) (r : Reply)
  /-- Another server instance answers a request that client `n` has issued. -/
  | strayPdu (n : Nat) (r : Reply)
  /-- The thread that waits for `xid` stops waiting, with or without a reply. -/
  | endCall (n xid : Nat)
  /-- `bind` takes the result of its call. -/
  | bindReturns (n : Nat) (o : Outcome)
  | cancel (n : Nat)
  /-- A request in the network reaches a dispatch thread of the server. -/
  | dispatch (r : Request)
  /-- The handler of a running request returns. -/
  | handlerReturns (r : Request) (ret : Int) (body : List UInt8)
  deriving DecidableEq, Repr

def step (s : Sys) : Action → Option Sys
  | .call1 n proc args => match (s.clients n).call1 n proc args with
    | .ok (c, r) => some { s.setClient n c with requests := s.requests ++ [r] }
    | .error _ => some s
  | .gotPdu n r =>
      if (n, r) ∈ s.replies then some (s.setClient n ((s.clients n).gotPdu r)) else none
  | .strayPdu n r =>
      if 1 ≤ r.xid ∧ r.xid < (s.clients n).xid then
        some (s.setClient n ((s.clients n).gotPdu r))
      else none
  | .endCall n xid => ((s.clients n).endCall xid).map (s.setClient n)
  | .bindReturns n o => ((s.clients n).bindReturns o).map (s.setClient n)
  | .cancel n => some (s.setClient n (s.clients n).cancel)
  | .dispatch r => if r ∈ s.requests then s.dispatch r else none
  | .handlerReturns r ret body =>
      -- A negative result of a handler fails an assertion of the server.
      if r ∈ s.running ∧ 0 ≤ ret ∧ (r.proc = RpcConst.bind → ret = 0 ∧ body = s.bindBody) then
        some (s.handlerReturns r ⟨r.xid, ret, body⟩)
      else none

/-- What is assumed of the clients: a nonce that asks for duplicate detection, and
    fewer than `2 ^ 32 - 1` calls. -/
def env (s : Sys) : Action → Bool
  | .call1 n _ _ => decide (n ≠ 0 ∧ (s.clients n).xid + 1 < 2 ^ 32)
  | _ => true

end Rpc

end Yfs
