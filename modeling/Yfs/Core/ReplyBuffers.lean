import Yfs.Core.Restart

/-!
# The Buffers of the Replies

`dispatch` sends a reply after `reply_window_m_` is released, from a buffer that the window may
free in the meantime.

The bytes of a reply are in one buffer. If the client has a nonce, the entry of the window has a
pointer to it from `add_reply` on, and every `send` of the reply is given that pointer: the one
after the handler, and one for each duplicate that is found `DONE`. A new request that
acknowledges the entry frees the buffer, and does not ask whether a thread is still sending it;
`send` waits for its turn on the connection and for the connection to take the bytes. What is
written after that is what the memory has been used for since.

So what an instance of the server has in `sent` is here a `Flight` first: a call of `send` which
has not written its last byte, with the entry that its buffer is in. `add_reply` may find another
buffer in the entry and takes its place; the other one is never freed. A failure is packed on
the stack of the thread, and a reply to a client without a nonce is freed after it was sent, so
these have no entry. A window is freed as a whole with its server, which does not happen here.

A client gets what is on the wire. From a buffer that was freed this may be any reply.

## Main definitions

* `Flight`: A reply that is being sent.
* `Flight.start`, `Flight.prune`, `Flight.replace`: Its buffer.
* `Buffered`, `SendAction`, `Buffered.step`: Servers and clients, with the sends and the wire.
* `Buffered.intact`: What is written was not freed.
-/

namespace Yfs

namespace Rpc

/-- A call of `send` by instance `i`. The entry of a window that has the buffer is given by the
    nonce of the client and the xid. -/
structure Flight (K : Type) where
  i : Nat
  conn : K
  reply : Reply
  entry : Option (Nat × Nat)
  freed : Bool
  deriving DecidableEq

namespace Flight

variable {K : Type}

/-- `send` is called by the thread that has dispatched `r`. -/
def start (i : Nat) (inst : Instance K) (r : Request) (p : K × Reply) : Flight K where
  i
  conn := p.1
  reply := p.2
  entry :=
    if ⟨r.xid, some p.2⟩ ∈ inst.srv.server.replyWindow r.cltNonce then some (r.cltNonce, r.xid)
    else none
  freed := false

/-- `checkduplicate_and_update` frees the buffers of the entries that it drops. -/
def prune (i : Nat) (inst : Instance K) (f : Flight K) : Flight K :=
  match f.entry with
  | some (n, xid) =>
    if f.i = i ∧ ∀ e ∈ inst.srv.server.replyWindow n, e.xid ≠ xid then
      { f with entry := none, freed := true }
    else f
  | none => f

/-- `add_reply` puts another buffer into the entry, and leaves the old one alone. -/
def replace (i n xid : Nat) (f : Flight K) : Flight K :=
  if f.i = i ∧ f.entry = some (n, xid) then { f with entry := none } else f

end Flight

/-- The parties, the calls of `send`, and the replies that were written, with the instance and
    the connection. -/
structure Buffered (C K T : Type) where
  sys : Restarts C K T
  flights : List (Flight K)
  wire : List (Nat × K × Reply)

inductive SendAction (C K T : Type) where
  | act (a : RestartAction C K T)
  | written (j : Nat) (rep : Reply)
  | failed (j : Nat)

namespace Buffered

variable {C K T : Type}

def new (C K T : Type) : Buffered C K T where
  sys := Restarts.new C K T
  flights := []
  wire := []

/-- The calls of `send` after one half of `dispatch` at instance `i`, which may have started
    another one. -/
def flightsAfter (s : Buffered C K T) (sys : Restarts C K T) (i : Nat) (r : Request)
    (buffer : Instance K → Flight K → Flight K) : List (Flight K) :=
  match s.sys.instances[i]?, sys.instances[i]? with
  | some inst, some inst' =>
    s.flights.map (buffer inst') ++
      (inst'.srv.sent.drop inst.srv.sent.length).map (Flight.start i inst' r)
  | _, _ => s.flights

variable [DecidableEq C] [DecidableEq K] [DecidableEq T]

def step (w : Wiring C K) (s : Buffered C K T) : SendAction C K T → Option (Buffered C K T)
  -- The first half of `dispatch` prunes the window, and so frees buffers that another thread may be
  -- sending from.
  | .act (.dispatch i k r) =>
    (s.sys.step w (.dispatch i k r)).map fun sys =>
      { s with sys, flights := s.flightsAfter sys i r (Flight.prune i) }
  | .act (.handlerReturns i k r ret body) =>
    (s.sys.step w (.handlerReturns i k r ret body)).map fun sys =>
      { s with sys, flights := s.flightsAfter sys i r fun _ => Flight.replace i r.cltNonce r.xid }
  -- What arrives is what was written, not what `send` was called with.
  | .act (.gotPdu i k rep) =>
    if (i, k, rep) ∈ s.wire then
      some { s with sys := s.sys.setPeer (w.owner k) ((s.sys.peers (w.owner k)).gotPdu rep) }
    else none
  | .act a => (s.sys.step w a).map fun sys => { s with sys }
  | .written j rep => do
    let f ← s.flights[j]?
    -- Nothing is known of the bytes of a buffer that was freed.
    if f.freed = true ∨ rep = f.reply then
      some { s with flights := s.flights.eraseIdx j, wire := s.wire ++ [(f.i, f.conn, rep)] }
    else none
  | .failed j => do
    let _ ← s.flights[j]?
    some { s with flights := s.flights.eraseIdx j }

/-- The last byte of a reply is written from a buffer that is still there. -/
def intact (s : Buffered C K T) : SendAction C K T → Bool
  | .written j _ => (s.flights[j]?).all fun f => !f.freed
  | _ => true

end Buffered

end Rpc

end Yfs
