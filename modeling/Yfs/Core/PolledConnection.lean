import Yfs.Core.Connection
import Yfs.Core.PollMgr

/-!
# A Connection and the Poll Loop

One `connection` object with the `PollMgr` that calls it back: the threads in `send`, a
thread in `closeconn` and the thread in `wait_loop`.

`Connection` has the object and `PollMgr` the loop; here the calls between them are put
in. The constructor has registered the object for reading. A `send` that has written a part
of its PDU registers it for writing, still under the object's mutex. `write_cb` and
`read_cb` remove it when they fail, and `write_cb` takes the interest in writing back when
there is nothing to write. A thread that has set `dead_` in `send` or `closeconn` gives the
mutex back before it enters `block_remove_fd`, so that is an action of its own; `due` says
who has yet to do it. The threads in `block_remove_fd` are the senders and, as `none`, the
thread in `closeconn`.

A `write_cb` that finds the connection dead fails its `VERIFY(!dead_)`. The process is gone,
which is recorded in `aborted`.

## Main definitions

* `Polled`, `PolledAction`: The object, the loop and what they do.
* `Polled.step`: One action.
-/

namespace Yfs

/-- The connection and the loop; `fd` is the descriptor of the connection. -/
structure Polled (T : Type) where
  fd : Nat
  conn : Connection T
  poll : PollMgr Unit (Option T)
  due : Option T → Bool
  aborted : Bool

/-- What happens. A callback is run by the loop when it has loaded it; `stream` is what the
    other end has written. -/
inductive PolledAction (T : Type) where
  | send (t : T) (b : Bytes) (w : WriteResult)
  | sendWait (t : T) (w : WriteResult)
  | sendComplete (t : T)
  | closeconn
  | blockRemove (r : Option T)
  | removed (r : Option T)
  | sendRemoved (t : T)
  | loop (a : LoopAction)
  | writeCb (w : WriteResult)
  | readCb (stream : Bytes) (r₁ r₂ : ReadResult) (consumes : Bool)

namespace Polled

variable {T : Type}

/-- After the constructor. -/
def new (T : Type) (fd pipefd : Nat) : Polled T where
  fd
  conn := Connection.new
  poll := { PollMgr.new Unit (Option T) pipefd with
    aio := (SelectAio.new pipefd).watchFd fd .rdonly
    callbacks := Function.update (fun _ => none) fd (some ()) }
  due := fun _ => false
  aborted := false

variable [DecidableEq T]

/-- What `send` asks of the poll manager once the connection is as `c` says. -/
def afterSend (s : Polled T) (t : T) (c : Connection T) : Option (Polled T) :=
  match c.thread t with
  | .completing _ => (s.poll.addCallback s.fd .wronly ()).map fun poll =>
      { s with conn := c, poll }
  | .removing _ => some { s with conn := c, due := Function.update s.due (some t) true }
  | _ => some { s with conn := c }

/-- `closeconn`, up to `block_remove_fd`. -/
def closeconn (s : Polled T) : Polled T :=
  if s.conn.dead then s
  else { s with
    conn := { s.conn with dead := true }
    due := Function.update s.due none true }

/-- `write_cb`. -/
def writeCb (s : Polled T) (w : WriteResult) : Option (Polled T) :=
  if s.conn.dead then some { s with aborted := true }
  else do
    let c ← s.conn.writeCb w
    let poll ← s.poll.stepLoop .invoke
    let removed :=
      if s.conn.wpdu.sz = 0 then poll.delCallback s.fd .wronly
      else if c.dead then poll.delCallback s.fd .rdwr
      else some poll
    removed.map fun poll => { s with conn := c, poll }

/-- `read_cb`. -/
def readCb (s : Polled T) (stream : Bytes) (r₁ r₂ : ReadResult) (consumes : Bool) :
    Option (Polled T) := do
  let c ← s.conn.readCb stream r₁ r₂ consumes
  let poll ← s.poll.stepLoop .invoke
  let removed :=
    if s.conn.dead = false ∧ c.dead = true then poll.delCallback s.fd .rdwr else some poll
  removed.map fun poll => { s with conn := c, poll }

/-- One action of a process that is still there. -/
def act (s : Polled T) : PolledAction T → Option (Polled T)
  | .send t b w => (s.conn.act [] (.send t b w)).bind (s.afterSend t)
  | .sendWait t w => (s.conn.act [] (.sendWait t w)).bind (s.afterSend t)
  | .sendComplete t => (s.conn.act [] (.sendComplete t)).map fun conn => { s with conn }
  | .closeconn => some s.closeconn
  | .blockRemove r =>
    if s.due r then (s.poll.step (.blockRemove r s.fd)).map fun poll =>
      { s with poll, due := Function.update s.due r false }
    else none
  | .removed r => (s.poll.step (.removed r)).map fun poll => { s with poll }
  | .sendRemoved t =>
    if s.due (some t) = false ∧ s.poll.remover (some t) = .idle then
      (s.conn.act [] (.removed t)).map fun conn => { s with conn }
    else none
  -- The loop calls the object in the last two actions only.
  | .loop .invoke => none
  | .loop a => (s.poll.stepLoop a).map fun poll => { s with poll }
  | .writeCb w => match s.poll.loop with
    | .loaded true _ _ _ _ => s.writeCb w
    | _ => none
  | .readCb stream r₁ r₂ consumes => match s.poll.loop with
    | .loaded false _ _ _ _ => s.readCb stream r₁ r₂ consumes
    | _ => none

def step (s : Polled T) (a : PolledAction T) : Option (Polled T) :=
  if s.aborted then none else s.act a

end Polled

end Yfs
