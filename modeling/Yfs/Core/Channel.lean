import Mathlib.Data.Fintype.Defs
import Mathlib.Logic.Function.Basic

/-!
# The Connection of a Client

`chan_` of `rpcc`, and the connections that the threads in `call1` use.

A `connection` is here its count, whether it is dead and whether it has been deleted. An
object is named by a number; a number is not used again, so a pointer to a deleted object is
seen to be one. `fault` is set when a deleted object is used, or when the `VERIFY` of
`decref` fails.

`get_refconn` runs under `chan_m_`, one action for each section of a connection that it
enters, and for the call of `connect_to_dst`. Between the `decref` of a dead connection and
the assignment that follows, `chan_` points to an object which may be gone. A connection dies
at any time; callbacks of the poll loop are called for an object that exists. `send` and
`isdead` of `call1` are the action `use`. The destructor is called when no thread is in
`call1`.

## Main definitions

* `Conn`, `ChanPc`, `Channel`: The connections, the threads and `chan_`.
* `Conn.incref`, `Conn.decref`: The counts.
* `ChannelAction`, `Channel.step`: What happens to them.
-/

namespace Yfs

namespace Rpc

/-- A `connection`. -/
structure Conn where
  refno : Int
  dead : Bool
  freed : Bool
  deriving DecidableEq, Repr

namespace Conn

def incref (c : Conn) : Conn :=
  { c with refno := c.refno + 1 }

/-- The object is deleted if nothing refers to it and it is dead. -/
def decref (c : Conn) : Conn :=
  { c with
    refno := c.refno - 1
    freed := c.freed || (decide (c.refno - 1 = 0) && c.dead) }

end Conn

/-- Where a thread is: in `call1` with its local pointer `ch`, or in `get_refconn`, at the
    test of `chan_`, the `decref` of a dead one, the new connection, the `decref` of `*ch` or
    the `incref` of what has been assigned to it. -/
inductive ChanPc where
  | out
  | call (ch : Option Nat)
  | test (ch : Option Nat)
  | drop (ch : Option Nat)
  | connect (ch : Option Nat)
  | swap (ch : Option Nat)
  | take
  deriving DecidableEq, Repr

structure Channel (T : Type) where
  conn : Nat → Conn
  made : Nat
  chan : Option Nat
  chanM : Option T
  pc : T → ChanPc
  fault : Bool
  destroyed : Bool

inductive ChannelAction (T : Type) where
  | enter (t : T)
  | transmit (t : T)
  | advance (t : T) (connected : Bool)
  | use (t : T)
  | leave (t : T)
  | dies (k : Nat)
  | destroy

namespace Channel

variable {T : Type}

def new (T : Type) : Channel T where
  conn := fun _ => ⟨0, false, false⟩
  made := 0
  chan := none
  chanM := none
  pc := fun _ => .out
  fault := false
  destroyed := false

def touch (s : Channel T) (k : Nat) : Channel T :=
  { s with fault := s.fault || (s.conn k).freed }

def setConn (s : Channel T) (k : Nat) (c : Conn) : Channel T :=
  { s with conn := Function.update s.conn k c }

/-- `connection::incref`. -/
def incref (s : Channel T) (k : Nat) : Channel T :=
  (s.touch k).setConn k (s.conn k).incref

/-- `connection::decref`, with its `VERIFY`. -/
def decref (s : Channel T) (k : Nat) : Channel T :=
  { (s.touch k).setConn k (s.conn k).decref with
    fault := (s.touch k).fault || decide ((s.conn k).decref.refno < 0) }

def decrefAny (s : Channel T) : Option Nat → Channel T
  | none => s
  | some k => s.decref k

/-- `connect_to_dst`, which makes an object with one reference or returns a null pointer. -/
def connectToDst (s : Channel T) (connected : Bool) : Channel T :=
  if connected then
    { s.setConn s.made ⟨1, false, false⟩ with made := s.made + 1, chan := some s.made }
  else { s with chan := none }

/-- `chan_m_` is held throughout `get_refconn`. -/
def lock (s : Channel T) (t : T) : Channel T :=
  { s with chanM := some t }

def unlock (s : Channel T) : Channel T :=
  { s with chanM := none }

variable [DecidableEq T]

def setPc (s : Channel T) (t : T) (pc : ChanPc) : Channel T :=
  { s with pc := Function.update s.pc t pc }

/-- The next action of a thread in `get_refconn`. -/
def getRefconn (s : Channel T) (t : T) (connected : Bool) : Option (Channel T) :=
  match s.pc t with
  | .test ch => match s.chan with
    | none => some (s.setPc t (.connect ch))
    | some k => some ((s.touch k).setPc t (if (s.conn k).dead then .drop ch else .swap ch))
  | .drop ch => some ((s.decrefAny s.chan).setPc t (.connect ch))
  | .connect ch => some ((s.connectToDst connected).setPc t (.swap ch))
  | .swap ch => match s.chan with
    -- Without a connection the thread keeps the one that it has.
    | none => some (s.unlock.setPc t (.call ch))
    | some _ => some ((s.decrefAny ch).setPc t .take)
  | .take => match s.chan with
    | none => none
    | some k => some ((s.incref k).unlock.setPc t (.call (some k)))
  | _ => none

/-- `rpcc::~rpcc`. -/
def destroy (s : Channel T) : Channel T :=
  match s.chan with
  | none => { s with destroyed := true }
  | some k =>
    -- `closeconn` and `decref`.
    let s := (s.touch k).setConn k { s.conn k with dead := true }
    { s.decref k with chan := none, destroyed := true }

def step [Fintype T] (s : Channel T) : ChannelAction T → Option (Channel T)
  | .enter t => if s.pc t = .out ∧ s.destroyed = false then some (s.setPc t (.call none)) else none
  | .transmit t => match s.pc t with
    | .call ch =>
      if s.chanM = none then some ((s.lock t).setPc t (.test ch)) else none
    | _ => none
  | .advance t connected => s.getRefconn t connected
  | .use t => match s.pc t with
    | .call (some k) => some (s.touch k)
    | _ => none
  | .leave t => match s.pc t with
    | .call ch => some ((s.decrefAny ch).setPc t .out)
    | _ => none
  | .dies k =>
    if k < s.made ∧ (s.conn k).freed = false then
      some (s.setConn k { s.conn k with dead := true })
    else none
  | .destroy => if s.destroyed = false ∧ ∀ t, s.pc t = .out then some s.destroy else none

end Channel

end Rpc

end Yfs
