import Yfs.Core.Protocol
import Yfs.Library.Trace
import Yfs.Library.Word

/-!
# Connections

The two ends of a TCP connection, each a `connection` object: any number of threads
that call `send`, the poll thread that calls `write_cb` and `read_cb`, and
`closeconn`.

An end is changed only under its mutex `m_`, so an action is a piece of code between
two points where the mutex is free: a thread enters `send` or comes back from one of
the two `pthread_cond_wait` loops or from `block_remove_fd`, or a callback runs. A
thread may come back from a wait at any time and finds its loop's condition as it is
then, so the signals, and the count of waiters that decides about one of them, are
not part of the model. A failed `VERIFY` is `none`: the process is gone and takes no
more steps.

The socket is the environment. A `write` takes any part of what it is given, answers
`EAGAIN` or fails, as it does after a lossy connection has shut its socket down; a `read`
returns any part of the bytes that the other end has written and this end has not read,
or the end of the file, or an error. `errno` is whatever it is when `read` returns 0. The
manager behind `got_pdu` may refuse.

`obtained`, `written`, `returned`, `consumed` and `accepted` are not fields of the
source. They record the PDUs in the order in which their senders got `wpdu_`, the
bytes written to the socket, the returns of `send`, how many bytes have been read
and what the manager has taken.

## Main definitions

* `Charbuf`, `Connection`, `SendPc`: One end.
* `writepdu`, `readpdu`: One attempt to write or read.
* `sendLoop`, `finishSend`, `writeCb`, `readCb`: The actions of an end.
* `step`, `marshalled`: The two ends, and the PDUs that are sent.
-/

namespace Yfs

/-- `connection::charbuf`. -/
structure Charbuf where
  buf : Option Bytes
  sz : Int
  solong : Int
  deriving DecidableEq, Repr

namespace Charbuf

def empty : Charbuf where
  buf := none
  sz := 0
  solong := 0

end Charbuf

/-- `MAX_PDU`. -/
def maxPdu : Int := 10 * 2 ^ 20

/-- `htonl`, as the bytes in memory. -/
def htonl (sz : Int) : Bytes :=
  Word.be32 (UInt32.ofNat sz.toNat)

/-- `ntohl` into an `int`. -/
def ntohl : Bytes → Int
  | [a, b, c, d] => (Word.ofBe32 a.toUInt32 b.toUInt32 c.toUInt32 d.toUInt32).toInt32.toInt
  | _ => 0

/-- What `write` returns. -/
inductive WriteResult where
  | wrote (n : Nat)
  | eagain
  | failed
  deriving DecidableEq, Repr

/-- What `read` returns, and with nothing read whether `errno` is `EAGAIN`. -/
inductive ReadResult where
  | got (n : Nat)
  | eof (eagain : Bool)
  | failed (eagain : Bool)
  deriving DecidableEq, Repr

/-- Where a thread is in `send`. The number counts the PDUs that got `wpdu_` before
    its own. -/
inductive SendPc where
  | idle
  | waiting (b : Bytes)
  | completing (k : Nat)
  | removing (k : Nat)
  deriving DecidableEq, Repr

/-- `connection`. -/
structure Connection (T : Type) where
  dead : Bool
  wpdu : Charbuf
  rpdu : Charbuf
  thread : T → SendPc
  obtained : List Bytes
  written : Bytes
  returned : List (Option Nat × Bool)
  consumed : Nat
  accepted : List (Bytes × Int)

/-- What happens at one end. -/
inductive EndAction (T : Type) where
  | send (t : T) (b : Bytes) (w : WriteResult)
  | sendWait (t : T) (w : WriteResult)
  | sendComplete (t : T)
  | removed (t : T)
  | writeCb (w : WriteResult)
  | readCb (r₁ r₂ : ReadResult) (consumes : Bool)
  | closeconn

namespace Connection

variable {T : Type}

def new : Connection T where
  dead := false
  wpdu := Charbuf.empty
  rpdu := Charbuf.empty
  thread := fun _ => .idle
  obtained := []
  written := []
  returned := []
  consumed := 0
  accepted := []

/-! ## Writing -/

/-- `connection::writepdu`. -/
def writepdu (c : Connection T) (w : WriteResult) : Option (Bool × Connection T) :=
  if c.wpdu.solong < 0 then none
  else if c.wpdu.solong = c.wpdu.sz then some (true, c)
  else match c.wpdu.buf with
    | none => none
    | some p =>
      -- The size is stamped over the first four bytes of the caller's buffer.
      let p := if c.wpdu.solong = 0 then htonl c.wpdu.sz ++ p.drop 4 else p
      match w with
      | .wrote n =>
        if (n : Int) ≤ c.wpdu.sz - c.wpdu.solong then
          some (true, { c with
            wpdu := { c.wpdu with buf := some p, solong := c.wpdu.solong + n }
            written := c.written ++ (p.drop c.wpdu.solong.toNat).take n })
        else none
      | .eagain => some (true, { c with wpdu := { c.wpdu with buf := some p } })
      | .failed => some (false, { c with wpdu := { buf := some p, sz := 0, solong := -1 } })

/-- `connection::write_cb`. -/
def writeCb (c : Connection T) (w : WriteResult) : Option (Connection T) :=
  if c.dead then none
  else if c.wpdu.sz = 0 then some c
  else do
    let (ok, c) ← c.writepdu w
    if ok then some c else some { c with dead := true }

section Send

variable [DecidableEq T]

def setThread (c : Connection T) (t : T) (pc : SendPc) : Connection T :=
  { c with thread := Function.update c.thread t pc }

/-- The end of `send`: the result, and `wpdu_` is free again. -/
def finishSend (c : Connection T) (t : T) (k : Nat) : Connection T :=
  { c.setThread t .idle with
    wpdu := Charbuf.empty
    returned := c.returned ++ [(some k, !c.dead && c.wpdu.solong == c.wpdu.sz)] }

/-- `send` with `wpdu_` free: the first attempt to write. -/
def obtain (c : Connection T) (t : T) (b : Bytes) (w : WriteResult) : Option (Connection T) := do
  let k := c.obtained.length
  let (ok, c) ← Connection.writepdu { c with
    wpdu := { buf := some b, sz := b.length, solong := 0 }
    obtained := c.obtained ++ [b] } w
  if ok = false then some (Connection.setThread { c with dead := true } t (.removing k))
  else if c.wpdu.solong = c.wpdu.sz then some (c.finishSend t k)
  else some (c.setThread t (.completing k))

/-- The first loop of `send` and what follows it. -/
def sendLoop (c : Connection T) (t : T) (b : Bytes) (w : WriteResult) : Option (Connection T) :=
  if c.dead then
    some { c.setThread t .idle with returned := c.returned ++ [(none, false)] }
  else if c.wpdu.buf.isSome then some (c.setThread t (.waiting b))
  else c.obtain t b w

end Send

/-! ## Reading -/

/-- `read`, into the bytes behind those of `rpdu_`. -/
def read (c : Connection T) (stream : Bytes) (n : Nat) : Bytes × Connection T :=
  ((stream.drop c.consumed).take n, { c with consumed := c.consumed + n })

/-- The second `read` of `readpdu`. -/
def readBody (c : Connection T) (stream : Bytes) : ReadResult → Option (Bool × Connection T)
  | .got n =>
    if 1 ≤ n ∧ (n : Int) ≤ c.rpdu.sz - c.rpdu.solong ∧ c.consumed + n ≤ stream.length then
      let (bytes, c) := c.read stream n
      some (true, { c with rpdu := { c.rpdu with
        buf := c.rpdu.buf.map (fun p => p ++ bytes)
        solong := c.rpdu.solong + n } })
    else none
  | .eof eagain | .failed eagain =>
    if eagain then some (true, c) else some (false, { c with rpdu := Charbuf.empty })

/-- `connection::readpdu`. -/
def readpdu (c : Connection T) (stream : Bytes) (r₁ r₂ : ReadResult) :
    Option (Bool × Connection T) :=
  if c.rpdu.sz ≠ 0 then c.readBody stream r₂
  else match r₁ with
    | .eof _ => some (false, c)
    | .failed eagain => if eagain then none else some (false, c)
    | .got n =>
      if 1 ≤ n ∧ n ≤ 4 ∧ c.consumed + n ≤ stream.length then
        let (sz1, c) := c.read stream n
        -- A short read of the size, and a size above the limit, end the connection.
        if n ≠ 4 ∨ maxPdu < ntohl sz1 then some (false, c)
        else if c.rpdu.buf.isSome then none
        else Connection.readBody { c with
          rpdu := { buf := some sz1, sz := ntohl sz1, solong := 4 } } stream r₂
      else none

/-- A PDU that is complete is offered to the manager. -/
def offer (c : Connection T) (consumes : Bool) : Connection T :=
  match c.rpdu.buf with
  | none => c
  | some p =>
    if c.rpdu.sz = c.rpdu.solong ∧ consumes = true then
      { c with rpdu := Charbuf.empty, accepted := c.accepted ++ [(p, c.rpdu.sz)] }
    else c

/-- `connection::read_cb`. -/
def readCb (c : Connection T) (stream : Bytes) (r₁ r₂ : ReadResult) (consumes : Bool) :
    Option (Connection T) :=
  if c.dead then some c
  else if c.rpdu.buf = none ∨ c.rpdu.solong < c.rpdu.sz then do
    let (succ, c) ← c.readpdu stream r₁ r₂
    some (Connection.offer (if succ then c else { c with dead := true }) consumes)
  else some (c.offer consumes)

/-! ## The system -/

variable [DecidableEq T]

/-- One action at an end; `stream` is what the other end has written. -/
def act (c : Connection T) (stream : Bytes) : EndAction T → Option (Connection T)
  | .send t b w => if c.thread t = .idle then c.sendLoop t b w else none
  | .sendWait t w => match c.thread t with
    | .waiting b => c.sendLoop t b w
    | _ => none
  | .sendComplete t => match c.thread t with
    | .completing k =>
      if c.dead = false ∧ 0 ≤ c.wpdu.solong ∧ c.wpdu.solong < c.wpdu.sz then none
      else some (c.finishSend t k)
    | _ => none
  | .removed t => match c.thread t with
    | .removing k => some (c.finishSend t k)
    | _ => none
  | .writeCb w => c.writeCb w
  | .readCb r₁ r₂ consumes => c.readCb stream r₁ r₂ consumes
  | .closeconn => some { c with dead := true }

/-- The two ends are told apart by a `Bool`. -/
def step (s : Bool → Connection T) (a : Bool × EndAction T) : Option (Bool → Connection T) :=
  ((s a.1).act (s (!a.1)).written a.2).map (Function.update s a.1)

/-- The PDUs that are sent were built by `marshall`. -/
def marshalled (_ : Bool → Connection T) : Bool × EndAction T → Bool
  | (_, .send _ b _) => decide (24 ≤ b.length ∧ b.length < 2 ^ 31)
  | _ => true

end Connection

end Yfs
