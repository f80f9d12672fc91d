import Yfs.Core.Protocol

/-!
# Extents

The extent server and the write-back cache in front of it.

The server keeps contents and attributes in two maps and stamps the times itself.
A client keeps contents, attributes and dirtiness in three containers that are
filled separately: `get` fills the first, `getattr` the second, and `put` all
three without talking to the server. `flush` writes a dirty extent back and then
drops both cached values.

`time(NULL)` is an argument of every function that calls it. A client function
that makes a remote call takes the answer of that call as an argument; `fetch`,
`fetchattr` and `writeBack` are the same functions against a server, with the call
delivered and executed.

## Main definitions

* `Extent.Status`: `extent_protocol::xxstatus` and the failures of the RPC layer.
* `ExtentServer`: `extent_server`.
* `ExtentClient`: `extent_client`.
* `ExtentClient.fetch`, `fetchattr`, `writeBack`: The client in front of a server.
* `ExtentClient.flushWith`: `flush` in front of a server that may not be reached.
-/

namespace Yfs

/-- `extent_protocol::status`; `failed` is a negative status of the RPC layer. -/
inductive Extent.Status where
  | ok
  | rpcerr
  | noent
  | ioerr
  | failed
  deriving DecidableEq, Repr

open Extent

/-- `buf.size()` stored in an `unsigned int`. -/
def sizeAttr (buf : Bytes) : UInt32 :=
  UInt32.ofNat buf.length

/-- Attributes built from scratch. -/
def Attr.stamped (now : UInt32) (buf : Bytes) : Attr where
  atime := now
  mtime := now
  ctime := now
  size := sizeAttr buf

/-- An attribute record that nothing has been stored in. -/
def Attr.unset : Attr where
  atime := 0
  mtime := 0
  ctime := 0
  size := 0

/-! ## The server -/

structure ExtentServer where
  contentMap : Inum → Option Bytes
  attrMap : Inum → Option Attr

namespace ExtentServer

/-- The constructor: the root directory, empty. -/
def new (now : UInt32) : ExtentServer where
  contentMap := Function.update (fun _ => none) 1 (some [])
  attrMap := Function.update (fun _ => none) 1 (some (Attr.stamped now []))

/-- An extent that exists keeps its `atime`. -/
def put (srv : ExtentServer) (now : UInt32) (id : Inum) (buf : Bytes) : ExtentServer where
  contentMap := Function.update srv.contentMap id (some buf)
  attrMap := Function.update srv.attrMap id (some (match srv.attrMap id with
    | none => Attr.stamped now buf
    | some a => { a with ctime := now, mtime := now, size := sizeAttr buf }))

def get (srv : ExtentServer) (now : UInt32) (id : Inum) : (Status × Bytes) × ExtentServer :=
  match srv.contentMap id, srv.attrMap id with
  | some buf, some a =>
      ((.ok, buf), { srv with
        attrMap := Function.update srv.attrMap id (some { a with atime := now }) })
  -- An extent without content or without attributes.
  | _, _ => ((.ioerr, []), srv)

def getattr (srv : ExtentServer) (id : Inum) : Status × Attr :=
  match srv.attrMap id with
  | some a => (.ok, a)
  | none => (.ioerr, Attr.unset)

def remove (srv : ExtentServer) (id : Inum) : Status × ExtentServer :=
  match srv.contentMap id, srv.attrMap id with
  | some _, some _ =>
      (.ok, ⟨Function.update srv.contentMap id none, Function.update srv.attrMap id none⟩)
  | _, _ => (.ioerr, srv)

end ExtentServer

/-! ## The client -/

/-- What becomes of a call: the status that the client gets, and whether the server has
    executed it. A call that timed out may have been executed or not; one that was refused,
    as a PDU above `MAX_PDU` is, has not. -/
structure CallOutcome where
  status : Status
  executed : Bool
  deriving DecidableEq, Repr

structure ExtentClient where
  contentMapCache : Inum → Option Bytes
  attrMapCache : Inum → Option Attr
  dirtyEidSet : Inum → Bool

namespace ExtentClient

def new : ExtentClient where
  contentMapCache := fun _ => none
  attrMapCache := fun _ => none
  dirtyEidSet := fun _ => false

/-- `rpc` is the answer of the `get` call, which is made if the content is not
    cached. -/
def get (c : ExtentClient) (eid : Inum) (rpc : Status × Bytes) :
    (Status × Bytes) × ExtentClient :=
  match c.contentMapCache eid with
  | some buf => ((.ok, buf), c)
  | none => match rpc with
    | (.ok, buf) =>
        ((.ok, buf), { c with
          contentMapCache := Function.update c.contentMapCache eid (some buf) })
    | (st, buf) => ((st, buf), c)

def getattr (c : ExtentClient) (eid : Inum) (rpc : Status × Attr) :
    (Status × Attr) × ExtentClient :=
  match c.attrMapCache eid with
  | some a => ((.ok, a), c)
  | none => match rpc with
    | (.ok, a) =>
        ((.ok, a), { c with attrMapCache := Function.update c.attrMapCache eid (some a) })
    | (st, a) => ((st, a), c)

/-- No call: the content and fresh attributes go into the cache. -/
def put (c : ExtentClient) (now : UInt32) (eid : Inum) (buf : Bytes) : ExtentClient where
  contentMapCache := Function.update c.contentMapCache eid (some buf)
  attrMapCache := Function.update c.attrMapCache eid (some (Attr.stamped now buf))
  dirtyEidSet := Function.update c.dirtyEidSet eid true

/-- `remove` clears the cached values and leaves the dirty mark. -/
def remove (c : ExtentClient) (eid : Inum) : ExtentClient :=
  { c with
    contentMapCache := Function.update c.contentMapCache eid none
    attrMapCache := Function.update c.attrMapCache eid none }

/-- What `flush` sends to the server, if anything. -/
def flushRequest (c : ExtentClient) (eid : Inum) : Option Bytes :=
  if c.dirtyEidSet eid then some ((c.contentMapCache eid).getD []) else none

/-- `rpc` is the answer of the `put` call, which is made if the extent is dirty.
    Whatever it is, the dirty mark and the cached values go. -/
def flush (c : ExtentClient) (eid : Inum) (rpc : Status) : Status × ExtentClient :=
  if c.dirtyEidSet eid then
    (rpc, { c with dirtyEidSet := Function.update c.dirtyEidSet eid false }.remove eid)
  else (.ok, c.remove eid)

/-- `get` in front of a server that answers. -/
def fetch (c : ExtentClient) (srv : ExtentServer) (now : UInt32) (eid : Inum) :
    (Status × Bytes) × ExtentClient × ExtentServer :=
  match c.contentMapCache eid with
  | some _ =>
      -- No call is made, and the answer given here is not looked at.
      let (res, c') := c.get eid (.ok, [])
      (res, c', srv)
  | none =>
      let (rpc, srv') := srv.get now eid
      let (res, c') := c.get eid rpc
      (res, c', srv')

/-- `getattr` in front of a server that answers. -/
def fetchattr (c : ExtentClient) (srv : ExtentServer) (eid : Inum) :
    (Status × Attr) × ExtentClient :=
  c.getattr eid (srv.getattr eid)

/-- `flush` in front of a server that answers. -/
def writeBack (c : ExtentClient) (srv : ExtentServer) (now : UInt32) (eid : Inum) :
    ExtentClient × ExtentServer :=
  ((c.flush eid .ok).2, match c.flushRequest eid with
    | some buf => srv.put now eid buf
    | none => srv)

/-- `flush` with any outcome of its call. -/
def flushWith (c : ExtentClient) (srv : ExtentServer) (now : UInt32) (eid : Inum)
    (o : CallOutcome) : Status × ExtentClient × ExtentServer :=
  let (st, c') := c.flush eid o.status
  (st, c', match c.flushRequest eid with
    | some buf => if o.executed then srv.put now eid buf else srv
    | none => srv)

end ExtentClient

end Yfs
