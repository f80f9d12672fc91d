import Yfs.Core.Extent

/-!
# Sessions with the Extents

Sequences of calls to the public interface of `extent_client`, and the same calls made
on `extent_server` without a client in between, where `flush` has nothing to do.

Every call comes with the value of `time(NULL)` while it is executed. An answer is what
the caller gets to see of contents and sizes: the status and the content of a `get`, the
status and, if it is `OK`, the size of a `getattr`, and the status of the rest. Remote
calls do not fail here.

## Main definitions

* `ClientCall`, `SessionAnswer`: The calls and what they return.
* `ExtentServer.perform`, `ExtentServer.answers`: On the server itself.
* `ExtentClient.perform`, `ExtentClient.answers`: Through the cache.
-/

namespace Yfs

open Extent

/-- The methods of `extent_client`, apart from the extent id. -/
inductive ClientCall where
  | get
  | getattr
  | put (buf : Bytes)
  | remove
  | flush
  deriving DecidableEq, Repr

/-- A status, and the content or the size that comes with it. -/
inductive SessionAnswer where
  | content (st : Status) (buf : Bytes)
  | size (st : Status) (size : Option UInt32)
  | status (st : Status)
  deriving DecidableEq, Repr

/-- What is returned by a `getattr`: the attributes are set if the status is `OK`. -/
def SessionAnswer.ofAttr : Status × Attr → SessionAnswer
  | (.ok, a) => .size .ok (some a.size)
  | (st, _) => .size st none

def ExtentServer.perform (srv : ExtentServer) (now : UInt32) (eid : Inum) :
    ClientCall → SessionAnswer × ExtentServer
  | .get =>
      let (res, srv') := srv.get now eid
      (.content res.1 res.2, srv')
  | .getattr => (.ofAttr (srv.getattr eid), srv)
  | .put buf => (.status .ok, srv.put now eid buf)
  | .remove =>
      let (st, srv') := srv.remove eid
      (.status st, srv')
  | .flush => (.status .ok, srv)

/-- The answers to calls that are made on the server itself. -/
def ExtentServer.answers (srv : ExtentServer) :
    List (UInt32 × Inum × ClientCall) → List SessionAnswer
  | [] => []
  | (now, eid, call) :: calls =>
      let (ans, srv') := srv.perform now eid call
      ans :: srv'.answers calls

def ExtentClient.perform (c : ExtentClient) (srv : ExtentServer) (now : UInt32) (eid : Inum) :
    ClientCall → SessionAnswer × ExtentClient × ExtentServer
  | .get =>
      let (res, c', srv') := c.fetch srv now eid
      (.content res.1 res.2, c', srv')
  | .getattr =>
      let (res, c') := c.fetchattr srv eid
      (.ofAttr res, c', srv)
  | .put buf => (.status .ok, c.put now eid buf, srv)
  -- The call to the server is commented out in the source.
  | .remove => (.status .ok, c.remove eid, srv)
  | .flush => (.status (c.flush eid .ok).1, c.writeBack srv now eid)

/-- The answers to calls that go through a client. -/
def ExtentClient.answers (c : ExtentClient) (srv : ExtentServer) :
    List (UInt32 × Inum × ClientCall) → List SessionAnswer
  | [] => []
  | (now, eid, call) :: calls =>
      let (ans, c', srv') := c.perform srv now eid call
      ans :: c'.answers srv' calls

end Yfs
