import Yfs.Core.Directory
import Yfs.Core.Extent
import Yfs.Library.Txn

/-!
# File System Operations

The operations of `yfs_client` as programs over locks and extents, in the order in
which the source calls `lc` and `ec`.

A `goto release` of the source is an early return out of a `withLock`. Only `unlink`
has a lock that is not bracketed: it takes the lock of the file it frees, and gives
it back only where the `put` on it fails.

Out-parameters that an operation leaves unassigned are `none` in its result. Offsets
and sizes are 64-bit words; `off + size` wraps as it does in the source.

## Main definitions

* `ExtentCall`, `Prog`: The calls to `extent_client`, and programs over them.
* `ecGet`, `ecGetattr`, `ecPut`: One call.
* `YfsStatus`, `Uninit`: Statuses, and the values of uninitialised locals.
* `isExist`, `addEntry`: The helpers.
* `create`, `lookup`, `readdir`, `updatesize`, `read`, `write`, `mymkdir`, `unlink`,
  `getfile`, `getdir`: The operations.
* `Op`, `Op.prog`, `Result`: All operations as one type.
* `Creation`: The two operations that make an object.
* `runOps`: A thread's operations one after another.
* `Cached.serve`, `Direct.serve`: Extents behind a cache, and without.
* `Flaky.serve`: Extents behind a cache whose calls to the server may fail.
* `Cached.Action`, `Cached.step`: What happens to a cache and to the server behind it.
-/

namespace Yfs

open Extent

/-- The calls an operation makes to `ec`, apart from the extent id. -/
inductive ExtentCall where
  | get
  | getattr
  | put (buf : Bytes)

/-- The status and the out-parameter of a call. -/
abbrev ExtentCall.Answer : ExtentCall → Type
  | get => Status × Bytes
  | getattr => Status × Attr
  | put _ => Status

/-- A program that takes locks and calls extents. -/
abbrev Prog := Txn Inum ExtentCall ExtentCall.Answer

/-- `yfs_client::xxstatus`. -/
inductive YfsStatus where
  | ok
  | rpcerr
  | noent
  | ioerr
  | exist
  deriving DecidableEq, Repr

/-- The values of locals that the source declares without an initialiser: `finum` of
    `n2i`, and `unlink_inum` of `unlink`. -/
structure Uninit where
  finum : Inum
  unlinkInum : Inum

structure DirInfo where
  atime : UInt32
  mtime : UInt32
  ctime : UInt32
  deriving DecidableEq

open Txn

/-- `ec->get`. -/
def ecGet (eid : Inum) : Prog (Status × Bytes) :=
  ask eid ExtentCall.get

/-- `ec->getattr`. -/
def ecGetattr (eid : Inum) : Prog (Status × Attr) :=
  ask eid ExtentCall.getattr

/-- `ec->put`. -/
def ecPut (eid : Inum) (buf : Bytes) : Prog Status :=
  ask eid (ExtentCall.put buf)

section Calls

variable {σ : Type} (serve : Inum → (o : ExtentCall) → σ → o.Answer × σ) (eid : Inum)
  (held : Finset Inum) (s : σ)

@[simp]
theorem runLocked_ecGet : (ecGet eid).runLocked serve held s
    = some ((serve eid .get s).1, held, (serve eid .get s).2) := rfl

@[simp]
theorem runLocked_ecGetattr : (ecGetattr eid).runLocked serve held s
    = some ((serve eid .getattr s).1, held, (serve eid .getattr s).2) := rfl

@[simp]
theorem runLocked_ecPut (buf : Bytes) : (ecPut eid buf).runLocked serve held s
    = some ((serve eid (.put buf) s).1, held, (serve eid (.put buf) s).2) := rfl

end Calls

def getfile (inum : Inum) : Prog (YfsStatus × Option Attr) :=
  withLock inum do
    let (st, a) ← ecGetattr inum
    if st ≠ .ok then return (.ioerr, none)
    return (.ok, some a)

def getdir (inum : Inum) : Prog (YfsStatus × Option DirInfo) :=
  withLock inum do
    let (st, a) ← ecGetattr inum
    if st ≠ .ok then return (.ioerr, none)
    return (.ok, some ⟨a.atime, a.mtime, a.ctime⟩)

def isExist (parent : Inum) (name : Bytes) : Prog Bool := do
  let (st, entries) ← ecGet parent
  if st ≠ .ok then return false
  return (findEntry entries name).isSome

theorem runLocked_isExist {σ : Type} (serve : Inum → (o : ExtentCall) → σ → o.Answer × σ)
    (parent : Inum) (name : Bytes) (held : Finset Inum) (s : σ) :
    (isExist parent name).runLocked serve held s
      = some (decide ((serve parent .get s).1.1 = .ok ∧
          (findEntry (serve parent .get s).1.2 name).isSome = true),
        held, (serve parent .get s).2) := by
  simp only [isExist, runLocked_bind, runLocked_ecGet, Option.bind_some]
  by_cases hst : (serve parent .get s).1.1 = .ok
  · rw [if_neg (not_not.mpr hst), runLocked_pure]
    simp only [hst, true_and, Bool.decide_eq_true]
  · rw [if_pos hst, runLocked_pure]
    simp only [hst, false_and, decide_false]

/-- `add_entry`, which returns zero for success. -/
def addEntry (parent : Inum) (name : Bytes) (newInum : Inum) : Prog Nat := do
  let (st, entries) ← ecGet parent
  if st ≠ .ok then return 1
  let st ← ecPut parent (appendEntry entries name newInum)
  if st ≠ .ok then return 1
  return 0

/-- The status of the `put` on the new extent is not looked at. -/
def create (parent : Inum) (name : Bytes) (newInum : Inum) : Prog (YfsStatus × Option Attr) :=
  withLock parent (withLock newInum do
    if ← isExist parent name then return (.exist, none)
    let _ ← ecPut newInum []
    if (← addEntry parent name newInum) ≠ 0 then return (.ioerr, none)
    let (st, a) ← ecGetattr newInum
    if st ≠ .ok then return (.ioerr, none)
    return (.ok, some a))

/-- The result is `none` where `found` is not set. -/
def lookup (u : Uninit) (parent : Inum) (name : Bytes) :
    Prog (YfsStatus × Option (Inum × Option Attr)) :=
  withLock parent do
    let (st, entries) ← ecGet parent
    if st ≠ .ok then return (.ioerr, none)
    match findEntry entries name with
    | none => return (.ok, none)
    | some entry =>
        let resultInum := n2i u.finum entry.1
        -- The lock of the child is taken under that of the directory.
        withLock resultInum do
          let (st, a) ← ecGetattr resultInum
          if st ≠ .ok then return (.ioerr, some (resultInum, none))
          return (.ok, some (resultInum, some a))

def readdir (parent : Inum) : Prog (YfsStatus × List Bytes) :=
  withLock parent do
    let (st, entries) ← ecGet parent
    if st ≠ .ok then return (.ioerr, [])
    return (.ok, split entries sep)

/-- The content a resize writes, from the content and the size attribute before. -/
def resized (oldBuf : Bytes) (oldSize : UInt32) (newSize : UInt64) : Bytes :=
  if oldSize.toNat < newSize.toNat then
    -- The padding is counted from the size attribute, not from the content.
    oldBuf ++ List.replicate (newSize.toNat - oldSize.toNat) 0
  else oldBuf.take newSize.toNat

def updatesize (inum : Inum) (newSize : UInt64) : Prog YfsStatus :=
  withLock inum do
    let (st, oldAttr) ← ecGetattr inum
    if st ≠ .ok then return .ioerr
    let (st, oldBuf) ← ecGet inum
    if st ≠ .ok then return .ioerr
    let st ← ecPut inum (resized oldBuf oldAttr.size newSize)
    if st ≠ .ok then return .ioerr
    return .ok

def read (inum : Inum) (size off : UInt64) : Prog (YfsStatus × Bytes) :=
  withLock inum do
    let (st, content) ← ecGet inum
    if st ≠ .ok then return (.ioerr, [])
    if off.toNat < content.length then
      return (.ok, (content.drop off.toNat).take size.toNat)
    return (.ok, [])

/-- `buf_str.substr(0, size)` after the padding: `size` bytes, of which those from the
    first zero byte of the caller's buffer on are zero. -/
def writeChunk (buf : Bytes) (size : UInt64) : Bytes :=
  let bufStr := cstr buf
  let bufStr := if bufStr.length < size.toNat
    then bufStr ++ List.replicate (size.toNat - bufStr.length) 0 else bufStr
  bufStr.take size.toNat

/-- The content a write writes. With a size attribute of zero the offset is not
    looked at. -/
def written (content : Bytes) (attrSize : UInt32) (buf : Bytes) (size off : UInt64) : Bytes :=
  let chunk := writeChunk buf size
  if attrSize = 0 then chunk
  else if content.length < off.toNat then
    content ++ List.replicate (off.toNat - content.length) 0 ++ chunk
  -- The sum is taken modulo `2 ^ 64`.
  else if content.length ≤ (off + size).toNat then
    if off = 0 then chunk else content.take off.toNat ++ chunk
  else if off = 0 then chunk ++ content.drop (off + size).toNat
  else content.take off.toNat ++ chunk ++ content.drop (off + size).toNat

/-- `buf` is the memory that the pointer points to. -/
def write (inum : Inum) (buf : Bytes) (size off : UInt64) : Prog YfsStatus :=
  withLock inum do
    let (st, content) ← ecGet inum
    if st ≠ .ok then return .ioerr
    let (st, a) ← ecGetattr inum
    if st ≠ .ok then return .ioerr
    let st ← ecPut inum (written content a.size buf size off)
    if st ≠ .ok then return .ioerr
    return .ok

def mymkdir (parent : Inum) (name : Bytes) (dirInum : Inum) : Prog YfsStatus :=
  withLock parent (withLock dirInum do
    if ← isExist parent name then return .exist
    let st ← ecPut dirInum []
    if st ≠ .ok then return .ioerr
    if (← addEntry parent name dirInum) ≠ 0 then return .ioerr
    return .ok)

/-- The text and the value of the inum that `unlink` is to free. -/
def unlinkTarget (u : Uninit) (entries name : Bytes) : Bytes × Inum :=
  match findEntry entries name with
  | some entry => (entry.1, n2i u.finum entry.1)
  | none => ([], u.unlinkInum)

/-- The lock of the freed file is released where the `put` fails, and only there. -/
def unlink (u : Uninit) (parent : Inum) (name : Bytes) : Prog YfsStatus :=
  withLock parent do
    if !(← isExist parent name) then return .noent
    let (st, entries) ← ecGet parent
    if st ≠ .ok then return .ioerr
    let (strUnlinkInum, unlinkInum) := unlinkTarget u entries name
    if isdir unlinkInum then return .ioerr
    let st ← ecPut parent (removeEntry entries strUnlinkInum name)
    if st ≠ .ok then return .ioerr
    -- Not a bracket: of the ways out below only the failing one unlocks.
    lock unlinkInum
    let st ← ecPut unlinkInum []
    if st ≠ .ok then
      unlock unlinkInum
      return .ioerr
    return .ok

/-! ## All operations -/

inductive Op where
  | getfile (inum : Inum)
  | getdir (inum : Inum)
  | create (parent : Inum) (name : Bytes) (newInum : Inum)
  | lookup (parent : Inum) (name : Bytes)
  | readdir (parent : Inum)
  | updatesize (inum : Inum) (newSize : UInt64)
  | read (inum : Inum) (size off : UInt64)
  | write (inum : Inum) (buf : Bytes) (size off : UInt64)
  | mymkdir (parent : Inum) (name : Bytes) (dirInum : Inum)
  | unlink (parent : Inum) (name : Bytes)
  deriving DecidableEq

/-- A `create`, or a `mymkdir` if `isdir` is set. -/
structure Creation where
  isdir : Bool
  name : Bytes
  inum : Inum

def Creation.op (dir : Inum) (c : Creation) : Op :=
  if c.isdir then .mymkdir dir c.name c.inum else .create dir c.name c.inum

/-- A status and the out-parameters. -/
inductive Result where
  | status (st : YfsStatus)
  | attr (st : YfsStatus) (a : Option Attr)
  | dir (st : YfsStatus) (din : Option DirInfo)
  | found (st : YfsStatus) (entry : Option (Inum × Option Attr))
  | tokens (st : YfsStatus) (keyValues : List Bytes)
  | content (st : YfsStatus) (buf : Bytes)
  deriving DecidableEq

/-- The return value. -/
def Result.ret : Result → YfsStatus
  | .status st => st
  | .attr st _ => st
  | .dir st _ => st
  | .found st _ => st
  | .tokens st _ => st
  | .content st _ => st

def Op.prog (u : Uninit) : Op → Prog Result
  | .getfile inum => do
      let (st, a) ← Yfs.getfile inum
      return .attr st a
  | .getdir inum => do
      let (st, din) ← Yfs.getdir inum
      return .dir st din
  | .create parent name newInum => do
      let (st, a) ← Yfs.create parent name newInum
      return .attr st a
  | .lookup parent name => do
      let (st, entry) ← Yfs.lookup u parent name
      return .found st entry
  | .readdir parent => do
      let (st, keyValues) ← Yfs.readdir parent
      return .tokens st keyValues
  | .updatesize inum newSize => do
      let st ← Yfs.updatesize inum newSize
      return .status st
  | .read inum size off => do
      let (st, buf) ← Yfs.read inum size off
      return .content st buf
  | .write inum buf size off => do
      let st ← Yfs.write inum buf size off
      return .status st
  | .mymkdir parent name dirInum => do
      let st ← Yfs.mymkdir parent name dirInum
      return .status st
  | .unlink parent name => do
      let st ← Yfs.unlink u parent name
      return .status st

/-- One thread's operations, one after another; `held` is what it has locked. -/
def runOps {σ : Type} (u : Uninit) (serve : Inum → (o : ExtentCall) → σ → o.Answer × σ) :
    List Op → Finset Inum → σ → Option (List Result × Finset Inum × σ)
  | [], held, s => some ([], held, s)
  | op :: ops, held, s => do
      let (r, held, s) ← (op.prog u).runLocked serve held s
      let (rs, held, s) ← runOps u serve ops held s
      return (r :: rs, held, s)

/-! ## Extents that answer -/

/-- An extent server used directly, and how often its clock has been read. -/
structure Direct where
  server : ExtentServer
  ticks : Nat

/-- The extents of a server without a cache in front. -/
def Direct.serve (clock : Nat → UInt32) (eid : Inum) :
    (o : ExtentCall) → Direct → o.Answer × Direct
  | .get, s =>
      let (res, server) := s.server.get (clock s.ticks) eid
      (res, ⟨server, s.ticks + 1⟩)
  | .getattr, s => (s.server.getattr eid, s)
  | .put buf, s => (.ok, ⟨s.server.put (clock s.ticks) eid buf, s.ticks + 1⟩)

/-- One client's cache, the server behind it, and the clock. -/
structure Cached where
  client : ExtentClient
  server : ExtentServer
  ticks : Nat

/-- The extents as one client sees them. -/
def Cached.serve (clock : Nat → UInt32) (eid : Inum) :
    (o : ExtentCall) → Cached → o.Answer × Cached
  | .get, s =>
      let (res, client, server) := s.client.fetch s.server (clock s.ticks) eid
      (res, ⟨client, server, s.ticks + 1⟩)
  | .getattr, s =>
      let (res, client) := s.client.fetchattr s.server eid
      (res, { s with client })
  | .put buf, s => (.ok, { s with client := s.client.put (clock s.ticks) eid buf,
                                  ticks := s.ticks + 1 })

/-- A client whose calls to the server may fail, and how many of them it has made. -/
structure Flaky extends Cached where
  calls : Nat

/-- A call to the server. One that fails returns no value, and the server may have executed
    it all the same: a `get` then changes the access time. -/
def Flaky.call (rpc : Nat → CallOutcome) (clock : Nat → UInt32) (eid : Inum) (o : ExtentCall)
    (fail : Status → o.Answer) (s : Flaky) : o.Answer × Flaky :=
  if (rpc s.calls).status = .ok then
    let (res, cached) := Cached.serve clock eid o s.toCached
    (res, ⟨cached, s.calls + 1⟩)
  else
    let server := if (rpc s.calls).executed
      then (Direct.serve clock eid o ⟨s.server, s.ticks⟩).2.server else s.server
    (fail (rpc s.calls).status, ⟨⟨s.client, server, s.ticks + 1⟩, s.calls + 1⟩)

/-- The extents as such a client sees them: `rpc n` is what becomes of its `n`-th call. Only
    what is not cached is asked for, and a `put` is not sent. -/
def Flaky.serve (rpc : Nat → CallOutcome) (clock : Nat → UInt32) (eid : Inum) :
    (o : ExtentCall) → Flaky → o.Answer × Flaky
  | .get, s => match s.client.contentMapCache eid with
    | some _ =>
        let (res, cached) := Cached.serve clock eid .get s.toCached
        (res, ⟨cached, s.calls⟩)
    | none => Flaky.call rpc clock eid .get (fun st => (st, [])) s
  | .getattr, s => match s.client.attrMapCache eid with
    | some _ =>
        let (res, cached) := Cached.serve clock eid .getattr s.toCached
        (res, ⟨cached, s.calls⟩)
    | none => Flaky.call rpc clock eid .getattr (fun st => (st, Attr.unset)) s
  | .put buf, s =>
      let (res, cached) := Cached.serve clock eid (.put buf) s.toCached
      (res, ⟨cached, s.calls⟩)

/-- A call of the client, a write-back when it gives a lock away, or a call of another
    client that reaches the server. `extent_client::remove` has no caller but `flush`. -/
inductive Cached.Action where
  | call (eid : Inum) (o : ExtentCall)
  | flush (eid : Inum)
  | other (eid : Inum) (o : ExtentCall)

/-- No value of the extent is cached, and none is owed to the server. -/
def ExtentClient.isClear (c : ExtentClient) (eid : Inum) : Bool :=
  (c.contentMapCache eid).isNone && (c.attrMapCache eid).isNone && !c.dirtyEidSet eid

def Cached.step (clock : Nat → UInt32) (s : Cached) : Cached.Action → Option Cached
  | .call eid o => some (serve clock eid o s).2
  | .flush eid =>
      let (client, server) := s.client.writeBack s.server (clock s.ticks) eid
      some ⟨client, server, s.ticks + 1⟩
  -- Another client has the extent's lock then, and this one flushed the extent before.
  | .other eid o =>
      if s.client.isClear eid then
        let (_, d) := Direct.serve clock eid o ⟨s.server, s.ticks⟩
        some ⟨s.client, d.server, d.ticks⟩
      else none

end Yfs
