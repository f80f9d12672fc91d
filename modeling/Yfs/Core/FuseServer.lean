import Yfs.Core.YfsClient

/-!
# The FUSE Request Handlers

The handlers of `fuse.cc`, each a function of the arguments that the kernel passes and of
what the `yfs_client` calls return.

A handler sends its answer by a `fuse_reply_*` call on the request. Nothing stops it from
making two: an error branch that does not return falls through to the reply of the success
case. So the replies are a list. The calls to `yfs` are answered by a function on the state
of the file system, which may be that of the modelled operations, with every lock granted
(`served`) or with the locks that the process has (`locked`), or any other; every status that a
call can return is one of its answers.

The file modes that `create`, `mknod` and `mkdir` are passed are ignored by the source and
left out, and so is `fi`. The inum that `generate_inum` picks is an argument of the request.

## Main definitions

* `Op.Out`, `Op.call`, `Op.result`, `served`: The operations with their own results, and
  their execution.
* `Reply`, `Session`: The replies to one request, and the calls made on the way.
* `fuseserverGetattr` to `fuseserverStatfs`: The handlers.
* `Request`, `Request.handle`: The table `fuseserver_oper`.
* `Process`, `locked`: A process and the locks it has.
* `sessionLoop`: Requests one after another.
-/

namespace Yfs

open Extent

/-- What an operation returns besides its status. -/
abbrev Op.Out : Op → Type
  | .getfile _ => Option Attr
  | .getdir _ => Option DirInfo
  | .create _ _ _ => Option Attr
  | .lookup _ _ => Option (Inum × Option Attr)
  | .readdir _ => List Bytes
  | .updatesize _ _ => Unit
  | .read _ _ _ => Bytes
  | .write _ _ _ _ => Unit
  | .mymkdir _ _ _ => Unit
  | .unlink _ _ => Unit

def Op.call (u : Uninit) : (op : Op) → Prog (YfsStatus × op.Out)
  | .getfile inum => Yfs.getfile inum
  | .getdir inum => Yfs.getdir inum
  | .create parent name newInum => Yfs.create parent name newInum
  | .lookup parent name => Yfs.lookup u parent name
  | .readdir parent => Yfs.readdir parent
  | .updatesize inum newSize => do
      let st ← Yfs.updatesize inum newSize
      return (st, ())
  | .read inum size off => Yfs.read inum size off
  | .write inum buf size off => do
      let st ← Yfs.write inum buf size off
      return (st, ())
  | .mymkdir parent name dirInum => do
      let st ← Yfs.mymkdir parent name dirInum
      return (st, ())
  | .unlink parent name => do
      let st ← Yfs.unlink u parent name
      return (st, ())

/-- A status and the out-parameters, without the type of the operation. -/
def Op.result : (op : Op) → YfsStatus × op.Out → Result
  | .getfile _, r => .attr r.1 r.2
  | .getdir _, r => .dir r.1 r.2
  | .create _ _ _, r => .attr r.1 r.2
  | .lookup _ _, r => .found r.1 r.2
  | .readdir _, r => .tokens r.1 r.2
  | .updatesize _ _, r => .status r.1
  | .read _ _ _, r => .content r.1 r.2
  | .write _ _ _ _, r => .status r.1
  | .mymkdir _ _ _, r => .status r.1
  | .unlink _ _, r => .status r.1

/-- The operations on extents that answer. Every lock is granted, so every call returns. -/
def served {σ : Type} (u : Uninit) (serve : Inum → (o : ExtentCall) → σ → o.Answer × σ)
    (op : Op) (s : σ) : (YfsStatus × op.Out) × σ :=
  (op.call u).run serve s

/-- A process: the extents, the locks that its operations have not given back, and whether one of
    them waits for such a lock. -/
structure Process (σ : Type) where
  fs : σ
  held : Finset Inum
  waits : Bool

/-- The operations of a process that is the only one, so that a lock is free unless the process
    has it. An operation that waits for its own process never returns; what the handler is given
    here in its place has no meaning, and `waits` says so from then on. -/
def locked {σ : Type} (u : Uninit) (serve : Inum → (o : ExtentCall) → σ → o.Answer × σ)
    (op : Op) (p : Process σ) : (YfsStatus × op.Out) × Process σ :=
  match (op.call u).runLocked serve p.held p.fs with
  | some (r, held, fs) => (r, { p with fs, held })
  | none => ((served u serve op p.fs).1, { p with waits := true })

namespace Fuse

/-- The error numbers that occur; `success` is zero. -/
inductive Errno where
  | success
  | enoent
  | eexist
  | enotdir
  | enosys
  deriving DecidableEq, Repr

/-- The fields of `struct stat` that are set. `ino` is `none` where the struct is neither
    cleared nor given an `st_ino`. -/
structure Stat where
  ino : Option Inum
  mode : Nat
  nlink : Nat
  atime : UInt32
  mtime : UInt32
  ctime : UInt32
  size : UInt64
  deriving DecidableEq

/-- `struct fuse_entry_param`. -/
structure EntryParam where
  ino : Inum
  generation : Nat
  attr : Stat
  attrTimeout : Nat
  entryTimeout : Nat
  deriving DecidableEq

/-- The timeouts are always 0.0, and the generation is always 0. -/
def EntryParam.mk0 (ino : Inum) (attr : Stat) : EntryParam :=
  ⟨ino, 0, attr, 0, 0⟩

/-- A `fuse_reply_*` call. -/
inductive Reply where
  | err (errno : Errno)
  | attr (st : Stat)
  | buf (bytes : Bytes)
  | write (size : UInt64)
  | create (e : EntryParam)
  | entry (e : EntryParam)
  | open
  | statfs (namemax bsize : Nat)
  deriving DecidableEq

/-- The file system, the statuses that its operations returned to the handler, and the
    replies that the handler has sent, in order. -/
structure Session (σ : Type) where
  fs : σ
  called : List (Op × YfsStatus)
  replies : List Reply

/-- Before the handler runs. -/
def Session.new {σ : Type} (fs : σ) : Session σ where
  fs := fs
  called := []
  replies := []

abbrev Handler (σ : Type) := StateM (Session σ)

/-- How `libfuse` lays out a directory entry: `fuse_dirent_size` of the length of the name,
    and the bytes that `fuse_add_dirent` writes for a name, an inum and an offset. -/
structure Libfuse where
  direntSize : Nat → Nat
  addDirent : Bytes → Inum → Nat → Bytes

section Handlers

variable {σ : Type} (yfs : (op : Op) → σ → (YfsStatus × op.Out) × σ)

def call (op : Op) : Handler σ (YfsStatus × op.Out) := fun s =>
  let (res, fs) := yfs op s.fs
  (res, { s with fs, called := s.called ++ [(op, res.1)] })

def reply (r : Reply) : Handler σ Unit := fun s =>
  ((), { s with replies := s.replies ++ [r] })

/-- `bzero`, and the inum. -/
def Stat.zeroed (inum : Inum) : Stat where
  ino := some inum
  mode := 0
  nlink := 0
  atime := 0
  mtime := 0
  ctime := 0
  size := 0

/-- `S_IFREG | 0666` and one link. -/
def Stat.ofFile (ino : Option Inum) (a : Attr) : Stat where
  ino := ino
  mode := 0o100666
  nlink := 1
  atime := a.atime
  mtime := a.mtime
  ctime := a.ctime
  size := a.size.toUInt64

/-- `S_IFDIR | 0777` and two links. -/
def Stat.ofDir (inum : Inum) (din : DirInfo) : Stat where
  ino := some inum
  mode := 0o40777
  nlink := 2
  atime := din.atime
  mtime := din.mtime
  ctime := din.ctime
  size := 0

/-- The call that `getattr` makes. -/
def getattrOp (inum : Inum) : Op :=
  if isfile inum then .getfile inum else .getdir inum

/-- A failed call leaves `st` with the inum only. The info of a call that returned OK has
    been assigned. -/
def getattr (inum : Inum) : Handler σ (YfsStatus × Stat) := do
  -- Every inum that is not a file's is taken for a directory's.
  if isfile inum then
    let (ret, info) ← call yfs (.getfile inum)
    if ret ≠ .ok then return (ret, Stat.zeroed inum)
    return (.ok, info.elim (Stat.zeroed inum) (Stat.ofFile (some inum)))
  else
    let (ret, info) ← call yfs (.getdir inum)
    if ret ≠ .ok then return (ret, Stat.zeroed inum)
    return (.ok, info.elim (Stat.zeroed inum) (Stat.ofDir inum))

def fuseserverGetattr (ino : Inum) : Handler σ Unit := do
  let (ret, st) ← getattr yfs ino
  if ret ≠ .ok then
    reply (.err .enoent)
    return
  reply (.attr st)

/-- The bit of `to_set` for the size. -/
def setAttrSize : UInt32 := 8

/-- `attrSize` is `attr->st_size`. The status of `getattr` is not looked at, and the branch
    of a failed `updatesize` does not return. -/
def fuseserverSetattr (ino : Inum) (attrSize : UInt64) (toSet : UInt32) : Handler σ Unit := do
  if setAttrSize &&& toSet ≠ 0 then
    let (_, st) ← getattr yfs ino
    -- The size in the reply is the one that was asked for, not one that was read back.
    let st := { st with size := attrSize }
    let (ret, _) ← call yfs (.updatesize ino st.size)
    if ret ≠ .ok then
      reply (.err .enoent)
    reply (.attr st)
  else
    reply (.err .enosys)

def fuseserverRead (ino : Inum) (size off : UInt64) : Handler σ Unit := do
  let (ret, buf) ← call yfs (.read ino size off)
  -- There is no `return` in this branch, so a failed call is answered twice.
  if ret ≠ .ok then
    reply (.err .enoent)
  reply (.buf buf)

def fuseserverWrite (ino : Inum) (buf : Bytes) (size off : UInt64) : Handler σ Unit := do
  let (ret, _) ← call yfs (.write ino buf size off)
  if ret ≠ .ok then
    reply (.err .enoent)
  reply (.write size)

/-- Whatever `yfs->create` fails with, the status is EXIST. The inum in `e->attr` is not
    assigned. -/
def fuseserverCreatehelper (parent : Inum) (name : Bytes) (resultInum : Inum) :
    Handler σ (YfsStatus × Option EntryParam) := do
  let (ret, resultAttr) ← call yfs (.create parent name resultInum)
  if ret = .ok then
    let st := resultAttr.elim (Stat.ofFile none Attr.unset) (Stat.ofFile none)
    return (.ok, some (EntryParam.mk0 resultInum st))
  return (.exist, none)

/-- `fuseserver_create` and `fuseserver_mknod`, which differ in the reply. -/
def replyCreated (success : EntryParam → Reply) (parent : Inum) (name : Bytes)
    (newInum : Inum) : Handler σ Unit := do
  let (ret, e) ← fuseserverCreatehelper yfs parent name newInum
  match ret, e with
  | .ok, some e => reply (success e)
  | .exist, _ => reply (.err .eexist)
  | _, _ => reply (.err .enoent)

def fuseserverCreate (parent : Inum) (name : Bytes) (newInum : Inum) : Handler σ Unit :=
  replyCreated yfs .create parent name newInum

def fuseserverMknod (parent : Inum) (name : Bytes) (newInum : Inum) : Handler σ Unit :=
  replyCreated yfs .entry parent name newInum

/-- `found` and `result_inum` are looked at after a failure too. -/
def fuseserverLookup (parent : Inum) (name : Bytes) : Handler σ Unit := do
  let (ret, found) ← call yfs (.lookup parent name)
  if ret ≠ .ok then
    reply (.err .enoent)
  -- A `lookup` that fails at the child has set `found`, so an entry follows the error; one that
  -- fails at the directory has not.
  match found with
  | some (resultInum, _) =>
      let (_, st) ← getattr yfs resultInum
      reply (.entry (EntryParam.mk0 resultInum st))
  | none => reply (.err .enoent)

/-- `dirbuf_add`; the offset of an entry is that of the next one. -/
def dirbufAdd (lib : Libfuse) (b : Bytes) (name : Bytes) (ino : Inum) : Bytes :=
  b ++ lib.addDirent name ino (b.length + lib.direntSize name.length)

/-- `reply_buf_limited`. -/
def replyBufLimited (buf : Bytes) (off maxsize : UInt64) : Handler σ Unit :=
  -- The offset is converted to `size_t` for the test.
  if off.toNat < buf.length then
    reply (.buf ((buf.drop off.toNat).take (min (buf.length - off.toNat) maxsize.toNat)))
  else reply (.buf [])

def fuseserverReaddir (u : Uninit) (lib : Libfuse) (ino : Inum) (size off : UInt64) :
    Handler σ Unit := do
  if !isdir ino then
    reply (.err .enotdir)
    return
  let (ret, keyValues) ← call yfs (.readdir ino)
  if ret ≠ .ok then
    reply (.err .enotdir)
    return
  let b := (readdirEntries u.finum keyValues).foldl (fun b e => dirbufAdd lib b e.1 e.2) []
  replyBufLimited b off size

def fuseserverOpen : Handler σ Unit :=
  reply .open

/-- The branch of a failed `mymkdir` does not return, and the status of `getattr` is not
    looked at. -/
def fuseserverMkdir (parent : Inum) (name : Bytes) (dirInum : Inum) : Handler σ Unit := do
  let (ret, _) ← call yfs (.mymkdir parent name dirInum)
  if ret ≠ .ok then
    reply (.err .enoent)
  let (_, st) ← getattr yfs dirInum
  reply (.entry (EntryParam.mk0 dirInum st))

/-- The reply of the success case is an error reply with zero. -/
def fuseserverUnlink (parent : Inum) (name : Bytes) : Handler σ Unit := do
  let (ret, _) ← call yfs (.unlink parent name)
  if ret ≠ .ok then
    -- Both branches of the source send the same error.
    if ret = .noent then reply (.err .enoent) else reply (.err .enoent)
  reply (.err .success)

def fuseserverStatfs : Handler σ Unit :=
  reply (.statfs 255 512)

end Handlers

/-- What the kernel asks for. -/
inductive Request where
  | getattr (ino : Inum)
  | setattr (ino : Inum) (attrSize : UInt64) (toSet : UInt32)
  | read (ino : Inum) (size off : UInt64)
  | write (ino : Inum) (buf : Bytes) (size off : UInt64)
  | create (parent : Inum) (name : Bytes) (newInum : Inum)
  | mknod (parent : Inum) (name : Bytes) (newInum : Inum)
  | lookup (parent : Inum) (name : Bytes)
  | readdir (ino : Inum) (size off : UInt64)
  | open (ino : Inum)
  | mkdir (parent : Inum) (name : Bytes) (dirInum : Inum)
  | unlink (parent : Inum) (name : Bytes)
  | statfs

/-- `fuseserver_oper`. -/
def Request.handler {σ : Type} (u : Uninit) (lib : Libfuse)
    (yfs : (op : Op) → σ → (YfsStatus × op.Out) × σ) : Request → Handler σ Unit
  | .getattr ino => fuseserverGetattr yfs ino
  | .setattr ino attrSize toSet => fuseserverSetattr yfs ino attrSize toSet
  | .read ino size off => fuseserverRead yfs ino size off
  | .write ino buf size off => fuseserverWrite yfs ino buf size off
  | .create parent name newInum => fuseserverCreate yfs parent name newInum
  | .mknod parent name newInum => fuseserverMknod yfs parent name newInum
  | .lookup parent name => fuseserverLookup yfs parent name
  | .readdir ino size off => fuseserverReaddir yfs u lib ino size off
  | .open _ => fuseserverOpen
  | .mkdir parent name dirInum => fuseserverMkdir yfs parent name dirInum
  | .unlink parent name => fuseserverUnlink yfs parent name
  | .statfs => fuseserverStatfs

/-- The session when the handler has returned. -/
def Request.handle {σ : Type} (req : Request) (u : Uninit) (lib : Libfuse)
    (yfs : (op : Op) → σ → (YfsStatus × op.Out) × σ) (fs : σ) : Session σ :=
  (req.handler u lib yfs (Session.new fs)).2

/-- `fuse_session_loop`: requests one after another, with the replies to each. The loop has one
    thread, so a handler that waits for its own process is the end of it: `none`. -/
def sessionLoop {σ : Type} (u : Uninit) (lib : Libfuse)
    (serve : Inum → (o : ExtentCall) → σ → o.Answer × σ) :
    List Request → Process σ → Option (List (List Reply) × Process σ)
  | [], p => some ([], p)
  | req :: rest, p =>
      let s := req.handle u lib (locked u serve) p
      -- The state of the handler that waits has no meaning any more.
      if s.fs.waits then none
      else (sessionLoop u lib serve rest s.fs).map fun t => (s.replies :: t.1, t.2)

end Fuse

end Yfs
