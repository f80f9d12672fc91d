import Yfs.Theory.FuseReplies
import Yfs.Theory.KeptLocks

/-!
# The Mounted File System

What the kernel is told by the handlers of `fuse.cc`, in terms of files and directories.

`respond` says which replies a request gets on a file system, and `Request.operation` which
operation it performs there. A handler that goes on after an error has sent two replies, and
both are in the list. A `mkdir` that fails still sends an entry, with the attributes of
whatever has the inum it was going to use. A creation reports every failure as EEXIST. A
listing is cut at the size that the kernel has asked for, within an entry if that is where
the size ends.

The handlers are proved against any implementation of the operations that does what the file
system does (`Mounts`), with the locks that were kept; a process with its cache in front of the
server is one (`mounts_cached`). Times are not compared.

A successful `unlink` keeps the lock of the file, so a request that names the file afterwards is
not answered, and nor is any after it. `Avoids` says that there is none, and it is what decides
whether a session is answered to its end.

## Main definitions

* `Stat.timeless`, `Reply.timeless`: Replies without times.
* `statOf`, `listing`: The attributes of an object, and the buffer of a directory.
* `Request.operation`, `respond`: What a request does and what it gets.
* `Mounts`: An implementation of the operations.
* `operations`, `respondAll`: Requests one after another.
* `Avoids`: No request names a file that was unlinked.

## Theorems

* `getattr_mounted`: The helper that most handlers use.
* `handle_mounted`: One request.
* `mounts_cached`: The implementation with a cache.
* `handle_waits`: One request that is not answered.
* `sessionLoop_mounted`: Any number of requests.
* `mounted_file_system`: A process on a new file system.
-/

namespace Yfs

namespace Fuse

open FileSystem Extent

/-! ## Replies -/

def Stat.timeless (st : Stat) : Stat :=
  { st with atime := 0, mtime := 0, ctime := 0 }

def EntryParam.timeless (e : EntryParam) : EntryParam :=
  { e with attr := e.attr.timeless }

def Reply.timeless : Reply → Reply
  | .attr st => .attr st.timeless
  | .create e => .create e.timeless
  | .entry e => .entry e.timeless
  | r => r

/-- The attributes of an object, apart from times. Those of an inum that nothing has are all
    zero. -/
def statOf (fs : State) (inum : Inum) : Stat :=
  match fs inum with
  | none => Stat.zeroed inum
  | some (.file c) => Stat.ofFile (some inum) ⟨0, 0, 0, sizeAttr c⟩
  | some (.dir _) => Stat.ofDir inum ⟨0, 0, 0⟩

/-- The buffer that a directory is listed from. -/
def listing (lib : Libfuse) (d : Directory) : Bytes :=
  d.entries.foldl (fun b e => dirbufAdd lib b (cstr e.1) e.2) []

/-- The operation that a request performs. Attributes are read on the way by others, too. -/
def Request.operation : Request → Option Op
  | .getattr ino => some (getattrOp ino)
  | .setattr ino attrSize toSet =>
      if setAttrSize &&& toSet ≠ 0 then some (.updatesize ino attrSize) else none
  | .read ino size off => some (.read ino size off)
  | .write ino buf size off => some (.write ino buf size off)
  | .create parent name newInum | .mknod parent name newInum =>
      some (.create parent name newInum)
  | .lookup parent name => some (.lookup parent name)
  | .readdir ino _ _ => if isdir ino then some (.readdir ino) else none
  | .mkdir parent name dirInum => some (.mymkdir parent name dirInum)
  | .unlink parent name => some (.unlink parent name)
  | .open _ | .statfs => none

/-- The file system after a request. -/
def after (fs : State) (req : Request) : State :=
  req.operation.elim fs fun op => (exec fs op).2

/-- The lock that is kept after a request. -/
def keptBy (fs : State) : Request → Finset Inum
  | .unlink parent name => keeps fs (.unlink parent name)
  | _ => ∅

/-- The reply to a creation with the given status. -/
def created (success : EntryParam → Reply) (inum : Inum) (st : YfsStatus) : Reply :=
  if st = .ok then success (EntryParam.mk0 inum (Stat.ofFile none ⟨0, 0, 0, 0⟩))
  else .err .eexist

/-- The replies to a request. -/
def respond (lib : Libfuse) (fs : State) : Request → List Reply
  | .getattr ino =>
      if fs ino = none then [.err .enoent] else [.attr (statOf fs ino)]
  | .setattr ino attrSize toSet =>
      if setAttrSize &&& toSet ≠ 0 then
        let st := { statOf fs ino with size := attrSize }
        if fs ino = none then [.err .enoent, .attr st] else [.attr st]
      else [.err .enosys]
  | .read ino size off => match fs ino with
    | some (.file c) => [.buf ((c.drop off.toNat).take size.toNat)]
    | _ => [.err .enoent, .buf []]
  | .write ino _ size _ =>
      if fs ino = none then [.err .enoent, .write size] else [.write size]
  | .create parent name newInum =>
      [created .create newInum (make fs parent name newInum (.file [])).1]
  | .mknod parent name newInum =>
      [created .entry newInum (make fs parent name newInum (.file [])).1]
  | .lookup parent name => match fs parent with
    | some (.dir d) => match d.find name with
      | some inum => [.entry (EntryParam.mk0 inum (statOf fs inum))]
      | none => [.err .enoent]
    | _ => [.err .enoent, .err .enoent]
  | .readdir ino size off => match fs ino with
    | some (.dir d) => [.buf (((listing lib d).drop off.toNat).take size.toNat)]
    | _ => [.err .enotdir]
  | .open _ => [.open]
  | .mkdir parent name dirInum =>
      let made := make fs parent name dirInum (.dir Directory.empty)
      let e := EntryParam.mk0 dirInum (statOf made.2 dirInum)
      if made.1 = .ok then [.entry e] else [.err .enoent, .entry e]
  | .unlink parent name => match fs parent with
    | some (.dir d) => match d.find name with
      | some inum =>
          if isdir inum then [.err .enoent, .err .success] else [.err .success]
      | none => [.err .enoent, .err .success]
    | _ => [.err .enoent, .err .success]
  | .statfs => [.statfs 255 512]

/-- The operations of a session. -/
def operations (reqs : List Request) : List (Unit × Op) :=
  reqs.filterMap fun req => req.operation.map (Prod.mk ())

/-- The replies to requests that are handled one after another. -/
def respondAll (lib : Libfuse) : List Request → State → List (List Reply)
  | [], _ => []
  | req :: rest, fs => respond lib fs req :: respondAll lib rest (after fs req)

/-- No request names a file that was unlinked before. -/
def Avoids : List Request → State → Finset Inum → Prop
  | [], _, _ => True
  | req :: rest, fs, held =>
      (∀ inum ∈ req.operation.bind Op.file, inum ∉ held) ∧
        Avoids rest (after fs req) (held ∪ keptBy fs req)

/-! ## Implementations -/

/-- An implementation of the operations: on a state that stands for a file system, with the
    locks `held`, an operation that does not need one of them returns what it does there. The
    next state stands for what it leaves, with the lock that it keeps. -/
structure Mounts {σ : Type} (yfs : (op : Op) → σ → (YfsStatus × op.Out) × σ)
    (R : Finset Inum → σ → State → Prop) : Prop where
  kept : ∀ {held s fs}, R held s fs → Kept fs held
  performs : ∀ op {held s fs}, R held s fs → WellFormed fs → Proper op →
    (∀ inum, creates op = some inum → fs inum = none) →
    (∀ inum, op.file = some inum → inum ∉ held) →
    plain (op.result (yfs op s).1) = (exec fs op).1 ∧
      R (held ∪ keeps fs op) (yfs op s).2 (exec fs op).2

/-- What is asked about the inum that an operation has, of one that has none. -/
theorem of_none {o : Option Inum} {P : Inum → Prop} (ho : o = none) (inum : Inum)
    (h : o = some inum) : P inum := by
  rw [ho] at h
  cases h

/-- A request has been answered: these are its replies, and the state stands for this. -/
def Replied {σ : Type} (R : σ → State → Prop) (sess : Session σ) (replies : List Reply)
    (fs : State) : Prop :=
  sess.replies.map Reply.timeless = replies ∧ R sess.fs fs

section Replied

variable {σ : Type} {R : σ → State → Prop} (sess : Session σ) {fs : State}

theorem replied_reply {replies : List Reply} (hreplies : sess.replies = replies)
    (hR : R sess.fs fs) (r : Reply) :
    Replied R (reply r sess).2 (replies.map Reply.timeless ++ [r.timeless]) fs := by
  refine ⟨?_, hR⟩
  rw [reply_apply, hreplies, List.map_append, List.map_singleton]

theorem replied_one (hnone : sess.replies = []) (hR : R sess.fs fs) (r : Reply) :
    Replied R (reply r sess).2 [r.timeless] fs :=
  replied_reply sess hnone hR r

/-- An error branch that does not return. -/
theorem replied_two (hnone : sess.replies = []) (hR : R sess.fs fs) (r r' : Reply) :
    Replied R (reply r' (reply r sess).2).2 [r.timeless, r'.timeless] fs := by
  have hone : (reply r sess).2.replies = [r] := by rw [reply_apply, hnone, List.nil_append]
  exact replied_reply (reply r sess).2 hone hR r'

end Replied

section Handlers

variable {σ : Type} {yfs : (op : Op) → σ → (YfsStatus × op.Out) × σ}
  {R : Finset Inum → σ → State → Prop} (hM : Mounts yfs R) {fs : State} (hfs : WellFormed fs)
  {held : Finset Inum}

include hM hfs

/-- An operation that keeps no lock. -/
theorem Mounts.performs_same (op : Op) {s : σ} (hR : R held s fs) (hop : Proper op)
    (hfresh : ∀ inum, creates op = some inum → fs inum = none)
    (hfree : ∀ inum, op.file = some inum → inum ∉ held) (hkeeps : keeps fs op = ∅) :
    plain (op.result (yfs op s).1) = (exec fs op).1 ∧ R held (yfs op s).2 (exec fs op).2 := by
  have hperforms := hM.performs op hR hfs hop hfresh hfree
  rw [hkeeps, Finset.union_empty] at hperforms
  exact hperforms

/-- The helper finds an object if there is one. Of one that is not there it leaves a `stat` of
    zeros, which some handlers send. -/
theorem getattr_mounted (sess : Session σ) (hR : R held sess.fs fs) (inum : Inum)
    (hfree : isfile inum = true → inum ∉ held) :
    ((getattr yfs inum sess).1.1 = .ok ↔ fs inum ≠ none) ∧
      (getattr yfs inum sess).1.2.timeless = statOf fs inum ∧
      (getattr yfs inum sess).2.replies = sess.replies ∧
      R held (getattr yfs inum sess).2.fs fs := by
  -- The inum decides between the two calls, and a well-formed file system has a file or a directory
  -- there, as the inum says.
  by_cases hf : isfile inum = true
  · rcases hM.performs_same hfs (.getfile inum) hR hf (of_none rfl)
      (fun i hi => Option.some.inj hi ▸ hfree hf) rfl with ⟨hres, hnext⟩
    rw [getattr, if_pos hf, bind_apply, call_apply]
    generalize yfs (.getfile inum) sess.fs = r at hres hnext ⊢
    rcases r with ⟨⟨st, info⟩, s'⟩
    rcases hn : fs inum with _ | c | d
    · simp only [exec, hn, Op.result, plain, Result.timeless, Result.attr.injEq] at hres hnext
      rw [hres.1]
      refine ⟨iff_of_false (show YfsStatus.ioerr ≠ .ok by decide) fun h => h rfl, ?_, rfl, hnext⟩
      change (Stat.zeroed inum).timeless = _
      simp only [statOf, hn]
      rfl
    · simp only [exec, hn, Op.result, plain, Result.timeless, Result.attr.injEq] at hres hnext
      rcases Option.map_eq_some_iff.mp hres.2 with ⟨a, rfl, ha⟩
      have hsize : a.size = sizeAttr c := congrArg Attr.size ha
      rw [hres.1]
      refine ⟨iff_of_true rfl (Option.some_ne_none _), ?_, rfl, hnext⟩
      change (Stat.ofFile (some inum) a).timeless = _
      simp only [statOf, hn, Stat.ofFile, hsize]
      rfl
    · exact absurd hn (hfs.not_dir hf)
  · have hdir : isdir inum = true := by simp [isdir, hf]
    rcases hM.performs_same hfs (.getdir inum) hR hdir (of_none rfl) (of_none rfl) rfl with
      ⟨hres, hnext⟩
    rw [getattr, if_neg hf, bind_apply, call_apply]
    generalize yfs (.getdir inum) sess.fs = r at hres hnext ⊢
    rcases r with ⟨⟨st, info⟩, s'⟩
    rcases hn : fs inum with _ | c | d
    · simp only [exec, hn, Op.result, plain, Result.timeless, Result.dir.injEq] at hres hnext
      rw [hres.1]
      refine ⟨iff_of_false (show YfsStatus.ioerr ≠ .ok by decide) fun h => h rfl, ?_, rfl, hnext⟩
      change (Stat.zeroed inum).timeless = _
      simp only [statOf, hn]
      rfl
    · exact absurd hn (hfs.not_file hdir)
    · simp only [exec, hn, Op.result, plain, Result.timeless, Result.dir.injEq] at hres hnext
      rcases Option.map_eq_some_iff.mp hres.2 with ⟨a, rfl, ha⟩
      rw [hres.1]
      refine ⟨iff_of_true rfl (Option.some_ne_none _), ?_, rfl, hnext⟩
      change (Stat.ofDir inum a).timeless = _
      simp only [statOf, hn]
      rfl

/-- `fuseserver_getattr` answers with the attributes of the object or with `ENOENT`. -/
theorem replied_getattr {s : σ} (hR : R held s fs) (lib : Libfuse) (ino : Inum)
    (hfree : isfile ino = true → ino ∉ held) :
    Replied (R held) (fuseserverGetattr yfs ino (Session.new s)).2
      (respond lib fs (.getattr ino)) fs := by
  rcases getattr_mounted hM hfs (Session.new s) hR ino hfree with ⟨hok, hst, hnone, hnext⟩
  rw [fuseserverGetattr, bind_apply]
  by_cases hn : fs ino = none
  · have hfail : (getattr yfs ino (Session.new s)).1.1 ≠ .ok := fun h => hok.mp h hn
    rw [respond, if_pos hn]
    dsimp only
    rw [if_pos hfail]
    exact replied_one _ hnone hnext (.err .enoent)
  · rw [respond, if_neg hn, ← hst]
    dsimp only
    rw [if_neg (not_not.mpr (hok.mpr hn))]
    exact replied_one _ hnone hnext (.attr _)

/-- `fuseserver_setattr` sends the attributes from before the change, with the new size. The status
    of the `getattr` is not looked at. -/
theorem replied_setattr {s : σ} (hR : R held s fs) (lib : Libfuse) {ino : Inum}
    {attrSize : UInt64} {toSet : UInt32} (hset : setAttrSize &&& toSet ≠ 0)
    (hop : Proper (.updatesize ino attrSize)) (hfree : ino ∉ held) :
    Replied (R held) (fuseserverSetattr yfs ino attrSize toSet (Session.new s)).2
      (respond lib fs (.setattr ino attrSize toSet)) (exec fs (.updatesize ino attrSize)).2 := by
  rcases getattr_mounted hM hfs (Session.new s) hR ino (fun _ => hfree) with
    ⟨_, hst, hnone, hnext⟩
  rcases hM.performs_same hfs (.updatesize ino attrSize) hnext hop (of_none rfl)
    (fun i hi => Option.some.inj hi ▸ hfree) rfl with ⟨hres, hafter⟩
  rw [fuseserverSetattr, if_pos hset, bind_apply]
  dsimp only
  rw [bind_apply, call_apply]
  dsimp only
  rw [respond, if_pos hset, ← hst]
  -- From here on only the status counts, which the file system gives.
  generalize yfs (.updatesize ino attrSize) (getattr yfs ino (Session.new s)).2.fs = r
    at hres hafter ⊢
  rcases r with ⟨⟨st, out⟩, s'⟩
  rcases hn : fs ino with _ | c | d
  · simp only [exec, hn, Op.result, plain, Result.timeless, Result.status.injEq] at hres hafter ⊢
    rw [hres, if_pos (by decide), if_pos trivial]
    exact replied_two ⟨s', _, _⟩ hnone hafter (.err .enoent) (.attr _)
  · simp only [exec, hn, Op.result, plain, Result.timeless, Result.status.injEq] at hres hafter ⊢
    rw [hres, if_neg (not_not.mpr rfl), if_neg (Option.some_ne_none _)]
    exact replied_one ⟨s', _, _⟩ hnone hafter (.attr _)
  · exact absurd hn (hfs.not_dir hop.1)

omit hM hfs in
/-- A handler that makes one call and goes on after a failure sends the error first and then what it
    would have sent. -/
theorem replied_fallThrough {s : σ} (op : Op) (r : op.Out → Reply)
    (hR : R held (yfs op s).2 fs) :
    Replied (R held) ((do
      let (ret, out) ← call yfs op
      if ret ≠ .ok then
        reply (.err .enoent)
      reply (r out) : Handler σ Unit) (Session.new s)).2
      (if (yfs op s).1.1 = .ok then [(r (yfs op s).1.2).timeless]
        else [.err .enoent, (r (yfs op s).1.2).timeless]) fs := by
  rw [bind_apply, call_apply]
  dsimp only [Session.new]
  by_cases hok : (yfs op s).1.1 = .ok
  · rw [if_neg (not_not.mpr hok), if_pos hok]
    exact replied_one ⟨(yfs op s).2, _, []⟩ rfl hR _
  · rw [if_pos hok, if_neg hok]
    exact replied_two ⟨(yfs op s).2, _, []⟩ rfl hR (.err .enoent) _

/-- `fuseserver_read` goes on after a failure, with an empty buffer. -/
theorem replied_read {s : σ} (hR : R held s fs) (lib : Libfuse) {ino : Inum} (size off : UInt64)
    (hop : isfile ino = true) (hfree : ino ∉ held) :
    Replied (R held) (fuseserverRead yfs ino size off (Session.new s)).2
      (respond lib fs (.read ino size off)) (exec fs (.read ino size off)).2 := by
  rcases hM.performs_same hfs (.read ino size off) hR hop (of_none rfl)
    (fun i hi => Option.some.inj hi ▸ hfree) rfl with ⟨hres, hafter⟩
  -- The status says whether there is a file, and the buffer of a failed call is empty.
  have hreplies : respond lib fs (.read ino size off)
      = if (yfs (.read ino size off) s).1.1 = .ok then [.buf (yfs (.read ino size off) s).1.2]
        else [.err .enoent, .buf (yfs (.read ino size off) s).1.2] := by
    rcases hn : fs ino with _ | c | d
    · simp only [exec, hn, Op.result, plain, Result.timeless, Result.content.injEq] at hres
      simp [respond, hn, hres]
    · simp only [exec, hn, Op.result, plain, Result.timeless, Result.content.injEq] at hres
      simp [respond, hn, hres]
    · exact absurd hn (hfs.not_dir hop)
  rw [hreplies]
  exact replied_fallThrough (.read ino size off) Reply.buf hafter

/-- `fuseserver_write` goes on after a failure, and claims to have written everything. -/
theorem replied_write {s : σ} (hR : R held s fs) (lib : Libfuse) {ino : Inum} (buf : Bytes)
    {size off : UInt64} (hop : Proper (.write ino buf size off)) (hfree : ino ∉ held) :
    Replied (R held) (fuseserverWrite yfs ino buf size off (Session.new s)).2
      (respond lib fs (.write ino buf size off)) (exec fs (.write ino buf size off)).2 := by
  rcases hM.performs_same hfs (.write ino buf size off) hR hop (of_none rfl)
    (fun i hi => Option.some.inj hi ▸ hfree) rfl with ⟨hres, hafter⟩
  -- The reply has the size of the request, whatever the call has done.
  have hreplies : respond lib fs (.write ino buf size off)
      = if (yfs (.write ino buf size off) s).1.1 = .ok then [.write size]
        else [.err .enoent, .write size] := by
    rcases hn : fs ino with _ | c | d
    · simp only [exec, hn, Op.result, plain, Result.timeless, Result.status.injEq] at hres
      simp [respond, hn, hres]
    · simp only [exec, hn, Op.result, plain, Result.timeless, Result.status.injEq] at hres
      simp [respond, hn, hres]
    · exact absurd hn (hfs.not_dir hop.1)
  rw [hreplies]
  exact replied_fallThrough (.write ino buf size off) (fun _ => .write size) hafter

/-- `fuseserver_unlink` goes on after a failure. It is the one request after which a lock is
    kept. -/
theorem replied_unlink {s : σ} (hR : R held s fs) (lib : Libfuse) {parent : Inum} (name : Bytes)
    (hop : isdir parent = true) :
    Replied (R (held ∪ keeps fs (.unlink parent name)))
      (fuseserverUnlink yfs parent name (Session.new s)).2
      (respond lib fs (.unlink parent name)) (exec fs (.unlink parent name)).2 := by
  rcases hM.performs (.unlink parent name) hR hfs hop (of_none rfl) (of_none rfl) with
    ⟨hres, hafter⟩
  -- The entry is missing, a directory's, or a file's, and only the last is removed.
  have hreplies : respond lib fs (.unlink parent name)
      = if (yfs (.unlink parent name) s).1.1 = .ok then [.err .success]
        else [.err .enoent, .err .success] := by
    rcases hn : fs parent with _ | c | d
    · simp only [exec, hn, Op.result, plain, Result.timeless, Result.status.injEq] at hres
      simp [respond, hn, hres]
    · exact absurd hn (hfs.not_file hop)
    · rcases hd : d.find name with _ | inum
      · simp only [exec, hn, hd, Op.result, plain, Result.timeless, Result.status.injEq] at hres
        simp [respond, hn, hd, hres]
      · by_cases hdir : isdir inum = true
        · simp only [exec, hn, hd, hdir, if_true, Op.result, plain, Result.timeless,
            Result.status.injEq] at hres
          simp [respond, hn, hd, hdir, hres]
        · simp only [exec, hn, hd, hdir, Bool.false_eq_true, if_false, Op.result, plain,
            Result.timeless, Result.status.injEq] at hres
          simp [respond, hn, hd, hdir, hres]
  rw [hreplies, fuseserverUnlink]
  -- Both kinds of failure send the same error.
  simp only [ite_self]
  exact replied_fallThrough (.unlink parent name) (fun _ => .err .success) hafter

/-- `fuseserver_create` and `fuseserver_mknod`. `success` is either of the two replies to a created
    file, whose attributes have no inum. -/
theorem replied_created {s : σ} (hR : R held s fs) (success : EntryParam → Reply)
    (hsuccess : ∀ e, (success e).timeless = success e.timeless) {parent newInum : Inum}
    {name : Bytes} (hop : Proper (.create parent name newInum)) (hfresh : fs newInum = none) :
    Replied (R held) (replyCreated yfs success parent name newInum (Session.new s)).2
      [created success newInum (make fs parent name newInum (.file [])).1]
      (exec fs (.create parent name newInum)).2 := by
  rcases hM.performs_same hfs (.create parent name newInum) hR hop
    (fun inum hinum => Option.some.inj hinum ▸ hfresh) (of_none rfl) rfl with ⟨hres, hafter⟩
  rw [replyCreated, fuseserverCreatehelper, bind_apply, bind_apply, call_apply]
  dsimp only [Session.new]
  generalize yfs (.create parent name newInum) s = r at hres hafter ⊢
  rcases r with ⟨⟨st, a⟩, s'⟩
  simp only [exec, Op.result, plain, Result.timeless, Result.attr.injEq] at hres
  rw [← hres.1]
  -- Whatever the failure is, it is sent as `EEXIST`.
  by_cases hok : st = .ok
  · rw [← hres.1, if_pos hok] at hres
    rcases Option.map_eq_some_iff.mp hres.2 with ⟨a', rfl, ha⟩
    have hst : (EntryParam.mk0 newInum (Stat.ofFile none a')).timeless
        = EntryParam.mk0 newInum (Stat.ofFile none ⟨0, 0, 0, 0⟩) := by
      have hsize : a'.size = 0 := congrArg Attr.size ha
      simp only [Stat.ofFile, hsize]
      rfl
    rw [if_pos hok, created, if_pos hok, ← hst, ← hsuccess]
    exact replied_one ⟨s', _, []⟩ rfl hafter (success _)
  · rw [if_neg hok, created, if_neg hok]
    exact replied_one ⟨s', _, []⟩ rfl hafter (.err .eexist)

omit hM hfs in
/-- The status of a lookup and the inum that it has found are plain. -/
theorem found_of_plain {st st' : YfsStatus} {entry entry' : Option (Inum × Option Attr)}
    (h : plain (.found st entry) = .found st' entry') :
    st = st' ∧ entry.map Prod.fst = entry'.map Prod.fst := by
  rcases entry with _ | ⟨inum, _ | a⟩
  all_goals
    simp only [plain, Result.timeless, Result.found.injEq] at h
    rw [← h.2]
    exact ⟨h.1, rfl⟩

/-- `fuseserver_lookup`: the entry is found by one call and its attributes by another, and between
    them nothing else happens in the process. In a well-formed file system the second finds what the
    first has named. -/
theorem replied_lookup {s : σ} (hR : R held s fs) (lib : Libfuse) {parent : Inum} (name : Bytes)
    (hop : isdir parent = true) :
    Replied (R held) (fuseserverLookup yfs parent name (Session.new s)).2
      (respond lib fs (.lookup parent name)) (exec fs (.lookup parent name)).2 := by
  rcases hM.performs_same hfs (.lookup parent name) hR hop (of_none rfl) (of_none rfl) rfl with
    ⟨hres, hafter⟩
  rw [fuseserverLookup, bind_apply, call_apply]
  dsimp only [Session.new]
  generalize yfs (.lookup parent name) s = r at hres hafter ⊢
  rcases r with ⟨⟨st, entry⟩, s'⟩
  rcases hn : fs parent with _ | c | d
  · simp only [exec, hn, Op.result] at hres hafter ⊢
    rcases found_of_plain hres with ⟨hst, hentry⟩
    simp only [Option.map_none, Option.map_eq_none_iff] at hentry
    rw [hst, hentry, if_pos (by decide)]
    simp only [respond, hn]
    exact replied_two ⟨s', _, []⟩ rfl hafter (.err .enoent) (.err .enoent)
  · exact absurd hn (hfs.not_file hop)
  · rcases hd : d.find name with _ | inum
    · simp only [exec, hn, hd, Op.result] at hres hafter ⊢
      rcases found_of_plain hres with ⟨hst, hentry⟩
      simp only [Option.map_none, Option.map_eq_none_iff] at hentry
      rw [hst, hentry, if_neg (not_not.mpr rfl)]
      simp only [respond, hn, hd]
      exact replied_one ⟨s', _, []⟩ rfl hafter (.err .enoent)
    -- What is listed is there, so the second call succeeds.
    · have hl : Listed fs parent (name, inum) := ⟨d, hn, Directory.mem_of_find hd⟩
      rcases hnode : fs inum with _ | node
      · exact absurd hnode (hfs.present parent (name, inum) hl)
      · simp only [exec, hn, hd, hnode, Op.result] at hres hafter ⊢
        rcases found_of_plain hres with ⟨hst, hentry⟩
        rcases Option.map_eq_some_iff.mp hentry with ⟨e, rfl, he⟩
        rw [hst, if_neg (not_not.mpr rfl)]
        dsimp only
        rw [bind_apply, he]
        dsimp only
        -- The lock of a file that is listed is not one that was kept.
        rcases getattr_mounted hM hfs ⟨s', _, []⟩ hafter inum
          (fun _ => (hM.kept hafter).notMem_of_listed hl) with ⟨_, hstat, hnone, hnext⟩
        simp only [respond, hn, hd]
        rw [← hstat]
        exact replied_one _ hnone hnext (.entry (EntryParam.mk0 inum _))

omit hM hfs in
/-- The loop of `fuseserver_readdir` goes through the entries. -/
theorem foldl_readdirEntries (lib : Libfuse) (uninit : Inum) (d : Directory) :
    (readdirEntries uninit (tokens d.entries)).foldl (fun b e => dirbufAdd lib b e.1 e.2) []
      = listing lib d := by
  rw [readdirEntries, pairs_tokens, List.map_map, List.foldl_map]
  simp only [Function.comp_apply, n2i_filename]
  rfl

omit hM hfs in
/-- `reply_buf_limited` sends a part of the buffer, which is empty beyond its end. -/
theorem limited_eq (buf : Bytes) (off size : Nat) :
    (if off < buf.length then (buf.drop off).take (min (buf.length - off) size) else [])
      = (buf.drop off).take size := by
  by_cases hoff : off < buf.length
  · rw [if_pos hoff, ← List.length_drop, Nat.min_comm, ← List.take_eq_take_min]
  · rw [if_neg hoff, List.drop_eq_nil_of_le (by omega), List.take_nil]

/-- `fuseserver_readdir` sends a part of the listing, which is made anew for every part. -/
theorem replied_readdir {s : σ} (hR : R held s fs) (u : Uninit) (lib : Libfuse) (ino : Inum)
    (size off : UInt64) :
    Replied (R held) (fuseserverReaddir yfs u lib ino size off (Session.new s)).2
      (respond lib fs (.readdir ino size off)) fs := by
  by_cases hdir : isdir ino = true
  · rcases hM.performs_same hfs (.readdir ino) hR hdir (of_none rfl) (of_none rfl) rfl with
      ⟨hres, hafter⟩
    rw [fuseserverReaddir, hdir, if_neg (by decide), bind_apply, call_apply]
    dsimp only [Session.new]
    generalize yfs (.readdir ino) s = r at hres hafter ⊢
    rcases r with ⟨⟨st, keyValues⟩, s'⟩
    rcases hn : fs ino with _ | c | d
    · simp only [exec, hn, Op.result, plain, Result.timeless, Result.tokens.injEq] at hres hafter
      simp only [respond, hn, hres.1]
      exact replied_one ⟨s', _, []⟩ rfl hafter (.err .enotdir)
    · exact absurd hn (hfs.not_file hdir)
    · simp only [exec, hn, Op.result, plain, Result.timeless, Result.tokens.injEq] at hres hafter
      rw [hres.1, hres.2, if_neg (not_not.mpr rfl), foldl_readdirEntries, replyBufLimited_eq,
        limited_eq]
      simp only [respond, hn]
      exact replied_one ⟨s', _, []⟩ rfl hafter (.buf _)
  -- No directory has the inum of a file, so the reply is the same on both sides.
  · have hfs' : ∀ d, fs ino ≠ some (.dir d) := fun d hd => hdir (hfs.dir ino d hd)
    rw [Bool.not_eq_true] at hdir
    have hreplies : respond lib fs (.readdir ino size off) = [.err .enotdir] := by
      rcases hn : fs ino with _ | c | d
      · simp [respond, hn]
      · simp [respond, hn]
      · exact absurd hn (hfs' d)
    rw [fuseserverReaddir, hdir, hreplies]
    exact replied_one (Session.new s) rfl hR (.err .enotdir)

/-- `fuseserver_mkdir` sends the entry in any case, with the attributes that the inum has after the
    call. After a failure these are zeros, since the inum was new. -/
theorem replied_mkdir {s : σ} (hR : R held s fs) (lib : Libfuse) {parent dirInum : Inum}
    {name : Bytes} (hop : Proper (.mymkdir parent name dirInum)) (hfresh : fs dirInum = none) :
    Replied (R held) (fuseserverMkdir yfs parent name dirInum (Session.new s)).2
      (respond lib fs (.mkdir parent name dirInum))
      (exec fs (.mymkdir parent name dirInum)).2 := by
  -- The attributes are read after the call, in the file system that it leaves.
  have hnew : WellFormed (exec fs (.mymkdir parent name dirInum)).2 :=
    wellFormed_exec hfs hop fun inum hinum => by
      cases hinum
      exact hfresh
  -- The inum is a directory's, so no lock of an unlinked file is in the way.
  have hdir : isfile dirInum = true → dirInum ∉ held := by
    intro hfile
    have hkind := hop.2.2.1
    rw [isdir_eq_false_of_isfile hfile] at hkind
    cases hkind
  rcases hM.performs_same hfs (.mymkdir parent name dirInum) hR hop
    (fun inum hinum => Option.some.inj hinum ▸ hfresh) (of_none rfl) rfl with ⟨hres, hafter⟩
  rw [fuseserverMkdir, bind_apply, call_apply]
  dsimp only [Session.new]
  generalize yfs (.mymkdir parent name dirInum) s = r at hres hafter ⊢
  rcases r with ⟨⟨st, out⟩, s'⟩
  simp only [exec, Op.result, plain, Result.timeless, Result.status.injEq] at hres hafter hnew ⊢
  rw [respond, ← hres]
  by_cases hok : st = .ok
  · rw [if_neg (not_not.mpr hok), if_pos hok, bind_apply]
    rcases getattr_mounted hM hnew ⟨s', _, []⟩ hafter dirInum hdir with
      ⟨_, hstat, hnone, hnext⟩
    rw [← hstat]
    exact replied_one _ hnone hnext (.entry (EntryParam.mk0 dirInum _))
  · rw [if_pos hok, if_neg hok, bind_apply, reply_apply]
    dsimp only
    rw [bind_apply]
    rcases getattr_mounted hM hnew ⟨s', _, [.err .enoent]⟩ hafter dirInum hdir with
      ⟨_, hstat, hone, hnext⟩
    rw [← hstat]
    exact replied_reply _ hone hnext (.entry (EntryParam.mk0 dirInum _))

omit hM hfs in
/-- To read attributes changes nothing. -/
theorem after_getattr (fs : State) (ino : Inum) : after fs (.getattr ino) = fs := by
  simp only [after, Request.operation, Option.elim_some, getattrOp]
  split
  · simp only [exec]
    split <;> rfl
  · simp only [exec]
    split <;> rfl

omit hM hfs in
/-- To list a directory changes nothing. -/
theorem after_readdir (fs : State) (ino : Inum) (size off : UInt64) :
    after fs (.readdir ino size off) = fs := by
  simp only [after, Request.operation]
  split
  · simp only [Option.elim_some, exec]
    split <;> rfl
  · rfl

/-- One request: its replies are those of the file system, and it does to the file system what its
    operation does. The locks that are kept grow only by an `unlink`. -/
theorem handle_mounted {s : σ} (hR : R held s fs) (u : Uninit) (lib : Libfuse) (req : Request)
    (hproper : ∀ op, req.operation = some op → Proper op)
    (hfresh : ∀ op inum, req.operation = some op → creates op = some inum → fs inum = none)
    (hfree : ∀ inum ∈ req.operation.bind Op.file, inum ∉ held) :
    Replied (R (held ∪ keptBy fs req)) (req.handle u lib yfs s) (respond lib fs req)
      (after fs req) := by
  -- Every request but `unlink` keeps no lock.
  have hsame : ∀ {sess : Session σ} {replies : List Reply} {fs' : State}, keptBy fs req = ∅ →
      Replied (R held) sess replies fs' →
      Replied (R (held ∪ keptBy fs req)) sess replies fs' := by
    intro sess replies fs' hnone hreplied
    rw [hnone, Finset.union_empty]
    exact hreplied
  cases req with
  | getattr ino =>
      rw [after_getattr]
      refine hsame rfl (replied_getattr hM hfs hR lib ino fun hfile => hfree ino ?_)
      simp only [Request.operation, getattrOp, if_pos hfile]
      rfl
  | setattr ino attrSize toSet =>
      refine hsame rfl ?_
      by_cases hset : setAttrSize &&& toSet ≠ 0
      · have hop : (Request.setattr ino attrSize toSet).operation
            = some (.updatesize ino attrSize) := if_pos hset
        rw [after, hop]
        rw [hop] at hfree
        exact replied_setattr hM hfs hR lib hset (hproper _ hop) (hfree ino rfl)
      · rw [after, Request.operation, if_neg hset, respond, if_neg hset, Request.handle,
          Request.handler, fuseserverSetattr, if_neg hset]
        exact replied_one (Session.new s) rfl hR (.err .enosys)
  | read ino size off =>
      exact hsame rfl (replied_read hM hfs hR lib size off (hproper _ rfl) (hfree ino rfl))
  | write ino buf size off =>
      exact hsame rfl (replied_write hM hfs hR lib buf (hproper _ rfl) (hfree ino rfl))
  | create parent name newInum =>
      exact hsame rfl (replied_created hM hfs hR .create (fun _ => rfl) (hproper _ rfl)
        (hfresh _ _ rfl rfl))
  | mknod parent name newInum =>
      exact hsame rfl (replied_created hM hfs hR .entry (fun _ => rfl) (hproper _ rfl)
        (hfresh _ _ rfl rfl))
  | lookup parent name => exact hsame rfl (replied_lookup hM hfs hR lib name (hproper _ rfl))
  | readdir ino size off =>
      rw [after_readdir]
      exact hsame rfl (replied_readdir hM hfs hR u lib ino size off)
  | «open» ino => exact hsame rfl (replied_one (Session.new s) rfl hR .open)
  | mkdir parent name dirInum =>
      exact hsame rfl (replied_mkdir hM hfs hR lib (hproper _ rfl) (hfresh _ _ rfl rfl))
  | unlink parent name => exact replied_unlink hM hfs hR lib name (hproper _ rfl)
  | statfs => exact hsame rfl (replied_one (Session.new s) rfl hR (.statfs 255 512))

end Handlers

/-! ## Any number of requests -/

/-- What is left to do after the first request. -/
theorem operations_cons {fs : State} (hfs : WellFormed fs) {req : Request} {rest : List Request}
    (hproper : ∀ x ∈ operations (req :: rest), Proper x.2)
    (hfresh : FileSystem.Fresh fs (operations (req :: rest))) :
    (∀ x ∈ operations rest, Proper x.2) ∧ FileSystem.Fresh (after fs req) (operations rest) ∧
      WellFormed (after fs req) ∧
      (execAll (operations (req :: rest)) fs).2
        = (execAll (operations rest) (after fs req)).2 := by
  cases hop : req.operation with
  | none =>
      have hcons : operations (req :: rest) = operations rest := by simp [operations, hop]
      have hafter : after fs req = fs := by rw [after, hop]; rfl
      rw [hcons] at hproper hfresh ⊢
      rw [hafter]
      exact ⟨hproper, hfresh, hfs, rfl⟩
  | some op =>
      have hcons : operations (req :: rest) = ((), op) :: operations rest := by
        simp [operations, hop]
      have hafter : after fs req = (exec fs op).2 := by rw [after, hop]; rfl
      rw [hcons] at hproper hfresh ⊢
      rw [hafter]
      exact ⟨fun x hx => hproper x (List.mem_cons_of_mem _ hx), hfresh.tail hfs,
        wellFormed_exec hfs (hproper _ List.mem_cons_self) hfresh.head, rfl⟩

/-! ## A process with its cache -/

theorem run_prog {σ : Type} (u : Uninit) (serve : Inum → (o : ExtentCall) → σ → o.Answer × σ)
    (op : Op) (s : σ) :
    (op.prog u).run serve s = (op.result (served u serve op s).1, (served u serve op s).2) := by
  cases op <;> simp [Op.prog, served, Op.call, Op.result]

/-- A process that has the locks `held` and waits for none: what it and the server have stands for
    a file system. -/
structure Backs (held : Finset Inum) (p : Process Cached) (fs : State) : Prop where
  represents : ∃ f, p.fs.Holds f ∧ Represents f fs
  kept : Kept fs held
  held : p.held = held
  waits : p.waits = false

/-- The operations of a process, on its extent cache and its locks, implement the file system. On
    the extents alone they do, and the cache gives the same answers but for the times. -/
theorem mounts_cached (u : Uninit) (clock : Nat → UInt32) :
    Mounts (locked u (Cached.serve clock)) Backs := by
  refine ⟨fun h => h.kept, fun op {held p fs} h hfs hop hfresh hfree => ?_⟩
  rcases h with ⟨⟨f, hholds, hrep⟩, hkept, hheld, hwaits⟩
  -- On the extents without a cache the operation gets its locks.
  have hstore : (op.prog u).runLocked Store.serve held f
      = some (op.result (served u Store.serve op f).1, held ∪ keeps fs op,
        (served u Store.serve op f).2) := by
    rw [runLocked_prog, call_returns u hrep hfs hkept hop hfresh hfree]
    rfl
  rcases (twoPhase_prog (H := ∅) u op).runLocked_of_some (cached_answers clock) hholds hstore with
    ⟨⟨res, held', s'⟩, hrun, hsame, hheld', hnext⟩
  rw [runLocked_prog] at hrun
  rcases Option.map_eq_some_iff.mp hrun with ⟨⟨r, held₁, s₁⟩, hr, heq⟩
  cases heq
  have hlocked : locked u (Cached.serve clock) op p = (r, ⟨s', held', p.waits⟩) := by
    rw [locked, hheld, hr]
  have hexec := exec_represents u hrep hfs hop
  rw [run_prog] at hexec
  rw [hlocked]
  refine ⟨?_, ⟨_, hnext, hexec.2⟩, kept_exec hkept hfs hop hfresh, hheld', hwaits⟩
  rw [← hexec.1, ← plain_timeless, hsame, plain_timeless]

/-! ## Requests that are not answered -/

section Waits

variable {σ : Type} (u : Uninit) (serve : Inum → (o : ExtentCall) → σ → o.Answer × σ)

/-- A process that waits is not heard of again. -/
theorem locked_waits (op : Op) {p : Process σ} (h : p.waits = true) :
    (locked u serve op p).2.waits = true := by
  unfold locked
  split
  · exact h
  · rfl

/-- An operation on a file whose lock the process has waits for it, as `lock_client_cache` does not
    grant a lock twice. -/
theorem locked_blocks {op : Op} {p : Process σ} {inum : Inum} (hop : op.file = some inum)
    (hi : inum ∈ p.held) : (locked u serve op p).2.waits = true := by
  rw [locked, call_blocks u hop hi]

/-- A request that names a file whose lock the process has. The call that waits is the first
    one of the handler. -/
theorem handle_waits (lib : Libfuse) {req : Request} {p : Process σ} {inum : Inum}
    (hreq : inum ∈ req.operation.bind Op.file) (hfile : isfile inum = true) (hi : inum ∈ p.held) :
    (req.handle u lib (locked u serve) p).fs.waits = true := by
  have hgetattr : ∀ ino, (getattrOp ino).file = some inum →
      (getattr (locked u serve) ino (Session.new p)).2.fs.waits = true := by
    intro ino hop
    rw [(getattr_eq (locked u serve) ino (Session.new p)).2]
    exact locked_blocks u serve hop hi
  cases req with
  | getattr ino =>
      have hwaits := hgetattr ino hreq
      rw [Request.handle, Request.handler, fuseserverGetattr, bind_apply]
      dsimp only
      split
      · exact hwaits
      · exact hwaits
  | setattr ino attrSize toSet =>
      by_cases hset : setAttrSize &&& toSet ≠ 0
      · have hop : (Request.setattr ino attrSize toSet).operation
            = some (.updatesize ino attrSize) := if_pos hset
        rw [hop] at hreq
        cases hreq
        -- The helper waits already.
        have hwaits : (locked u serve (.updatesize inum attrSize)
            (getattr (locked u serve) inum (Session.new p)).2.fs).2.waits = true := by
          refine locked_waits u serve _ (hgetattr inum ?_)
          rw [getattrOp, if_pos hfile]
          rfl
        rw [Request.handle, Request.handler, fuseserverSetattr, if_pos hset, bind_apply]
        dsimp only
        rw [bind_apply, call_apply]
        dsimp only
        split
        · exact hwaits
        · exact hwaits
      · rw [Request.operation, if_neg hset] at hreq
        cases hreq
  | read ino size off =>
      have hwaits : (locked u serve (.read ino size off) p).2.waits = true :=
        locked_blocks u serve hreq hi
      rw [Request.handle, Request.handler, fuseserverRead, bind_apply, call_apply]
      dsimp only
      split
      · exact hwaits
      · exact hwaits
  | write ino buf size off =>
      have hwaits : (locked u serve (.write ino buf size off) p).2.waits = true :=
        locked_blocks u serve hreq hi
      rw [Request.handle, Request.handler, fuseserverWrite, bind_apply, call_apply]
      dsimp only
      split
      · exact hwaits
      · exact hwaits
  | create parent name newInum => cases hreq
  | mknod parent name newInum => cases hreq
  | lookup parent name => cases hreq
  | readdir ino size off =>
      simp only [Request.operation] at hreq
      split at hreq
      · cases hreq
      · cases hreq
  | «open» ino => cases hreq
  | mkdir parent name dirInum => cases hreq
  | unlink parent name => cases hreq
  | statfs => cases hreq

end Waits

/-! ## Sessions -/

/-- The requests of a session, when their operations are proper and new inums are new: all are
    answered, or one of them names a file that was unlinked. The induction is over the requests,
    with the locks that have been kept so far. -/
theorem sessionLoop_mounted (u : Uninit) (lib : Libfuse) (clock : Nat → UInt32)
    {held : Finset Inum} {p : Process Cached} {fs : State} (hfs : WellFormed fs)
    (hp : Backs held p fs) (reqs : List Request) (hproper : ∀ x ∈ operations reqs, Proper x.2)
    (hfresh : FileSystem.Fresh fs (operations reqs)) :
    (Avoids reqs fs held ∧ ∃ replies held' p',
        sessionLoop u lib (Cached.serve clock) reqs p = some (replies, p') ∧
        replies.map (List.map Reply.timeless) = respondAll lib reqs fs ∧
        Backs held' p' (execAll (operations reqs) fs).2) ∨
      ¬ Avoids reqs fs held ∧ sessionLoop u lib (Cached.serve clock) reqs p = none := by
  induction reqs generalizing held p fs with
  | nil => exact Or.inl ⟨trivial, [], held, p, rfl, rfl, hp⟩
  | cons req rest ih =>
      by_cases hfree : ∀ inum ∈ req.operation.bind Op.file, inum ∉ held
      · have hreq := handle_mounted (mounts_cached u clock) hfs hp u lib req
          (fun op hop => hproper ((), op) (by simp [operations, hop]))
          (fun op inum hop hnew => by
            simp only [operations, List.filterMap_cons, hop, Option.map_some] at hfresh
            exact hfresh.head inum hnew) hfree
        rcases operations_cons hfs hproper hfresh with ⟨hproper', hfresh', hfs', hexec⟩
        have hgoes : (req.handle u lib (locked u (Cached.serve clock)) p).fs.waits = false :=
          hreq.2.waits
        rw [hexec]
        rcases ih hfs' hreq.2 hproper' hfresh' with
          ⟨havoids, replies, held', p', hrest, hreplies, hp'⟩ | ⟨havoids, hrest⟩
        · refine Or.inl ⟨⟨hfree, havoids⟩,
            (req.handle u lib (locked u (Cached.serve clock)) p).replies :: replies, held', p',
            ?_, ?_, hp'⟩
          · simp only [sessionLoop, hgoes, hrest]
            rfl
          · simp only [List.map_cons, hreplies, respondAll, hreq.1]
        · refine Or.inr ⟨fun h => havoids h.2, ?_⟩
          simp only [sessionLoop, hgoes, hrest]
          rfl
      -- The first request names a file whose lock was kept, and its handler waits.
      · refine Or.inr ⟨fun h => hfree h.1, ?_⟩
        rcases not_forall.mp hfree with ⟨inum, hinum⟩
        rcases Classical.not_imp.mp hinum with ⟨hmem, hnot⟩
        have hi : inum ∈ held := not_not.mp hnot
        have hwaits := handle_waits u (Cached.serve clock) lib hmem (hp.kept.file inum hi)
          (hp.held.symm ▸ hi)
        simp only [sessionLoop, hwaits, if_true]

/-- A directory, a file in it that is written and read and unlinked, and a name that is not
    there any more. -/
def smallSession : List Request :=
  [.mkdir 1 [100] 2, .create 2 [102] 0x80000000, .write 0x80000000 [1, 2, 3] 3 0,
    .read 0x80000000 10 1, .lookup 2 [102], .unlink 2 [102], .unlink 2 [102]]

/-- The attributes of a file that is open and was unlinked are never returned. -/
example : (sessionLoop ⟨0, 0⟩ ⟨fun n => n, fun name _ _ => name⟩ (Cached.serve fun _ => 7)
    [.create 1 [102] 0x80000000, .unlink 1 [102], .getattr 0x80000000]
    ⟨⟨.new, .new 7, 0⟩, ∅, false⟩).isSome = false := by
  decide +kernel

end Fuse

end Yfs
