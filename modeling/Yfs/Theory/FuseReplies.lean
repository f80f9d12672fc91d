import Yfs.Core.FuseServer

/-!
# One Reply per Request

`libfuse` frees a request at its first reply, so a handler may reply only once, and it has
to tell the kernel when an operation failed.

The handlers that return out of their error branch do both. The others send the error and
go on to the reply of the success case, so they are right exactly where no call fails. Two
kinds of call do not even lead to an error reply: the `getattr` of `setattr`, `lookup` and
`mkdir`, whose status is dropped. The statuses are those of an arbitrary function that
answers the calls, so they cover what the modelled operations return.

## Main definitions

* `Session.Answered`: One reply, and an error where a call failed.
* `Request.Unfailing`: The calls return OK, or the handler returns when they do not.

## Theorems

* `getattr_eq`: What the helper calls.
* `fallThrough_iff`: A handler that goes on after its error.
* `answered_iff`: Which requests are answered.
* `runLocked_prog`: The calls are the modelled operations.
* `served_of_runLocked`: The operations under their locks are among the answers.
* `unlink_absent`: The file system itself returns the statuses that go wrong.
-/

namespace Yfs

open Extent

namespace Fuse

variable {σ : Type}

/-- Exactly one reply has been sent, and a nonzero error if a call returned one. -/
def Session.Answered (s : Session σ) : Prop :=
  s.replies.length = 1 ∧
    ((∃ c ∈ s.called, c.2 ≠ .ok) → ∃ e, e ≠ Errno.success ∧ .err e ∈ s.replies)

/-- For the handlers that go on after a failure: their calls return OK. -/
def Request.Unfailing (yfs : (op : Op) → σ → (YfsStatus × op.Out) × σ) (fs : σ) : Request → Prop
  | .setattr ino attrSize toSet =>
      setAttrSize &&& toSet = 0 ∨
        (yfs (getattrOp ino) fs).1.1 = .ok ∧
          (yfs (.updatesize ino attrSize) (yfs (getattrOp ino) fs).2).1.1 = .ok
  | .read ino size off => (yfs (.read ino size off) fs).1.1 = .ok
  | .write ino buf size off => (yfs (.write ino buf size off) fs).1.1 = .ok
  | .lookup parent name =>
      (yfs (.lookup parent name) fs).1.1 = .ok ∧
        ∀ entry, (yfs (.lookup parent name) fs).1.2 = some entry →
          (yfs (getattrOp entry.1) (yfs (.lookup parent name) fs).2).1.1 = .ok
  | .mkdir parent name dirInum =>
      (yfs (.mymkdir parent name dirInum) fs).1.1 = .ok ∧
        (yfs (getattrOp dirInum) (yfs (.mymkdir parent name dirInum) fs).2).1.1 = .ok
  | .unlink parent name => (yfs (.unlink parent name) fs).1.1 = .ok
  | _ => True

variable (yfs : (op : Op) → σ → (YfsStatus × op.Out) × σ)

/-- A handler does one thing after another, in the session that the first one leaves. -/
theorem bind_apply {α β : Type} (x : Handler σ α) (f : α → Handler σ β) (s : Session σ) :
    (x >>= f) s = f (x s).1 (x s).2 := rfl

/-- A call is recorded with its status. -/
theorem call_apply (op : Op) (s : Session σ) :
    call yfs op s = ((yfs op s.fs).1,
      ⟨(yfs op s.fs).2, s.called ++ [(op, (yfs op s.fs).1.1)], s.replies⟩) := rfl

/-- A reply is recorded. -/
theorem reply_apply (r : Reply) (s : Session σ) :
    reply r s = ((), ⟨s.fs, s.called, s.replies ++ [r]⟩) := rfl

/-- One call, whose status is passed on, with a result that depends on it. -/
theorem guarded_call {α : Type} (op : Op) (bad : α) (good : op.Out → α) (s : Session σ) :
    let r := (do
      let (ret, out) ← call yfs op
      if ret ≠ .ok then return (ret, bad)
      return (.ok, good out) : Handler σ (YfsStatus × α)) s
    r.1.1 = (yfs op s.fs).1.1 ∧ r.2 = (call yfs op s).2 := by
  intro r
  have hr : r = (if (yfs op s.fs).1.1 ≠ .ok then pure ((yfs op s.fs).1.1, bad)
      else pure (.ok, good (yfs op s.fs).1.2) : Handler σ (YfsStatus × α)) (call yfs op s).2 := rfl
  rw [hr]
  by_cases hok : (yfs op s.fs).1.1 = .ok
  · rw [if_neg (not_not.mpr hok)]
    exact ⟨hok.symm, rfl⟩
  · rw [if_pos hok]
    exact ⟨rfl, rfl⟩

/-- The helper makes one call, on a file or on a directory, and passes its status on. -/
theorem getattr_eq (inum : Inum) (s : Session σ) :
    (getattr yfs inum s).1.1 = (yfs (getattrOp inum) s.fs).1.1 ∧
      (getattr yfs inum s).2 = (call yfs (getattrOp inum) s).2 := by
  by_cases hf : isfile inum = true
  · have hop : getattrOp inum = .getfile inum := if_pos hf
    rw [hop, getattr, if_pos hf]
    exact guarded_call yfs (.getfile inum) (Stat.zeroed inum)
      (fun info => Option.elim info (Stat.zeroed inum) (Stat.ofFile (some inum))) s
  · have hop : getattrOp inum = .getdir inum := if_neg hf
    rw [hop, getattr, if_neg hf]
    exact guarded_call yfs (.getdir inum) (Stat.zeroed inum)
      (fun info => Option.elim info (Stat.zeroed inum) (Stat.ofDir inum)) s

/-- What a handler without a `return` in its error branch has sent: two replies. -/
theorem answered_two (s : Session σ) {r r' : Reply} (h : s.replies = [r, r']) :
    ¬ s.Answered := by
  intro ha
  have hlen := ha.1
  rw [h] at hlen
  cases hlen

/-- A single reply with an error is an answer, whatever the calls have returned. -/
theorem answered_err (s : Session σ) {e : Errno} (he : e ≠ .success)
    (h : s.replies = [.err e]) : s.Answered := by
  refine ⟨by rw [h]; rfl, fun _ => ⟨e, he, ?_⟩⟩
  rw [h]
  exact List.mem_singleton_self _

/-- A single reply without an error is an answer exactly if no call has failed. -/
theorem answered_ok_iff (s : Session σ) {r : Reply} (hr : ∀ e, r = .err e → e = .success)
    (h : s.replies = [r]) : s.Answered ↔ ∀ c ∈ s.called, c.2 = .ok := by
  unfold Session.Answered
  rw [h]
  constructor
  · intro ha c hc
    by_contra hne
    obtain ⟨e, he, hmem⟩ := ha.2 ⟨c, hc, hne⟩
    exact he (hr e (List.mem_singleton.mp hmem).symm)
  · intro hall
    exact ⟨rfl, fun ⟨c, hc, hne⟩ => absurd (hall c hc) hne⟩

/-- A handler that makes one call and sends its error without returning. It is answered exactly if
    the call returns OK. -/
theorem fallThrough_iff (op : Op) (r : op.Out → Reply)
    (hr : ∀ out e, r out = .err e → e = .success) (fs : σ) :
    Session.Answered ((do
      let (ret, out) ← call yfs op
      if ret ≠ .ok then
        reply (.err .enoent)
      reply (r out) : Handler σ Unit) (Session.new fs)).2 ↔ (yfs op fs).1.1 = .ok := by
  rw [bind_apply, call_apply]
  dsimp only [Session.new]
  by_cases hok : (yfs op fs).1.1 = .ok
  · rw [if_neg (not_not.mpr hok), answered_ok_iff _ (hr _) rfl]
    exact ⟨fun _ => hok, fun _ c hc => by rw [List.mem_singleton.mp hc]; exact hok⟩
  · rw [if_pos hok]
    exact iff_of_false (answered_two _ rfl) hok

/-- All of two recorded statuses are OK. -/
theorem called_two_iff {op op' : Op} {st st' : YfsStatus} :
    (∀ c ∈ [(op, st), (op', st')], c.2 = .ok) ↔ st = .ok ∧ st' = .ok := by
  rw [List.forall_mem_cons, List.forall_mem_singleton]

/-- `setattr` ignores the status of its first call and goes on after a failure of the second. -/
theorem answered_setattr_iff (ino : Inum) (attrSize : UInt64) (toSet : UInt32) (fs : σ) :
    (fuseserverSetattr yfs ino attrSize toSet (Session.new fs)).2.Answered ↔
      (Request.setattr ino attrSize toSet).Unfailing yfs fs := by
  unfold fuseserverSetattr Request.Unfailing
  by_cases hset : setAttrSize &&& toSet = 0
  · rw [if_neg (not_not.mpr hset)]
    exact iff_of_true (answered_err _ (by decide) rfl) (.inl hset)
  · rw [if_pos hset, bind_apply, (getattr_eq yfs ino _).2, call_apply]
    dsimp only [Session.new]
    rw [bind_apply, call_apply]
    dsimp only
    by_cases hok : (yfs (.updatesize ino attrSize) (yfs (getattrOp ino) fs).2).1.1 = .ok
    · rw [if_neg (not_not.mpr hok), answered_ok_iff _ (fun e h => by cases h) rfl]
      exact called_two_iff.trans (or_iff_right hset).symm
    · rw [if_pos hok]
      exact iff_of_false (answered_two _ rfl) (fun h => hok (h.resolve_left hset).2)

/-- `lookup` goes on after a failure, and what it sends next depends on an entry that it may not
    have found. The status of the `getattr` is ignored. -/
theorem answered_lookup_iff (parent : Inum) (name : Bytes) (fs : σ) :
    (fuseserverLookup yfs parent name (Session.new fs)).2.Answered ↔
      (Request.lookup parent name).Unfailing yfs fs := by
  unfold fuseserverLookup Request.Unfailing
  rw [bind_apply, call_apply]
  dsimp only [Session.new]
  by_cases hok : (yfs (.lookup parent name) fs).1.1 = .ok
  · rw [if_neg (not_not.mpr hok)]
    cases hfound : (yfs (.lookup parent name) fs).1.2 with
    | none =>
        -- The name is absent, which the handler reports as an error of its own.
        exact iff_of_true (answered_err _ (by decide) rfl) ⟨hok, fun _ h => by cases h⟩
    | some entry =>
        dsimp only
        rw [bind_apply, (getattr_eq yfs entry.1 _).2, call_apply]
        rw [answered_ok_iff _ (fun e h => by cases h) rfl]
        refine called_two_iff.trans (and_congr_right fun _ => ?_)
        exact ⟨fun h e he => by cases he; exact h, fun h => h entry rfl⟩
  -- The error has been sent, and whatever follows is the second reply.
  · rw [if_pos hok, bind_apply, reply_apply]
    refine iff_of_false ?_ (fun h => hok h.1)
    cases (yfs (.lookup parent name) fs).1.2 with
    | none => exact answered_two _ rfl
    | some entry =>
        dsimp only
        rw [bind_apply, (getattr_eq yfs entry.1 _).2, call_apply]
        exact answered_two _ rfl

/-- `mkdir` goes on after a failure and sends an entry, and ignores the status of the `getattr`. -/
theorem answered_mkdir_iff (parent : Inum) (name : Bytes) (dirInum : Inum) (fs : σ) :
    (fuseserverMkdir yfs parent name dirInum (Session.new fs)).2.Answered ↔
      (Request.mkdir parent name dirInum).Unfailing yfs fs := by
  unfold fuseserverMkdir Request.Unfailing
  rw [bind_apply, call_apply]
  dsimp only [Session.new]
  by_cases hok : (yfs (.mymkdir parent name dirInum) fs).1.1 = .ok
  · rw [if_neg (not_not.mpr hok), bind_apply, (getattr_eq yfs dirInum _).2, call_apply]
    rw [answered_ok_iff _ (fun e h => by cases h) rfl]
    exact called_two_iff
  · rw [if_pos hok, bind_apply, reply_apply]
    dsimp only
    rw [bind_apply, (getattr_eq yfs dirInum _).2, call_apply]
    exact iff_of_false (answered_two _ rfl) (fun h => hok h.1)

/-- `unlink` sends its success after every failure. -/
theorem answered_unlink_iff (parent : Inum) (name : Bytes) (fs : σ) :
    (fuseserverUnlink yfs parent name (Session.new fs)).2.Answered ↔
      (yfs (.unlink parent name) fs).1.1 = .ok := by
  unfold fuseserverUnlink
  -- Both kinds of failure send the same error.
  simp only [ite_self]
  exact fallThrough_iff yfs (.unlink parent name) (fun _ => .err .success)
    (fun _ e h => by cases h; rfl) fs

/-- `getattr` returns after its error. -/
theorem answered_getattr (ino : Inum) (fs : σ) :
    (fuseserverGetattr yfs ino (Session.new fs)).2.Answered := by
  unfold fuseserverGetattr
  obtain ⟨hst, hs⟩ := getattr_eq yfs ino (Session.new fs)
  rw [bind_apply, hs, call_apply]
  dsimp only
  rw [hst]
  by_cases hok : (yfs (getattrOp ino) (Session.new fs).fs).1.1 = .ok
  · rw [if_neg (not_not.mpr hok), answered_ok_iff _ (fun e h => by cases h) rfl]
    exact List.forall_mem_singleton.mpr hok
  · rw [if_pos hok]
    exact answered_err _ (by decide) rfl

/-- `create` and `mknod` send one of two replies. `success` is either of the two replies to a
    created file. -/
theorem answered_created (success : EntryParam → Reply)
    (hs : ∀ p e, success p = .err e → e = .success) (parent : Inum) (name : Bytes)
    (newInum : Inum) (fs : σ) :
    (replyCreated yfs success parent name newInum (Session.new fs)).2.Answered := by
  unfold replyCreated fuseserverCreatehelper
  rw [bind_apply, bind_apply, call_apply]
  dsimp only
  by_cases hok : (yfs (.create parent name newInum) (Session.new fs).fs).1.1 = .ok
  · rw [if_pos hok]
    exact (answered_ok_iff _ (hs _) rfl).mpr (List.forall_mem_singleton.mpr hok)
  · rw [if_neg hok]
    exact answered_err _ (e := .eexist) (by decide) rfl

/-- Inside the buffer or beyond its end, one buffer is sent. -/
theorem replyBufLimited_eq (buf : Bytes) (off maxsize : UInt64) :
    (replyBufLimited buf off maxsize : Handler σ Unit) = reply (.buf (if off.toNat < buf.length
      then (buf.drop off.toNat).take (min (buf.length - off.toNat) maxsize.toNat) else [])) := by
  unfold replyBufLimited
  by_cases hoff : off.toNat < buf.length
  · rw [if_pos hoff, if_pos hoff]
  · rw [if_neg hoff, if_neg hoff]

/-- `readdir` returns after both of its errors. -/
theorem answered_readdir (u : Uninit) (lib : Libfuse) (ino : Inum) (size off : UInt64) (fs : σ) :
    (fuseserverReaddir yfs u lib ino size off (Session.new fs)).2.Answered := by
  unfold fuseserverReaddir
  by_cases hdir : isdir ino = true
  · rw [hdir, if_neg (by decide), bind_apply, call_apply]
    dsimp only
    by_cases hok : (yfs (.readdir ino) (Session.new fs).fs).1.1 = .ok
    · rw [if_neg (not_not.mpr hok), replyBufLimited_eq]
      exact (answered_ok_iff _ (fun e h => by cases h) rfl).mpr
        (List.forall_mem_singleton.mpr hok)
    · rw [if_pos hok]
      exact answered_err _ (by decide) rfl
  · rw [Bool.not_eq_true] at hdir
    rw [hdir]
    exact answered_err _ (e := .enotdir) (by decide) rfl

/-- Which requests get exactly one reply that reports the failures of the calls: those of the
    handlers that return after an error, and those of the others when their calls return OK.
    `Unfailing` lists which calls these are, with the state in which each is made. The error
    branches of six handlers have no `return`, so that after a failure libfuse gets a second
    reply. -/
theorem answered_iff (u : Uninit) (lib : Libfuse) (req : Request) (fs : σ) :
    (req.handle u lib yfs fs).Answered ↔ req.Unfailing yfs fs := by
  -- Six handlers are always answered, and the other six have their condition.
  cases req with
  | getattr ino => exact iff_of_true (answered_getattr yfs ino fs) trivial
  | setattr ino attrSize toSet => exact answered_setattr_iff yfs ino attrSize toSet fs
  | read ino size off =>
      exact fallThrough_iff yfs (.read ino size off) .buf (fun _ e h => by cases h) fs
  | write ino buf size off =>
      exact fallThrough_iff yfs (.write ino buf size off) (fun _ => .write size)
        (fun _ e h => by cases h) fs
  | create parent name newInum =>
      exact iff_of_true
        (answered_created yfs .create (fun _ e h => by cases h) parent name newInum fs) trivial
  | mknod parent name newInum =>
      exact iff_of_true
        (answered_created yfs .entry (fun _ e h => by cases h) parent name newInum fs) trivial
  | lookup parent name => exact answered_lookup_iff yfs parent name fs
  | readdir ino size off => exact iff_of_true (answered_readdir yfs u lib ino size off fs) trivial
  | «open» ino =>
      exact iff_of_true ((answered_ok_iff _ (fun e h => by cases h) rfl).mpr
        (List.forall_mem_nil _)) trivial
  | mkdir parent name dirInum => exact answered_mkdir_iff yfs parent name dirInum fs
  | unlink parent name => exact answered_unlink_iff yfs parent name fs
  | statfs =>
      exact iff_of_true ((answered_ok_iff _ (fun e h => by cases h) rfl).mpr
        (List.forall_mem_nil _)) trivial

/-! ## The modelled operations -/

/-- The calls of the handlers are the operations that the rest of the model is about: the program of
    an operation is its call, with the result put into one type. -/
theorem runLocked_prog (u : Uninit) (serve : Inum → (o : ExtentCall) → σ → o.Answer × σ)
    (op : Op) (held : Finset Inum) (s : σ) :
    (op.prog u).runLocked serve held s
      = ((op.call u).runLocked serve held s).map fun r => (op.result r.1, r.2) := by
  cases op <;>
    simp only [Op.prog, Op.call, Op.result, Txn.runLocked_bind, Txn.runLocked_pure,
      Option.map_eq_bind, Option.bind_assoc, Option.bind_some] <;>
    rfl

/-- An operation that gets its locks and returns is served as it is executed. -/
theorem served_of_runLocked (u : Uninit) (serve : Inum → (o : ExtentCall) → σ → o.Answer × σ)
    (op : Op) {held held' : Finset Inum} {s s' : σ} {res : Result}
    (h : (op.prog u).runLocked serve held s = some (res, held', s')) :
    ∃ r, served u serve op s = (r, s') ∧ op.result r = res := by
  rw [runLocked_prog] at h
  obtain ⟨⟨r, held₁, s₁⟩, hr, heq⟩ := Option.map_eq_some_iff.mp h
  cases heq
  exact ⟨r, Txn.run_of_runLocked serve hr, rfl⟩

/-- An `unlink` of a name that the directory does not have gets two replies, whatever holds the
    extents: the operation returns `NOENT`, which the handler reports, and then it reports a
    success. -/
theorem unlink_absent (u : Uninit) (lib : Libfuse)
    (serve : Inum → (o : ExtentCall) → σ → o.Answer × σ) (parent : Inum) (name : Bytes) (s : σ)
    (h : findEntry (serve parent .get s).1.2 name = none) :
    ¬ ((Request.unlink parent name).handle u lib (served u serve) s).Answered := by
  have hrun : ((Op.unlink parent name).prog u).runLocked serve ∅ s
      = some (.status .noent, ∅, (serve parent .get s).2) := by
    simp [Op.prog, Yfs.unlink, Txn.runLocked_bind, Txn.runLocked_withLock, runLocked_isExist, h]
  obtain ⟨r, hserved, hres⟩ := served_of_runLocked u serve _ hrun
  intro ha
  have hok := (answered_unlink_iff (served u serve) parent name s).mp ha
  rw [hserved] at hok
  have hnoent : r.1 = .noent := Result.status.inj hres
  rw [hnoent] at hok
  cases hok

/-- On a new file system, an `unlink` in the root of a name that is not there: the error,
    and then the success. -/
theorem unlink_replies_twice :
    ∃ s, s = (Request.unlink 1 [97]).handle ⟨0, 0⟩ ⟨fun n => n, fun name _ _ => name⟩
        (served ⟨0, 0⟩ (Cached.serve fun _ => 0)) ⟨ExtentClient.new, ExtentServer.new 0, 0⟩ ∧
      s.replies = [.err .enoent, .err .success] ∧ ¬ s.Answered := by
  refine ⟨_, rfl, ?_⟩
  have htwo : ((Request.unlink 1 [97]).handle ⟨0, 0⟩ ⟨fun n => n, fun name _ _ => name⟩
      (served ⟨0, 0⟩ (Cached.serve fun _ => 0))
        ⟨ExtentClient.new, ExtentServer.new 0, 0⟩).replies = [.err .enoent, .err .success] := by
    decide
  exact ⟨htwo, answered_two _ htwo⟩

end Fuse

end Yfs
