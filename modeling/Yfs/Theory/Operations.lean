import Yfs.Theory.ExtentStore

/-!
# Operations as Two-Phase Programs

Every operation takes its locks, calls extents whose locks it has, and releases at the
end; and none of them looks at a time. Both are said at once, by relating each
operation to itself along answers that differ in the times: what comes back is the
same up to the times in the attributes.

So the result of an operation on a server, or on a client in front of a server, is the
result on the store that the state stands for. What operations do to a store is
computed here, for callers of `TwoPhase.runLocked_of_some`.

## Main definitions

* `Attr.timeless`, `Result.timeless`: What is left without the times.
* `SameAttr`, `SameResult`: Equal but for the times.
* `extentMade`, `entryAdded`: Two points on the way of a creation.

## Theorems

* `twoPhase_getfile` and so on: One operation.
* `twoPhase_prog`: All of them.
* `creation_found`, `creation_stopped`, `creation_added`: The ways a creation can go, on any
  extents that answer.
* `readdir_on_store`, `lookup_on_store`: Operations on a directory that exists.
* `read_on_store`, `write_on_store`: Operations on a file that exists.
* `creation_on_store`, `creation_on_store_absent`, `creation_blocks`: The three cases of a
  creation.
-/

namespace Yfs

open Extent Txn

def Attr.timeless (a : Attr) : Attr :=
  { a with atime := 0, mtime := 0, ctime := 0 }

def Result.timeless : Result → Result
  | .status st => .status st
  | .attr st a => .attr st (a.map Attr.timeless)
  | .dir st din => .dir st (din.map fun _ => ⟨0, 0, 0⟩)
  | .found st entry => .found st (entry.map fun e => (e.1, e.2.map Attr.timeless))
  | .tokens st keyValues => .tokens st keyValues
  | .content st buf => .content st buf

/-- The same status and attributes, but for the times. -/
def SameAttr (x y : YfsStatus × Option Attr) : Prop :=
  (Result.attr x.1 x.2).timeless = (Result.attr y.1 y.2).timeless

def SameResult (x y : Result) : Prop :=
  x.timeless = y.timeless

section TwoPhase

variable {H : Set Inum}

/-- A call on an extent that is locked. The answers to a `get` are equal, those to a `getattr` agree
    in the status and the size. -/
theorem plain_ecGet {eid : Inum} (h : eid ∈ H) :
    Plain SameAnswer H Eq (ecGet eid) (ecGet eid) :=
  Plain.call eid _ _ _ h fun x y hxy => Plain.ret x y hxy

theorem plain_ecGetattr {eid : Inum} (h : eid ∈ H) :
    Plain SameAnswer H (fun x y => x.1 = y.1 ∧ x.2.size = y.2.size) (ecGetattr eid)
      (ecGetattr eid) :=
  Plain.call eid _ _ _ h fun x y hxy => Plain.ret x y hxy

theorem plain_ecPut {eid : Inum} (buf : Bytes) (h : eid ∈ H) :
    Plain SameAnswer H Eq (ecPut eid buf) (ecPut eid buf) :=
  Plain.call eid _ _ _ h fun x y hxy => Plain.ret x y hxy

theorem twoPhase_pure {α β : Type} {res : α → β → Prop} {a : α} {b : β} (h : res a b) :
    TwoPhase SameAnswer res H (pure a) (pure b) :=
  TwoPhase.ret H a b h

theorem timeless_congr {a b : Attr} (h : a.size = b.size) : a.timeless = b.timeless := by
  simp only [Attr.timeless, h]

/-- The attributes that come back agree but for the times, and so do the results. -/
theorem twoPhase_getfile (inum : Inum) :
    TwoPhase SameAnswer SameAttr H (getfile inum) (getfile inum) := by
  refine TwoPhase.withLock inum ((plain_ecGetattr (Set.mem_insert _ _)).bind ?_)
  rintro ⟨st, a⟩ ⟨_, b⟩ ⟨rfl, hsize⟩
  refine TwoPhase.ite (twoPhase_pure rfl) (twoPhase_pure ?_)
  simp only [SameAttr, Result.timeless, Option.map_some, timeless_congr hsize]

theorem twoPhase_getdir (inum : Inum) :
    TwoPhase SameAnswer (fun x y => (Result.dir x.1 x.2).timeless = (Result.dir y.1 y.2).timeless)
      H (getdir inum) (getdir inum) := by
  refine TwoPhase.withLock inum ((plain_ecGetattr (Set.mem_insert _ _)).bind ?_)
  rintro ⟨st, a⟩ ⟨_, b⟩ ⟨rfl, _⟩
  exact TwoPhase.ite (twoPhase_pure rfl) (twoPhase_pure rfl)

/-- The helpers read and write the directory, under the lock that their callers have taken. -/
theorem plain_isExist {parent : Inum} (name : Bytes) (h : parent ∈ H) :
    Plain SameAnswer H Eq (isExist parent name) (isExist parent name) := by
  refine (plain_ecGet h).andThen ?_
  rintro r _ rfl
  dsimp only
  split <;> exact Plain.ret _ _ rfl

theorem plain_addEntry {parent : Inum} (name : Bytes) (newInum : Inum) (h : parent ∈ H) :
    Plain SameAnswer H Eq (addEntry parent name newInum) (addEntry parent name newInum) := by
  refine (plain_ecGet h).andThen ?_
  rintro r _ rfl
  dsimp only
  split
  · exact Plain.ret _ _ rfl
  · refine (plain_ecPut _ h).andThen ?_
    rintro st _ rfl
    split <;> exact Plain.ret _ _ rfl

/-- `create` has both locks before its first call and gives none back before its last. -/
theorem twoPhase_create (parent : Inum) (name : Bytes) (newInum : Inum) :
    TwoPhase SameAnswer SameAttr H (create parent name newInum) (create parent name newInum) := by
  -- Both locks are there from the first call on.
  have hparent : parent ∈ insert newInum (insert parent H) :=
    Set.mem_insert_of_mem _ (Set.mem_insert _ _)
  have hnew : newInum ∈ insert newInum (insert parent H) := Set.mem_insert _ _
  refine TwoPhase.withLock parent (TwoPhase.withLock newInum ?_)
  refine (plain_isExist name hparent).bind ?_
  rintro e _ rfl
  refine TwoPhase.ite (twoPhase_pure rfl) ((plain_ecPut [] hnew).bind ?_)
  rintro st _ rfl
  refine (plain_addEntry name newInum hparent).bind ?_
  rintro n _ rfl
  refine TwoPhase.ite (twoPhase_pure rfl) ((plain_ecGetattr hnew).bind ?_)
  -- The attributes of the new file are the one answer in which times show.
  rintro ⟨st', a⟩ ⟨_, b⟩ ⟨rfl, hsize⟩
  refine TwoPhase.ite (twoPhase_pure rfl) (twoPhase_pure ?_)
  simp only [SameAttr, Result.timeless, Option.map_some, timeless_congr hsize]

/-- `lookup` takes its second lock while it has the first, after a read that decides which. -/
theorem twoPhase_lookup (u : Uninit) (parent : Inum) (name : Bytes) :
    TwoPhase SameAnswer
      (fun x y => (Result.found x.1 x.2).timeless = (Result.found y.1 y.2).timeless)
      H (lookup u parent name) (lookup u parent name) := by
  refine TwoPhase.withLock parent ((plain_ecGet (Set.mem_insert _ _)).bind ?_)
  rintro r _ rfl
  refine TwoPhase.ite (twoPhase_pure rfl) ?_
  cases findEntry r.2 name with
  | none => exact twoPhase_pure rfl
  -- Both runs have found the same entry, so they take the same lock.
  | some entry =>
      refine TwoPhase.withLock _ ((plain_ecGetattr (Set.mem_insert _ _)).bind ?_)
      rintro ⟨st, a⟩ ⟨_, b⟩ ⟨rfl, hsize⟩
      refine TwoPhase.ite (twoPhase_pure rfl) (twoPhase_pure ?_)
      simp only [Result.timeless, Option.map_some, timeless_congr hsize]

theorem twoPhase_readdir (parent : Inum) :
    TwoPhase SameAnswer Eq H (readdir parent) (readdir parent) := by
  refine TwoPhase.withLock parent ((plain_ecGet (Set.mem_insert _ _)).bind ?_)
  rintro r _ rfl
  exact TwoPhase.ite (twoPhase_pure rfl) (twoPhase_pure rfl)

theorem twoPhase_updatesize (inum : Inum) (newSize : UInt64) :
    TwoPhase SameAnswer Eq H (updatesize inum newSize) (updatesize inum newSize) := by
  have hmem : inum ∈ insert inum H := Set.mem_insert _ _
  refine TwoPhase.withLock inum ((plain_ecGetattr hmem).bind ?_)
  rintro ⟨st, a⟩ ⟨_, b⟩ ⟨rfl, hsize⟩
  refine TwoPhase.ite (twoPhase_pure rfl) ((plain_ecGet hmem).bind ?_)
  rintro r _ rfl
  -- The size is the one attribute that decides what is written.
  dsimp only at hsize ⊢
  rw [hsize]
  refine TwoPhase.ite (twoPhase_pure rfl) ((plain_ecPut _ hmem).bind ?_)
  rintro st' _ rfl
  exact TwoPhase.ite (twoPhase_pure rfl) (twoPhase_pure rfl)

theorem twoPhase_read (inum : Inum) (size off : UInt64) :
    TwoPhase SameAnswer Eq H (read inum size off) (read inum size off) := by
  refine TwoPhase.withLock inum ((plain_ecGet (Set.mem_insert _ _)).bind ?_)
  rintro r _ rfl
  exact TwoPhase.ite (twoPhase_pure rfl) (TwoPhase.ite (twoPhase_pure rfl) (twoPhase_pure rfl))

theorem twoPhase_write (inum : Inum) (buf : Bytes) (size off : UInt64) :
    TwoPhase SameAnswer Eq H (write inum buf size off) (write inum buf size off) := by
  have hmem : inum ∈ insert inum H := Set.mem_insert _ _
  refine TwoPhase.withLock inum ((plain_ecGet hmem).bind ?_)
  rintro r _ rfl
  refine TwoPhase.ite (twoPhase_pure rfl) ((plain_ecGetattr hmem).bind ?_)
  rintro ⟨st, a⟩ ⟨_, b⟩ ⟨rfl, hsize⟩
  dsimp only at hsize ⊢
  -- Whether the file is empty is asked of the size attribute, which is the same in both runs.
  rw [hsize]
  refine TwoPhase.ite (twoPhase_pure rfl) ((plain_ecPut _ hmem).bind ?_)
  rintro st' _ rfl
  exact TwoPhase.ite (twoPhase_pure rfl) (twoPhase_pure rfl)

theorem twoPhase_mymkdir (parent : Inum) (name : Bytes) (dirInum : Inum) :
    TwoPhase SameAnswer Eq H (mymkdir parent name dirInum) (mymkdir parent name dirInum) := by
  have hparent : parent ∈ insert dirInum (insert parent H) :=
    Set.mem_insert_of_mem _ (Set.mem_insert _ _)
  refine TwoPhase.withLock parent (TwoPhase.withLock dirInum ?_)
  refine (plain_isExist name hparent).bind ?_
  rintro e _ rfl
  refine TwoPhase.ite (twoPhase_pure rfl) ((plain_ecPut [] (Set.mem_insert _ _)).bind ?_)
  rintro st _ rfl
  refine TwoPhase.ite (twoPhase_pure rfl) ((plain_addEntry name dirInum hparent).bind ?_)
  rintro n _ rfl
  exact TwoPhase.ite (twoPhase_pure rfl) (twoPhase_pure rfl)

/-- The lock that a successful `unlink` keeps does not matter here: a lock may be kept
    beyond the end. -/
theorem twoPhase_unlink (u : Uninit) (parent : Inum) (name : Bytes) :
    TwoPhase SameAnswer Eq H (unlink u parent name) (unlink u parent name) := by
  have hmem : parent ∈ insert parent H := Set.mem_insert _ _
  refine TwoPhase.withLock parent ((plain_isExist name hmem).bind ?_)
  rintro e _ rfl
  refine TwoPhase.ite (twoPhase_pure rfl) ((plain_ecGet hmem).bind ?_)
  rintro r _ rfl
  refine TwoPhase.ite (twoPhase_pure rfl) ?_
  refine TwoPhase.ite (twoPhase_pure rfl) ((plain_ecPut _ hmem).bind ?_)
  rintro st _ rfl
  refine TwoPhase.ite (twoPhase_pure rfl) (TwoPhase.acquire _ _ _ _ ?_)
  refine (plain_ecPut [] (Set.mem_insert _ _)).bind ?_
  rintro st' _ rfl
  refine TwoPhase.ite ?_ (twoPhase_pure rfl)
  exact TwoPhase.release _ _ _ _ (Releasing.ret _ _ rfl)

/-- An operation is two-phase: it takes all its locks before it gives one back, and calls only on
    what it has locked. And its result depends on no time. -/
theorem twoPhase_prog (u : Uninit) (op : Op) :
    TwoPhase SameAnswer SameResult H (op.prog u) (op.prog u) := by
  cases op with
  | getfile inum => exact (twoPhase_getfile inum).bind fun _ _ h => Releasing.ret _ _ h
  | getdir inum => exact (twoPhase_getdir inum).bind fun _ _ h => Releasing.ret _ _ h
  | create parent name newInum =>
      exact (twoPhase_create parent name newInum).bind fun _ _ h => Releasing.ret _ _ h
  | lookup parent name =>
      exact (twoPhase_lookup u parent name).bind fun _ _ h => Releasing.ret _ _ h
  | readdir parent =>
      exact (twoPhase_readdir parent).bind fun _ _ h => Releasing.ret _ _ (by rw [h]; rfl)
  | updatesize inum newSize =>
      exact (twoPhase_updatesize inum newSize).bind fun _ _ h =>
        Releasing.ret _ _ (by rw [h]; rfl)
  | read inum size off =>
      exact (twoPhase_read inum size off).bind fun _ _ h => Releasing.ret _ _ (by rw [h]; rfl)
  | write inum buf size off =>
      exact (twoPhase_write inum buf size off).bind fun _ _ h =>
        Releasing.ret _ _ (by rw [h]; rfl)
  | mymkdir parent name dirInum =>
      exact (twoPhase_mymkdir parent name dirInum).bind fun _ _ h =>
        Releasing.ret _ _ (by rw [h]; rfl)
  | unlink parent name =>
      exact (twoPhase_unlink u parent name).bind fun _ _ h => Releasing.ret _ _ (by rw [h]; rfl)

end TwoPhase

/-- Results that agree but for the times have the same status. -/
theorem SameResult.ret_eq {x y : Result} (h : SameResult x y) : x.ret = y.ret := by
  have hret : ∀ r : Result, r.timeless.ret = r.ret := fun r => by cases r <;> rfl
  rw [← hret x, ← hret y, h]

/-- A creation under the directory's own inum waits for itself. -/
theorem creation_blocks {σ : Type} (u : Uninit)
    (serve : Inum → (o : ExtentCall) → σ → o.Answer × σ) (dir : Inum) (c : Creation)
    (heq : c.inum = dir) (held : Finset Inum) (s : σ) :
    ((c.op dir).prog u).runLocked serve held s = none := by
  have hmem : c.inum ∈ insert dir held := heq ▸ Finset.mem_insert_self _ _
  unfold Creation.op
  cases c.isdir with
  | true =>
      simp only [if_true, Op.prog, mymkdir, runLocked_bind, runLocked_withLock, if_pos hmem,
        Option.map_none, ite_self, Option.bind_none]
  | false =>
      simp only [Bool.false_eq_true, if_false, Op.prog, create, runLocked_bind,
        runLocked_withLock, if_pos hmem, Option.map_none, ite_self, Option.bind_none]

/-- `isExist` with a `get` that succeeds. -/
theorem isExist_runs {σ : Type} (serve : Inum → (o : ExtentCall) → σ → o.Answer × σ)
    {parent : Inum} {entries : Bytes} {s : σ} (hget : (serve parent .get s).1 = (.ok, entries))
    (name : Bytes) (held : Finset Inum) :
    (isExist parent name).runLocked serve held s
      = some ((findEntry entries name).isSome, held, (serve parent .get s).2) := by
  rw [runLocked_isExist, hget]
  simp only [true_and, Bool.decide_eq_true]

/-- Two locks, one inside the other, taken by a caller that has none. -/
theorem runLocked_withLocks {α σ : Type}
    {serve : Inum → (o : ExtentCall) → σ → o.Answer × σ} (i j : Inum) (hne : j ≠ i)
    (p : Prog α) (s : σ) (a : α) (s' : σ)
    (h : p.runLocked serve (insert j (insert i ∅)) s = some (a, insert j (insert i ∅), s')) :
    (withLock i (withLock j p)).runLocked serve ∅ s = some (a, ∅, s') := by
  have hj : j ∉ (insert i ∅ : Finset Inum) := by
    rw [Finset.mem_insert, not_or]
    exact ⟨hne, Finset.notMem_empty j⟩
  rw [runLocked_withLock, if_neg (Finset.notMem_empty i), runLocked_withLock, if_neg hj, h]
  simp only [Option.map_some, Finset.erase_insert hj, Finset.erase_insert (Finset.notMem_empty i)]

/-! ## Creations on any extents -/

section Creation

variable {σ : Type} {serve : Inum → (o : ExtentCall) → σ → o.Answer × σ} (u : Uninit)
  {dir : Inum} {c : Creation} {s : σ}

/-- The name is found. Nothing is written, and the answer is EXIST; the new inum's lock was taken
    for nothing. -/
theorem creation_found (hne : c.inum ≠ dir) {entries : Bytes}
    (hget : (serve dir .get s).1 = (.ok, entries))
    (hfound : (findEntry entries c.name).isSome = true) :
    ∃ r, ((c.op dir).prog u).runLocked serve ∅ s = some (r, ∅, (serve dir .get s).2) ∧
      r.ret = .exist := by
  unfold Creation.op
  cases c.isdir with
  | true =>
      refine ⟨.status .exist, ?_, rfl⟩
      simp only [if_true, Op.prog, mymkdir, runLocked_bind]
      rw [runLocked_withLocks dir c.inum hne _ s .exist (serve dir .get s).2]
      · rfl
      · simp only [runLocked_bind, isExist_runs serve hget, hfound, Option.bind_some, if_true,
          runLocked_pure]
  | false =>
      refine ⟨.attr .exist none, ?_, rfl⟩
      simp only [Bool.false_eq_true, if_false, Op.prog, create, runLocked_bind]
      rw [runLocked_withLocks dir c.inum hne _ s (.exist, none) (serve dir .get s).2]
      · rfl
      · simp only [runLocked_bind, isExist_runs serve hget, hfound, Option.bind_some, if_true,
          runLocked_pure]

/-- The state when the extent is made: after the first fetch and the `put`. -/
def extentMade (serve : Inum → (o : ExtentCall) → σ → o.Answer × σ) (dir : Inum)
    (c : Creation) (s : σ) : σ :=
  (serve c.inum (.put []) (serve dir .get s).2).2

/-- The name was not found, and the second fetch fails. The new extent has been made by then, and
    stays. -/
theorem creation_stopped (hne : c.inum ≠ dir)
    (hput : ∀ eid buf t, (serve eid (.put buf) t).1 = .ok)
    (habsent : ¬ ((serve dir .get s).1.1 = .ok ∧
      (findEntry (serve dir .get s).1.2 c.name).isSome = true))
    (hget : (serve dir .get (extentMade serve dir c s)).1.1 ≠ .ok) :
    ∃ r, ((c.op dir).prog u).runLocked serve ∅ s
        = some (r, ∅, (serve dir .get (extentMade serve dir c s)).2) ∧ r.ret = .ioerr := by
  unfold extentMade at hget ⊢
  unfold Creation.op
  cases c.isdir with
  | true =>
      refine ⟨.status .ioerr, ?_, rfl⟩
      simp only [if_true, Op.prog, mymkdir, runLocked_bind]
      rw [runLocked_withLocks dir c.inum hne _ s .ioerr
        (serve dir .get (serve c.inum (.put []) (serve dir .get s).2).2).2]
      · rfl
      · simp [addEntry, runLocked_bind, runLocked_isExist, habsent, hput, hget]
  | false =>
      refine ⟨.attr .ioerr none, ?_, rfl⟩
      simp only [Bool.false_eq_true, if_false, Op.prog, create, runLocked_bind]
      rw [runLocked_withLocks dir c.inum hne _ s (.ioerr, none)
        (serve dir .get (serve c.inum (.put []) (serve dir .get s).2).2).2]
      · rfl
      · simp [addEntry, runLocked_bind, runLocked_isExist, habsent, hget]

/-- The state when the entry is there too. -/
def entryAdded (serve : Inum → (o : ExtentCall) → σ → o.Answer × σ) (dir : Inum)
    (c : Creation) (entries : Bytes) (s : σ) : σ :=
  (serve dir (.put (appendEntry entries c.name c.inum))
    (serve dir .get (extentMade serve dir c s)).2).2

/-- The name was not found, and the second fetch succeeds. A `create` ends with a
    `getattr`. -/
theorem creation_added (hne : c.inum ≠ dir)
    (hput : ∀ eid buf t, (serve eid (.put buf) t).1 = .ok)
    (habsent : ¬ ((serve dir .get s).1.1 = .ok ∧
      (findEntry (serve dir .get s).1.2 c.name).isSome = true))
    {entries : Bytes} (hget : (serve dir .get (extentMade serve dir c s)).1 = (.ok, entries))
    {a : Attr} (hattr : (serve c.inum .getattr (entryAdded serve dir c entries s)).1 = (.ok, a)) :
    ∃ r s', ((c.op dir).prog u).runLocked serve ∅ s = some (r, ∅, s') ∧ r.ret = .ok ∧
      (s' = entryAdded serve dir c entries s ∨
        s' = (serve c.inum .getattr (entryAdded serve dir c entries s)).2) := by
  unfold entryAdded extentMade at hattr ⊢
  unfold extentMade at hget
  unfold Creation.op
  cases c.isdir with
  | true =>
      refine ⟨.status .ok, _, ?_, rfl, .inl rfl⟩
      simp only [if_true, Op.prog, mymkdir, runLocked_bind]
      rw [runLocked_withLocks dir c.inum hne _ s .ok]
      · rfl
      · simp [addEntry, runLocked_bind, runLocked_isExist, habsent, hput, hget]
  | false =>
      refine ⟨.attr .ok (some a), _, ?_, rfl, .inr rfl⟩
      simp only [Bool.false_eq_true, if_false, Op.prog, create, runLocked_bind]
      rw [runLocked_withLocks dir c.inum hne _ s (.ok, some a)]
      · rfl
      · simp [addEntry, runLocked_bind, runLocked_isExist, habsent, hput, hget, hattr]

end Creation

/-! ## On the store -/

section OnStore

variable {f : Store} {dir : Inum} {entries : Bytes}

/-- The store after an entry has been added, with an empty extent for the new inum. -/
def Store.withEntry (f : Store) (dir : Inum) (entries name : Bytes) (inum : Inum) : Store :=
  Function.update (Function.update f inum (some [])) dir (some (appendEntry entries name inum))

/-- What is in the store is read. -/
theorem get_on_store {eid : Inum} {buf : Bytes} (h : f eid = some buf) :
    (Store.serve eid .get f).1 = (.ok, buf) := by
  simp only [Store.serve, Store.get, h]

theorem getattr_on_store {eid : Inum} {buf : Bytes} (h : f eid = some buf) :
    (Store.serve eid .getattr f).1 = (.ok, ⟨0, 0, 0, sizeAttr buf⟩) := by
  simp only [Store.serve, Store.getattr, h]

/-- A creation on the store either finds the name or adds it. -/
theorem creation_on_store (u : Uninit) (hdir : f dir = some entries) (c : Creation)
    (hne : c.inum ≠ dir) :
    ∃ r f', ((c.op dir).prog u).runLocked Store.serve ∅ f = some (r, ∅, f') ∧
      if (findEntry entries c.name).isSome then r.ret = .exist ∧ f' = f
      else r.ret = .ok ∧ f' = f.withEntry dir entries c.name c.inum := by
  have hget : (Store.serve dir .get f).1 = (.ok, entries) := get_on_store hdir
  by_cases hfound : (findEntry entries c.name).isSome = true
  · obtain ⟨r, hrun, hret⟩ := creation_found u hne hget hfound
    refine ⟨r, f, hrun, ?_⟩
    rw [if_pos hfound]
    exact ⟨hret, rfl⟩
  -- The `put` on the new extent does not touch the directory.
  · have hget' : (Store.serve dir .get (extentMade Store.serve dir c f)).1 = (.ok, entries) :=
      get_on_store ((Function.update_of_ne hne.symm _ _).trans hdir)
    have hattr : entryAdded Store.serve dir c entries f c.inum = some [] :=
      (Function.update_of_ne hne _ _).trans (Function.update_self _ _ _)
    have habsent : ¬ ((Store.serve dir .get f).1.1 = .ok ∧
        (findEntry (Store.serve dir .get f).1.2 c.name).isSome = true) := by
      rw [hget]
      exact fun hc => hfound hc.2
    obtain ⟨r, f', hrun, hret, hf'⟩ := creation_added u hne (fun _ _ _ => rfl) habsent hget'
      (getattr_on_store hattr)
    refine ⟨r, f', hrun, ?_⟩
    rw [if_neg hfound]
    exact ⟨hret, hf'.elim id id⟩

/-- In a directory that does not exist, a creation still empties the new extent. -/
theorem creation_on_store_absent (u : Uninit) (hdir : f dir = none) (c : Creation)
    (hne : c.inum ≠ dir) :
    ∃ r, ((c.op dir).prog u).runLocked Store.serve ∅ f
      = some (r, ∅, Function.update f c.inum (some [])) := by
  have hfail : ∀ g : Store, g dir = none → (Store.serve dir .get g).1.1 ≠ .ok := by
    intro g hg
    simp only [Store.serve, Store.get, hg, ne_eq, reduceCtorEq, not_false_eq_true]
  -- `isExist` takes the failing read for an absent name; `add_entry` then fails.
  obtain ⟨r, hrun, -⟩ := creation_stopped u hne (fun _ _ _ => rfl)
    (fun hc => hfail f hdir hc.1)
    (hfail (extentMade Store.serve dir c f) ((Function.update_of_ne hne.symm _ _).trans hdir))
  exact ⟨r, hrun⟩

/-- `readdir` splits the content of the directory and leaves it alone. -/
theorem readdir_on_store (hdir : f dir = some entries) :
    (readdir dir).runLocked Store.serve ∅ f = some ((.ok, split entries sep), ∅, f) := by
  rw [readdir, runLocked_withLock, if_neg (Finset.notMem_empty dir), runLocked_bind]
  simp [Store.serve, Store.get, hdir]

/-- `lookup` finds what the scan finds, and gets the child's lock unless the child is
    the directory itself. -/
theorem lookup_on_store (u : Uninit) (hdir : f dir = some entries) (name : Bytes)
    (hne : ∀ e, findEntry entries name = some e → n2i u.finum e.1 ≠ dir) :
    ∃ st entry, (lookup u dir name).runLocked Store.serve ∅ f = some ((st, entry), ∅, f) ∧
      entry.map Prod.fst = (findEntry entries name).map fun e => n2i u.finum e.1 := by
  rw [lookup, runLocked_withLock, if_neg (Finset.notMem_empty dir), runLocked_bind]
  simp only [runLocked_ecGet, Store.serve, Store.get, hdir, Option.bind_some, ne_eq,
    not_true_eq_false, if_false]
  have hkept : (insert dir ∅ : Finset Inum).erase dir = ∅ :=
    Finset.erase_insert (Finset.notMem_empty dir)
  cases hfound : findEntry entries name with
  | none =>
      refine ⟨.ok, none, ?_, rfl⟩
      simp only [runLocked_pure, Option.map_some, hkept]
  | some e =>
      -- The only lock of the caller is the one of the directory.
      have hchild : n2i u.finum e.1 ∉ (insert dir ∅ : Finset Inum) := by
        rw [Finset.mem_insert, not_or]
        exact ⟨hne e hfound, Finset.notMem_empty _⟩
      simp only [runLocked_withLock, if_neg hchild, runLocked_bind, runLocked_ecGetattr,
        Option.bind_some, Store.serve]
      split
      · refine ⟨.ioerr, some (n2i u.finum e.1, none), ?_, rfl⟩
        simp only [runLocked_pure, Option.map_some, Finset.erase_insert hchild, hkept]
      · refine ⟨.ok, some (n2i u.finum e.1, some (Store.getattr (f (n2i u.finum e.1))).2), ?_,
          rfl⟩
        simp only [runLocked_pure, Option.map_some, Finset.erase_insert hchild, hkept]

theorem read_on_store {inum : Inum} {c : Bytes} (hfile : f inum = some c) (size off : UInt64) :
    (read inum size off).runLocked Store.serve ∅ f
      = some ((.ok, if off.toNat < c.length then (c.drop off.toNat).take size.toNat else []),
          ∅, f) := by
  rw [read, runLocked_withLock, if_neg (Finset.notMem_empty inum), runLocked_bind]
  simp only [runLocked_ecGet, Store.serve, Store.get, hfile, Option.bind_some, ne_eq,
    not_true_eq_false, if_false]
  have hkept : (insert inum ∅ : Finset Inum).erase inum = ∅ :=
    Finset.erase_insert (Finset.notMem_empty inum)
  by_cases hoff : off.toNat < c.length
  · simp only [if_pos hoff, runLocked_pure, Option.map_some, hkept]
  · simp only [if_neg hoff, runLocked_pure, Option.map_some, hkept]

theorem write_on_store {inum : Inum} {c : Bytes} (hfile : f inum = some c) (buf : Bytes)
    (size off : UInt64) :
    (write inum buf size off).runLocked Store.serve ∅ f
      = some (.ok, ∅,
          Function.update f inum (some (written c (sizeAttr c) buf size off))) := by
  rw [write, runLocked_withLock, if_neg (Finset.notMem_empty inum), runLocked_bind]
  simp only [runLocked_bind, runLocked_ecGet, runLocked_ecGetattr, runLocked_ecPut, Store.serve,
    Store.get, Store.getattr, hfile, Option.bind_some, ne_eq, not_true_eq_false, if_false,
    runLocked_pure, Option.map_some, Finset.erase_insert (Finset.notMem_empty inum)]

end OnStore

end Yfs
