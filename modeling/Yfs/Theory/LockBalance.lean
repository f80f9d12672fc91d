import Yfs.Core.YfsClient

/-!
# Lock Balance

Which operations give back the locks they take. The calls to extents are answered
by an arbitrary function, so that each result covers every content of the store and
every pattern of failures, and `held` is what the calling thread has when it calls.

Nine of the ten operations are built from calls, sequences and `withLock`, and are
balanced for that reason. `unlink` is not: where all its calls succeed and the name is
bound to a file, the lock of that file is still held when it returns. Everywhere else
`unlink` keeps the balance too, so `UnlinkLeaks` is exact.

## Main definitions

* `UnlinkLeaks`: The answers to which `unlink` returns with a lock too many.
* `Op.Leaks`: The same for any operation.

## Theorems

* `balanced_getfile` and so on: The operations built with `withLock`.
* `balanced_prog`: All of them.
* `unlink_held_iff`: The locks after `unlink`.
* `held_kept_iff`: Exactly when an operation gives back its locks.
* `unlink_keeps_lock`: An `unlink` that does not.
-/

namespace Yfs

open Extent Txn

section Balanced

theorem balanced_ecGet (eid : Inum) : Balanced (ecGet eid) :=
  balanced_ask eid _

theorem balanced_ecGetattr (eid : Inum) : Balanced (ecGetattr eid) :=
  balanced_ask eid _

theorem balanced_ecPut (eid : Inum) (buf : Bytes) : Balanced (ecPut eid buf) :=
  balanced_ask eid _

theorem balanced_getfile (inum : Inum) : Balanced (getfile inum) := by
  refine balanced_withLock _ _ (balanced_bind _ _ (balanced_ecGetattr _) fun r => ?_)
  exact balanced_ite _ _ (balanced_pure _) (balanced_pure _)

theorem balanced_getdir (inum : Inum) : Balanced (getdir inum) := by
  refine balanced_withLock _ _ (balanced_bind _ _ (balanced_ecGetattr _) fun r => ?_)
  exact balanced_ite _ _ (balanced_pure _) (balanced_pure _)

/-- The helpers take no lock of their own, and so keep every one. -/
theorem balanced_isExist (parent : Inum) (name : Bytes) : Balanced (isExist parent name) := by
  refine balanced_bind _ _ (balanced_ecGet _) fun r => ?_
  exact balanced_ite _ _ (balanced_pure _) (balanced_pure _)

theorem balanced_addEntry (parent : Inum) (name : Bytes) (newInum : Inum) :
    Balanced (addEntry parent name newInum) := by
  refine balanced_bind _ _ (balanced_ecGet _) fun r => ?_
  refine balanced_ite _ _ (balanced_pure _) ?_
  refine balanced_bind _ _ (balanced_ecPut _ _) fun st => ?_
  exact balanced_ite _ _ (balanced_pure _) (balanced_pure _)

/-- `create` brackets its two locks, one inside the other, and each `goto release` of the source is
    a way out of both. -/
theorem balanced_create (parent : Inum) (name : Bytes) (newInum : Inum) :
    Balanced (create parent name newInum) := by
  refine balanced_withLock _ _ (balanced_withLock _ _ ?_)
  refine balanced_bind _ _ (balanced_isExist _ _) fun e => ?_
  refine balanced_ite _ _ (balanced_pure _) ?_
  refine balanced_bind _ _ (balanced_ecPut _ _) fun _ => ?_
  refine balanced_bind _ _ (balanced_addEntry _ _ _) fun n => ?_
  refine balanced_ite _ _ (balanced_pure _) ?_
  refine balanced_bind _ _ (balanced_ecGetattr _) fun r => ?_
  exact balanced_ite _ _ (balanced_pure _) (balanced_pure _)

/-- `lookup` takes the lock of the child only where the name is found, and gives it back before that
    of the directory. -/
theorem balanced_lookup (u : Uninit) (parent : Inum) (name : Bytes) :
    Balanced (lookup u parent name) := by
  refine balanced_withLock _ _ (balanced_bind _ _ (balanced_ecGet _) fun r => ?_)
  refine balanced_ite _ _ (balanced_pure _) ?_
  cases findEntry r.2 name with
  | none => exact balanced_pure _
  | some entry =>
      -- The child's lock is bracketed inside the parent's.
      refine balanced_withLock _ _ (balanced_bind _ _ (balanced_ecGetattr _) fun r => ?_)
      exact balanced_ite _ _ (balanced_pure _) (balanced_pure _)

theorem balanced_readdir (parent : Inum) : Balanced (readdir parent) := by
  refine balanced_withLock _ _ (balanced_bind _ _ (balanced_ecGet _) fun r => ?_)
  exact balanced_ite _ _ (balanced_pure _) (balanced_pure _)

theorem balanced_updatesize (inum : Inum) (newSize : UInt64) :
    Balanced (updatesize inum newSize) := by
  refine balanced_withLock _ _ (balanced_bind _ _ (balanced_ecGetattr _) fun r => ?_)
  refine balanced_ite _ _ (balanced_pure _) ?_
  refine balanced_bind _ _ (balanced_ecGet _) fun r => ?_
  refine balanced_ite _ _ (balanced_pure _) ?_
  refine balanced_bind _ _ (balanced_ecPut _ _) fun st => ?_
  exact balanced_ite _ _ (balanced_pure _) (balanced_pure _)

theorem balanced_read (inum : Inum) (size off : UInt64) : Balanced (read inum size off) := by
  refine balanced_withLock _ _ (balanced_bind _ _ (balanced_ecGet _) fun r => ?_)
  refine balanced_ite _ _ (balanced_pure _) ?_
  exact balanced_ite _ _ (balanced_pure _) (balanced_pure _)

theorem balanced_write (inum : Inum) (buf : Bytes) (size off : UInt64) :
    Balanced (write inum buf size off) := by
  refine balanced_withLock _ _ (balanced_bind _ _ (balanced_ecGet _) fun r => ?_)
  refine balanced_ite _ _ (balanced_pure _) ?_
  refine balanced_bind _ _ (balanced_ecGetattr _) fun a => ?_
  refine balanced_ite _ _ (balanced_pure _) ?_
  refine balanced_bind _ _ (balanced_ecPut _ _) fun st => ?_
  exact balanced_ite _ _ (balanced_pure _) (balanced_pure _)

theorem balanced_mymkdir (parent : Inum) (name : Bytes) (dirInum : Inum) :
    Balanced (mymkdir parent name dirInum) := by
  refine balanced_withLock _ _ (balanced_withLock _ _ ?_)
  refine balanced_bind _ _ (balanced_isExist _ _) fun e => ?_
  refine balanced_ite _ _ (balanced_pure _) ?_
  refine balanced_bind _ _ (balanced_ecPut _ _) fun st => ?_
  refine balanced_ite _ _ (balanced_pure _) ?_
  refine balanced_bind _ _ (balanced_addEntry _ _ _) fun n => ?_
  exact balanced_ite _ _ (balanced_pure _) (balanced_pure _)

end Balanced

section Unlink

variable {σ : Type} (u : Uninit) (serve : Inum → (o : ExtentCall) → σ → o.Answer × σ)

/-- The calls of an `unlink` that gets to the end: the name is found, both reads and both writes
    succeed, and the name is bound to a file. The calls are made one after another, each on the
    state that the one before has left. -/
def UnlinkLeaks (parent : Inum) (name : Bytes) (s : σ) : Prop :=
  let first := serve parent .get s
  let second := serve parent .get first.2
  let target := unlinkTarget u second.1.2 name
  let wrote := serve parent (.put (removeEntry second.1.2 target.1 name)) second.2
  let freed := serve target.2 (.put []) wrote.2
  (first.1.1 = .ok ∧ (findEntry first.1.2 name).isSome = true) ∧ second.1.1 = .ok ∧
    isdir target.2 = false ∧ wrote.1 = .ok ∧ freed.1 = .ok

def Op.Leaks (s : σ) : Op → Prop
  | .unlink parent name => UnlinkLeaks u serve parent name s
  | _ => False

/-- The locks of a caller that had `held`, at each way out of `unlink`. The proof goes through the
    program from the top; a way out before the file's lock is taken leaves the locks as they were,
    and so does the one on which the file cannot be emptied. -/
theorem unlink_held_iff (parent : Inum) (name : Bytes) (held : Finset Inum) (s : σ)
    (r : YfsStatus × Finset Inum × σ)
    (h : (unlink u parent name).runLocked serve held s = some r) :
    r.2.1 = held ↔ ¬ UnlinkLeaks u serve parent name s := by
  rw [unlink, runLocked_withLock] at h
  split at h
  · exact absurd h (by simp only [reduceCtorEq, not_false_eq_true])
  rename_i hparent
  have hkept : (insert parent held).erase parent = held := Finset.erase_insert hparent
  rcases Option.map_eq_some_iff.mp h with ⟨q, hq, rfl⟩
  clear h
  rw [runLocked_bind, runLocked_isExist, Option.bind_some] at hq
  simp only [UnlinkLeaks]
  generalize serve parent .get s = first at hq ⊢
  by_cases hname : first.1.1 = .ok ∧ (findEntry first.1.2 name).isSome = true
  swap
  · -- There is no such name.
    simp only [hname, decide_false, Bool.not_false, if_true, runLocked_pure,
      Option.some.injEq] at hq
    simp only [← hq, hkept, hname, false_and, not_false_eq_true]
  simp only [hname, and_self, decide_true, Bool.not_true, Bool.false_eq_true, if_false,
    true_and, runLocked_bind, runLocked_ecGet, Option.bind_some, ite_not] at hq ⊢
  generalize serve parent .get first.2 = second at hq ⊢
  generalize unlinkTarget u second.1.2 name = target at hq ⊢
  split at hq
  swap
  · -- The directory cannot be read.
    rename_i hget
    cases hq
    simp only [hkept, hget, false_and, not_false_eq_true]
  rename_i hget
  split at hq
  · -- The name is a directory.
    rename_i hdir
    cases hq
    simp only [hkept, hdir, Bool.true_eq_false, false_and, and_false, not_false_eq_true]
  rename_i hfile
  rw [runLocked_bind, runLocked_ecPut, Option.bind_some] at hq
  generalize serve parent (.put (removeEntry second.1.2 target.1 name)) second.2 = wrote at hq ⊢
  split at hq
  swap
  · -- The entry cannot be taken out.
    rename_i hput
    cases hq
    simp only [hkept, hput, false_and, and_false, not_false_eq_true]
  rename_i hput
  change wrote.1 = .ok at hput
  rw [runLocked_bind, runLocked_lock] at hq
  split at hq
  · -- The caller has the lock of the file already, and the acquire does not return.
    exact absurd hq (by simp only [Option.bind_none, reduceCtorEq, not_false_eq_true])
  rename_i htarget
  rw [Option.bind_some, runLocked_bind, runLocked_ecPut, Option.bind_some] at hq
  generalize serve target.2 (.put []) wrote.2 = freed at hq ⊢
  split at hq
  · -- All the way through: the file's lock is not among those the caller came with.
    rename_i hfree
    change freed.1 = .ok at hfree
    cases hq
    rw [Finset.mem_insert, not_or] at htarget
    have hmem : target.2 ∈ (insert target.2 (insert parent held)).erase parent :=
      Finset.mem_erase.mpr ⟨htarget.1, Finset.mem_insert_self _ _⟩
    simp only [hget, hfile, hput, hfree, and_self, not_true_eq_false, iff_false]
    intro heq
    rw [heq] at hmem
    exact htarget.2 hmem
  · -- The file cannot be emptied, and its lock is given back.
    rename_i hfree
    cases hq
    simp only [Finset.erase_insert htarget, hkept, hfree, and_false, not_false_eq_true]

/-- The operations other than `unlink` keep the balance whatever the calls answer: they are built of
    brackets, calls and branches, and each of these keeps it. -/
theorem balanced_prog (op : Op) (hop : ∀ parent name, op ≠ .unlink parent name) :
    Balanced (op.prog u) := by
  -- The result is only wrapped, so each case is the lemma of its operation.
  cases op with
  | getfile inum => exact balanced_bind _ _ (balanced_getfile _) fun _ => balanced_pure _
  | getdir inum => exact balanced_bind _ _ (balanced_getdir _) fun _ => balanced_pure _
  | create parent name newInum =>
      exact balanced_bind _ _ (balanced_create _ _ _) fun _ => balanced_pure _
  | lookup parent name => exact balanced_bind _ _ (balanced_lookup _ _ _) fun _ => balanced_pure _
  | readdir parent => exact balanced_bind _ _ (balanced_readdir _) fun _ => balanced_pure _
  | updatesize inum newSize =>
      exact balanced_bind _ _ (balanced_updatesize _ _) fun _ => balanced_pure _
  | read inum size off => exact balanced_bind _ _ (balanced_read _ _ _) fun _ => balanced_pure _
  | write inum buf size off =>
      exact balanced_bind _ _ (balanced_write _ _ _ _) fun _ => balanced_pure _
  | mymkdir parent name dirInum =>
      exact balanced_bind _ _ (balanced_mymkdir _ _ _) fun _ => balanced_pure _
  | unlink parent name => exact absurd rfl (hop parent name)

/-- An operation that returns has given back exactly the locks it took, unless it is an `unlink`
    that gets to the end. This is for every server behind the calls and for every thread, whatever
    locks it has already. -/
theorem held_kept_iff (op : Op) (held : Finset Inum) (s : σ) (r : Result × Finset Inum × σ)
    (h : (op.prog u).runLocked serve held s = some r) :
    r.2.1 = held ↔ ¬ op.Leaks u serve s := by
  -- All operations but `unlink` are settled by the brackets.
  by_cases hop : ∀ parent name, op ≠ .unlink parent name
  · have hkept := balanced_prog u op hop σ serve held s r h
    cases op with
    | unlink parent name => exact absurd rfl (hop parent name)
    | _ => exact iff_of_true hkept not_false
  · push Not at hop
    rcases hop with ⟨parent, name, rfl⟩
    rw [Op.prog, runLocked_bind] at h
    rcases Option.bind_eq_some_iff.mp h with ⟨q, hq, hr⟩
    cases hr
    exact unlink_held_iff u serve parent name held s q hq

end Unlink

/-- `getfile` of the root on a new server, by a thread that holds lock 7. -/
theorem held_kept_getfile :
    ∃ r, ((Op.getfile 1).prog ⟨0, 0⟩).runLocked (Direct.serve fun _ => 0) {7}
        ⟨ExtentServer.new 0, 0⟩ = some r ∧
      (r.2.1 = {7} ↔ ¬ (Op.getfile 1).Leaks ⟨0, 0⟩ (Direct.serve fun _ => 0)
        ⟨ExtentServer.new 0, 0⟩) :=
  ⟨_, rfl, held_kept_iff ⟨0, 0⟩ _ (.getfile 1) {7} _ _ rfl⟩

/-- A root directory with one file in it, under the name `f`. -/
def oneFile : Direct :=
  (((Op.create 1 [102] 0x80000000).prog ⟨0, 0⟩).run (Direct.serve fun _ => 0)
    ⟨ExtentServer.new 0, 0⟩).2

/-- Unlinking that file succeeds, and its lock is still held. -/
theorem unlink_keeps_lock :
    (((Op.unlink 1 [102]).prog ⟨0, 0⟩).runLocked (Direct.serve fun _ => 0) ∅ oneFile).map
      (fun r => (r.1, r.2.1)) = some (.status .ok, {0x80000000}) := by
  decide +kernel

end Yfs
