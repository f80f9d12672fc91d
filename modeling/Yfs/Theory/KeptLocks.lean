import Yfs.Core.FuseServer
import Yfs.Theory.FileSystemRefinement

/-!
# The Locks That a Process Keeps

An `unlink` that succeeds does not give back the lock of the file it has freed. What this means
for the operations that the same process performs later.

The file is in no directory any more, and nothing puts it into one again: a creation uses a new
inum. So a process that goes by names does not come across it, and gets all the locks it asks
for. What is left are the operations that are called with the inum of a file, as the kernel does
for a file that is open: those on the freed file wait for their own process, and never return.

`call_returns` says this of one operation, by the file it is called on. That the locks are kept
apart from what the directories list is an invariant of the operations (`kept_exec`).

## Main definitions

* `Op.file`: The file that an operation is called on.
* `keeps`: The lock that an operation does not give back.
* `Kept`: Locks of files that no directory lists.

## Theorems

* `kept_exec`: One operation.
* `call_returns`: When an operation returns, and with which locks.
* `call_blocks`: When it does not, on any extents.
-/

namespace Yfs

/-- The file that an operation is called on. The others are called on a directory. -/
def Op.file : Op → Option Inum
  | .getfile inum => some inum
  | .updatesize inum _ => some inum
  | .read inum _ _ => some inum
  | .write inum _ _ _ => some inum
  | _ => none

namespace FileSystem

open Extent Txn

/-- The lock that an operation does not give back. -/
def keeps (fs : State) : Op → Finset Inum
  | .unlink parent name => match fs parent with
    | some (.dir d) => match d.find name with
      | some inum => if isdir inum then ∅ else {inum}
      | none => ∅
    | _ => ∅
  | _ => ∅

/-- Locks of files that are there and that no directory lists. -/
structure Kept (fs : State) (held : Finset Inum) : Prop where
  file : ∀ i ∈ held, isfile i = true
  present : ∀ i ∈ held, fs i ≠ none
  unlisted : ∀ i ∈ held, ∀ j e, Listed fs j e → e.2 ≠ i

variable {fs : State} {held : Finset Inum}

/-- A process that has kept nothing. -/
theorem kept_empty (fs : State) : Kept fs ∅ where
  file := fun _ hi => absurd hi (Finset.notMem_empty _)
  present := fun _ hi => absurd hi (Finset.notMem_empty _)
  unlisted := fun _ hi => absurd hi (Finset.notMem_empty _)

/-- An `unlink` takes away the only entry of the file, and adds none. -/
theorem listed_unlink (hfs : WellFormed fs) {parent inum : Inum} {d : Directory} {name : Bytes}
    (hdir : fs parent = some (.dir d)) (hfind : d.find name = some inum)
    (hfile : isfile inum = true) {j : Inum} {e : Bytes × Inum}
    (hl : Listed (Function.update (Function.update fs parent (some (.dir (d.remove name)))) inum
      (some (.file []))) j e) : Listed fs j e ∧ e.2 ≠ inum := by
  have hthis : Listed fs parent (name, inum) := ⟨d, hdir, Directory.mem_of_find hfind⟩
  rcases hfs.file_of_listed hthis hfile with ⟨c, hc⟩
  have hne : inum ≠ parent := by
    rintro rfl
    rw [hdir] at hc
    cases hc
  have hput := (listed_put (fun d' hd' => by
    rw [Function.update_of_ne hne, hc] at hd'
    cases hd') (fun d hd => by cases hd) j e).mp hl
  rcases (listed_dir parent _ j e).mp hput with ⟨hj, hold⟩ | ⟨rfl, he⟩
  -- In another directory the file is not listed, since it is listed once.
  · exact ⟨hold, fun heq => hj (hfs.once _ _ _ _ hold hthis heq).1⟩
  · rcases Directory.mem_remove.mp he with ⟨he, hname⟩
    have hold : Listed fs j e := ⟨d, hdir, he⟩
    exact ⟨hold, fun heq => hname (congrArg Prod.fst (hfs.once _ _ _ _ hold hthis heq).2)⟩

namespace Kept

/-- A directory's lock is not kept, and neither is that of a new object or of one that is listed. -/
theorem notMem_of_isdir (h : Kept fs held) {i : Inum} (hdir : isdir i = true) : i ∉ held := by
  intro hi
  rw [isdir_eq_false_of_isfile (h.file i hi)] at hdir
  cases hdir

theorem notMem_of_fresh (h : Kept fs held) {i : Inum} (hfresh : fs i = none) : i ∉ held :=
  fun hi => h.present i hi hfresh

theorem notMem_of_listed (h : Kept fs held) {j : Inum} {e : Bytes × Inum}
    (hl : Listed fs j e) : e.2 ∉ held :=
  fun hi => h.unlisted e.2 hi j e hl rfl

theorem union {held' : Finset Inum} (h : Kept fs held) (h' : Kept fs held') :
    Kept fs (held ∪ held') where
  file := fun i hi => (Finset.mem_union.mp hi).elim (h.file i) (h'.file i)
  present := fun i hi => (Finset.mem_union.mp hi).elim (h.present i) (h'.present i)
  unlisted := fun i hi => (Finset.mem_union.mp hi).elim (h.unlisted i) (h'.unlisted i)

/-- No object goes away, and what gets an entry is new. -/
theorem change {fs' : State} (h : Kept fs held) (hfs : WellFormed fs) (hc : Change fs fs') :
    Kept fs' held := by
  -- An update leaves an object where one was.
  have hmore : ∀ (fs : State) (j : Inum) (node : Node) i, fs i ≠ none →
      Function.update fs j (some node) i ≠ none := by
    intro fs j node i hi
    by_cases hij : i = j
    · rw [hij, Function.update_self]
      exact Option.some_ne_none _
    · rw [Function.update_of_ne hij]
      exact hi
  have hnone : ∀ {inum : Inum}, fs inum = none → ∀ d, fs inum ≠ some (.dir d) := by
    intro inum hfresh d hd
    rw [hfresh] at hd
    cases hd
  cases hc with
  | same => exact h
  | rewrite inum c c' hfile _ =>
      refine ⟨h.file, fun i hi => hmore _ _ _ i (h.present i hi), fun i hi j e hl => ?_⟩
      refine h.unlisted i hi j e ((listed_put ?_ ?_ j e).mp hl)
      · intro d hd
        rw [hfile] at hd
        cases hd
      · intro d hd
        cases hd
  | orphan inum node hfresh hleaf =>
      have hput := listed_put (hnone hfresh) hleaf.entries
      exact ⟨h.file, fun i hi => hmore _ _ _ i (h.present i hi),
        fun i hi j e hl => h.unlisted i hi j e ((hput j e).mp hl)⟩
  -- The new entry is for an object that did not exist, and what is kept does.
  | link parent d name inum node hfresh hleaf hdir hname _ =>
      have hput := listed_put (hnone hfresh) hleaf.entries
      refine ⟨h.file, fun i hi => hmore _ _ _ i (hmore _ _ _ i (h.present i hi)),
        fun i hi j e hl => ?_⟩
      rcases (listed_dir parent _ j e).mp hl with ⟨_, hl⟩ | ⟨_, he⟩
      · exact h.unlisted i hi j e ((hput j e).mp hl)
      · rcases Directory.mem_add.mp he with he | rfl
        · exact h.unlisted i hi parent e ⟨d, hdir, he⟩
        · rintro rfl
          exact h.present _ hi hfresh
  | unlink parent d name inum hdir hfind hfile =>
      exact ⟨h.file, fun i hi => hmore _ _ _ i (hmore _ _ _ i (h.present i hi)),
        fun i hi j e hl => h.unlisted i hi j e (listed_unlink hfs hdir hfind hfile hl).1⟩

end Kept

/-- The file that an `unlink` frees is in no directory afterwards. -/
theorem kept_keeps (hfs : WellFormed fs) (op : Op) : Kept (exec fs op).2 (keeps fs op) := by
  cases op with
  | unlink parent name =>
      rcases hdir : fs parent with _ | c | d
      · simp only [keeps, hdir]
        exact kept_empty _
      · simp only [keeps, hdir]
        exact kept_empty _
      · rcases hfind : d.find name with _ | inum
        · simp only [keeps, hdir, hfind]
          exact kept_empty _
        · by_cases hkind : isdir inum = true
          · simp only [keeps, hdir, hfind, if_pos hkind]
            exact kept_empty _
          · have hfile : isfile inum = true := by
              simpa only [isdir, Bool.not_eq_true', Bool.not_eq_false] using hkind
            simp only [exec, keeps, hdir, hfind, if_neg hkind]
            refine ⟨fun i hi => ?_, fun i hi => ?_, fun i hi j e hl => ?_⟩
            · rw [Finset.mem_singleton.mp hi]
              exact hfile
            · rw [Finset.mem_singleton.mp hi, Function.update_self]
              exact Option.some_ne_none _
            · rw [Finset.mem_singleton.mp hi]
              exact (listed_unlink hfs hdir hfind hfile hl).2
  | getfile inum => exact kept_empty _
  | getdir inum => exact kept_empty _
  | create parent name inum => exact kept_empty _
  | lookup parent name => exact kept_empty _
  | readdir parent => exact kept_empty _
  | updatesize inum newSize => exact kept_empty _
  | read inum size off => exact kept_empty _
  | write inum buf size off => exact kept_empty _
  | mymkdir parent name inum => exact kept_empty _

/-- What a process keeps stays apart from what the directories list. -/
theorem kept_exec (h : Kept fs held) (hfs : WellFormed fs) {op : Op} (hop : Proper op)
    (hfresh : ∀ inum, creates op = some inum → fs inum = none) :
    Kept (exec fs op).2 (held ∪ keeps fs op) :=
  (h.change hfs (change_exec hfs hop hfresh)).union (kept_keeps hfs op)

/-! ## One operation under its locks -/

section Any

variable {σ : Type} {serve : Inum → (o : ExtentCall) → σ → o.Answer × σ} {s : σ}

/-- The helpers take no locks. -/
theorem lockFree_isExist (parent : Inum) (name : Bytes) : (isExist parent name).LockFree :=
  (lockFree_ask _ _).bind fun _ => LockFree.ite (lockFree_pure _) (lockFree_pure _)

theorem lockFree_addEntry (parent : Inum) (name : Bytes) (newInum : Inum) :
    (addEntry parent name newInum).LockFree :=
  (lockFree_ask _ _).bind fun _ => LockFree.ite (lockFree_pure _)
    ((lockFree_ask _ _).bind fun _ => LockFree.ite (lockFree_pure _) (lockFree_pure _))

/-- One bracket around calls, whatever they answer. -/
theorem returns_getfile {inum : Inum} (hi : inum ∉ held) :
    Returns serve (getfile inum) held s held := by
  refine Returns.bracket (LockFree.returns ?_) hi
  exact (lockFree_ask _ _).bind fun _ => LockFree.ite (lockFree_pure _) (lockFree_pure _)

theorem returns_getdir {inum : Inum} (hi : inum ∉ held) :
    Returns serve (getdir inum) held s held := by
  refine Returns.bracket (LockFree.returns ?_) hi
  exact (lockFree_ask _ _).bind fun _ => LockFree.ite (lockFree_pure _) (lockFree_pure _)

theorem returns_readdir {parent : Inum} (hi : parent ∉ held) :
    Returns serve (readdir parent) held s held := by
  refine Returns.bracket (LockFree.returns ?_) hi
  exact (lockFree_ask _ _).bind fun _ => LockFree.ite (lockFree_pure _) (lockFree_pure _)

theorem returns_read {inum : Inum} (size off : UInt64) (hi : inum ∉ held) :
    Returns serve (read inum size off) held s held := by
  refine Returns.bracket (LockFree.returns ?_) hi
  refine (lockFree_ask _ _).bind fun _ => LockFree.ite (lockFree_pure _) ?_
  exact LockFree.ite (lockFree_pure _) (lockFree_pure _)

/-- Three calls, and a way out after each. -/
theorem returns_updatesize {inum : Inum} (newSize : UInt64) (hi : inum ∉ held) :
    Returns serve (updatesize inum newSize) held s held := by
  refine Returns.bracket (LockFree.returns ?_) hi
  refine (lockFree_ask _ _).bind fun _ => LockFree.ite (lockFree_pure _) ?_
  refine (lockFree_ask _ _).bind fun _ => LockFree.ite (lockFree_pure _) ?_
  exact (lockFree_ask _ _).bind fun _ => LockFree.ite (lockFree_pure _) (lockFree_pure _)

theorem returns_write {inum : Inum} (buf : Bytes) (size off : UInt64) (hi : inum ∉ held) :
    Returns serve (write inum buf size off) held s held := by
  refine Returns.bracket (LockFree.returns ?_) hi
  refine (lockFree_ask _ _).bind fun _ => LockFree.ite (lockFree_pure _) ?_
  refine (lockFree_ask _ _).bind fun _ => LockFree.ite (lockFree_pure _) ?_
  exact (lockFree_ask _ _).bind fun _ => LockFree.ite (lockFree_pure _) (lockFree_pure _)

/-- A creation takes the lock of the new object under that of the directory. -/
theorem returns_creation {α : Type} {p : Prog α} (hp : p.LockFree) {parent inum : Inum}
    (hne : inum ≠ parent) (hparent : parent ∉ held) (hinum : inum ∉ held) :
    Returns serve (withLock parent (withLock inum p)) held s held := by
  refine Returns.bracket (Returns.bracket hp.returns ?_) hparent
  rw [Finset.mem_insert, not_or]
  exact ⟨hne, hinum⟩

/-- The way in has two locks, and each way out gives both back. -/
theorem returns_create {parent inum : Inum} (name : Bytes) (hne : inum ≠ parent)
    (hparent : parent ∉ held) (hinum : inum ∉ held) :
    Returns serve (create parent name inum) held s held := by
  refine returns_creation ?_ hne hparent hinum
  refine (lockFree_isExist _ _).bind fun _ => LockFree.ite (lockFree_pure _) ?_
  refine (lockFree_ask _ _).bind fun _ => (lockFree_addEntry _ _ _).bind fun _ => ?_
  refine LockFree.ite (lockFree_pure _) ((lockFree_ask _ _).bind fun _ => ?_)
  exact LockFree.ite (lockFree_pure _) (lockFree_pure _)

theorem returns_mymkdir {parent inum : Inum} (name : Bytes) (hne : inum ≠ parent)
    (hparent : parent ∉ held) (hinum : inum ∉ held) :
    Returns serve (mymkdir parent name inum) held s held := by
  refine returns_creation ?_ hne hparent hinum
  refine (lockFree_isExist _ _).bind fun _ => LockFree.ite (lockFree_pure _) ?_
  refine (lockFree_ask _ _).bind fun _ => LockFree.ite (lockFree_pure _) ?_
  refine (lockFree_addEntry _ _ _).bind fun _ => ?_
  exact LockFree.ite (lockFree_pure _) (lockFree_pure _)

/-- An operation that is called on a file whose lock its caller has. -/
theorem call_blocks (u : Uninit) {op : Op} {inum : Inum} (hop : op.file = some inum)
    (hi : inum ∈ held) : (op.call u).runLocked serve held s = none := by
  -- The first thing that each of these operations does is to take the lock.
  have hlock : ∀ (α : Type) (p : Prog α), (withLock inum p).runLocked serve held s = none := by
    intro α p
    rw [runLocked_withLock, if_pos hi]
  cases op with
  | getfile i =>
      cases hop
      exact hlock _ _
  | updatesize i newSize =>
      cases hop
      rw [Op.call, runLocked_bind, updatesize, hlock]
      rfl
  | read i size off =>
      cases hop
      exact hlock _ _
  | write i buf size off =>
      cases hop
      rw [Op.call, runLocked_bind, write, hlock]
      rfl
  | getdir i => cases hop
  | create parent name i => cases hop
  | lookup parent name => cases hop
  | readdir parent => cases hop
  | mymkdir parent name i => cases hop
  | unlink parent name => cases hop

end Any

section OnStore

variable (u : Uninit) {f : Store} (h : Represents f fs) (hfs : WellFormed fs)
  (hkept : Kept fs held)

include hfs hkept in
/-- A child may be locked under its directory: it is listed, so it was not kept, and it is not the
    directory itself. -/
theorem notMem_child {parent : Inum} {e : Bytes × Inum} (hl : Listed fs parent e) :
    e.2 ∉ insert parent held := by
  rw [Finset.mem_insert, not_or]
  refine ⟨?_, hkept.notMem_of_listed hl⟩
  rintro rfl
  exact hfs.acyclic e.2 (Relation.TransGen.single ⟨e.1, hl⟩)

include h hfs hkept

/-- The child that is found is listed, so its lock is not kept. -/
theorem returns_lookup {parent : Inum} (name : Bytes) (hdir : isdir parent = true) :
    Returns Store.serve (lookup u parent name) held f held := by
  refine Returns.bracket (Returns.bind (lockFree_ask _ _).returns ?_) (hkept.notMem_of_isdir hdir)
  change Returns Store.serve _ _ f _
  rcases hn : fs parent with _ | c | d
  · simp only [ecGet, run_ask, Store.serve, Store.get, h.none hn]
    exact returns_pure _
  · exact absurd hn (hfs.not_file hdir)
  -- The scan of the tokens finds what the directory has under the name.
  · have hfind := findEntry_dir hfs hn name
    simp only [ecGet, run_ask, Store.serve, Store.get, h.dir hn, hfind]
    rcases hd : d.find name with _ | inum
    · exact returns_pure _
    · have hl : Listed fs parent (name, inum) := ⟨d, hn, Directory.mem_of_find hd⟩
      simp only [Option.map_some, n2i_filename]
      refine Returns.bracket (LockFree.returns ?_) (notMem_child hfs hkept hl)
      exact (lockFree_ask _ _).bind fun _ => LockFree.ite (lockFree_pure _) (lockFree_pure _)

/-- An `unlink` that succeeds is left with the lock of the file. The cases are those of the source:
    no directory, no entry, a directory under the name, and a file. -/
theorem returns_unlink {parent : Inum} (name : Bytes) (hdir : isdir parent = true) :
    Returns Store.serve (unlink u parent name) held f (held ∪ keeps fs (.unlink parent name)) := by
  have hparent := hkept.notMem_of_isdir hdir
  rcases hn : fs parent with _ | c | d
  · simp only [keeps, hn, Finset.union_empty]
    refine Returns.bracket (Returns.bind (lockFree_isExist _ _).returns ?_) hparent
    rw [run_isExist_none (h.none hn)]
    exact returns_pure _
  · exact absurd hn (hfs.not_file hdir)
  · have hsome := h.dir hn
    have hfind := findEntry_dir hfs hn name
    rcases hd : d.find name with _ | inum
    · rw [hd] at hfind
      simp only [keeps, hn, hd, Finset.union_empty]
      refine Returns.bracket (Returns.bind (lockFree_isExist _ _).returns ?_) hparent
      rw [run_isExist_some hsome, hfind]
      exact returns_pure _
    · rw [hd] at hfind
      have hl : Listed fs parent (name, inum) := ⟨d, hn, Directory.mem_of_find hd⟩
      have htarget : unlinkTarget u (render d.entries) name = (filename inum, inum) := by
        simp only [unlinkTarget, hfind, Option.map_some, n2i_filename]
      by_cases hkind : isdir inum = true
      · simp only [keeps, hn, hd, if_pos hkind, Finset.union_empty]
        refine Returns.bracket (Returns.bind (lockFree_isExist _ _).returns ?_) hparent
        rw [run_isExist_some hsome, hfind]
        refine Returns.bind (lockFree_ask _ _).returns ?_
        simp only [ecGet, run_ask, Store.serve, Store.get, hsome, htarget, hkind]
        exact returns_pure _
      · simp only [keeps, hn, hd, if_neg hkind]
        -- The directory's lock is given back, and the file's is left.
        have hleft : (insert inum (insert parent held)).erase parent = held ∪ {inum} := by
          have hne : inum ≠ parent := fun heq =>
            notMem_child hfs hkept hl (heq ▸ Finset.mem_insert_self parent held)
          rw [Finset.erase_insert_of_ne hne, Finset.erase_insert hparent, Finset.insert_eq,
            Finset.union_comm]
        rw [← hleft]
        refine Returns.withLock (Returns.bind (lockFree_isExist _ _).returns ?_) hparent
        rw [run_isExist_some hsome, hfind]
        refine Returns.bind (lockFree_ask _ _).returns ?_
        simp only [ecGet, run_ask, Store.serve, Store.get, hsome, htarget, hkind]
        refine Returns.bind (lockFree_ask _ _).returns ?_
        refine Returns.bind (returns_lock (notMem_child hfs hkept hl)) ?_
        refine Returns.bind (lockFree_ask _ _).returns ?_
        exact returns_pure _

/-- An operation returns unless it is called on a file whose lock was kept. Directories are never
    unlinked, new objects have no lock yet, and what is listed was not unlinked. -/
theorem call_returns {op : Op} (hop : Proper op)
    (hfresh : ∀ inum, creates op = some inum → fs inum = none)
    (hfree : ∀ inum, op.file = some inum → inum ∉ held) :
    Returns Store.serve (op.call u) held f (held ∪ keeps fs op) := by
  -- All but one of the operations keep nothing.
  have hnothing : ∀ p : Prog (YfsStatus × op.Out), keeps fs op = ∅ →
      Returns Store.serve p held f held → Returns Store.serve p held f (held ∪ keeps fs op) := by
    intro p hnone hp
    rw [hnone, Finset.union_empty]
    exact hp
  have hdir : ∀ {i : Inum}, isdir i = true → i ∉ held := hkept.notMem_of_isdir
  cases op with
  | getfile inum => exact hnothing _ rfl (returns_getfile (hfree inum rfl))
  | getdir inum => exact hnothing _ rfl (returns_getdir (hdir hop))
  -- The inums of a file and of a directory are different.
  | create parent name inum =>
      have hne : inum ≠ parent := by
        rintro rfl
        have hkind := hop.1
        rw [isdir_eq_false_of_isfile hop.2.2] at hkind
        cases hkind
      exact hnothing _ rfl (returns_create name hne (hdir hop.1)
        (hkept.notMem_of_fresh (hfresh inum rfl)))
  | lookup parent name => exact hnothing _ rfl (returns_lookup u h hfs hkept name hop)
  | readdir parent => exact hnothing _ rfl (returns_readdir (hdir hop))
  | updatesize inum newSize =>
      exact hnothing _ rfl ((returns_updatesize newSize (hfree inum rfl)).bind (returns_pure _))
  | read inum size off => exact hnothing _ rfl (returns_read size off (hfree inum rfl))
  | write inum buf size off =>
      exact hnothing _ rfl ((returns_write buf size off (hfree inum rfl)).bind (returns_pure _))
  | mymkdir parent name inum =>
      exact hnothing _ rfl ((returns_mymkdir name hop.2.2.2 (hdir hop.1)
        (hkept.notMem_of_fresh (hfresh inum rfl))).bind (returns_pure _))
  | unlink parent name => exact (returns_unlink u h hfs hkept name hop).bind (returns_pure _)

end OnStore

end FileSystem

end Yfs
