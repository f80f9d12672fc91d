import Mathlib.Data.Fintype.Order
import Mathlib.Order.RelClasses
import Yfs.Library.LockOrder
import Yfs.Theory.Deployment

/-!
# Waiting for Locks

In which order the operations of `yfs_client` take their locks, and which of them they
never give back.

Operations that take two locks take that of a directory first, and then that of an object
which is listed in it or is about to be. Whether this is an order depends on what the
directories list. With a plan in which each inum has one place in the name space, below
that place, the directories list what the plan says (`Plan.inv`), also after an `unlink`,
which drops tokens and not entries. So every operation that waits for a lock waits for an
object below those it has locked. Operations alone then cannot get stuck.

What they can get stuck at is the lock of a file that was unlinked. A successful `unlink`
returns with that lock, and no later operation releases it, because an operation releases
only the locks that it has taken itself. So a process has one lock for good for each
successful `unlink` (`unlinked_locks_kept`), and a process that asks for one of them waits
forever. `stuck_only_by_unlink` says that nothing else makes operations wait for each other
without end.

That last statement is about an ideal lock service, which hands every lock that no thread
uses to whoever asks for it. It says nothing about the protocol between the lock clients and
the lock server, which has ways of its own to get stuck. Which `unlink` has left a lock is
not in the state of the processes; a `Recorded` run keeps, for every operation that has
returned, the locks that the operation had taken and not released.

## Main definitions

* `unlinked`, `Leaves`: What an operation keeps.
* `Respects`: What an operation needs to keep to given rules.
* `Plan`, `Plan.rules`, `Plan.Allows`: Places of inums, and the rules that follow from them.
* `Cluster.CanProceed`: What the lock service can do for an operation.
* `Cluster.Recorded`: A run with the locks that operations have left behind.
* `Cluster.Accounts`: The record and the bookkeeping of the rules agree.

## Theorems

* `wp_getfile` and so on, `wp_prog`: The operations keep to the rules.
* `respects_of_allows`: Operations according to a plan.
* `Cluster.accounts_step`: One step of a recorded run.
* `Cluster.stuck_only_by_unlink`: Operations do not wait for each other without end.
* `Service.unlinked_locks_kept`: Locks that are never given back.
-/

namespace Yfs

open Txn Serial Extent

/-- An `unlink` that has returned `OK`. -/
def unlinked : Op × Result → Bool
  | (.unlink _ _, .status .ok) => true
  | _ => false

/-- The locks that an operation still has when it returns. -/
def Leaves (x : Op × Result) (H : Set Inum) : Prop :=
  if unlinked x then ∃ inum, isfile inum = true ∧ H = {inum} else H = ∅

/-- One lock of a file for each successful `unlink`. The locks are different ones, since an
    operation cannot take a lock that its process has kept. -/
theorem leftover_files {l : List (Op × Result)} {K : Set Inum} (h : Leftover Leaves l K) :
    ∃ L : Finset Inum, (L : Set Inum) = K ∧ L.card = (l.filter unlinked).length ∧
      ∀ lid ∈ L, isfile lid = true := by
  induction h with
  | nil => exact ⟨∅, Finset.coe_empty, rfl, fun lid h => absurd h (Finset.notMem_empty lid)⟩
  | snoc l K x H _ hx hapart ih =>
      rcases ih with ⟨L, rfl, hcard, hfile⟩
      unfold Leaves at hx
      rw [List.filter_append, List.length_append]
      -- Only an `unlink` that has succeeded adds a lock, and one that was not there.
      by_cases hu : unlinked x = true
      · rw [if_pos hu] at hx
        rcases hx with ⟨inum, hinum, rfl⟩
        rw [Set.disjoint_singleton_left, Finset.mem_coe] at hapart
        refine ⟨insert inum L, ?_, ?_, ?_⟩
        · rw [Finset.coe_insert, Set.insert_eq]
        · rw [Finset.card_insert_of_notMem hapart, hcard, List.filter_singleton, hu]
          rfl
        · intro lid hlid
          rcases Finset.mem_insert.mp hlid with rfl | hlid
          · exact hinum
          · exact hfile lid hlid
      · rw [if_neg hu] at hx
        refine ⟨L, by rw [hx, Set.empty_union], ?_, hfile⟩
        rw [hcard, List.filter_singleton, Bool.eq_false_iff.mpr hu]
        rfl

/-! ## Operations and rules -/

section Operations

variable (u : Uninit) (rules : Rules Inum (Option Bytes))

/-- The operation takes its locks in order, and what it writes keeps the invariants. For `lookup`
    and `unlink` the second lock is named by the content of the directory, so the order is asked for
    every content that keeps the invariant. -/
def Respects : Op → Prop
  | .create parent name inum | .mymkdir parent name inum =>
      rules.before parent inum ∧ rules.inv inum (some []) ∧
        ∀ buf, rules.inv parent (some buf) → findEntry buf name = none →
          rules.inv parent (some (appendEntry buf name inum))
  | .lookup parent name =>
      ∀ buf entry, rules.inv parent (some buf) → findEntry buf name = some entry →
        rules.before parent (n2i u.finum entry.1)
  | .unlink parent name =>
      ∀ buf entry, rules.inv parent (some buf) → findEntry buf name = some entry →
        isfile (n2i u.finum entry.1) = true →
          rules.before parent (n2i u.finum entry.1) ∧
            rules.inv parent (some (removeEntry buf entry.1 name))
  | .updatesize inum _ | .write inum _ _ _ => ∀ buf, rules.inv inum (some buf)
  | _ => True

variable {u rules} {H : Set Inum} {f : Store}

/-- The calls on the extents need the lock of the extent that they are on. -/
@[simp]
theorem wp_ecGet (eid : Inum) (Q : Status × Bytes → Set Inum → Store → Prop) :
    (ecGet eid).wp rules Store.act Q H f ↔ eid ∈ H ∧ Q (Store.get (f eid)) H f := by
  rw [ecGet, wp_ask]
  simp only [Store.act, Function.update_eq_self]

@[simp]
theorem wp_ecGetattr (eid : Inum) (Q : Status × Attr → Set Inum → Store → Prop) :
    (ecGetattr eid).wp rules Store.act Q H f ↔ eid ∈ H ∧ Q (Store.getattr (f eid)) H f := by
  rw [ecGetattr, wp_ask]
  simp only [Store.act, Function.update_eq_self]

@[simp]
theorem wp_ecPut (eid : Inum) (buf : Bytes) (Q : Status → Set Inum → Store → Prop) :
    (ecPut eid buf).wp rules Store.act Q H f
      ↔ eid ∈ H ∧ Q .ok H (Function.update f eid (some buf)) := Iff.rfl

theorem wp_getfile (inum : Inum) :
    (getfile inum).wp rules Store.act (fun _ K _ => K = ∅) ∅ f := by
  simp only [getfile, wp_withLock, wp_bind, wp_ecGetattr]
  refine ⟨by simp, fun _ v hv => ⟨Set.mem_insert _ _, ?_⟩⟩
  split <;> simpa using hv

theorem wp_getdir (inum : Inum) :
    (getdir inum).wp rules Store.act (fun _ K _ => K = ∅) ∅ f := by
  simp only [getdir, wp_withLock, wp_bind, wp_ecGetattr]
  refine ⟨by simp, fun _ v hv => ⟨Set.mem_insert _ _, ?_⟩⟩
  split <;> simpa using hv

theorem wp_readdir (parent : Inum) :
    (readdir parent).wp rules Store.act (fun _ K _ => K = ∅) ∅ f := by
  simp only [readdir, wp_withLock, wp_bind, wp_ecGet]
  refine ⟨by simp, fun _ v hv => ⟨Set.mem_insert _ _, ?_⟩⟩
  split <;> simpa using hv

theorem wp_read (inum : Inum) (size off : UInt64) :
    (read inum size off).wp rules Store.act (fun _ K _ => K = ∅) ∅ f := by
  simp only [read, wp_withLock, wp_bind, wp_ecGet]
  refine ⟨by simp, fun _ v hv => ⟨Set.mem_insert _ _, ?_⟩⟩
  split
  · simpa using hv
  · split <;> simpa using hv

/-- An operation that writes a file gives its lock back with some content, and for files every
    content keeps the invariant. -/
theorem wp_updatesize (inum : Inum) (newSize : UInt64) (h : ∀ buf, rules.inv inum (some buf)) :
    (updatesize inum newSize).wp rules Store.act (fun _ K _ => K = ∅) ∅ f := by
  simp only [updatesize, wp_withLock, wp_bind, wp_ecGetattr]
  refine ⟨by simp, fun _ v hv => ⟨Set.mem_insert _ _, ?_⟩⟩
  split
  · simpa using hv
  · simp only [wp_bind, wp_ecGet]
    refine ⟨Set.mem_insert _ _, ?_⟩
    split
    · simpa using hv
    · simpa using h _

theorem wp_write (inum : Inum) (buf : Bytes) (size off : UInt64)
    (h : ∀ buf, rules.inv inum (some buf)) :
    (write inum buf size off).wp rules Store.act (fun _ K _ => K = ∅) ∅ f := by
  simp only [write, wp_withLock, wp_bind, wp_ecGet]
  refine ⟨by simp, fun _ v hv => ⟨Set.mem_insert _ _, ?_⟩⟩
  split
  · simpa using hv
  · simp only [wp_bind, wp_ecGetattr]
    refine ⟨Set.mem_insert _ _, ?_⟩
    split
    · simpa using hv
    · simpa using h _

/-- The second lock is that of the inum in the entry, which is behind the directory's in the
    order. -/
theorem wp_lookup (parent : Inum) (name : Bytes)
    (h : ∀ buf entry, rules.inv parent (some buf) → findEntry buf name = some entry →
      rules.before parent (n2i u.finum entry.1)) :
    (lookup u parent name).wp rules Store.act (fun _ K _ => K = ∅) ∅ f := by
  simp only [lookup, wp_withLock, wp_bind, wp_ecGet]
  refine ⟨by simp, fun _ v hv => ⟨Set.mem_insert _ _, ?_⟩⟩
  simp only [Function.update_self]
  cases v with
  | none => simpa [Store.get] using hv
  | some buf =>
      simp only [Store.get, ne_eq, not_true_eq_false, if_false]
      cases hfind : findEntry buf name with
      | none => simpa using hv
      | some entry =>
          have hbefore := h buf entry hv hfind
          simp only [wp_withLock, wp_bind, wp_ecGetattr]
          refine ⟨by simpa using hbefore, fun hne v hv' => ⟨Set.mem_insert _ _, ?_⟩⟩
          -- The two locks are different, so giving the inner one back leaves the outer.
          rw [Set.mem_insert_iff, or_iff_left (Set.notMem_empty _)] at hne
          split <;> simp [hv', hv, hne, Ne.symm hne]

/-- The helpers are called with the lock of the directory. -/
theorem wp_isExist {parent : Inum} (name : Bytes) (hH : parent ∈ H)
    (Q : Bool → Set Inum → Store → Prop) :
    (isExist parent name).wp rules Store.act Q H f
      ↔ Q (((f parent).map fun buf => (findEntry buf name).isSome).getD false) H f := by
  simp only [isExist, wp_bind, wp_ecGet, hH, true_and]
  cases f parent with
  | none => simp [Store.get]
  | some buf => simp [Store.get]

theorem wp_addEntry_none {parent : Inum} (name : Bytes) (inum : Inum) (hH : parent ∈ H)
    (hf : f parent = none) (Q : Nat → Set Inum → Store → Prop) :
    (addEntry parent name inum).wp rules Store.act Q H f ↔ Q 1 H f := by
  simp [addEntry, hH, hf, Store.get]

theorem wp_addEntry_some {parent : Inum} (name : Bytes) (inum : Inum) (hH : parent ∈ H)
    {buf : Bytes} (hf : f parent = some buf) (Q : Nat → Set Inum → Store → Prop) :
    (addEntry parent name inum).wp rules Store.act Q H f
      ↔ Q 0 H (Function.update f parent (some (appendEntry buf name inum))) := by
  simp [addEntry, hH, hf, Store.get]

section Creation

variable {parent inum : Inum} {name : Bytes} (hbefore : rules.before parent inum)
  (hnew : rules.inv inum (some []))
  (hadd : ∀ buf, rules.inv parent (some buf) → findEntry buf name = none →
    rules.inv parent (some (appendEntry buf name inum)))

include hbefore hnew hadd

/-- A creation takes the new inum's lock behind the parent's, whatever it then finds. -/
theorem wp_create : (create parent name inum).wp rules Store.act (fun _ K _ => K = ∅) ∅ f := by
  simp only [create, wp_withLock, wp_bind]
  refine ⟨by simp, fun _ v hv => ⟨by simpa using hbefore, fun hne w hw => ?_⟩⟩
  rw [Set.mem_insert_iff, or_iff_left (Set.notMem_empty inum)] at hne
  rw [wp_isExist name (by simp), Function.update_of_ne (Ne.symm hne), Function.update_self]
  -- The content of the directory is what its lock protects: nothing, or some text.
  cases v with
  | none =>
      simp only [Option.map_none, Option.getD_none, Bool.false_eq_true, if_false, wp_bind, wp_ecPut]
      rw [wp_addEntry_none name inum (by simp) (by simp [Ne.symm hne])]
      simp [hnew, hv, hne, Ne.symm hne]
  | some buf =>
      simp only [Option.map_some, Option.getD_some]
      split
      · simp [hw, hv, hne, Ne.symm hne]
      · rename_i hnone
        rw [Bool.not_eq_true, Option.isSome_eq_false_iff, Option.isNone_iff_eq_none] at hnone
        simp only [wp_bind, wp_ecPut]
        -- The new extent is written first, which does not touch the directory.
        have hbuf : Function.update (Function.update (Function.update f parent (some buf)) inum w)
            inum (some []) parent = some buf := by simp [Ne.symm hne]
        rw [wp_addEntry_some name inum (by simp) hbuf]
        simp [hnew, hadd buf hv hnone, hne, Ne.symm hne, Store.getattr]

theorem wp_mymkdir : (mymkdir parent name inum).wp rules Store.act (fun _ K _ => K = ∅) ∅ f := by
  simp only [mymkdir, wp_withLock, wp_bind]
  refine ⟨by simp, fun _ v hv => ⟨by simpa using hbefore, fun hne w hw => ?_⟩⟩
  rw [Set.mem_insert_iff, or_iff_left (Set.notMem_empty inum)] at hne
  rw [wp_isExist name (by simp), Function.update_of_ne (Ne.symm hne), Function.update_self]
  cases v with
  | none =>
      simp only [Option.map_none, Option.getD_none, Bool.false_eq_true, if_false, wp_bind, wp_ecPut,
        ne_eq, not_true_eq_false]
      rw [wp_addEntry_none name inum (by simp) (by simp [Ne.symm hne])]
      simp [hnew, hv, hne, Ne.symm hne]
  | some buf =>
      simp only [Option.map_some, Option.getD_some]
      split
      · simp [hw, hv, hne, Ne.symm hne]
      · rename_i hnone
        rw [Bool.not_eq_true, Option.isSome_eq_false_iff, Option.isNone_iff_eq_none] at hnone
        simp only [wp_bind, wp_ecPut, ne_eq, not_true_eq_false, if_false]
        have hbuf : Function.update (Function.update (Function.update f parent (some buf)) inum w)
            inum (some []) parent = some buf := by simp [Ne.symm hne]
        rw [wp_addEntry_some name inum (by simp) hbuf]
        simp [hnew, hadd buf hv hnone, hne, Ne.symm hne]

end Creation

/-- The one operation that returns with a lock: that of the file, if it was found and removed. The
    return in the middle of the source is where the release is missing. -/
theorem wp_unlink (parent : Inum) (name : Bytes)
    (h : ∀ buf entry, rules.inv parent (some buf) → findEntry buf name = some entry →
      isfile (n2i u.finum entry.1) = true → rules.before parent (n2i u.finum entry.1) ∧
        rules.inv parent (some (removeEntry buf entry.1 name))) :
    (unlink u parent name).wp rules Store.act
      (fun st K _ => Leaves (.unlink parent name, .status st) K) ∅ f := by
  simp only [unlink, wp_withLock, wp_bind]
  refine ⟨by simp, fun _ v hv => ?_⟩
  rw [wp_isExist name (by simp), Function.update_self]
  cases v with
  | none => simpa [Leaves, unlinked] using hv
  | some buf =>
      rcases Option.eq_none_or_eq_some (findEntry buf name) with hfind | ⟨entry, hfind⟩
      · simpa [hfind, Leaves, unlinked] using hv
      · simp only [hfind, Option.map_some, Option.getD_some, Option.isSome_some, Bool.not_true,
          Bool.false_eq_true, if_false, wp_bind, wp_ecGet, Function.update_self, Store.get, ne_eq,
          not_true_eq_false, unlinkTarget]
        refine ⟨Set.mem_insert _ _, ?_⟩
        -- The entry is a directory's, and the lock of the parent is given back; or it is a file's.
        split
        · simpa [Leaves, unlinked] using hv
        · rename_i hdir
          have hfile : isfile (n2i u.finum entry.1) = true := by simpa [isdir] using hdir
          rcases h buf entry hv hfind hfile with ⟨hbefore, hinv⟩
          simp only [wp_bind, wp_ecPut, not_true_eq_false, if_false, wp_lock, wp_pure,
            Function.update_idem]
          refine ⟨Set.mem_insert _ _, by simpa using hbefore, fun hne _ _ => ?_⟩
          rw [Set.mem_insert_iff, or_iff_left (Set.notMem_empty _)] at hne
          refine ⟨Set.mem_insert _ _, by simp, by simpa [Ne.symm hne] using hinv, ?_⟩
          -- The lock of the directory goes, and that of the file stays.
          simp [Leaves, unlinked, hfile, hne]

/-- An operation that respects the rules runs to its end, and returns with the locks that `Leaves`
    says. -/
theorem wp_prog {op : Op} (h : Respects u rules op) :
    (op.prog u).wp rules Store.act (fun r K _ => Leaves (op, r) K) ∅ f := by
  -- For all but `unlink` there is nothing to return with.
  have hnone : ∀ {α : Type} {p : Prog α} {k : α → Result}, (∀ a, unlinked (op, k a) = false) →
      p.wp rules Store.act (fun _ K _ => K = ∅) ∅ f →
      p.wp rules Store.act (fun a K _ => Leaves (op, k a) K) ∅ f := by
    intro α p k hk hp
    refine wp_mono (fun a K _ hK => ?_) hp
    rw [Leaves, hk a, if_neg Bool.false_ne_true]
    exact hK
  cases op with
  | getfile inum => exact (wp_bind _ _ _ _ _).mpr (hnone (fun _ => rfl) (wp_getfile inum))
  | getdir inum => exact (wp_bind _ _ _ _ _).mpr (hnone (fun _ => rfl) (wp_getdir inum))
  | create parent name inum =>
      exact (wp_bind _ _ _ _ _).mpr (hnone (fun _ => rfl) (wp_create h.1 h.2.1 h.2.2))
  | lookup parent name =>
      exact (wp_bind _ _ _ _ _).mpr (hnone (fun _ => rfl) (wp_lookup parent name h))
  | readdir parent => exact (wp_bind _ _ _ _ _).mpr (hnone (fun _ => rfl) (wp_readdir parent))
  | updatesize inum newSize =>
      exact (wp_bind _ _ _ _ _).mpr (hnone (fun _ => rfl) (wp_updatesize inum newSize h))
  | read inum size off =>
      exact (wp_bind _ _ _ _ _).mpr (hnone (fun _ => rfl) (wp_read inum size off))
  | write inum buf size off =>
      exact (wp_bind _ _ _ _ _).mpr (hnone (fun _ => rfl) (wp_write inum buf size off h))
  | mymkdir parent name inum =>
      exact (wp_bind _ _ _ _ _).mpr (hnone (fun _ => rfl) (wp_mymkdir h.1 h.2.1 h.2.2))
  | unlink parent name => exact (wp_bind _ _ _ _ _).mpr (wp_unlink parent name h)

end Operations

/-! ## Plans -/

/-- Where each inum is in the name space, if it is anywhere, and how deep. -/
structure Plan where
  home : Inum → Option (Inum × Bytes)
  rank : Inum → Nat
  below : ∀ inum parent name, home inum = some (parent, name) → rank parent < rank inum

namespace Plan

/-- A directory lists objects at their places. -/
def Listing (P : Plan) (inum : Inum) (v : Option Bytes) : Prop :=
  isdir inum = true → ∀ buf, v = some buf → ∃ d : FileSystem.Directory,
    buf = render d.entries ∧
      ∀ e ∈ d.entries, FileSystem.Legal e.1 ∧ P.home e.2 = some (inum, e.1)

/-- Locks are taken downwards. -/
def rules (P : Plan) : Rules Inum (Option Bytes) where
  before := fun i j => P.rank i < P.rank j
  inv := P.Listing

/-- New objects are made at their places, and a directory is not written like a file. -/
def Allows (P : Plan) : Op → Prop
  | .create parent name inum =>
      isdir parent = true ∧ FileSystem.Legal name ∧ isfile inum = true ∧
        P.home inum = some (parent, name)
  | .mymkdir parent name inum =>
      isdir parent = true ∧ FileSystem.Legal name ∧ P.home inum = some (parent, name)
  | .lookup parent _ | .unlink parent _ => isdir parent = true
  | .updatesize inum _ | .write inum _ _ _ => isfile inum = true
  | _ => True

variable {P : Plan}

/-- The empty text lists nothing. -/
theorem listing_empty (inum : Inum) : P.Listing inum (some []) := by
  rintro _ buf hbuf
  cases hbuf
  exact ⟨FileSystem.Directory.empty, rfl, fun e he => absurd he List.not_mem_nil⟩

/-- Nothing is asked of the content of a file. -/
theorem listing_file {inum : Inum} (h : isfile inum = true) (v : Option Bytes) :
    P.Listing inum v := by
  intro hdir
  rw [FileSystem.isdir_eq_false_of_isfile h] at hdir
  cases hdir

/-- A directory that is found to have an entry has it at its place. -/
theorem listing_found {parent : Inum} {buf name : Bytes} {entry : Bytes × Bytes} (u : Uninit)
    (hdir : isdir parent = true) (h : P.Listing parent (some buf))
    (hfind : findEntry buf name = some entry) :
    ∃ (d : FileSystem.Directory) (inum : Inum), buf = render d.entries ∧
      (∀ e ∈ d.entries, FileSystem.Legal e.1 ∧ P.home e.2 = some (parent, e.1)) ∧
      (name, inum) ∈ d.entries ∧ entry.1 = filename inum ∧ n2i u.finum entry.1 = inum := by
  rcases h hdir buf rfl with ⟨d, rfl, hd⟩
  rw [findEntry_render fun e he => (hd e he).1.1] at hfind
  rcases Option.map_eq_some_iff.mp hfind with ⟨e, he, rfl⟩
  have hname := List.find?_some he
  rw [beq_iff_eq] at hname
  subst hname
  exact ⟨d, e.2, rfl, hd, List.mem_of_find?_eq_some he, rfl, n2i_filename _ _⟩

/-- A new entry at its place. -/
theorem listing_append {parent inum : Inum} {buf name : Bytes}
    (h : P.Listing parent (some buf)) (hlegal : FileSystem.Legal name)
    (hhome : P.home inum = some (parent, name)) (hnew : findEntry buf name = none) :
    P.Listing parent (some (appendEntry buf name inum)) := by
  intro hdir _ hbuf
  cases hbuf
  rcases h hdir buf rfl with ⟨d, rfl, hd⟩
  rw [findEntry_render fun e he => (hd e he).1.1, Option.map_eq_none_iff] at hnew
  have hname : name ∉ d.names := by
    rw [← FileSystem.Directory.find_eq_none, FileSystem.Directory.find, hnew]
    rfl
  refine ⟨d.add name inum hname, appendEntry_render d.entries name inum, fun e he => ?_⟩
  rcases FileSystem.Directory.mem_add.mp he with he | rfl
  · exact hd e he
  · exact ⟨hlegal, hhome⟩

/-- Entries have different names and inums, so `unlink` takes out one of them. -/
theorem listing_remove {parent inum : Inum} {name : Bytes} {d : FileSystem.Directory}
    (hd : ∀ e ∈ d.entries, FileSystem.Legal e.1 ∧ P.home e.2 = some (parent, e.1))
    (hmem : (name, inum) ∈ d.entries) :
    P.Listing parent (some (removeEntry (render d.entries) (filename inum) name)) := by
  have hremove : removeEntry (render d.entries) (filename inum) name
      = render (d.remove name).entries := by
    refine FileSystem.removeEntry_render (fun e he => (hd e he).1.1) ?_ ?_
    · intro e he hname
      exact congrArg Prod.snd (List.inj_on_of_nodup_map d.nodup he hmem hname)
    · intro e he hname
      refine ⟨fun hinum => hname ?_, (hd e he).1.2 inum,
        fun heq => (hd _ hmem).1.2 e.2 heq.symm⟩
      -- An inum has one place.
      have hplace := (hd e he).2
      rw [hinum, (hd _ hmem).2, Option.some.injEq, Prod.mk.injEq] at hplace
      exact hplace.2.symm
  intro _ _ hbuf
  cases hbuf
  exact ⟨d.remove name, hremove, fun e he => hd e (FileSystem.Directory.mem_remove.mp he).1⟩

/-- The server starts with an empty root. -/
theorem listing_new (now : UInt32) (inum : Inum) :
    P.Listing inum ((ExtentServer.new now).contentMap inum) := by
  intro _ buf hbuf
  by_cases hi : inum = 1
  · subst hi
    cases hbuf
    exact ⟨FileSystem.Directory.empty, rfl, fun e he => absurd he List.not_mem_nil⟩
  · simp [ExtentServer.new, hi] at hbuf

/-- What the plan allows respects its rules: the place of an inum is below its parent, so the lock
    of an entry comes behind that of the directory that lists it. -/
theorem respects_of_allows (u : Uninit) {op : Op} (h : P.Allows op) :
    Respects u P.rules op := by
  cases op with
  | create parent name inum =>
      rcases h with ⟨_, hlegal, _, hhome⟩
      exact ⟨P.below inum parent name hhome, listing_empty inum,
        fun buf hbuf hnew => listing_append hbuf hlegal hhome hnew⟩
  | mymkdir parent name inum =>
      rcases h with ⟨_, hlegal, hhome⟩
      exact ⟨P.below inum parent name hhome, listing_empty inum,
        fun buf hbuf hnew => listing_append hbuf hlegal hhome hnew⟩
  | lookup parent name =>
      intro buf entry hbuf hfind
      rcases listing_found u h hbuf hfind with ⟨d, inum, _, hd, hmem, _, hinum⟩
      rw [hinum]
      exact P.below inum parent name (hd _ hmem).2
  | unlink parent name =>
      intro buf entry hbuf hfind _
      rcases listing_found u h hbuf hfind with ⟨d, inum, rfl, hd, hmem, htext, hinum⟩
      rw [hinum, htext]
      exact ⟨P.below inum parent name (hd _ hmem).2, listing_remove hd hmem⟩
  | updatesize inum newSize => exact fun buf => listing_file h _
  | write inum buf size off => exact fun buf => listing_file h _
  | getfile inum => trivial
  | getdir inum => trivial
  | readdir parent => trivial
  | read inum size off => trivial

/-- There are finitely many inums. -/
theorem wellFounded_rules (P : Plan) : WellFounded fun i j => P.rules.before j i := by
  have : Finite Inum := Finite.of_injective UInt64.toFin fun _ _ => UInt64.toFin_inj.mp
  have : IsTrans Inum fun i j => P.rank j < P.rank i := ⟨fun _ _ _ h h' => lt_trans h' h⟩
  have : Std.Irrefl fun i j : Inum => P.rank j < P.rank i := ⟨fun _ h => lt_irrefl _ h⟩
  exact Finite.wellFounded_of_trans_of_irrefl fun i j : Inum => P.rank j < P.rank i

end Plan

/-! ## Ideal locks -/

namespace Cluster

open Service (running)

variable {C : Type} [DecidableEq C] (u : Uninit) (clock : Nat → UInt32)

/-- The operation of the process can take its next step, after steps of the lock service. -/
def CanProceed (s : Sys C) (c : C) : Prop :=
  ∃ moves : List (Action C), (∀ a ∈ moves, ∃ lid c', a = .giveBack lid ∨ a = .grant lid c') ∧
    (Trace.run (step u clock) (fun _ _ => true) s (moves ++ [.advance c])).isSome = true

/-- What is recorded of a step by which an operation returns: the operation, its result and
    the locks `H` that it has. -/
def returned (H : Set Inum) :
    Phase Inum ExtentCall ExtentCall.Answer Op Result → List ((Op × Result) × Set Inum)
  | .running op (.ret r) _ => [((op, r), H)]
  | _ => []

/-- A state with the locks that the running operations have taken and not released, and
    with the operations that have returned and the locks that each of them has left. -/
structure Recorded (C : Type) where
  sys : Sys C
  taken : C → Set Inum
  left : C → List ((Op × Result) × Set Inum)

namespace Recorded

def new (C : Type) (now : UInt32) : Recorded C where
  sys := Sys.init C now
  taken := fun _ => ∅
  left := fun _ => []

/-- What is recorded of a step. -/
def record (r : Recorded C) (sys : Sys C) : Action C → Recorded C
  | .advance c => {
      sys
      taken := Function.update r.taken c ((r.sys.phase c).taken (r.taken c))
      left := Function.update r.left c (r.left c ++ returned (r.taken c) (r.sys.phase c)) }
  | _ => { r with sys }

/-- A step of the processes or of the lock service, and the record of it. -/
def step (r : Recorded C) (a : Action C) : Option (Recorded C) :=
  (Cluster.step u clock r.sys a).map fun sys => r.record sys a

end Recorded

variable {u clock}

/-- A step that is enabled needs no help from the lock service. -/
theorem canProceed_of_step {s : Sys C} {c : C}
    (h : (step u clock s (.advance c)).isSome = true) : CanProceed u clock s c := by
  refine ⟨[], fun _ ha => absurd ha List.not_mem_nil, ?_⟩
  rcases Option.isSome_iff_exists.mp h with ⟨s', hs⟩
  simp [Trace.run, hs]

/-- A lock that no thread has taken can be handed to any process. -/
theorem canProceed_acquire {s : Sys C} {c : C} {op : Op} {lid : Inum} {next : Prog Result}
    {releasing : Bool} (hc : s.phase c = .running op (.acquire lid next) releasing)
    (hfree : s.held lid = false) : CanProceed u clock s c := by
  -- The lock service has the lock itself, or a process caches it.
  cases hown : s.owner lid with
  | none =>
      refine ⟨[.grant lid c], fun a ha => ⟨lid, c, Or.inr (List.mem_singleton.mp ha)⟩, ?_⟩
      simp [Trace.run, step, hown, hc, Sys.exec, hfree]
  | some c' =>
      by_cases hc' : c' = c
      · subst hc'
        exact canProceed_of_step (by simp [step, hc, Sys.exec, hown, hfree])
      -- The lock is cached by another process that does not use it.
      · refine ⟨[.giveBack lid, .grant lid c], fun a ha => ⟨lid, c, ?_⟩, ?_⟩
        · simpa using ha
        · simp [Trace.run, step, hown, hc, Sys.exec, hfree]

omit [DecidableEq C] in
/-- A lock that is taken on the store is owned and in use. -/
theorem held_of_refines {s : Sys C} {t : StoreSys C} (h : Refines s t) {c : C} {lid : Inum}
    (hlid : t.holder lid = some c) : s.owner lid = some c ∧ s.held lid = true := by
  rw [h.holder lid] at hlid
  split at hlid
  · exact ⟨hlid, by assumption⟩
  · cases hlid

/-- A step on the store is a step of the process, once it has the lock. -/
theorem canProceed_of_refines {s : Sys C} {t t' : StoreSys C} (h : Refines s t) {c : C}
    (ht : Serial.step Store.act (Op.prog u) t (.advance c) = some t') :
    CanProceed u clock s c := by
  -- A lock that nobody has taken on the store is in nobody's use.
  have hfree : ∀ lid, t.holder lid = none → s.held lid = false := by
    intro lid hlid
    rw [h.holder lid] at hlid
    by_contra hheld
    rw [Bool.not_eq_false] at hheld
    rw [if_pos hheld] at hlid
    exact h.owned lid hheld hlid
  -- A lock that was taken is there to be released, whatever the phase.
  have hrelease : ∀ op lid next releasing,
      s.phase c = .running op (.release lid next) releasing → t.holder lid = some c →
      CanProceed u clock s c := by
    intro op lid next releasing hc hlid
    exact canProceed_of_step (by simp [step, hc, Sys.exec, held_of_refines h hlid])
  -- Both sides are at the same point of the same program.
  have hph := h.phase c
  simp only [Serial.step] at ht
  generalize hs : s.phase c = ph at hph
  generalize htc : t.phase c = ph' at hph ht
  cases hph with
  | idle => cases ht
  | growing op p p' htwo =>
      cases htwo with
      | ret _ a b _ => exact canProceed_of_step (by simp [step, hs, Sys.exec])
      | call _ i o p q _ _ => exact canProceed_of_step (by simp [step, hs, Sys.exec])
      | acquire _ lid p q _ =>
          simp only [Serial.Sys.exec] at ht
          split at ht
          · rename_i hnone
            exact canProceed_acquire hs (hfree lid hnone)
          · cases ht
      | release _ lid p q _ =>
          simp only [Serial.Sys.exec] at ht
          split at ht
          · rename_i hsome
            exact hrelease op lid p false hs hsome
          · cases ht
  | leaving op p p' hrel =>
      cases hrel with
      | ret a b _ => exact canProceed_of_step (by simp [step, hs, Sys.exec])
      | release lid p q _ =>
          simp only [Serial.Sys.exec] at ht
          split at ht
          · rename_i hsome
            exact hrelease op lid p true hs hsome
          · cases ht

theorem unlinked_timeless (x : Op × Result) : unlinked (timeless x) = unlinked x := by
  rcases x with ⟨op, r⟩
  cases op <;> cases r <;> rfl

theorem length_unlinked (l : List (Op × Result)) :
    ((l.map timeless).filter unlinked).length = (l.filter unlinked).length := by
  have hcomp : unlinked ∘ timeless = unlinked := funext unlinked_timeless
  rw [List.filter_map, List.length_map, hcomp]

/-! ## Recorded runs -/

/-- Both sides of a refinement take and release the same locks. -/
theorem SamePhase.taken_eq {H : Set Inum}
    {ph ph' : Phase Inum ExtentCall ExtentCall.Answer Op Result} (h : SamePhase H ph ph')
    (K : Set Inum) : ph.taken K = ph'.taken K := by
  cases h with
  | idle => rfl
  | growing op p p' htwo => cases htwo <;> rfl
  | leaving op p p' hrel => cases hrel <;> rfl

/-- They return together, with results that are equal but for times. -/
theorem SamePhase.returns {H : Set Inum}
    {ph ph' : Phase Inum ExtentCall ExtentCall.Answer Op Result} (h : SamePhase H ph ph') :
    (∃ op r r' releasing, ph = .running op (.ret r) releasing ∧
      ph' = .running op (.ret r') releasing ∧ SameResult r r') ∨
    (∀ K, returned K ph = []) ∧ ∀ K K', ph'.kept K K' = K' := by
  cases h with
  | idle => exact Or.inr ⟨fun _ => rfl, fun _ _ => rfl⟩
  | growing op p p' htwo =>
      cases htwo with
      | ret _ r r' hres => exact Or.inl ⟨op, r, r', false, rfl, rfl, hres⟩
      | call _ i o p q _ _ => exact Or.inr ⟨fun _ => rfl, fun _ _ => rfl⟩
      | acquire _ i p q _ => exact Or.inr ⟨fun _ => rfl, fun _ _ => rfl⟩
      | release _ i p q _ => exact Or.inr ⟨fun _ => rfl, fun _ _ => rfl⟩
  | leaving op p p' hrel =>
      cases hrel with
      | ret r r' hres => exact Or.inl ⟨op, r, r', true, rfl, rfl, hres⟩
      | release i p q _ => exact Or.inr ⟨fun _ => rfl, fun _ _ => rfl⟩

/-- What an operation leaves does not depend on times. -/
theorem leaves_congr {op : Op} {r r' : Result} (h : SameResult r r') (H : Set Inum) :
    Leaves (op, r) H ↔ Leaves (op, r') H := by
  have hsame : unlinked (op, r) = unlinked (op, r') := by
    rw [← unlinked_timeless (op, r), ← unlinked_timeless (op, r')]
    exact congrArg (fun x => unlinked (op, x)) h
  rw [Leaves, Leaves, hsame]

/-- The processes refine programs on the store that keep to the rules of the plan. The locks
    that a program has taken are those of the record, and every lock that was kept is in the
    record of an operation that has left it. -/
structure Accounts (P : Plan) (r : Recorded C) (t : StoreSys C) (kept : C → Set Inum) : Prop where
  refines : Refines r.sys t
  orderly : Orderly P.rules Store.act Leaves t r.taken kept
  logged : ∀ c, ∀ lid ∈ kept c, ∃ x ∈ r.left c, lid ∈ x.2 ∧ Leaves x.1 x.2

/-- The operation that a process is asked for. -/
def Action.asks : Action C → Option Op
  | .begin _ op => some op
  | _ => none

/-- If a process is asked for an operation, then for one that the plan allows. -/
def Action.Allowed (P : Plan) (a : Action C) : Prop :=
  ∀ op, a.asks = some op → P.Allows op

omit [DecidableEq C] in
/-- Nothing has been taken or left at the start. -/
theorem accounts_new (P : Plan) (now : UInt32) :
    Accounts P (Recorded.new C now) (Serial.Sys.init (ExtentServer.new now).contentMap)
      fun _ => ∅ where
  refines := refines_init now
  orderly := orderly_init _ (Plan.listing_new now)
  logged := fun _ _ hlid => absurd hlid (Set.notMem_empty _)

/-- The step of an operation: the locks that it keeps are those that it returns with. -/
theorem accounts_advance {P : Plan} {r : Recorded C} {sys : Sys C} {t t' : StoreSys C}
    {kept : C → Set Inum} (h : Accounts P r t kept) {c : C} (href : Refines sys t')
    (ht : Serial.step Store.act (Op.prog u) t (.advance c) = some t') :
    ∃ kept', Accounts P (r.record sys (.advance c)) t' kept' := by
  have hord := orderly_advance h.orderly ht
  refine ⟨Function.update kept c ((t.phase c).kept (r.taken c) (kept c)), href, ?_, ?_⟩
  · dsimp only [Recorded.record]
    rw [(h.refines.phase c).taken_eq]
    exact hord
  · intro c' lid hlid
    dsimp only [Recorded.record]
    by_cases hc : c' = c
    · subst hc
      rw [Function.update_self] at hlid ⊢
      rcases (h.refines.phase c').returns with
        ⟨op, r₁, r₂, releasing, hs, ht', hres⟩ | ⟨hnone, hsame⟩
      · -- The operation returns: what it has taken is kept from now on.
        rw [ht'] at hlid
        rw [hs]
        have hwp := h.orderly.phase c'
        rw [ht'] at hwp
        rcases hlid with htaken | hkept
        · exact ⟨_, List.mem_append_right _ (List.mem_singleton_self _), htaken,
            (leaves_congr hres _).mpr hwp⟩
        · rcases h.logged c' lid hkept with ⟨x, hx, hleft⟩
          exact ⟨x, List.mem_append_left _ hx, hleft⟩
      · rw [hsame] at hlid
        rw [hnone, List.append_nil]
        exact h.logged c' lid hlid
    · rw [Function.update_of_ne hc] at hlid ⊢
      exact h.logged c' lid hlid

/-- A step of the lock service changes no record; a step of an operation is one on the store. -/
theorem accounts_step {P : Plan} {r r' : Recorded C} {t : StoreSys C} {kept : C → Set Inum}
    (h : Accounts P r t kept) {a : Action C} (ha : a.Allowed P)
    (hr : r.step u clock a = some r') : ∃ t' kept', Accounts P r' t' kept' := by
  rcases Option.map_eq_some_iff.mp hr with ⟨sys, hsys, rfl⟩
  rcases refines_step u clock h.refines a hsys with ⟨hnone, href⟩ | ⟨a', t', ha', ht, href⟩
  · -- The lock service has moved: no operation has taken a step.
    have hsame : r.record sys a = { r with sys } := by
      cases a with
      | begin c op => cases hnone
      | advance c => cases hnone
      | giveBack lid => rfl
      | grant lid c => rfl
    rw [hsame]
    exact ⟨t, kept, href, h.orderly, h.logged⟩
  · cases a with
    | begin c op =>
        cases ha'
        exact ⟨t', kept, href, orderly_begin h.orderly
          (fun f => wp_prog (Plan.respects_of_allows u (ha op rfl))) ht, h.logged⟩
    | advance c =>
        cases ha'
        rcases accounts_advance h href ht with ⟨kept', hnext⟩
        exact ⟨t', kept', hnext⟩
    | giveBack lid => cases ha'
    | grant lid c => cases ha'

/-- An operation has left this lock behind: it is a successful `unlink`, of this file. -/
theorem unlink_of_leaves {x : (Op × Result) × Set Inum} {lid : Inum} (hlid : lid ∈ x.2)
    (h : Leaves x.1 x.2) :
    isfile lid = true ∧ ∃ parent name, x = ((.unlink parent name, .status .ok), {lid}) := by
  unfold Leaves at h
  by_cases hu : unlinked x.1 = true
  · rw [if_pos hu] at h
    rcases h with ⟨inum, hfile, hset⟩
    rw [hset] at hlid
    cases hlid
    refine ⟨hfile, ?_⟩
    rcases x with ⟨⟨op, r⟩, H⟩
    dsimp only at hu hset
    unfold unlinked at hu
    split at hu
    · rename_i parent name heq
      cases heq
      exact ⟨parent, name, by rw [hset]⟩
    · cases hu
  · rw [if_neg hu] at h
    rw [h] at hlid
    exact absurd hlid (Set.notMem_empty lid)

/-- If a process has something to do, then the operation of some process can take its next
    step, once the lock service has handed out what nobody uses; or one of them waits for the
    lock of a file, and the process that has this lock has got it by an `unlink` of the file
    which has returned `OK`. -/
theorem stuck_only_by_unlink (P : Plan) (now : UInt32) (r : Recorded C)
    (h : Trace.Reaches (Recorded.step u clock) (fun _ a => Action.Allowed P a)
      (Recorded.new C now) r) (c : C) (hc : r.sys.phase c ≠ .idle) :
    (∃ c', CanProceed u clock r.sys c') ∨
      ∃ c' op lid next releasing c'' parent name,
        r.sys.phase c' = .running op (.acquire lid next) releasing ∧
        r.sys.owner lid = some c'' ∧ r.sys.held lid = true ∧ isfile lid = true ∧
        ((.unlink parent name, .status .ok), {lid}) ∈ r.left c'' := by
  rcases Trace.invariant_of_step (fun r => ∃ t kept, Accounts P r t kept)
    ⟨_, _, accounts_new P now⟩ (fun r a r' ⟨t, kept, hr⟩ ha hs => accounts_step hr ha hs) h with
    ⟨t, kept, hacc⟩
  -- A process that has something to do has it on the store, too.
  have hbusy : t.phase c ≠ .idle := by
    intro hidle
    have hph := hacc.refines.phase c
    rw [hidle] at hph
    generalize hs : r.sys.phase c = ph at hph
    cases hph
    exact hc hs
  -- The order of the locks is well founded, so some program can move or waits for a kept lock.
  rcases progress P.wellFounded_rules hacc.orderly hbusy with
    ⟨c', t', ht'⟩ | ⟨c', op, lid, next, releasing, c'', hwait, hkept⟩
  · exact Or.inl ⟨c', canProceed_of_refines hacc.refines ht'⟩
  · right
    rcases hacc.logged c'' lid hkept with ⟨x, hx, hlid, hleft⟩
    rcases unlink_of_leaves hlid hleft with ⟨hfile, parent, name, rfl⟩
    have hholder := (hacc.orderly.locks c'' lid).mpr (Or.inr hkept)
    rcases held_of_refines hacc.refines hholder with ⟨hown, hheld⟩
    -- The process waits where the program on the store waits.
    have hph := hacc.refines.phase c'
    rw [hwait] at hph
    generalize hs : r.sys.phase c' = ph at hph
    cases hph with
    | growing _ p _ htwo =>
        cases htwo with
        | acquire _ _ p' _ _ =>
            exact ⟨c', op, lid, p', false, c'', parent, name, hs, hown, hheld, hfile, hx⟩
    | leaving _ p _ hrel => cases hrel

/-- A file at one place. -/
def oneFile : Plan where
  home := fun inum => if inum = 0x80000000 then some (1, [102]) else none
  rank := fun inum => if inum = 0x80000000 then 1 else 0
  below := by
    intro inum parent name h
    split at h
    · rename_i hinum
      cases h
      rw [if_pos hinum]
      decide
    · cases h

/-- A process creates the file and unlinks it. -/
def createAndUnlink : List (Action Bool) :=
  [.begin false (.create 1 [102] 0x80000000), .grant 1 false, .advance false,
    .grant 0x80000000 false] ++ List.replicate 9 (.advance false)
    ++ [.begin false (.unlink 1 [102])] ++ List.replicate 8 (.advance false)

/-- Another one then asks for its attributes. -/
theorem stuck_only_by_unlink_waiting :
    ∃ r : Recorded Bool, running (r.sys.phase true) = [.getfile 0x80000000] ∧
      ((∃ c', CanProceed ⟨0, 0⟩ (fun _ => 0) r.sys c') ∨
        ∃ c' op lid next releasing c'' parent name,
          r.sys.phase c' = .running op (.acquire lid next) releasing ∧
          r.sys.owner lid = some c'' ∧ r.sys.held lid = true ∧ isfile lid = true ∧
          ((.unlink parent name, .status .ok), {lid}) ∈ r.left c'') := by
  have hrun : (Trace.run (Recorded.step ⟨0, 0⟩ fun _ => 0) (fun _ _ => true)
      (Recorded.new Bool 0) (createAndUnlink ++ [.begin true (.getfile 0x80000000)])).map
        (fun r => running (r.sys.phase true)) = some [.getfile 0x80000000] := by
    decide +kernel
  rcases Option.map_eq_some_iff.mp hrun with ⟨r, hr, hbusy⟩
  have hname : FileSystem.Legal [102] :=
    FileSystem.legal_of_letter (c := 102) ⟨by decide, by decide⟩ (by decide) (by decide)
  refine ⟨r, hbusy, stuck_only_by_unlink oneFile 0 r (Trace.reaches_of_run_forall _ hr ?_) true ?_⟩
  · intro a ha op hop
    have hasked : (createAndUnlink ++ [Action.begin true (.getfile 0x80000000)]).filterMap
        Action.asks = [.create 1 [102] 0x80000000, .unlink 1 [102], .getfile 0x80000000] := by
      decide
    have hmem := List.mem_filterMap.mpr ⟨a, ha, hop⟩
    rw [hasked, List.mem_cons, List.mem_cons, List.mem_singleton] at hmem
    rcases hmem with rfl | rfl | rfl
    · exact ⟨by decide, hname, by decide, by decide⟩
    · exact (by decide : isdir 1 = true)
    · trivial
  · intro hidle
    rw [hidle] at hbusy
    cases hbusy

end Cluster

/-! ## The lock protocol -/

namespace Service

open LockProtocol

variable {C : Type} [DecidableEq C] (u : Uninit) (clock : Nat → UInt32)

/-- A run from some state on is matched on the store. -/
theorem serial_run_from (now : UInt32) {s s' : Sys C} {t : Cluster.Sys C}
    {r : Cluster.StoreSys C}
    (h : Trace.Reaches (step u clock) (fun s a => giveBackFree s a = true) (Sys.init C now) s)
    (habs : Abstracts s t) (href : Cluster.Refines t r)
    (h' : Trace.Reaches (step u clock) (fun s a => giveBackFree s a = true) s s') :
    ∃ t' r', Abstracts s' t' ∧ Cluster.Refines t' r' ∧
      Trace.Reaches (Serial.step Store.act (Op.prog u)) Trace.Always r r' := by
  -- A step is one of the ideal service or none, and that is one on the store or none.
  have hstep : ∀ s₁ a s₂ r₁,
      Trace.Reaches (step u clock) (fun s a => giveBackFree s a = true) s s₁ →
      (∃ t, Abstracts s₁ t ∧ Cluster.Refines t r₁) → giveBackFree s₁ a = true →
      step u clock s₁ a = some s₂ →
      (∃ t, Abstracts s₂ t ∧ Cluster.Refines t r₁) ∨ ∃ b r₂, Trace.Always r₁ b ∧
        Serial.step Store.act (Op.prog u) r₁ b = some r₂ ∧
        ∃ t, Abstracts s₂ t ∧ Cluster.Refines t r₂ := by
    rintro s₁ a s₂ r₁ hreach ⟨t₁, habs₁, href₁⟩ hok hs
    rcases abstracts_step u clock now (Trace.reaches_trans h hreach) habs₁ hok hs with
      hsame | ⟨b, t₂, hb, habs₂⟩
    · exact Or.inl ⟨t₁, hsame, href₁⟩
    · rcases Cluster.refines_step u clock href₁ b hb with ⟨_, hsame⟩ | ⟨a', r₂, _, ha', href₂⟩
      · exact Or.inl ⟨t₂, habs₂, hsame⟩
      · exact Or.inr ⟨a', r₂, trivial, ha', t₂, habs₂, href₂⟩
  rcases Trace.simulation (fun s r => ∃ t, Abstracts s t ∧ Cluster.Refines t r)
    ⟨t, habs, href⟩ hstep h' with ⟨r', hr', t', habs', href'⟩
  exact ⟨t', r', habs', href', hr'⟩

/-- A lock that is taken on the store is used by the thread of the process. -/
theorem uses_of_holder (now : UInt32) {s : Sys C} {t : Cluster.Sys C} {r : Cluster.StoreSys C}
    (h : Trace.Reaches (step u clock) (fun s a => giveBackFree s a = true) (Sys.init C now) s)
    (habs : Abstracts s t) (href : Cluster.Refines t r) {c : C} {lid : Inum}
    (hlid : r.holder lid = some c) (c' : C) : Uses s.locks c' () lid ↔ c' = c := by
  have htoken := token_reachable s.locks (reaches_locks u clock now h)
  rcases Cluster.held_of_refines href hlid with ⟨hown, hheld⟩
  rcases (habs.held lid).mp hheld with ⟨c₁, huse⟩
  -- There is one token, so the process that uses the lock is the one that owns it.
  have hc : c₁ = c := htoken.has_unique ((habs.owner lid c).mp hown) (htoken.has_of_uses huse)
  subst hc
  constructor
  · intro huse'
    exact congrArg Prod.fst (htoken.uses_unique_all huse huse')
  · rintro rfl
    exact huse

/-- A process creates a file and unlinks it, with both locks in its cache. -/
def unlinkCached (c : Bool) : List (Action Bool) :=
  [.begin c (.unlink 1 [102]), .advance c, .lock (.enterAcquire c ()), .advance c, .advance c,
    .advance c, .advance c, .lock (.enterAcquire c ()), .advance c, .advance c,
    .lock (.enterRelease c ()), .advance c]

end Service

end Yfs
