import Mathlib.Logic.Relation
import Yfs.Core.YfsClient
import Yfs.Library.Overwrite
import Yfs.Theory.DirectoryFormat
import Yfs.Theory.FileContent

/-!
# The File System the Operations Are About

Files with a content and directories with entries, named by inums, and what each operation
does to them in these terms. There are no extents here, no tokens and no numerals in the
content of a directory; what the operations do to those is in `Yfs.Core.YfsClient`.

Where the source does not do what an operation of its name does, the model does what the
source does. A write to an empty file does not look at its offset. `unlink` empties the
file it unlinks and leaves it there, unlisted. A creation under a parent that does not
exist fails and leaves the new object behind.

`Proper` says what the operations are called with: inums of the right kind, names that are
one token and not a numeral, and positions that fit 32 bits. With new inums that nothing
uses, the name space stays a forest.

## Main definitions

* `Directory`, `Node`, `State`: Directories, whose names are distinct, files, and all of
  them.
* `exec`, `execAll`: The operations.
* `Proper`: Arguments that the operations are made for.
* `Child`, `WellFormed`: The name space, and its invariant.

## Theorems

* `exists_of_exec`: Only a creation makes a new object.
* `not_cycle_of_leaf`: A new leaf closes no cycle.
* `wellFormed_exec`, `wellFormed_execAll`: The operations keep the name space a forest.
-/

namespace Yfs

namespace FileSystem

open Overwrite

/-! ## Objects -/

/-- Entries in the order in which they were made. -/
structure Directory where
  entries : List (Bytes × Inum)
  nodup : (entries.map Prod.fst).Nodup

namespace Directory

def empty : Directory :=
  ⟨[], List.nodup_nil⟩

def names (d : Directory) : List Bytes :=
  d.entries.map Prod.fst

/-- The entry under a name. -/
def find (d : Directory) (name : Bytes) : Option Inum :=
  (d.entries.find? fun e => name == e.1).map Prod.snd

def add (d : Directory) (name : Bytes) (inum : Inum) (h : name ∉ d.names) : Directory where
  entries := d.entries ++ [(name, inum)]
  nodup := by
    rw [List.map_append, List.map_singleton]
    exact List.nodup_append_comm.mp (List.nodup_cons.mpr ⟨h, d.nodup⟩)

def remove (d : Directory) (name : Bytes) : Directory where
  entries := d.entries.filter fun e => e.1 != name
  nodup := d.nodup.sublist (List.filter_sublist.map Prod.fst)

/-- What is found under a name is an entry. -/
theorem mem_of_find {d : Directory} {name : Bytes} {inum : Inum} (h : d.find name = some inum) :
    (name, inum) ∈ d.entries := by
  rcases Option.map_eq_some_iff.mp h with ⟨e, he, rfl⟩
  have hname := List.find?_some he
  rw [beq_iff_eq] at hname
  rw [hname]
  exact List.mem_of_find?_eq_some he

/-- Nothing is found where there is no entry of that name. -/
theorem find_eq_none {d : Directory} {name : Bytes} : d.find name = none ↔ name ∉ d.names := by
  simp only [find, names, Option.map_eq_none_iff, List.find?_eq_none, beq_iff_eq, List.mem_map,
    not_exists, not_and]
  exact forall_congr' fun e => forall_congr' fun _ => not_congr eq_comm

theorem mem_add {d : Directory} {name : Bytes} {inum : Inum} {h : name ∉ d.names}
    {e : Bytes × Inum} : e ∈ (d.add name inum h).entries ↔ e ∈ d.entries ∨ e = (name, inum) := by
  simp only [add, List.mem_append, List.mem_singleton]

theorem mem_remove {d : Directory} {name : Bytes} {e : Bytes × Inum} :
    e ∈ (d.remove name).entries ↔ e ∈ d.entries ∧ e.1 ≠ name := by
  simp only [remove, List.mem_filter, bne_iff_ne]

end Directory

inductive Node where
  | file (content : Bytes)
  | dir (d : Directory)

abbrev State := Inum → Option Node

/-- The root directory, empty. -/
def init : State :=
  Function.update (fun _ => none) 1 (some (.dir Directory.empty))

/-! ## Operations -/

/-- What `lookup` reports of an object, without times: the size of a file. -/
def Node.attr : Node → Attr
  | .file c => ⟨0, 0, 0, sizeAttr c⟩
  | .dir _ => ⟨0, 0, 0, 0⟩

/-- A file after a write of `data` at `off`. -/
def writeFile (c data : Bytes) (off : Nat) : Bytes :=
  if c = [] then data else overwrite 0 c off data

/-- A file after its size has been set. -/
def resizeFile (c : Bytes) (n : Nat) : Bytes :=
  c.take n ++ List.replicate (n - c.length) 0

/-- A creation of `node` under `parent`: its status, and what it leaves. -/
def make (fs : State) (parent : Inum) (name : Bytes) (inum : Inum) (node : Node) :
    YfsStatus × State :=
  match fs parent with
  | some (.dir d) =>
      if h : name ∈ d.names then (.exist, fs)
      else (.ok, Function.update (Function.update fs inum (some node)) parent
        (some (.dir (d.add name inum h))))
  | _ => (.ioerr, Function.update fs inum (some node))

/-- One operation on the objects, with its result. Times are zero throughout, and so are the sizes
    of directories. -/
def exec (fs : State) : Op → Result × State
  | .getfile inum => match fs inum with
    | some (.file c) => (.attr .ok (some ⟨0, 0, 0, sizeAttr c⟩), fs)
    | _ => (.attr .ioerr none, fs)
  | .getdir inum => match fs inum with
    | some (.dir _) => (.dir .ok (some ⟨0, 0, 0⟩), fs)
    | _ => (.dir .ioerr none, fs)
  -- The object is made before the entry, so it stays if the directory does not exist.
  | .create parent name inum =>
      let (st, fs') := make fs parent name inum (.file [])
      (.attr st (if st = .ok then some ⟨0, 0, 0, 0⟩ else none), fs')
  | .mymkdir parent name inum =>
      let (st, fs') := make fs parent name inum (.dir Directory.empty)
      (.status st, fs')
  | .lookup parent name => match fs parent with
    | some (.dir d) => match d.find name with
      | none => (.found .ok none, fs)
      | some inum => match fs inum with
        | some node => (.found .ok (some (inum, some node.attr)), fs)
        | none => (.found .ioerr (some (inum, none)), fs)
    | _ => (.found .ioerr none, fs)
  | .readdir parent => match fs parent with
    | some (.dir d) => (.tokens .ok (tokens d.entries), fs)
    | _ => (.tokens .ioerr [], fs)
  -- Shorter files lose their end, and longer ones get zeros.
  | .updatesize inum newSize => match fs inum with
    | some (.file c) =>
        (.status .ok, Function.update fs inum (some (.file (resizeFile c newSize.toNat))))
    | _ => (.status .ioerr, fs)
  | .read inum size off => match fs inum with
    | some (.file c) => (.content .ok ((c.drop off.toNat).take size.toNat), fs)
    | _ => (.content .ioerr [], fs)
  | .write inum buf size off => match fs inum with
    | some (.file c) =>
        (.status .ok, Function.update fs inum
          (some (.file (writeFile c (writeChunk buf size) off.toNat))))
    | _ => (.status .ioerr, fs)
  -- The file's extent is emptied and stays where it is.
  | .unlink parent name => match fs parent with
    | some (.dir d) => match d.find name with
      | none => (.status .noent, fs)
      | some inum =>
          if isdir inum then (.status .ioerr, fs)
          else (.status .ok, Function.update (Function.update fs parent
            (some (.dir (d.remove name)))) inum (some (.file [])))
    | _ => (.status .noent, fs)

/-- Operations one after another. -/
def execAll {C : Type} : List (C × Op) → State → List (C × Op × Result) × State
  | [], fs => ([], fs)
  | (c, op) :: rest, fs =>
      let r := exec fs op
      let t := execAll rest r.2
      ((c, op, r.1) :: t.1, t.2)

/-! ## What the operations are called with -/

/-- A name that no scan of a directory takes for something else. -/
def Legal (name : Bytes) : Prop :=
  Listable name ∧ ∀ inum, name ≠ filename inum

/-- A name with a letter in it is not the text of an inum. -/
theorem legal_of_letter {name : Bytes} (h : Listable name) {c : UInt8} (hc : c ∈ name)
    (hdigit : Decimal.isDigit c = false) : Legal name := by
  refine ⟨h, fun inum heq => ?_⟩
  rw [heq] at hc
  rw [Decimal.isDigit_of_mem_numeral _ c hc] at hdigit
  cases hdigit

/-- The inum that an operation gives to a new object. -/
def creates : Op → Option Inum
  | .create _ _ inum => some inum
  | .mymkdir _ _ inum => some inum
  | _ => none

/-- The kinds of the inums are as the operation expects them, a new name is legal, a directory is
    not made inside itself, and no file grows to `2 ^ 32` bytes. -/
def Proper : Op → Prop
  | .getfile inum => isfile inum = true
  | .getdir inum => isdir inum = true
  | .create parent name inum => isdir parent = true ∧ Legal name ∧ isfile inum = true
  | .mymkdir parent name inum =>
      isdir parent = true ∧ Legal name ∧ isdir inum = true ∧ inum ≠ parent
  | .lookup parent _ => isdir parent = true
  | .readdir parent => isdir parent = true
  | .updatesize inum newSize => isfile inum = true ∧ newSize.toNat < 2 ^ 32
  | .read inum _ _ => isfile inum = true
  | .write inum _ size off => isfile inum = true ∧ off.toNat + size.toNat < 2 ^ 32
  | .unlink parent _ => isdir parent = true

/-! ## The name space -/

/-- The directory at `inum` has the entry `e`. -/
def Listed (fs : State) (inum : Inum) (e : Bytes × Inum) : Prop :=
  ∃ d, fs inum = some (.dir d) ∧ e ∈ d.entries

/-- The directory at `i` has an entry for `j`. -/
def Child (fs : State) (i j : Inum) : Prop :=
  ∃ name, Listed fs i (name, j)

/-- Objects are of the kind that their inum says, files fit 32 bits, and the entries form
    a forest: every object that is listed exists, is listed once, and is not above itself.
    The root is a directory and is not listed. -/
structure WellFormed (fs : State) : Prop where
  file : ∀ i c, fs i = some (.file c) → isfile i = true ∧ c.length < 2 ^ 32
  dir : ∀ i d, fs i = some (.dir d) → isdir i = true
  root : ∃ d, fs 1 = some (.dir d)
  legal : ∀ i e, Listed fs i e → Legal e.1
  present : ∀ i e, Listed fs i e → fs e.2 ≠ none
  once : ∀ i j e e', Listed fs i e → Listed fs j e' → e.2 = e'.2 → i = j ∧ e = e'
  unlisted : ∀ i e, Listed fs i e → e.2 ≠ 1
  acyclic : ∀ i, ¬ Relation.TransGen (Child fs) i i

/-- A name is listed once in a directory. -/
theorem Listed.names_unique {fs : State} {i : Inum} {name : Bytes} {j j' : Inum}
    (h : Listed fs i (name, j)) (h' : Listed fs i (name, j')) : j' = j := by
  rcases h with ⟨d, hd, he⟩
  rcases h' with ⟨d', hd', he'⟩
  rw [hd, Option.some.injEq, Node.dir.injEq] at hd'
  subst hd'
  -- Two entries under one name are one entry.
  have heq := List.inj_on_of_nodup_map d.nodup he he' rfl
  exact (congrArg Prod.snd heq).symm

/-- An edge to a leaf closes no cycle: a cycle leaves every object that it enters. So a path that
    does not end at the leaf has not been there. -/
theorem not_cycle_of_leaf {α : Type} {R R' : α → α → Prop} {n : α} (hleaf : ∀ x, ¬ R' n x)
    (hold : ∀ x y, R' x y → y ≠ n → R x y) (h : ∀ x, ¬ Relation.TransGen R x x) (x : α) :
    ¬ Relation.TransGen R' x x := by
  have hpath : ∀ y, Relation.TransGen R' x y → y ≠ n → Relation.TransGen R x y := by
    intro y hy
    induction hy with
    | single hxy => exact fun hne => Relation.TransGen.single (hold _ _ hxy hne)
    | tail _ hyz ih =>
        intro hne
        refine Relation.TransGen.tail (ih ?_) (hold _ _ hyz hne)
        rintro rfl
        exact hleaf _ hyz
  intro hx
  refine h x (hpath x hx ?_)
  rintro rfl
  rcases Relation.TransGen.head'_iff.mp hx with ⟨y, hy, _⟩
  exact hleaf y hy

/-- Fewer edges make no new cycle. -/
theorem not_cycle_of_sub {α : Type} {R R' : α → α → Prop} (hsub : ∀ x y, R' x y → R x y)
    (h : ∀ x, ¬ Relation.TransGen R x x) (x : α) : ¬ Relation.TransGen R' x x :=
  fun hx => h x (Relation.TransGen.mono hsub x x hx)

/-- The root alone is a forest. -/
theorem wellFormed_init : WellFormed init := by
  have hdir : ∀ i node, init i = some node → i = 1 ∧ node = .dir Directory.empty := by
    intro i node h
    unfold init at h
    by_cases hi : i = 1
    · rw [hi, Function.update_self] at h
      exact ⟨hi, (Option.some.inj h).symm⟩
    · rw [Function.update_of_ne hi] at h
      cases h
  -- There are no entries, which is what all but two of the fields are about.
  have hnone : ∀ i e, ¬ Listed init i e := by
    rintro i e ⟨d, hd, he⟩
    have heq := (hdir i _ hd).2
    rw [Node.dir.injEq] at heq
    rw [heq] at he
    exact List.not_mem_nil he
  refine ⟨?_, ?_, ⟨_, Function.update_self _ _ _⟩, fun i e h => absurd h (hnone i e),
    fun i e h => absurd h (hnone i e), fun i j e e' h => absurd h (hnone i e),
    fun i e h => absurd h (hnone i e), ?_⟩
  · intro i c h
    cases (hdir i _ h).2
  · intro i d h
    rw [(hdir i _ h).1]
    decide
  · intro i hcycle
    rcases Relation.TransGen.head'_iff.mp hcycle with ⟨j, ⟨name, hl⟩, _⟩
    exact hnone i _ hl

/-! ## What an operation can change -/

/-- A new object: an empty file or an empty directory, as its inum says. -/
def Leaf (inum : Inum) (node : Node) : Prop :=
  (node = .file [] ∧ isfile inum = true) ∨ (node = .dir Directory.empty ∧ isdir inum = true)

/-- What an operation does to the objects. -/
inductive Change (fs : State) : State → Prop where
  | same : Change fs fs
  | rewrite (inum : Inum) (c c' : Bytes) (hfile : fs inum = some (.file c))
      (hlen : c'.length < 2 ^ 32) : Change fs (Function.update fs inum (some (.file c')))
  | orphan (inum : Inum) (node : Node) (hfresh : fs inum = none) (hleaf : Leaf inum node) :
      Change fs (Function.update fs inum (some node))
  | link (parent : Inum) (d : Directory) (name : Bytes) (inum : Inum) (node : Node)
      (hfresh : fs inum = none) (hleaf : Leaf inum node) (hdir : fs parent = some (.dir d))
      (hname : name ∉ d.names) (hlegal : Legal name) :
      Change fs (Function.update (Function.update fs inum (some node)) parent
        (some (.dir (d.add name inum hname))))
  | unlink (parent : Inum) (d : Directory) (name : Bytes) (inum : Inum)
      (hdir : fs parent = some (.dir d)) (hfind : d.find name = some inum)
      (hfile : isfile inum = true) :
      Change fs (Function.update (Function.update fs parent (some (.dir (d.remove name)))) inum
        (some (.file [])))

/-- An inum is of one kind. -/
theorem isdir_eq_false_of_isfile {inum : Inum} (h : isfile inum = true) : isdir inum = false := by
  rw [isdir, h]
  rfl

/-- A new directory has no entries. -/
theorem Leaf.entries {inum : Inum} {node : Node} (h : Leaf inum node) (d : Directory)
    (hd : node = .dir d) : d.entries = [] := by
  rcases h with ⟨rfl, _⟩ | ⟨rfl, _⟩
  · cases hd
  · rw [← Node.dir.inj hd]
    rfl

section Change

variable {fs : State}

/-- An object without entries in the place of one without entries. -/
theorem listed_put {inum : Inum} (h : ∀ d, fs inum ≠ some (.dir d)) {node : Node}
    (hnode : ∀ d, node = .dir d → d.entries = []) (i : Inum) (e : Bytes × Inum) :
    Listed (Function.update fs inum (some node)) i e ↔ Listed fs i e := by
  unfold Listed
  -- In this place there were no entries, and there are none now.
  by_cases hi : i = inum
  · subst hi
    rw [Function.update_self]
    constructor
    · rintro ⟨d, hd, he⟩
      rw [hnode d (Option.some.inj hd)] at he
      exact absurd he List.not_mem_nil
    · rintro ⟨d, hd, _⟩
      exact absurd hd (h d)
  · rw [Function.update_of_ne hi]

/-- Another directory in the place of one. -/
theorem listed_dir (parent : Inum) (d' : Directory) (i : Inum) (e : Bytes × Inum) :
    Listed (Function.update fs parent (some (.dir d'))) i e ↔
      (i ≠ parent ∧ Listed fs i e) ∨ (i = parent ∧ e ∈ d'.entries) := by
  by_cases hi : i = parent
  · simp only [Listed, hi, Function.update_self, Option.some.injEq, Node.dir.injEq,
      exists_eq_left', ne_eq, not_true_eq_false, false_and, true_and, false_or]
  · simp only [Listed, Function.update_of_ne hi, ne_eq, hi, not_false_eq_true, true_and,
      false_and, or_false]

/-- Without a new entry, and with no object gone, the name space is a forest still. -/
theorem WellFormed.of_listed {fs' : State} (h : WellFormed fs)
    (hlisted : ∀ i e, Listed fs' i e → Listed fs i e) (hmore : ∀ i, fs i ≠ none → fs' i ≠ none)
    (hroot : ∃ d, fs' 1 = some (.dir d))
    (hfile : ∀ i c, fs' i = some (.file c) → isfile i = true ∧ c.length < 2 ^ 32)
    (hdir : ∀ i d, fs' i = some (.dir d) → isdir i = true) : WellFormed fs' := by
  refine ⟨hfile, hdir, hroot, ?_, ?_, ?_, ?_, ?_⟩
  · exact fun i e hl => h.legal i e (hlisted i e hl)
  · exact fun i e hl => hmore _ (h.present i e (hlisted i e hl))
  · exact fun i j e e' hl hl' => h.once i j e e' (hlisted i e hl) (hlisted j e' hl')
  · exact fun i e hl => h.unlisted i e (hlisted i e hl)
  · refine not_cycle_of_sub ?_ h.acyclic
    rintro i j ⟨name, hl⟩
    exact ⟨name, hlisted i _ hl⟩

/-- The root is where a directory is. -/
theorem WellFormed.ne_root {inum : Inum} (h : WellFormed fs)
    (hinum : ∀ d, fs inum ≠ some (.dir d)) : inum ≠ 1 := by
  rintro rfl
  rcases h.root with ⟨d, hd⟩
  exact hinum d hd

/-- An object without entries, of the right kind. -/
theorem WellFormed.put (h : WellFormed fs) {inum : Inum} (hinum : ∀ d, fs inum ≠ some (.dir d))
    {node : Node} (hfile : ∀ c, node = .file c → isfile inum = true ∧ c.length < 2 ^ 32)
    (hdir : ∀ d, node = .dir d → isdir inum = true ∧ d.entries = []) :
    WellFormed (Function.update fs inum (some node)) := by
  -- The entries are the same, so only the object itself has to be looked at.
  refine h.of_listed ?_ ?_ ?_ ?_ ?_
  · exact fun i e => (listed_put hinum (fun d hd => (hdir d hd).2) i e).mp
  · intro i hi
    by_cases heq : i = inum
    · rw [heq, Function.update_self]
      exact Option.some_ne_none _
    · rwa [Function.update_of_ne heq]
  · rw [Function.update_of_ne (h.ne_root hinum).symm]
    exact h.root
  · intro i c hc
    by_cases heq : i = inum
    · rw [heq, Function.update_self] at hc
      rw [heq]
      exact hfile c (Option.some.inj hc)
    · rw [Function.update_of_ne heq] at hc
      exact h.file i c hc
  · intro i d hd
    by_cases heq : i = inum
    · rw [heq, Function.update_self] at hd
      rw [heq]
      exact (hdir d (Option.some.inj hd)).1
    · rw [Function.update_of_ne heq] at hd
      exact h.dir i d hd

/-- A new object that nothing lists. -/
theorem WellFormed.put_leaf (h : WellFormed fs) {inum : Inum} {node : Node}
    (hfresh : fs inum = none) (hleaf : Leaf inum node) :
    WellFormed (Function.update fs inum (some node)) := by
  refine h.put (fun d hd => by rw [hfresh] at hd; cases hd) ?_ ?_
  · rintro c rfl
    rcases hleaf with ⟨hnode, hfile⟩ | ⟨hnode, _⟩
    · rw [Node.file.inj hnode]
      exact ⟨hfile, by decide⟩
    · cases hnode
  · rintro d rfl
    rcases hleaf with ⟨hnode, _⟩ | ⟨hnode, hdir⟩
    · cases hnode
    · rw [Node.dir.inj hnode]
      exact ⟨hdir, rfl⟩

/-- A directory changes its entries: of the invariant, what is not about entries. -/
theorem WellFormed.put_dir (h : WellFormed fs) {parent : Inum} {d : Directory}
    (hdir : fs parent = some (.dir d)) (d' : Directory) :
    (∀ i c, Function.update fs parent (some (.dir d')) i = some (.file c) →
        isfile i = true ∧ c.length < 2 ^ 32) ∧
      (∀ i d₀, Function.update fs parent (some (.dir d')) i = some (.dir d₀) →
        isdir i = true) ∧
      (∃ d₀, Function.update fs parent (some (.dir d')) 1 = some (.dir d₀)) ∧
      ∀ i, fs i ≠ none → Function.update fs parent (some (.dir d')) i ≠ none := by
  refine ⟨?_, ?_, ?_, ?_⟩
  · intro i c hc
    by_cases heq : i = parent
    · rw [heq, Function.update_self] at hc
      cases hc
    · rw [Function.update_of_ne heq] at hc
      exact h.file i c hc
  · intro i d₀ hd₀
    by_cases heq : i = parent
    · rw [heq]
      exact h.dir parent d hdir
    · rw [Function.update_of_ne heq] at hd₀
      exact h.dir i d₀ hd₀
  · by_cases heq : (1 : Inum) = parent
    · exact ⟨d', by rw [heq, Function.update_self]⟩
    · rw [Function.update_of_ne heq]
      exact h.root
  · intro i hi
    by_cases heq : i = parent
    · rw [heq, Function.update_self]
      exact Option.some_ne_none _
    · rwa [Function.update_of_ne heq]

/-- An entry less is a forest still. -/
theorem WellFormed.remove_entry (h : WellFormed fs) {parent : Inum} {d : Directory}
    (hdir : fs parent = some (.dir d)) (name : Bytes) :
    WellFormed (Function.update fs parent (some (.dir (d.remove name)))) := by
  rcases h.put_dir hdir (d.remove name) with ⟨hfile, hdir', hroot, hmore⟩
  refine h.of_listed (fun i e hl => ?_) hmore hroot hfile hdir'
  -- An entry that is left was there before.
  rcases (listed_dir parent _ i e).mp hl with ⟨_, hl⟩ | ⟨rfl, he⟩
  · exact hl
  · exact ⟨d, hdir, (Directory.mem_remove.mp he).1⟩

/-- A new entry for an object that has none itself and is not listed. -/
theorem WellFormed.add_entry (h : WellFormed fs) {parent : Inum} {d : Directory}
    (hdir : fs parent = some (.dir d)) {name : Bytes} (hname : name ∉ d.names)
    (hlegal : Legal name) {inum : Inum} (hinum : fs inum ≠ none) (hroot : inum ≠ 1)
    (hnew : ∀ i e, Listed fs i e → e.2 ≠ inum) (hleaf : ∀ e, ¬ Listed fs inum e)
    (hne : inum ≠ parent) :
    WellFormed (Function.update fs parent (some (.dir (d.add name inum hname)))) := by
  rcases h.put_dir hdir (d.add name inum hname) with ⟨hfile, hdir', hroot', hmore⟩
  -- All entries are old ones, but for the new one.
  have hlisted : ∀ i e, Listed (Function.update fs parent (some (.dir (d.add name inum hname)))) i e
      → Listed fs i e ∨ (i = parent ∧ e = (name, inum)) := by
    intro i e hl
    rcases (listed_dir parent _ i e).mp hl with ⟨_, hl⟩ | ⟨rfl, he⟩
    · exact Or.inl hl
    · rcases Directory.mem_add.mp he with he | he
      · exact Or.inl ⟨d, hdir, he⟩
      · exact Or.inr ⟨rfl, he⟩
  refine ⟨hfile, hdir', hroot', ?_, ?_, ?_, ?_, ?_⟩
  · intro i e hl
    rcases hlisted i e hl with hl | ⟨_, rfl⟩
    · exact h.legal i e hl
    · exact hlegal
  · intro i e hl
    rcases hlisted i e hl with hl | ⟨_, rfl⟩
    · exact hmore _ (h.present i e hl)
    · exact hmore _ hinum
  · intro i j e e' hl hl' heq
    rcases hlisted i e hl with hold | ⟨hi, he⟩
    -- An old entry and the new one: the object was not listed before.
    · rcases hlisted j e' hl' with hold' | ⟨_, he'⟩
      · exact h.once i j e e' hold hold' heq
      · rw [he'] at heq
        exact absurd heq (hnew i e hold)
    · rcases hlisted j e' hl' with hold' | ⟨hj, he'⟩
      · rw [he] at heq
        exact absurd heq.symm (hnew j e' hold')
      · exact ⟨hi.trans hj.symm, he.trans he'.symm⟩
  · intro i e hl
    rcases hlisted i e hl with hl | ⟨_, rfl⟩
    · exact h.unlisted i e hl
    · exact hroot
  · -- The new entry is the only edge to the object, and no edge leaves it.
    refine not_cycle_of_leaf (n := inum) ?_ ?_ h.acyclic
    · rintro x ⟨name', hl⟩
      rcases hlisted inum _ hl with hl | ⟨heq, _⟩
      · exact hleaf _ hl
      · exact hne heq
    · rintro x y ⟨name', hl⟩ hy
      rcases hlisted x _ hl with hl | ⟨_, heq⟩
      · exact ⟨name', hl⟩
      · exact absurd (congrArg Prod.snd heq) hy

/-- The target of an entry for a file inum is a file. -/
theorem WellFormed.file_of_listed (h : WellFormed fs) {i : Inum} {e : Bytes × Inum}
    (hl : Listed fs i e) (hfile : isfile e.2 = true) : ∃ c, fs e.2 = some (.file c) := by
  cases hnode : fs e.2 with
  | none => exact absurd hnode (h.present i e hl)
  | some node =>
      cases node with
      | file c => exact ⟨c, rfl⟩
      | dir d =>
          have hdir := h.dir e.2 d hnode
          rw [isdir_eq_false_of_isfile hfile] at hdir
          cases hdir

/-- Each of the five changes keeps the name space a forest. A creation is two updates, first of the
    object and then of the directory; `unlink` is the same in reverse. -/
theorem wellFormed_change {fs' : State} (h : WellFormed fs) (hc : Change fs fs') :
    WellFormed fs' := by
  cases hc with
  | same => exact h
  | rewrite inum c c' hfile hlen =>
      refine h.put (fun d hd => by rw [hfile] at hd; cases hd) ?_ fun d hd => by cases hd
      rintro _ heq
      rw [← Node.file.inj heq]
      exact ⟨(h.file inum c hfile).1, hlen⟩
  | orphan inum node hfresh hleaf => exact h.put_leaf hfresh hleaf
  | link parent d name inum node hfresh hleaf hdir hname hlegal =>
      have hinum : ∀ d, fs inum ≠ some (.dir d) := by
        intro d hd
        rw [hfresh] at hd
        cases hd
      have hne : inum ≠ parent := by
        rintro rfl
        exact hinum d hdir
      have hput := listed_put hinum hleaf.entries
      refine (h.put_leaf hfresh hleaf).add_entry ?_ hname hlegal ?_ (h.ne_root hinum) ?_ ?_ hne
      -- The parent is as it was, since the new object is not the parent.
      · rw [Function.update_of_ne hne.symm]
        exact hdir
      · rw [Function.update_self]
        exact Option.some_ne_none _
      · -- What is listed exists, and the new object did not.
        rintro i e hl rfl
        exact h.present i e ((hput i e).mp hl) hfresh
      · intro e hl
        rcases (hput inum e).mp hl with ⟨d', hd', _⟩
        exact hinum d' hd'
  | unlink parent d name inum hdir hfind hfile =>
      have hl : Listed fs parent (name, inum) := ⟨d, hdir, Directory.mem_of_find hfind⟩
      rcases h.file_of_listed hl hfile with ⟨c, hc⟩
      have hne : inum ≠ parent := by
        rintro rfl
        rw [hdir] at hc
        cases hc
      -- After the entry is gone the file is replaced, and a file has no entries.
      refine (h.remove_entry hdir name).put ?_ ?_ fun d hd => by cases hd
      · intro d' hd'
        rw [Function.update_of_ne hne] at hd'
        rw [hc] at hd'
        cases hd'
      · rintro _ heq
        rw [← Node.file.inj heq]
        exact ⟨hfile, by decide⟩

end Change

/-! ## The operations -/

section Exec

variable {fs : State}

theorem length_resizeFile (c : Bytes) (n : Nat) : (resizeFile c n).length = n := by
  unfold resizeFile
  simp only [List.length_append, List.length_take, List.length_replicate]
  omega

/-- A write that ends below `2 ^ 32` leaves a file below it. -/
theorem length_writeFile {c data : Bytes} {off : Nat} (hc : c.length < 2 ^ 32)
    (hdata : off + data.length < 2 ^ 32) : (writeFile c data off).length < 2 ^ 32 := by
  unfold writeFile
  by_cases h : c = []
  · rw [if_pos h]
    omega
  · rw [if_neg h, length_overwrite]
    omega

/-- Either kind of creation. -/
theorem change_make {parent inum : Inum} {name : Bytes} {node : Node} (hfresh : fs inum = none)
    (hleaf : Leaf inum node) (hlegal : Legal name) :
    Change fs (make fs parent name inum node).2 := by
  unfold make
  split
  · rename_i d hdir
    by_cases hname : name ∈ d.names
    · rw [dif_pos hname]
      exact Change.same
    · rw [dif_neg hname]
      exact Change.link parent d name inum node hfresh hleaf hdir hname hlegal
  · exact Change.orphan inum node hfresh hleaf

/-- An operation that is called as it should be changes at most one thing. -/
theorem change_exec (h : WellFormed fs) {op : Op} (hop : Proper op)
    (hfresh : ∀ inum, creates op = some inum → fs inum = none) :
    Change fs (exec fs op).2 := by
  cases op with
  | create parent name inum =>
      exact change_make (hfresh inum rfl) (Or.inl ⟨rfl, hop.2.2⟩) hop.2.1
  | mymkdir parent name inum =>
      exact change_make (hfresh inum rfl) (Or.inr ⟨rfl, hop.2.2.1⟩) hop.2.1
  | updatesize inum newSize =>
      simp only [exec]
      split
      · rename_i c hc
        refine Change.rewrite inum c _ hc ?_
        rw [length_resizeFile]
        exact hop.2
      · exact Change.same
  | write inum buf size off =>
      simp only [exec]
      split
      · rename_i c hc
        refine Change.rewrite inum c _ hc (length_writeFile (h.file inum c hc).2 ?_)
        rw [length_writeChunk]
        exact hop.2
      · exact Change.same
  | unlink parent name =>
      simp only [exec]
      split
      · rename_i d hdir
        split
        · exact Change.same
        · rename_i inum hfind
          split
          · exact Change.same
          -- What is not a directory's inum is a file's.
          · rename_i hfile
            refine Change.unlink parent d name inum hdir hfind ?_
            simpa only [isdir, Bool.not_eq_true', Bool.not_eq_false] using hfile
      · exact Change.same
  | lookup parent name =>
      have hsame : (exec fs (.lookup parent name)).2 = fs := by
        simp only [exec]
        repeat' split
        all_goals rfl
      rw [hsame]
      exact Change.same
  | getfile inum =>
      have hsame : (exec fs (.getfile inum)).2 = fs := by
        simp only [exec]
        split <;> rfl
      rw [hsame]
      exact Change.same
  | getdir inum =>
      have hsame : (exec fs (.getdir inum)).2 = fs := by
        simp only [exec]
        split <;> rfl
      rw [hsame]
      exact Change.same
  | readdir parent =>
      have hsame : (exec fs (.readdir parent)).2 = fs := by
        simp only [exec]
        split <;> rfl
      rw [hsame]
      exact Change.same
  | read inum size off =>
      have hsame : (exec fs (.read inum size off)).2 = fs := by
        simp only [exec]
        split <;> rfl
      rw [hsame]
      exact Change.same

theorem exists_of_update {inum i : Inum} {node : Node}
    (h : Function.update fs inum (some node) i ≠ none) : fs i ≠ none ∨ i = inum := by
  by_cases hi : i = inum
  · exact Or.inr hi
  · rw [Function.update_of_ne hi] at h
    exact Or.inl h

/-- A creation makes one object, whether it succeeds or not. -/
theorem exists_of_make {parent inum i : Inum} {name : Bytes} {node : Node}
    (h : (make fs parent name inum node).2 i ≠ none) : fs i ≠ none ∨ i = inum := by
  unfold make at h
  split at h
  · rename_i d hdir
    split at h
    · exact Or.inl h
    · rcases exists_of_update h with h | rfl
      · exact exists_of_update h
      -- The parent was there before.
      · left
        rw [hdir]
        exact Option.some_ne_none _
  · exact exists_of_update h

/-- Only a creation makes a new object, and only under its inum. -/
theorem exists_of_exec (h : WellFormed fs) {op : Op} {i : Inum} (hi : (exec fs op).2 i ≠ none) :
    fs i ≠ none ∨ creates op = some i := by
  -- To replace an object makes none.
  have hold : ∀ inum node, fs inum ≠ none →
      (Function.update fs inum (some node)) i ≠ none → fs i ≠ none := by
    intro inum node hinum hi
    rcases exists_of_update hi with hi | rfl
    · exact hi
    · exact hinum
  cases op with
  | create parent name inum => exact (exists_of_make hi).imp_right fun heq => by rw [heq]; rfl
  | mymkdir parent name inum => exact (exists_of_make hi).imp_right fun heq => by rw [heq]; rfl
  | updatesize inum newSize =>
      left
      simp only [exec] at hi
      split at hi
      · rename_i c hc
        exact hold inum _ (by rw [hc]; exact Option.some_ne_none _) hi
      · exact hi
  | write inum buf size off =>
      left
      simp only [exec] at hi
      split at hi
      · rename_i c hc
        exact hold inum _ (by rw [hc]; exact Option.some_ne_none _) hi
      · exact hi
  | unlink parent name =>
      left
      simp only [exec] at hi
      split at hi
      · rename_i d hdir
        split at hi
        · exact hi
        · rename_i inum hfind
          split at hi
          · exact hi
          · -- The file that is emptied is listed, so it exists.
            rcases exists_of_update hi with hi | rfl
            · exact hold parent _ (by rw [hdir]; exact Option.some_ne_none _) hi
            · exact h.present parent (name, i) ⟨d, hdir, Directory.mem_of_find hfind⟩
      · exact hi
  | lookup parent name =>
      left
      simp only [exec] at hi
      repeat' split at hi
      all_goals exact hi
  | _ =>
      left
      simp only [exec] at hi
      split at hi <;> exact hi

end Exec

/-! ## Runs -/

variable {C : Type}

/-- The inums that the operations give to new objects. -/
def newInums (order : List (C × Op)) : List Inum :=
  order.filterMap fun x => creates x.2

/-- New objects get inums that nothing has, a different one each. -/
def Fresh (fs : State) (order : List (C × Op)) : Prop :=
  (∀ inum ∈ newInums order, fs inum = none) ∧ (newInums order).Nodup

/-- The first operation finds its new inum unused. -/
theorem Fresh.head {fs : State} {c : C} {op : Op} {rest : List (C × Op)}
    (h : Fresh fs ((c, op) :: rest)) (inum : Inum) (hop : creates op = some inum) :
    fs inum = none := by
  refine h.1 inum ?_
  rw [newInums, List.filterMap_cons, hop]
  exact List.mem_cons_self

/-- What an operation makes has the inum that it was given, which the later ones are not given
    again. -/
theorem Fresh.tail {fs : State} (hfs : WellFormed fs) {c : C} {op : Op} {rest : List (C × Op)}
    (h : Fresh fs ((c, op) :: rest)) : Fresh (exec fs op).2 rest := by
  rcases h with ⟨hnone, hnodup⟩
  unfold newInums at hnone hnodup
  cases hop : creates op with
  | none =>
      simp only [List.filterMap_cons, hop] at hnone hnodup
      refine ⟨fun inum hinum => ?_, hnodup⟩
      by_contra hsome
      rcases exists_of_exec hfs hsome with hold | hnew
      · exact hold (hnone inum hinum)
      · rw [hop] at hnew
        cases hnew
  | some new =>
      simp only [List.filterMap_cons, hop] at hnone hnodup
      rw [List.nodup_cons] at hnodup
      refine ⟨fun inum hinum => ?_, hnodup.2⟩
      by_contra hsome
      rcases exists_of_exec hfs hsome with hold | hnew
      · exact hold (hnone inum (List.mem_cons_of_mem new hinum))
      -- The inum that was used is not given a second time.
      · rw [hop, Option.some.injEq] at hnew
        exact hnodup.1 (hnew ▸ hinum)

/-- One operation keeps the name space a forest. -/
theorem wellFormed_exec {fs : State} (h : WellFormed fs) {op : Op} (hop : Proper op)
    (hfresh : ∀ inum, creates op = some inum → fs inum = none) : WellFormed (exec fs op).2 :=
  wellFormed_change h (change_exec h hop hfresh)

/-- However many operations there are, the name space stays a forest. The induction is over the
    operations, with the objects that are there by then. -/
theorem wellFormed_execAll {fs : State} (h : WellFormed fs) {order : List (C × Op)}
    (hproper : ∀ x ∈ order, Proper x.2) (hfresh : Fresh fs order) :
    WellFormed (execAll order fs).2 := by
  induction order generalizing fs with
  | nil => exact h
  | cons x rest ih =>
      have hx := wellFormed_exec h (hproper x List.mem_cons_self) hfresh.head
      exact ih hx (fun y hy => hproper y (List.mem_cons_of_mem x hy)) (hfresh.tail h)

end FileSystem

end Yfs
