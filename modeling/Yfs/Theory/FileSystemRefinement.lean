import Yfs.Library.Serial
import Yfs.Theory.FileSystem
import Yfs.Theory.Operations
import Yfs.Theory.Resize
import Yfs.Theory.Unlinking

/-!
# The Operations on Extents Are Those of the File System

An extent of a file is its content; an extent of a directory is the entries one after
another as text. On extents that represent a file system in this way, the programs of
`yfs_client` return what the operations of the file system return, and leave extents that
represent what those leave. Sizes are reported for files only: the size attribute of a
directory is the length of its text.

The name space has to be well-formed for this. `unlink` drops every token that is equal to
the name or to the numeral of the inum; this is one entry because no name is a numeral and
no inum is listed twice.

## Main definitions

* `Node.encode`, `Represents`: Extents of a file system.
* `plain`: A result without times, and without the sizes of directories.

## Theorems

* `removeEntry_render`: The text of a directory with one entry less.
* `exec_represents`: One operation.
* `serial_represents`: Any number of operations.
-/

namespace Yfs

namespace FileSystem

open Txn Serial Overwrite

/-- The content of an object's extent. -/
def Node.encode : Node → Bytes
  | .file c => c
  | .dir d => render d.entries

/-- The extents of a file system. -/
def Represents (f : Store) (fs : State) : Prop :=
  ∀ inum, f inum = (fs inum).map Node.encode

/-- A new server has the root, and the text of an empty directory is empty. -/
theorem represents_init (now : UInt32) : Represents (ExtentServer.new now).contentMap init := by
  intro inum
  simp only [ExtentServer.new, init]
  by_cases h : inum = 1
  · rw [h, Function.update_self, Function.update_self]
    rfl
  · rw [Function.update_of_ne h, Function.update_of_ne h]
    rfl

/-- A `put` of an object's text is an update of the file system. -/
theorem Represents.update {f : Store} {fs : State} (h : Represents f fs) (inum : Inum)
    (node : Node) {buf : Bytes} (hbuf : buf = node.encode) :
    Represents (Function.update f inum (some buf)) (Function.update fs inum (some node)) := by
  intro i
  by_cases hi : i = inum
  · rw [hi, Function.update_self, Function.update_self, hbuf]
    rfl
  · rw [Function.update_of_ne hi, Function.update_of_ne hi]
    exact h i

/-- A result without times, and without the size of a directory. -/
def plain : Result → Result
  | .found st (some (inum, some a)) =>
      .found st (some (inum, some (if isdir inum then ⟨0, 0, 0, 0⟩ else a.timeless)))
  | r => r.timeless

/-- Times are not part of a plain result. -/
theorem plain_timeless (r : Result) : plain r.timeless = plain r := by
  cases r with
  | found st entry =>
      cases entry with
      | none => rfl
      | some e =>
          rcases e with ⟨inum, a⟩
          cases a with
          | none => rfl
          | some a => rfl
  | attr st a =>
      cases a with
      | none => rfl
      | some a => rfl
  | dir st din =>
      cases din with
      | none => rfl
      | some din => rfl
  | _ => rfl

/-! ## The text of a directory -/

/-- Only the last separator goes. -/
theorem dropLast_joined {a b : Bytes} {rest : List Bytes} (hrest : rest ≠ []) :
    ((a :: b :: rest).flatMap (· ++ sep)).dropLast
      = a ++ sep ++ (b ++ sep ++ (rest.flatMap (· ++ sep)).dropLast) := by
  have hne : rest.flatMap (· ++ sep) ≠ [] := by
    cases rest with
    | nil => exact absurd rfl hrest
    | cons t ts => simp [sep]
  simp only [List.flatMap_cons]
  rw [List.dropLast_append_of_ne_nil (by simp [hne]), List.dropLast_append_of_ne_nil hne]

/-- The text of a directory is its tokens, with a separator between any two. -/
theorem render_eq_joined (es : List (Bytes × Inum)) :
    render es = ((tokens es).flatMap (· ++ sep)).dropLast := by
  induction es using render.induct with
  | case1 => rfl
  | case2 name inum =>
      simp only [render, tokens, List.flatMap_cons, List.flatMap_nil, List.append_nil]
      rw [List.dropLast_append_of_ne_nil (by simp [sep])]
      simp only [sep, List.dropLast_concat]
  | case3 name inum e rest ih =>
      have hne : tokens (e :: rest) ≠ [] := List.cons_ne_nil _ _
      rw [render, ih, tokens_cons (name, inum), dropLast_joined hne]

/-- What `unlink` writes back is the text of the directory with one entry less. -/
theorem removeEntry_render {es : List (Bytes × Inum)} {name : Bytes} {inum : Inum}
    (hnames : ∀ e ∈ es, Listable e.1) (hinum : ∀ e ∈ es, e.1 = name → e.2 = inum)
    (hothers : ∀ e ∈ es, e.1 ≠ name →
      e.2 ≠ inum ∧ e.1 ≠ filename inum ∧ filename e.2 ≠ name) :
    removeEntry (render es) (filename inum) name = render (es.filter fun e => e.1 != name) := by
  have hkept : (tokens es).filter (fun t => t != filename inum && t != name)
      = tokens (es.filter fun e => e.1 != name) := by
    rw [filter_tokens hinum, List.filter_eq_self]
    intro t ht
    rcases mem_tokens.mp ht with ⟨e, hmem, ht⟩
    rcases List.mem_filter.mp hmem with ⟨he, hne⟩
    rw [bne_iff_ne] at hne
    have hother := hothers e he hne
    rw [Bool.and_eq_true, bne_iff_ne, bne_iff_ne]
    -- A token of another entry is its inum or its name, and equals neither of the two that go.
    rcases ht with rfl | rfl
    · exact ⟨fun heq => hother.1 (filename_inj.mp heq), hother.2.2⟩
    · exact ⟨hother.2.1, hne⟩
  unfold removeEntry
  rw [split_render hnames, hkept, ← render_eq_joined]

/-! ## One operation -/

/-- The same result, and extents of the same file system. -/
def Agrees (x : Result × Store) (y : Result × State) : Prop :=
  plain x.1 = y.1 ∧ Represents x.2 y.2

section Exec

variable (u : Uninit) {f : Store} {fs : State} (h : Represents f fs) (hfs : WellFormed fs)

/-- Without a directory no name is found, and nothing is changed. -/
theorem run_isExist_none {parent : Inum} (hn : f parent = none) (name : Bytes) :
    (isExist parent name).run Store.serve f = (false, f) := by
  simp [isExist, ecGet, Store.serve, Store.get, hn]

theorem run_isExist_some {parent : Inum} {entries : Bytes} (hn : f parent = some entries)
    (name : Bytes) :
    (isExist parent name).run Store.serve f = ((findEntry entries name).isSome, f) := by
  simp [isExist, ecGet, Store.serve, Store.get, hn]

theorem run_addEntry_none {parent : Inum} (hn : f parent = none) (name : Bytes) (inum : Inum) :
    (addEntry parent name inum).run Store.serve f = (1, f) := by
  simp [addEntry, ecGet, Store.serve, Store.get, hn]

/-- The entry is put behind the text of the directory. -/
theorem run_addEntry_some {parent : Inum} {entries : Bytes} (hn : f parent = some entries)
    (name : Bytes) (inum : Inum) :
    (addEntry parent name inum).run Store.serve f
      = (0, Function.update f parent (some (appendEntry entries name inum))) := by
  simp [addEntry, ecGet, ecPut, Store.serve, Store.get, hn]

include h in
theorem Represents.none {inum : Inum} (hn : fs inum = none) : f inum = none := by
  rw [h inum, hn]
  rfl

include h in
theorem Represents.file {inum : Inum} {c : Bytes} (hn : fs inum = some (.file c)) :
    f inum = some c := by
  rw [h inum, hn]
  rfl

include h in
theorem Represents.dir {inum : Inum} {d : Directory} (hn : fs inum = some (.dir d)) :
    f inum = some (render d.entries) := by
  rw [h inum, hn]
  rfl

include hfs

/-- Under a file inum there is a file or nothing. -/
theorem WellFormed.not_dir {inum : Inum} (hfile : isfile inum = true) {d : Directory} :
    fs inum ≠ some (.dir d) := by
  intro hd
  have hdir := hfs.dir inum d hd
  rw [isdir_eq_false_of_isfile hfile] at hdir
  cases hdir

/-- Under a directory inum there is a directory or nothing. -/
theorem WellFormed.not_file {inum : Inum} (hdir : isdir inum = true) {c : Bytes} :
    fs inum ≠ some (.file c) := by
  intro hc
  rw [isdir_eq_false_of_isfile (hfs.file inum c hc).1] at hdir
  cases hdir

/-- The entry that a scan of the text finds is the directory's. -/
theorem findEntry_dir {parent : Inum} {d : Directory} (hd : fs parent = some (.dir d))
    (name : Bytes) :
    findEntry (render d.entries) name = (d.find name).map fun inum => (filename inum, name) := by
  have hlist : ∀ e ∈ d.entries, Listable e.1 := fun e he => (hfs.legal parent e ⟨d, hd, he⟩).1
  rw [findEntry_render hlist, Directory.find, Option.map_map]
  cases hfind : d.entries.find? fun e => name == e.1 with
  | none => rfl
  | some e =>
      have hname := List.find?_some hfind
      rw [beq_iff_eq] at hname
      simp only [Option.map_some, Function.comp_apply, hname]

/-- What `unlink` writes back under a well-formed name space. -/
theorem removeEntry_dir {parent inum : Inum} {d : Directory} (hd : fs parent = some (.dir d))
    {name : Bytes} (hfind : d.find name = some inum) :
    removeEntry (render d.entries) (filename inum) name = (Node.dir (d.remove name)).encode := by
  have hlisted : ∀ e ∈ d.entries, Listed fs parent e := fun e he => ⟨d, hd, he⟩
  have hthis : Listed fs parent (name, inum) := hlisted _ (Directory.mem_of_find hfind)
  refine removeEntry_render (fun e he => (hfs.legal parent e (hlisted e he)).1) ?_ ?_
  · intro e he hname
    exact hthis.names_unique (hname ▸ hlisted e he)
  · intro e he hname
    refine ⟨fun hinum => ?_, (hfs.legal parent e (hlisted e he)).2 inum, ?_⟩
    · -- An inum is listed once, so the entry would be the one that is removed.
      exact hname (congrArg Prod.fst (hfs.once _ _ _ _ (hlisted e he) hthis hinum).2)
    · exact fun heq => (hfs.legal parent (name, inum) hthis).2 e.2 heq.symm

include h

/-- Now the ten operations, one by one. The kind of the object under an inum follows from the inum,
    so the cases that the code does not handle do not come up. -/
theorem getfile_represents {inum : Inum} (hop : isfile inum = true) :
    Agrees ((Op.prog u (.getfile inum)).run Store.serve f) (exec fs (.getfile inum)) := by
  cases hn : fs inum with
  | none =>
      simp [Agrees, Op.prog, getfile, ecGetattr, exec, hn, Store.serve, Store.getattr, h.none hn,
        plain, Result.timeless, h]
  | some node =>
      cases node with
      | file c =>
          simp [Agrees, Op.prog, getfile, ecGetattr, exec, hn, Store.serve, Store.getattr,
            h.file hn, plain, Result.timeless, Attr.timeless, h]
      | dir d => exact absurd hn (hfs.not_dir hop)

theorem getdir_represents {inum : Inum} (hop : isdir inum = true) :
    Agrees ((Op.prog u (.getdir inum)).run Store.serve f) (exec fs (.getdir inum)) := by
  cases hn : fs inum with
  | none =>
      simp [Agrees, Op.prog, getdir, ecGetattr, exec, hn, Store.serve, Store.getattr, h.none hn,
        plain, Result.timeless, h]
  | some node =>
      cases node with
      | file c => exact absurd hn (hfs.not_file hop)
      | dir d =>
          simp [Agrees, Op.prog, getdir, ecGetattr, exec, hn, Store.serve, Store.getattr,
            h.dir hn, plain, Result.timeless, h]

theorem readdir_represents {parent : Inum} (hop : isdir parent = true) :
    Agrees ((Op.prog u (.readdir parent)).run Store.serve f) (exec fs (.readdir parent)) := by
  cases hn : fs parent with
  | none =>
      simp [Agrees, Op.prog, readdir, ecGet, exec, hn, Store.serve, Store.get, h.none hn,
        plain, Result.timeless, h]
  | some node =>
      cases node with
      | file c => exact absurd hn (hfs.not_file hop)
      | dir d =>
          have hlist : ∀ e ∈ d.entries, Listable e.1 :=
            fun e he => (hfs.legal parent e ⟨d, hn, he⟩).1
          simp [Agrees, Op.prog, readdir, ecGet, exec, hn, Store.serve, Store.get,
            h.dir hn, plain, Result.timeless, h, split_render hlist]

theorem read_represents {inum : Inum} (size off : UInt64) (hop : isfile inum = true) :
    Agrees ((Op.prog u (.read inum size off)).run Store.serve f)
      (exec fs (.read inum size off)) := by
  cases hn : fs inum with
  | none =>
      simp [Agrees, Op.prog, read, ecGet, exec, hn, Store.serve, Store.get, h.none hn,
        plain, Result.timeless, h]
  | some node =>
      cases node with
      | file c =>
          -- Past the end there is nothing to drop from.
          by_cases hoff : off.toNat < c.length
          · simp [Agrees, Op.prog, read, ecGet, exec, hn, Store.serve, Store.get, h.file hn,
              plain, Result.timeless, h, hoff]
          · have hnil : c.drop off.toNat = [] := List.drop_eq_nil_of_le (by omega)
            simp [Agrees, Op.prog, read, ecGet, exec, hn, Store.serve, Store.get, h.file hn,
              plain, Result.timeless, h, hoff, hnil]
      | dir d => exact absurd hn (hfs.not_dir hop)

/-- The scan finds the entry of the directory, and the inum is read back from its text. An entry
    that is found has an object, so the second call does not fail. -/
theorem lookup_represents {parent : Inum} (name : Bytes) (hop : isdir parent = true) :
    Agrees ((Op.prog u (.lookup parent name)).run Store.serve f)
      (exec fs (.lookup parent name)) := by
  cases hn : fs parent with
  | none =>
      simp [Agrees, Op.prog, lookup, ecGet, exec, hn, Store.serve, Store.get, h.none hn,
        plain, Result.timeless, h]
  | some node =>
      cases node with
      | file c => exact absurd hn (hfs.not_file hop)
      | dir d =>
          have hfind := findEntry_dir hfs hn name
          cases hd : d.find name with
          | none =>
              rw [hd] at hfind
              simp [Agrees, Op.prog, lookup, ecGet, exec, hn, Store.serve, Store.get, h.dir hn,
                hfind, hd, plain, Result.timeless, h]
          | some inum =>
              rw [hd] at hfind
              cases hchild : fs inum with
              | none =>
                  exact absurd hchild
                    (hfs.present parent (name, inum) ⟨d, hn, Directory.mem_of_find hd⟩)
              | some node =>
                  cases node with
                  | file c =>
                      have hkind := isdir_eq_false_of_isfile (hfs.file inum c hchild).1
                      simp [Agrees, Op.prog, lookup, ecGet, ecGetattr, exec, hn, Store.serve,
                        Store.get, Store.getattr, h.dir hn, hfind, hd, n2i_filename, hchild,
                        h.file hchild, plain, hkind, Attr.timeless, Node.attr, h]
                  | dir d' =>
                      have hkind := hfs.dir inum d' hchild
                      simp [Agrees, Op.prog, lookup, ecGet, ecGetattr, exec, hn, Store.serve,
                        Store.get, Store.getattr, h.dir hn, hfind, hd, n2i_filename, hchild,
                        h.dir hchild, plain, hkind, Node.attr, h]

/-- The new content is made from the size attribute. Files are below `2 ^ 32`, so that is the
    length. -/
theorem updatesize_represents {inum : Inum} (newSize : UInt64) (hop : isfile inum = true) :
    Agrees ((Op.prog u (.updatesize inum newSize)).run Store.serve f)
      (exec fs (.updatesize inum newSize)) := by
  cases hn : fs inum with
  | none =>
      simp [Agrees, Op.prog, updatesize, ecGetattr, exec, hn, Store.serve, Store.getattr,
        h.none hn, plain, Result.timeless, h]
  | some node =>
      cases node with
      | file c =>
          have hsize : resized c (sizeAttr c) newSize = resizeFile c newSize.toNat := by
            rw [resized_eq (hfs.file inum c hn).2, resizeFile, Nat.min_comm, ← List.take_take,
              List.take_length]
          have hput := h.update inum (.file (resizeFile c newSize.toNat)) hsize
          simp [Agrees, Op.prog, updatesize, ecGetattr, ecGet, ecPut, exec, hn, Store.serve,
            Store.getattr, Store.get, h.file hn, plain, Result.timeless, hput]
      | dir d => exact absurd hn (hfs.not_dir hop)

/-- A write ends below `2 ^ 32`. Above that the size attribute wraps, and the content is no longer
    the one of the file system. -/
theorem write_represents {inum : Inum} (buf : Bytes) {size off : UInt64}
    (hop : isfile inum = true) (hend : off.toNat + size.toNat < 2 ^ 32) :
    Agrees ((Op.prog u (.write inum buf size off)).run Store.serve f)
      (exec fs (.write inum buf size off)) := by
  cases hn : fs inum with
  | none =>
      simp [Agrees, Op.prog, write, ecGet, exec, hn, Store.serve, Store.get, h.none hn, plain,
        Result.timeless, h]
  | some node =>
      cases node with
      | file c =>
          have hlen := (hfs.file inum c hn).2
          have hwritten : written c (sizeAttr c) buf size off
              = writeFile c (writeChunk buf size) off.toNat := by
            unfold writeFile
            -- An empty file is not overwritten: what is written becomes its content, with no gap in
            -- front.
            by_cases hc : c = []
            · rw [if_pos hc, hc]
              exact written_of_attr_zero buf [] size off
            · rw [if_neg hc]
              refine written_eq_overwrite buf (fun hzero => hc ?_) fun _ => by omega
              rw [sizeAttr_eq_zero_iff, Nat.mod_eq_of_lt hlen] at hzero
              exact List.length_eq_zero_iff.mp hzero
          have hput := h.update inum (.file (writeFile c (writeChunk buf size) off.toNat)) hwritten
          simp [Agrees, Op.prog, write, ecGetattr, ecGet, ecPut, exec, hn, Store.serve,
            Store.getattr, Store.get, h.file hn, plain, Result.timeless, hput]
      | dir d => exact absurd hn (hfs.not_dir hop)

/-- A creation finds no parent, finds the name, or adds it; on the extents and in the file system
    alike. Files and directories both start with the empty text, so one lemma serves both. -/
theorem make_represents {parent inum : Inum} (name : Bytes) (node : Node)
    (hdir : isdir parent = true) (hne : inum ≠ parent) (hnode : [] = node.encode) :
    (f parent = none ∧ Function.update f inum (some []) parent = none ∧
        ∃ fs', make fs parent name inum node = (.ioerr, fs') ∧
          Represents (Function.update f inum (some [])) fs') ∨
      ∃ entries, f parent = some entries ∧ Function.update f inum (some []) parent = some entries ∧
        (((findEntry entries name).isSome = true ∧ make fs parent name inum node = (.exist, fs)) ∨
          (findEntry entries name = none ∧
            ∃ fs', make fs parent name inum node = (.ok, fs') ∧
              Represents (Function.update (Function.update f inum (some [])) parent
                (some (appendEntry entries name inum))) fs')) := by
  have hput := h.update inum node hnode
  -- The new extent is another one than the parent's, so the parent is read as it was.
  have hkeep : Function.update f inum (some []) parent = f parent :=
    Function.update_of_ne hne.symm _ _
  cases hn : fs parent with
  | none =>
      left
      rw [hkeep]
      refine ⟨h.none hn, h.none hn, _, ?_, hput⟩
      simp only [make, hn]
  | some x =>
      cases x with
      | file c => exact absurd hn (hfs.not_file hdir)
      | dir d =>
          have hfind := findEntry_dir hfs hn name
          refine Or.inr ⟨render d.entries, h.dir hn, hkeep.trans (h.dir hn), ?_⟩
          by_cases hname : name ∈ d.names
          · left
            constructor
            · rw [hfind, Option.isSome_map, Option.isSome_iff_ne_none, ne_eq,
                Directory.find_eq_none, not_not]
              exact hname
            · simp only [make, hn, dif_pos hname]
          · right
            refine ⟨?_, _, ?_, hput.update parent (.dir (d.add name inum hname))
              (appendEntry_render d.entries name inum)⟩
            · rw [hfind, Directory.find_eq_none.mpr hname]
              rfl
            · simp only [make, hn, dif_neg hname]

theorem create_represents {parent inum : Inum} (name : Bytes) (hdir : isdir parent = true)
    (hfile : isfile inum = true) :
    Agrees ((Op.prog u (.create parent name inum)).run Store.serve f)
      (exec fs (.create parent name inum)) := by
  have hne : inum ≠ parent := by
    rintro rfl
    rw [isdir_eq_false_of_isfile hfile] at hdir
    cases hdir
  rcases make_represents h hfs name (.file []) hdir hne rfl with
    ⟨hn, hkeep, fs', hmake, hrep⟩ | ⟨entries, hn, hkeep, ⟨hfound, hmake⟩ | ⟨hnew, fs', hmake, hrep⟩⟩
  · simp [Agrees, Op.prog, create, ecPut, exec, hmake, run_isExist_none hn,
      run_addEntry_none hkeep, Store.serve, plain, Result.timeless, hrep]
  · simp [Agrees, Op.prog, create, exec, hmake, run_isExist_some hn, hfound, plain,
      Result.timeless, h]
  -- The entry went to the parent, so the new file is still empty when it is asked for its size.
  · have hattr : Function.update (Function.update f inum (some [])) parent
        (some (appendEntry entries name inum)) inum = some [] := by
      rw [Function.update_of_ne hne, Function.update_self]
    simp [Agrees, Op.prog, create, ecPut, ecGetattr, exec, hmake, run_isExist_some hn, hnew,
      run_addEntry_some hkeep, Store.serve, Store.getattr, hattr, plain, Result.timeless,
      Attr.timeless, hrep, sizeAttr]

theorem mymkdir_represents {parent inum : Inum} (name : Bytes) (hdir : isdir parent = true)
    (hne : inum ≠ parent) :
    Agrees ((Op.prog u (.mymkdir parent name inum)).run Store.serve f)
      (exec fs (.mymkdir parent name inum)) := by
  rcases make_represents h hfs name (.dir Directory.empty) hdir hne rfl with
    ⟨hn, hkeep, fs', hmake, hrep⟩ | ⟨entries, hn, hkeep, ⟨hfound, hmake⟩ | ⟨hnew, fs', hmake, hrep⟩⟩
  · simp [Agrees, Op.prog, mymkdir, ecPut, exec, hmake, run_isExist_none hn,
      run_addEntry_none hkeep, Store.serve, plain, Result.timeless, hrep]
  · simp [Agrees, Op.prog, mymkdir, exec, hmake, run_isExist_some hn, hfound, plain,
      Result.timeless, h]
  · simp [Agrees, Op.prog, mymkdir, ecPut, exec, hmake, run_isExist_some hn, hnew,
      run_addEntry_some hkeep, Store.serve, plain, Result.timeless, hrep]

/-- The target is found in the text twice, by name and by inum. A directory stays; a file is left
    behind empty and without an entry. -/
theorem unlink_represents {parent : Inum} (name : Bytes) (hdir : isdir parent = true) :
    Agrees ((Op.prog u (.unlink parent name)).run Store.serve f)
      (exec fs (.unlink parent name)) := by
  cases hn : fs parent with
  | none =>
      simp [Agrees, Op.prog, unlink, exec, hn, run_isExist_none (h.none hn), plain,
        Result.timeless, h]
  | some node =>
      cases node with
      | file c => exact absurd hn (hfs.not_file hdir)
      | dir d =>
          have hsome := h.dir hn
          have hfind := findEntry_dir hfs hn name
          cases hd : d.find name with
          | none =>
              rw [hd] at hfind
              simp [Agrees, Op.prog, unlink, exec, hn, run_isExist_some hsome, hfind, hd, plain,
                Result.timeless, h]
          | some inum =>
              rw [hd] at hfind
              have htarget : unlinkTarget u (render d.entries) name = (filename inum, inum) := by
                simp only [unlinkTarget, hfind, Option.map_some, n2i_filename]
              by_cases hkind : isdir inum = true
              · simp [Agrees, Op.prog, unlink, ecGet, exec, hn, run_isExist_some hsome, hfind,
                  Store.serve, Store.get, hsome, htarget, hd, hkind, plain, Result.timeless, h]
              -- The text without the entry is the text of the directory without it.
              · have hremove := removeEntry_dir hfs hn hd
                have hgone : Represents (Function.update (Function.update f parent
                    (some (removeEntry (render d.entries) (filename inum) name))) inum (some []))
                    (Function.update (Function.update fs parent (some (.dir (d.remove name))))
                      inum (some (.file []))) :=
                  (h.update parent _ hremove).update inum _ rfl
                simp [Agrees, Op.prog, unlink, ecGet, ecPut, exec, hn, run_isExist_some hsome,
                  hfind, Store.serve, Store.get, hsome, htarget, hd, hkind, plain,
                  Result.timeless, hgone]

/-- One operation on the extents is the operation of the file system, if its arguments are proper:
    it leaves the extents of the file system that the operation leaves, and its result is the
    operation's but for times and for the sizes of directories. -/
theorem exec_represents {op : Op} (hop : Proper op) :
    Agrees ((op.prog u).run Store.serve f) (exec fs op) := by
  cases op with
  | getfile inum => exact getfile_represents u h hfs hop
  | getdir inum => exact getdir_represents u h hfs hop
  | create parent name inum => exact create_represents u h hfs name hop.1 hop.2.2
  | lookup parent name => exact lookup_represents u h hfs name hop
  | readdir parent => exact readdir_represents u h hfs hop
  | updatesize inum newSize => exact updatesize_represents u h hfs newSize hop.1
  | read inum size off => exact read_represents u h hfs size off hop
  | write inum buf size off => exact write_represents u h hfs buf hop.1 hop.2
  | mymkdir parent name inum => exact mymkdir_represents u h hfs name hop.1 hop.2.2.2
  | unlink parent name => exact unlink_represents u h hfs name hop

end Exec

/-! ## Any number of operations -/

variable {C : Type}

/-- The programs one after another on the extents of a file system, and the operations one after
    another on the file system. The induction is over the order, with the extents and the file
    system that are left by then. -/
theorem serial_represents (u : Uninit) {f : Store} {fs : State} (h : Represents f fs)
    (hfs : WellFormed fs) {order : List (C × Op)} (hproper : ∀ x ∈ order, Proper x.2)
    (hfresh : Fresh fs order) :
    (serial (Op.prog u) Store.serve order f).1.map (fun x => (x.1, x.2.1, plain x.2.2))
        = (execAll order fs).1 ∧
      Represents (serial (Op.prog u) Store.serve order f).2 (execAll order fs).2 := by
  induction order generalizing f fs with
  | nil => exact ⟨rfl, h⟩
  | cons x rest ih =>
      rcases x with ⟨c, op⟩
      have hop := hproper (c, op) List.mem_cons_self
      have hx := exec_represents u h hfs hop
      have hrest := ih hx.2 (wellFormed_exec hfs hop hfresh.head)
        (fun y hy => hproper y (List.mem_cons_of_mem _ hy)) (hfresh.tail hfs)
      refine ⟨?_, hrest.2⟩
      simp only [serial, execAll, List.map_cons, hrest.1, hx.1]

end FileSystem

end Yfs
