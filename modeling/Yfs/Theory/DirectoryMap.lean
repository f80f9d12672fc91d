import Yfs.Theory.DirectoryFormat
import Yfs.Theory.Operations

/-!
# Directories as Finite Maps

Whether a directory is a finite map from names to inums. `IsMapOf` is the reading side:
`readdir` lists the entries, and `lookup` finds a name exactly if it was created.
`MakesMap` is a whole sequence of creations: all of them return, the later ones under a
name that is there are refused, and what is left reads as a map. Everything goes through
one client's cache.

A sequence of creations makes such a map exactly if no name contains a space and no
creation is under the directory's own inum. Without spaces the content is `render` of the
entries created so far, and the readings are those of `Theory.DirectoryFormat`. A name
with a space is compared with tokens, which contain none; so its creation always
succeeds, and `readdir` never lists it. A creation under the directory's own inum takes
the lock of the directory and then waits for it: the sequence never comes to an end.

## Main definitions

* `LegalName`: What the kernel passes as a name.
* `created`: The creations that returned `OK`.
* `IsMapOf`: The two readings of a directory.
* `MakesMap`: What is asked of a sequence of creations.
* `Lists`: The content of a directory without spaces.

## Theorems

* `creation_runs`: One creation.
* `runOps_creations`, `runOps_blocks`: A sequence of creations that returns, and one that
  does not.
* `Lists.isMapOf`, `Lists.again`: A directory without spaces is a map.
* `makesMap_iff`: Exactly when a sequence of creations makes one.
* `created_not_listed`: A name with a space.
-/

namespace Yfs

open Txn

/-- A name the kernel can pass: not empty, without NUL and slash. -/
def LegalName (name : Bytes) : Prop :=
  name ≠ [] ∧ 0 ∉ name ∧ 47 ∉ name

/-- The names and inums of the creations that returned `OK`. -/
def created : List Creation → List Result → List (Bytes × Inum)
  | c :: cs, r :: rs =>
      if r.ret = .ok then (c.name, c.inum) :: created cs rs else created cs rs
  | _, _ => []

/-- The directory `dir` reads as the map with the pairs `made`: `fuseserver_readdir` takes
    exactly these pairs out of the tokens, each once, and `lookup` sets `found` for exactly
    these names, with their inums. -/
structure IsMapOf (u : Uninit) (clock : Nat → UInt32) (dir : Inum)
    (made : List (Bytes × Inum)) (s : Cached) : Prop where
  listed : ∃ keyValues held s',
    (readdir dir).runLocked (Cached.serve clock) ∅ s = some ((.ok, keyValues), held, s') ∧
      (readdirEntries u.finum keyValues).Perm made
  found : ∀ name, LegalName name → ∃ st entry held s',
    (lookup u dir name).runLocked (Cached.serve clock) ∅ s = some ((st, entry), held, s') ∧
      ∀ inum, entry.map Prod.fst = some inum ↔ (name, inum) ∈ made

/-- The creations `calls` in `dir`, one after another, make a finite map. They return and
    leave a directory that reads as the map of those that returned `OK`; and each of them
    under a name that one before it has created returns `EXIST` and leaves the content of
    the directory as it was. -/
structure MakesMap (u : Uninit) (clock : Nat → UInt32) (dir : Inum) (calls : List Creation)
    (s : Cached) : Prop where
  reads : ∃ rs held s',
    runOps u (Cached.serve clock) (calls.map (·.op dir)) ∅ s = some (rs, held, s') ∧
      IsMapOf u clock dir (created calls rs) s'
  again : ∀ before c after, calls = before ++ c :: after → ∀ rs held s',
    runOps u (Cached.serve clock) (before.map (·.op dir)) ∅ s = some (rs, held, s') →
    c.name ∈ (created before rs).map Prod.fst →
    ∃ r held' s'',
      ((c.op dir).prog u).runLocked (Cached.serve clock) held s' = some (r, held', s'') ∧
        r.ret = .exist ∧ s''.content dir = s'.content dir

/-- `entries` is the content of a directory with the pairs `made`, under distinct names
    that are one token each. -/
structure Lists (entries : Bytes) (made : List (Bytes × Inum)) : Prop where
  content : entries = render made
  listable : ∀ e ∈ made, Listable e.1
  nodup : (made.map Prod.fst).Nodup

theorem lists_nil : Lists [] [] :=
  ⟨rfl, fun _ he => absurd he List.not_mem_nil, List.nodup_nil⟩

/-- The scan finds exactly the names that were made. -/
theorem Lists.findEntry_isSome {entries : Bytes} {made : List (Bytes × Inum)}
    (h : Lists entries made) (name : Bytes) :
    (findEntry entries name).isSome = true ↔ name ∈ made.map Prod.fst := by
  rw [h.content, findEntry_render h.listable, Option.isSome_map, List.find?_isSome, List.mem_map]
  simp only [beq_iff_eq]
  exact exists_congr fun e => and_congr_right fun _ => eq_comm

/-- Under distinct names the first entry with a name is the only one. -/
theorem Lists.find?_eq_some {entries : Bytes} {made : List (Bytes × Inum)}
    (h : Lists entries made) (name : Bytes) (inum : Inum) :
    (made.find? fun e => name == e.1).map Prod.snd = some inum ↔ (name, inum) ∈ made := by
  constructor
  · intro hfind
    rcases Option.map_eq_some_iff.mp hfind with ⟨m, hm, rfl⟩
    have hname := List.find?_some hm
    rw [beq_iff_eq] at hname
    rw [hname]
    exact List.mem_of_find?_eq_some hm
  · intro hmem
    have hsome : (made.find? fun e => name == e.1).isSome = true :=
      List.find?_isSome.mpr ⟨_, hmem, beq_self_eq_true name⟩
    rcases Option.isSome_iff_exists.mp hsome with ⟨m, hm⟩
    have hname := List.find?_some hm
    rw [beq_iff_eq] at hname
    -- Two entries under one name are one entry.
    rw [hm, List.inj_on_of_nodup_map h.nodup (List.mem_of_find?_eq_some hm) hmem hname.symm]
    rfl

theorem Lists.append {entries : Bytes} {made : List (Bytes × Inum)} (h : Lists entries made)
    {name : Bytes} (inum : Inum) (hname : Listable name)
    (hnew : ¬ (findEntry entries name).isSome = true) :
    Lists (appendEntry entries name inum) (made ++ [(name, inum)]) := by
  rw [h.findEntry_isSome] at hnew
  refine ⟨by rw [h.content, appendEntry_render], ?_, ?_⟩
  · intro e he
    rcases List.mem_append.mp he with he | he
    · exact h.listable e he
    · rw [List.mem_singleton.mp he]
      exact hname
  · rw [List.map_append, List.map_singleton]
    exact List.nodup_append_comm.mp (List.nodup_cons.mpr ⟨hnew, h.nodup⟩)

section Run

variable (u : Uninit) (clock : Nat → UInt32) {dir : Inum} {s : Cached} {f : Store}

/-- A creation in a directory with content `entries` returns; it finds the name and
    changes nothing, or adds it at the end. -/
theorem creation_runs {entries : Bytes} (hs : s.Holds f) (hdir : f dir = some entries)
    (c : Creation) (hne : c.inum ≠ dir) :
    ∃ r s' f', ((c.op dir).prog u).runLocked (Cached.serve clock) ∅ s = some (r, ∅, s') ∧
      s'.Holds f' ∧
      if (findEntry entries c.name).isSome then r.ret = .exist ∧ f' dir = some entries
      else r.ret = .ok ∧ f' dir = some (appendEntry entries c.name c.inum) := by
  rcases creation_on_store u hdir c hne with ⟨r', f', hrun, hcase⟩
  -- What happens on the store happens behind the cache.
  rcases (twoPhase_prog (H := ∅) u (c.op dir)).runLocked_of_some (cached_answers clock) hs hrun with
    ⟨⟨r, held, s'⟩, hrun', hres, hheld, hs'⟩
  change held = ∅ at hheld
  subst hheld
  refine ⟨r, s', f', hrun', hs', ?_⟩
  rw [hres.ret_eq]
  split at hcase
  · rename_i hfound
    rw [if_pos hfound]
    exact ⟨hcase.1, hcase.2 ▸ hdir⟩
  · rename_i hfound
    rw [if_neg hfound]
    refine ⟨hcase.1, ?_⟩
    rw [hcase.2]
    exact Function.update_self _ _ _

theorem runOps_cons {σ : Type} (serve : Inum → (o : ExtentCall) → σ → o.Answer × σ) (op : Op)
    (ops : List Op) {held held' : Finset Inum} {s s' : σ} {r : Result}
    (h : (op.prog u).runLocked serve held s = some (r, held', s')) :
    runOps u serve (op :: ops) held s
      = (runOps u serve ops held' s').map fun x => (r :: x.1, x.2) := by
  rw [runOps, h, Option.map_eq_bind]
  rfl

/-- A sequence of creations, from a directory with content `entries`: every creation
    under a name with a space succeeds, and without such names the content grows by the
    creations that succeed. -/
theorem runOps_creations (calls : List Creation) (hinum : ∀ c ∈ calls, c.inum ≠ dir)
    {entries : Bytes} (hs : s.Holds f) (hdir : f dir = some entries) :
    ∃ rs s' f' entries',
      runOps u (Cached.serve clock) (calls.map (·.op dir)) ∅ s = some (rs, ∅, s') ∧
      s'.Holds f' ∧ f' dir = some entries' ∧
      (∀ c ∈ calls, 32 ∈ c.name → (c.name, c.inum) ∈ created calls rs) ∧
      ∀ made, Lists entries made → (∀ c ∈ calls, Listable c.name) →
        Lists entries' (made ++ created calls rs) := by
  -- The first creation leaves a directory to which the rest is applied.
  induction calls generalizing s f entries with
  | nil =>
      refine ⟨[], s, f, entries, rfl, hs, hdir, fun c hc => absurd hc List.not_mem_nil, ?_⟩
      intro made hmade _
      rwa [show created [] [] = [] from rfl, List.append_nil]
  | cons c cs ih =>
      rcases creation_runs u clock hs hdir c (hinum c List.mem_cons_self) with
        ⟨r, s₁, f₁, hrun, hs₁, hcase⟩
      have hinum' := fun x hx => hinum x (List.mem_cons_of_mem c hx)
      by_cases hfound : (findEntry entries c.name).isSome = true
      · -- The name is there: nothing changes, and nothing is made.
        rw [if_pos hfound] at hcase
        rcases ih hinum' hs₁ hcase.2 with ⟨rs, s', f', entries', hrest, hs', hdir', hspace, hmade⟩
        have hcreated : created (c :: cs) (r :: rs) = created cs rs := by
          rw [created, hcase.1, if_neg (by decide)]
        rw [← hcreated] at hspace hmade
        refine ⟨r :: rs, s', f', entries', ?_, hs', hdir', ?_, ?_⟩
        · rw [List.map_cons, runOps_cons u _ _ _ hrun, hrest]
          rfl
        · intro x hx hsp
          rcases List.mem_cons.mp hx with rfl | hx
          · rw [findEntry_eq_none hsp] at hfound
            exact absurd hfound (by decide)
          · exact hspace x hx hsp
        · exact fun made hl hnames =>
            hmade made hl fun x hx => hnames x (List.mem_cons_of_mem c hx)
      · -- The name is new: one entry more, and the rest starts from there.
        rw [if_neg hfound] at hcase
        rcases ih hinum' hs₁ hcase.2 with ⟨rs, s', f', entries', hrest, hs', hdir', hspace, hmade⟩
        have hcreated : created (c :: cs) (r :: rs) = (c.name, c.inum) :: created cs rs := by
          rw [created, hcase.1, if_pos rfl]
        refine ⟨r :: rs, s', f', entries', ?_, hs', hdir', ?_, ?_⟩
        · rw [List.map_cons, runOps_cons u _ _ _ hrun, hrest]
          rfl
        · intro x hx hsp
          rw [hcreated]
          rcases List.mem_cons.mp hx with rfl | hx
          · exact List.mem_cons_self
          · exact List.mem_cons_of_mem _ (hspace x hx hsp)
        · intro made hl hnames
          have hnext := hmade _ (hl.append c.inum (hnames c List.mem_cons_self) hfound)
            fun x hx => hnames x (List.mem_cons_of_mem c hx)
          rwa [List.append_assoc, List.singleton_append, ← hcreated] at hnext

/-- One creation under the directory's own inum, and the sequence does not come to an end:
    the creations before it may return, but this one waits for itself. -/
theorem runOps_blocks (calls : List Creation) {c : Creation} (hc : c ∈ calls)
    (heq : c.inum = dir) (held : Finset Inum) (s : Cached) :
    runOps u (Cached.serve clock) (calls.map (·.op dir)) held s = none := by
  induction calls generalizing held s with
  | nil => exact absurd hc List.not_mem_nil
  | cons c' cs ih =>
      rw [List.map_cons]
      cases hrun : ((c'.op dir).prog u).runLocked (Cached.serve clock) held s with
      | none =>
          rw [runOps, hrun]
          rfl
      | some out =>
          rcases out with ⟨r, held', s'⟩
          have hne : c'.inum ≠ dir := by
            intro hself
            rw [creation_blocks u _ dir c' hself] at hrun
            exact Option.some_ne_none _ hrun.symm
          -- The first creation returned, so it is not the one in question.
          rcases List.mem_cons.mp hc with rfl | hc
          · exact absurd heq hne
          · rw [runOps_cons u _ _ _ hrun, ih hc, Option.map_none]

theorem mem_created {calls : List Creation} {rs : List Result} {e : Bytes × Inum}
    (h : e ∈ created calls rs) : ∃ c ∈ calls, e = (c.name, c.inum) := by
  induction calls, rs using created.induct with
  | case1 c cs r rs hok ih =>
      rw [created, if_pos hok] at h
      rcases List.mem_cons.mp h with rfl | h
      · exact ⟨c, List.mem_cons_self, rfl⟩
      · rcases ih h with ⟨x, hx, hxe⟩
        exact ⟨x, List.mem_cons_of_mem c hx, hxe⟩
  | case2 c cs r rs hok ih =>
      rw [created, if_neg hok] at h
      rcases ih h with ⟨x, hx, hxe⟩
      exact ⟨x, List.mem_cons_of_mem c hx, hxe⟩
  | case3 calls rs hne =>
      rw [created] at h
      · exact absurd h List.not_mem_nil
      · exact hne

/-- A directory with one-token names reads as the map of its entries. -/
theorem Lists.isMapOf {entries : Bytes} {made : List (Bytes × Inum)} (h : Lists entries made)
    (hs : s.Holds f) (hdir : f dir = some entries) (hinum : ∀ e ∈ made, e.2 ≠ dir)
    (hnul : ∀ e ∈ made, 0 ∉ e.1) : IsMapOf u clock dir made s where
  listed := by
    rcases (twoPhase_readdir (H := ∅) dir).runLocked_of_some (cached_answers clock) hs
      (readdir_on_store hdir) with ⟨⟨r, held, s'⟩, hrun, hres, _, _⟩
    change r = (.ok, split entries sep) at hres
    subst hres
    refine ⟨_, held, s', hrun, ?_⟩
    rw [h.content, readdirEntries_render u.finum h.listable hnul]
  found := by
    intro name _
    -- The entry that the scan stops at has the text of its inum.
    have hscan : (findEntry entries name).map (fun e => n2i u.finum e.1)
        = (made.find? fun e => name == e.1).map Prod.snd := by
      rw [h.content, findEntry_render h.listable, Option.map_map]
      simp only [Function.comp_def, n2i_filename]
    have hchild : ∀ e, findEntry entries name = some e → n2i u.finum e.1 ≠ dir := by
      intro e he
      rw [he, Option.map_some] at hscan
      rcases Option.map_eq_some_iff.mp hscan.symm with ⟨m, hm, hme⟩
      rw [← hme]
      exact hinum m (List.mem_of_find?_eq_some hm)
    rcases lookup_on_store u hdir name hchild with ⟨st, entry, hstore, hentry⟩
    rcases (twoPhase_lookup (H := ∅) u dir name).runLocked_of_some (cached_answers clock) hs
      hstore with ⟨⟨⟨st', entry'⟩, held, s'⟩, hrun, hres, _, _⟩
    refine ⟨st', entry', held, s', hrun, fun inum => ?_⟩
    have hsame : entry'.map Prod.fst = entry.map Prod.fst := by
      have hmap := congrArg (Option.map Prod.fst) (Result.found.inj hres).2
      rwa [Option.map_map, Option.map_map] at hmap
    rw [hsame, hentry, hscan]
    exact h.find?_eq_some name inum

/-- In such a directory a further creation under a name that is there is refused, and the
    content stays as it is. -/
theorem Lists.again {entries : Bytes} {made : List (Bytes × Inum)} (h : Lists entries made)
    (hs : s.Holds f) (hdir : f dir = some entries) (c : Creation) (hne : c.inum ≠ dir)
    (hmem : c.name ∈ made.map Prod.fst) :
    ∃ r s', ((c.op dir).prog u).runLocked (Cached.serve clock) ∅ s = some (r, ∅, s') ∧
      r.ret = .exist ∧ s'.content dir = s.content dir := by
  rcases creation_runs u clock hs hdir c hne with ⟨r, s', f', hrun, hs', hcase⟩
  rw [if_pos ((h.findEntry_isSome c.name).mpr hmem)] at hcase
  refine ⟨r, s', hrun, hcase.1, ?_⟩
  rw [hs'.content, hs.content, hcase.2, hdir]

/-- A directory that reads as a map lists the names that were created, and no listed name
    contains a space. -/
theorem IsMapOf.no_space {entries : Bytes} {made : List (Bytes × Inum)}
    (h : IsMapOf u clock dir made s) (hs : s.Holds f) (hdir : f dir = some entries)
    {e : Bytes × Inum} (he : e ∈ made) : 32 ∉ e.1 := by
  intro hsp
  rcases h.listed with ⟨keyValues, held, s', hread, hperm⟩
  rcases (twoPhase_readdir (H := ∅) dir).runLocked_of_some (cached_answers clock) hs
    (readdir_on_store hdir) with ⟨r, hread', hres, _, _⟩
  rw [hread] at hread'
  have hkv : keyValues = split entries sep :=
    congrArg Prod.snd (congrArg Prod.fst (Option.some.inj hread') |>.trans hres)
  have hlisted := hperm.mem_iff.mpr he
  rw [hkv] at hlisted
  exact space_notMem_readdirEntries u.finum entries _ hlisted hsp

/-- A sequence of creations in an empty directory makes a finite map exactly if no name contains a
    space and no creation is under the inum of the directory. Entries are separated by spaces, so a
    name with a space is two tokens: it is not found again and can be created twice. Under the inum
    of the directory a creation asks for a lock that its own thread has, and does not return. -/
theorem makesMap_iff (hs : s.Holds f) (hempty : f dir = some []) (calls : List Creation)
    (hlegal : ∀ c ∈ calls, LegalName c.name) :
    MakesMap u clock dir calls s ↔ ∀ c ∈ calls, 32 ∉ c.name ∧ c.inum ≠ dir := by
  constructor
  · rintro ⟨⟨rs, held, s', hrun, hmap⟩, _⟩
    have hinum : ∀ c ∈ calls, c.inum ≠ dir := by
      intro c hc heq
      rw [runOps_blocks u clock calls hc heq] at hrun
      exact Option.some_ne_none _ hrun.symm
    rcases runOps_creations u clock calls hinum hs hempty with
      ⟨rs', s'', f', entries', hrun', hs', hdir', hspace, _⟩
    cases hrun.symm.trans hrun'
    -- A name with a space would be among those created, and so be listed.
    exact fun c hc =>
      ⟨fun hsp => hmap.no_space u clock hs' hdir' (hspace c hc hsp) hsp, hinum c hc⟩
  · intro hcalls
    -- What holds of the whole sequence holds of its beginnings, which `again` asks for.
    have hlists : ∀ before, (∀ c ∈ before, c ∈ calls) → ∃ rs s' f' entries',
        runOps u (Cached.serve clock) (before.map (·.op dir)) ∅ s = some (rs, ∅, s') ∧
          s'.Holds f' ∧ f' dir = some entries' ∧ Lists entries' (created before rs) := by
      intro before hsub
      rcases runOps_creations u clock before (fun c hc => (hcalls c (hsub c hc)).2) hs hempty with
        ⟨rs, s', f', entries', hrun, hs', hdir', _, hmade⟩
      exact ⟨rs, s', f', entries', hrun, hs', hdir', hmade [] lists_nil fun c hc =>
        ⟨(hlegal c (hsub c hc)).1, (hcalls c (hsub c hc)).1⟩⟩
    constructor
    · rcases hlists calls (fun _ hc => hc) with ⟨rs, s', f', entries', hrun, hs', hdir', hl⟩
      refine ⟨rs, ∅, s', hrun, hl.isMapOf u clock hs' hdir' ?_ ?_⟩
      · intro e he
        rcases mem_created he with ⟨c, hc, rfl⟩
        exact (hcalls c hc).2
      · intro e he
        rcases mem_created he with ⟨c, hc, rfl⟩
        exact (hlegal c hc).2.1
    · rintro before c after rfl rs held s' hrun hmem
      rcases hlists before (fun _ hc => List.mem_append_left _ hc) with
        ⟨rs', s'', f', entries', hrun', hs', hdir', hl⟩
      cases hrun.symm.trans hrun'
      have hne := (hcalls c (List.mem_append_right _ List.mem_cons_self)).2
      rcases hl.again u clock hs' hdir' c hne hmem with ⟨r, s'', hagain⟩
      exact ⟨r, ∅, s'', hagain⟩

end Run

/-- A file `f` and a directory `d` made in the root, and `f` once more. -/
theorem makesMap_file_and_dir :
    MakesMap ⟨0, 0⟩ (fun _ => 0) 1
      [⟨false, [102], 0x80000000⟩, ⟨true, [100], 5⟩, ⟨false, [102], 0x80000001⟩]
      ⟨.new, .new 0, 0⟩ :=
  (makesMap_iff ⟨0, 0⟩ (fun _ => 0) (Cached.holds_new 0 0) rfl _ (by simp [LegalName])).mpr
    (by simp)

/-- The name `a b`, created in the root: `readdir` lists `a`, `lookup` does not find it,
    and creating it again succeeds. -/
theorem created_not_listed :
    (runOps ⟨0, 0⟩ (Cached.serve fun _ => 0)
      [.create 1 [97, 32, 98] 0x80000000, .readdir 1, .lookup 1 [97, 32, 98],
        .create 1 [97, 32, 98] 0x80000001] ∅ ⟨.new, .new 0, 0⟩).map (fun r => r.1)
      = some [.attr .ok (some ⟨0, 0, 0, 0⟩), .tokens .ok [filename 0x80000000, [97], [98]],
          .found .ok none, .attr .ok (some ⟨0, 0, 0, 0⟩)] ∧
    readdirEntries 0 [filename 0x80000000, [97], [98]] = [([97], 0x80000000)] := by
  decide +kernel

end Yfs
