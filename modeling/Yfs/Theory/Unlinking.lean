import Yfs.Theory.DirectoryMap

/-!
# Unlinking

What `unlink` takes out of a directory.

The loop that writes the directory back knows nothing of entries. It drops every token
that is the removed name or the text of the removed inum, wherever it stands: the inum of
another name for the same file, a file whose name is that numeral, an entry whose inum
reads like the removed name. Then an odd number of tokens may be left, and names and inums
change places from there on. Without such a coincidence exactly one entry goes
(`split_removeEntry_iff`).

The two ways out before that only read the directory. A read may fill the cache and sets
an access time on the server; `Untouched` says that it changes nothing else.

## Main definitions

* `Untouched`: No content, attribute or dirty mark has changed, but for access times.
* `UnlinksOne`: What an `unlink` is to do.

## Theorems

* `split_removeEntry_iff`: When the directory loses one entry.
* `unlink_noent`, `unlink_ioerr`, `unlink_ok`: The three ways out of an `unlink` whose
  calls succeed.
* `untouched_get`: Reading changes nothing.
* `unlinksOne_iff`: Exactly when an `unlink` does what it is to do.
* `unlink_takes_two`: One that does not.
-/

namespace Yfs

open Extent Txn

/-! ## The tokens that are left -/

section Tokens

variable {es : List (Bytes × Inum)} {name : Bytes} {inum : Inum}

/-- The tokens of the removed entry itself are always dropped. -/
theorem filter_tokens (h : ∀ e ∈ es, e.1 = name → e.2 = inum) :
    (tokens es).filter (fun t => t != filename inum && t != name)
      = (tokens (es.filter fun e => e.1 != name)).filter
          fun t => t != filename inum && t != name := by
  induction es with
  | nil => rfl
  | cons e es ih =>
      have hrest := ih fun x hx => h x (List.mem_cons_of_mem e hx)
      by_cases he : e.1 = name
      -- Both tokens of this entry go on the left, and it is not there on the right.
      · have hinum := h e List.mem_cons_self he
        rw [List.filter_cons_of_neg (by simp only [he, bne_self_eq_false, Bool.false_eq_true,
          not_false_eq_true]), tokens_cons, hinum, he, List.filter_cons_of_neg (by simp),
          List.filter_cons_of_neg (by simp), hrest]
      · rw [List.filter_cons_of_pos (by simpa using he), tokens_cons, tokens_cons,
          List.filter_cons, List.filter_cons, List.filter_cons, List.filter_cons, hrest]

/-- The directory without one entry is read from what is written back exactly if no token of another
    entry is dropped. `removeEntry` compares every token with both the name and the text of the
    inum, and does not look which of the two a token is. -/
theorem split_removeEntry_iff (hnames : ∀ e ∈ es, Listable e.1)
    (hinum : ∀ e ∈ es, e.1 = name → e.2 = inum) :
    split (removeEntry (render es) (filename inum) name) sep
        = tokens (es.filter fun e => e.1 != name) ↔
      ∀ e ∈ es, e.1 ≠ name → e.2 ≠ inum ∧ e.1 ≠ filename inum ∧ filename e.2 ≠ name := by
  have hsplit : split (removeEntry (render es) (filename inum) name) sep
      = (tokens es).filter fun t => t != filename inum && t != name := by
    rw [removeEntry, split_render hnames]
    refine split_joined fun t ht => ?_
    rcases mem_tokens.mp (List.mem_of_mem_filter ht) with ⟨e, he, rfl | rfl⟩
    · exact ⟨filename_ne_nil e.2, space_notMem_filename e.2⟩
    · exact hnames e he
  rw [hsplit, filter_tokens hinum, List.filter_eq_self]
  constructor
  · intro h e he hne
    have hmem : e ∈ es.filter fun e => e.1 != name :=
      List.mem_filter.mpr ⟨he, bne_iff_ne.mpr hne⟩
    have htext := h _ (mem_tokens.mpr ⟨e, hmem, Or.inl rfl⟩)
    have hname := h _ (mem_tokens.mpr ⟨e, hmem, Or.inr rfl⟩)
    rw [Bool.and_eq_true, bne_iff_ne, bne_iff_ne] at htext hname
    exact ⟨fun heq => htext.1 (filename_inj.mpr heq), hname.1, htext.2⟩
  · intro h t ht
    rcases mem_tokens.mp ht with ⟨e, hmem, ht⟩
    rcases List.mem_filter.mp hmem with ⟨he, hne⟩
    rw [bne_iff_ne] at hne
    have hkept := h e he hne
    rw [Bool.and_eq_true, bne_iff_ne, bne_iff_ne]
    rcases ht with rfl | rfl
    · exact ⟨fun heq => hkept.1 (filename_inj.mp heq), hkept.2.2⟩
    · exact ⟨hkept.2.1, hne⟩

end Tokens

/-! ## The ways out -/

section WaysOut

variable {σ : Type} (u : Uninit) (serve : Inum → (o : ExtentCall) → σ → o.Answer × σ)
  {parent : Inum} {name entries : Bytes} {s : σ}

/-- The name is not there: one read, and no lock is left. -/
theorem unlink_noent (hget : (serve parent .get s).1 = (.ok, entries))
    (hnone : findEntry entries name = none) :
    (unlink u parent name).runLocked serve ∅ s
      = some (.noent, ∅, (serve parent .get s).2) := by
  rw [unlink, runLocked_withLock, if_neg (Finset.notMem_empty parent), runLocked_bind,
    isExist_runs serve hget]
  simp only [hnone, Option.isSome_none, Option.bind_some, Bool.not_false, if_true,
    runLocked_pure, Option.map_some, Finset.erase_insert (Finset.notMem_empty parent)]

variable (hget : (serve parent .get s).1 = (.ok, entries))
  (hagain : (serve parent .get (serve parent .get s).2).1 = (.ok, entries))
  {entry : Bytes × Bytes} (hfound : findEntry entries name = some entry)

include hget hagain hfound

/-- It is a directory's: two reads, and no lock is left. -/
theorem unlink_ioerr (hdir : isdir (n2i u.finum entry.1) = true) :
    (unlink u parent name).runLocked serve ∅ s
      = some (.ioerr, ∅, (serve parent .get (serve parent .get s).2).2) := by
  rw [unlink, runLocked_withLock, if_neg (Finset.notMem_empty parent), runLocked_bind,
    isExist_runs serve hget]
  simp only [hfound, Option.isSome_some, Option.bind_some, Bool.not_true, Bool.false_eq_true,
    if_false, runLocked_bind, runLocked_ecGet, hagain, ne_eq, not_true_eq_false, unlinkTarget,
    hdir, if_true, runLocked_pure, Option.map_some,
    Finset.erase_insert (Finset.notMem_empty parent)]

/-- The lock of the freed file is among those the caller has then. -/
theorem unlink_ok (hput : ∀ eid buf s, (serve eid (.put buf) s).1 = .ok)
    (hfile : isdir (n2i u.finum entry.1) = false) (hne : n2i u.finum entry.1 ≠ parent) :
    ∃ held, (unlink u parent name).runLocked serve ∅ s
      = some (.ok, held, (serve (n2i u.finum entry.1) (.put [])
          (serve parent (.put (removeEntry entries entry.1 name))
            (serve parent .get (serve parent .get s).2).2).2).2) := by
  have hfree : n2i u.finum entry.1 ∉ (insert parent ∅ : Finset Inum) := by
    rw [Finset.mem_insert, not_or]
    exact ⟨hne, Finset.notMem_empty _⟩
  refine ⟨Finset.erase (insert (n2i u.finum entry.1) (insert parent ∅)) parent, ?_⟩
  rw [unlink, runLocked_withLock, if_neg (Finset.notMem_empty parent), runLocked_bind,
    isExist_runs serve hget]
  simp only [hfound, Option.isSome_some, Option.bind_some, Bool.not_true, Bool.false_eq_true,
    if_false, runLocked_bind, runLocked_ecGet, runLocked_ecPut, runLocked_lock, hagain, hput,
    ne_eq, not_true_eq_false, unlinkTarget, hfile, if_neg hfree, runLocked_pure,
    Option.map_some]

end WaysOut

/-! ## Reading only -/

/-- All of an attribute record but the access time. -/
def Attr.unread (a : Attr) : Attr :=
  { a with atime := 0 }

/-- Every extent is as it was, in the cache, at the server, and as the client sees it. -/
structure Untouched (s s' : Cached) : Prop where
  content : s'.content = s.content
  stored : s'.server.contentMap = s.server.contentMap
  attr : ∀ e, (s'.server.attrMap e).map Attr.unread = (s.server.attrMap e).map Attr.unread
  cachedAttr : s'.client.attrMapCache = s.client.attrMapCache
  dirty : s'.client.dirtyEidSet = s.client.dirtyEidSet

/-- Reading twice touches nothing either. -/
theorem Untouched.trans {s s' s'' : Cached} (h : Untouched s s') (h' : Untouched s' s'') :
    Untouched s s'' where
  content := h'.content.trans h.content
  stored := h'.stored.trans h.stored
  attr e := (h'.attr e).trans (h.attr e)
  cachedAttr := h'.cachedAttr.trans h.cachedAttr
  dirty := h'.dirty.trans h.dirty

/-- A `get` fills the cache of contents only. -/
theorem ExtentClient.get_others (c : ExtentClient) (eid : Inum) (rpc : Status × Bytes) :
    (c.get eid rpc).2.attrMapCache = c.attrMapCache ∧
      (c.get eid rpc).2.dirtyEidSet = c.dirtyEidSet := by
  unfold ExtentClient.get
  split
  · exact ⟨rfl, rfl⟩
  · split
    · exact ⟨rfl, rfl⟩
    · exact ⟨rfl, rfl⟩

section Reading

variable (clock : Nat → UInt32) {s : Cached} {f : Store}

/-- A `get` touches nothing but an access time and the cache of contents. -/
theorem untouched_get (eid : Inum) (hs : s.Holds f) :
    Untouched s (Cached.serve clock eid .get s).2 := by
  have hcontent : (Cached.serve clock eid .get s).2.content = s.content := by
    have hs' : (Cached.serve clock eid .get s).2.Holds f := (cached_answers clock eid .get s f hs).2
    exact funext fun e => (hs'.content e).trans (hs.content e).symm
  have hstored := (Cached.serve_server clock eid .get s).1
  cases hc : s.client.contentMapCache eid with
  | some buf =>
      -- The answer is cached, and nothing happens at all.
      rw [show (Cached.serve clock eid .get s).2 = ⟨s.client, s.server, s.ticks + 1⟩ by
        simp only [Cached.serve, s.client.fetch_cached s.server _ eid buf hc]]
      exact ⟨rfl, rfl, fun _ => rfl, rfl, rfl⟩
  | none =>
      have hothers := s.client.get_others eid (s.server.get (clock s.ticks) eid).1
      have hstate : (Cached.serve clock eid .get s).2
          = ⟨(s.client.get eid (s.server.get (clock s.ticks) eid).1).2,
            (s.server.get (clock s.ticks) eid).2, s.ticks + 1⟩ := by
        simp only [Cached.serve, ExtentClient.fetch, hc]
      rw [hstate] at hcontent hstored ⊢
      exact ⟨hcontent, hstored,
        s.server.get_attrMap Attr.unread (fun _ _ => rfl) (clock s.ticks) eid,
        hothers.1, hothers.2⟩

end Reading

/-! ## What an `unlink` is to do -/

/-- The status `st` and the state `s'` after an `unlink` of `name` in the directory `parent`
    with the entries `es`. -/
structure UnlinksOne (parent : Inum) (es : List (Bytes × Inum)) (name : Bytes) (st : YfsStatus)
    (s s' : Cached) : Prop where
  absent : name ∉ es.map Prod.fst → st = .noent ∧ Untouched s s'
  directory : ∀ i, (name, i) ∈ es → isdir i = true → st = .ioerr ∧ Untouched s s'
  file : ∀ i, (name, i) ∈ es → isfile i = true → st = .ok ∧ ∃ entries,
    s'.content parent = some entries ∧
      split entries sep = tokens (es.filter fun e => e.1 != name)

/-- The scan finds an entry that is listed. -/
theorem Lists.findEntry_of_mem {entries : Bytes} {es : List (Bytes × Inum)}
    (h : Lists entries es) {name : Bytes} {inum : Inum} (hmem : (name, inum) ∈ es) :
    findEntry entries name = some (filename inum, name) := by
  rcases Option.map_eq_some_iff.mp ((h.find?_eq_some name inum).mpr hmem) with ⟨e, he, rfl⟩
  have hname := List.find?_some he
  rw [beq_iff_eq] at hname
  rw [h.content, findEntry_render h.listable, he, Option.map_some, hname]

/-- The entry under a name is the only one under it. -/
theorem Lists.inum_eq {entries : Bytes} {es : List (Bytes × Inum)} (h : Lists entries es)
    {name : Bytes} {inum : Inum} (hmem : (name, inum) ∈ es) :
    ∀ e ∈ es, e.1 = name → e.2 = inum := by
  intro e he hname
  rw [List.inj_on_of_nodup_map h.nodup he hmem hname]

theorem isdir_eq_false_iff {inum : Inum} : isdir inum = false ↔ isfile inum = true := by
  rw [isdir, Bool.not_eq_false']

section Unlink

variable (u : Uninit) (clock : Nat → UInt32) {s : Cached} {f : Store} {parent : Inum}
  {es : List (Bytes × Inum)} {entries name : Bytes}

/-- The directory is read, from the cache or from the server. -/
theorem Cached.get_answers (hs : s.Holds f) (hdir : f parent = some entries) :
    (Cached.serve clock parent .get s).1 = (.ok, entries) ∧
      (Cached.serve clock parent .get s).2.Holds f := by
  have h := cached_answers clock parent .get s f hs
  refine ⟨h.1.trans ?_, h.2⟩
  simp only [Store.serve, Store.get, hdir]

/-- Without the name. -/
theorem unlinksOne_absent (hs : s.Holds f) (hdir : f parent = some entries)
    (hl : Lists entries es) (hname : name ∉ es.map Prod.fst) :
    ∃ s', (unlink u parent name).runLocked (Cached.serve clock) ∅ s = some (.noent, ∅, s') ∧
      UnlinksOne parent es name .noent s s' := by
  have hnone : findEntry entries name = none := by
    rw [← Option.not_isSome_iff_eq_none, hl.findEntry_isSome]
    exact hname
  have hnot : ∀ i, (name, i) ∉ es := fun i hi => hname (List.mem_map_of_mem hi)
  refine ⟨_, unlink_noent u (Cached.serve clock) (Cached.get_answers clock hs hdir).1 hnone, ?_⟩
  exact ⟨fun _ => ⟨rfl, untouched_get clock parent hs⟩, fun i hi => absurd hi (hnot i),
    fun i hi => absurd hi (hnot i)⟩

/-- A directory under the name. -/
theorem unlinksOne_directory (hs : s.Holds f) (hdir : f parent = some entries)
    (hl : Lists entries es) {inum : Inum} (hmem : (name, inum) ∈ es)
    (hkind : isdir inum = true) :
    ∃ s', (unlink u parent name).runLocked (Cached.serve clock) ∅ s = some (.ioerr, ∅, s') ∧
      UnlinksOne parent es name .ioerr s s' := by
  have hfirst := Cached.get_answers clock hs hdir
  have hsecond := Cached.get_answers clock hfirst.2 hdir
  refine ⟨_, unlink_ioerr u (Cached.serve clock) hfirst.1 hsecond.1 (hl.findEntry_of_mem hmem)
    (by rw [n2i_filename]; exact hkind), ?_⟩
  have hread := (untouched_get clock parent hs).trans (untouched_get clock parent hfirst.2)
  refine ⟨fun hname => absurd (List.mem_map_of_mem hmem) hname, fun _ _ _ => ⟨rfl, hread⟩, ?_⟩
  -- A name is not a file's and a directory's.
  intro i hi hfile
  have heq : i = inum := hl.inum_eq hmem (name, i) hi rfl
  rw [← isdir_eq_false_iff, heq, hkind] at hfile
  exact absurd hfile (by decide)

/-- A file under the name: the directory is written without the tokens of the entry. -/
theorem Cached.unlink_file (hs : s.Holds f) (hdir : f parent = some entries)
    (hl : Lists entries es) (hparent : isdir parent = true) {inum : Inum}
    (hmem : (name, inum) ∈ es) (hfile : isfile inum = true) :
    ∃ held s', (unlink u parent name).runLocked (Cached.serve clock) ∅ s = some (.ok, held, s') ∧
      s'.content parent = some (removeEntry entries (filename inum) name) := by
  have hfirst := Cached.get_answers clock hs hdir
  have hsecond := Cached.get_answers clock hfirst.2 hdir
  have hn2i := n2i_filename u.finum inum
  have hkind := isdir_eq_false_iff.mpr hfile
  -- The directory itself is not the file, so the lock of the file can be had.
  have hne : inum ≠ parent := by
    rintro rfl
    rw [hparent] at hkind
    exact absurd hkind (by decide)
  rcases unlink_ok u (Cached.serve clock) hfirst.1 hsecond.1 (hl.findEntry_of_mem hmem)
    (fun _ _ _ => rfl) (by rw [hn2i]; exact hkind) (by rw [hn2i]; exact hne) with ⟨held, hrun⟩
  refine ⟨held, _, hrun, ?_⟩
  have hput := (cached_answers clock parent (.put (removeEntry entries (filename inum) name)) _ f
    hsecond.2).2
  have hfree := (cached_answers clock inum (.put []) _ _ hput).2
  rw [hn2i, hfree.content]
  simp only [Store.serve, Function.update_of_ne hne.symm, Function.update_self]

/-- A file under the name. Everything is as it is to be but for the tokens of the other entries. -/
theorem unlinksOne_file_iff (hs : s.Holds f) (hdir : f parent = some entries)
    (hl : Lists entries es) (hparent : isdir parent = true) {inum : Inum}
    (hmem : (name, inum) ∈ es) (hfile : isfile inum = true) :
    ∃ held s', (unlink u parent name).runLocked (Cached.serve clock) ∅ s = some (.ok, held, s') ∧
      (UnlinksOne parent es name .ok s s' ↔
        ∀ e ∈ es, e.1 ≠ name → e.2 ≠ inum ∧ e.1 ≠ filename inum ∧ filename e.2 ≠ name) := by
  rcases Cached.unlink_file u clock hs hdir hl hparent hmem hfile with ⟨held, s', hrun, hcontent⟩
  refine ⟨held, s', hrun, ?_⟩
  have htokens := split_removeEntry_iff hl.listable (hl.inum_eq hmem)
  rw [← hl.content] at htokens
  rw [← htokens]
  constructor
  · intro h
    rcases (h.file inum hmem hfile).2 with ⟨entries', hentries, hsplit⟩
    rw [hcontent, Option.some.injEq] at hentries
    rwa [hentries]
  · intro hsplit
    refine ⟨fun habsent => absurd (List.mem_map_of_mem hmem) habsent, ?_,
      fun _ _ _ => ⟨rfl, _, hcontent, hsplit⟩⟩
    intro i hi hkind
    have heq : i = inum := hl.inum_eq hmem (name, i) hi rfl
    rw [heq, isdir_eq_false_iff.mpr hfile] at hkind
    exact absurd hkind (by decide)

/-- An `unlink` in a directory with distinct one-token names does what it is to do exactly if no
    token of another entry is the removed name or the text of the removed inum. It returns in any
    case; for a name that is not there, or is a directory's, the condition asks for nothing. -/
theorem unlinksOne_iff {now : UInt32} {ticks : Nat}
    (hr : Trace.Reaches (Cached.step clock) Trace.Always ⟨.new, .new now, ticks⟩ s)
    (hparent : isdir parent = true) (hnames : ∀ e ∈ es, Listable e.1)
    (hnodup : (es.map Prod.fst).Nodup) (hdir : s.content parent = some (addEntries es))
    (name : Bytes) :
    ∃ st held s',
      (unlink u parent name).runLocked (Cached.serve clock) ∅ s = some (st, held, s') ∧
      (UnlinksOne parent es name st s s' ↔
        ∀ i, (name, i) ∈ es → isfile i = true → ∀ e ∈ es, e.1 ≠ name →
          e.2 ≠ i ∧ e.1 ≠ filename i ∧ filename e.2 ≠ name) := by
  have hs := Cached.reachable_holds hr
  have hl : Lists (addEntries es) es := ⟨addEntries_eq_render es, hnames, hnodup⟩
  by_cases hname : name ∈ es.map Prod.fst
  · rcases List.mem_map.mp hname with ⟨e, he, heq⟩
    have hmem : (name, e.2) ∈ es := heq ▸ he
    have honly : ∀ i, (name, i) ∈ es → i = e.2 := fun i hi => hl.inum_eq hmem (name, i) hi rfl
    by_cases hfile : isfile e.2 = true
    · rcases unlinksOne_file_iff u clock hs hdir hl hparent hmem hfile with
        ⟨held, s', hrun, hiff⟩
      refine ⟨_, held, s', hrun, hiff.trans ⟨?_, fun h => h e.2 hmem hfile⟩⟩
      intro h i hi _
      rwa [honly i hi]
    · have hkind : isdir e.2 = true := by
        rw [← Bool.not_eq_false, isdir_eq_false_iff]
        exact hfile
      rcases unlinksOne_directory u clock hs hdir hl hmem hkind with ⟨s', hrun, hone⟩
      refine ⟨_, _, s', hrun, fun _ i hi hi' => ?_, fun _ => hone⟩
      exact absurd (honly i hi ▸ hi') hfile
  · rcases unlinksOne_absent u clock hs hdir hl hname with ⟨s', hrun, hone⟩
    exact ⟨_, _, s', hrun, fun _ i hi => absurd (List.mem_map_of_mem hi) hname, fun _ => hone⟩

end Unlink

/-- The file `f` goes, and the directory `d` stays. -/
theorem unlinksOne_file_of_two :
    ∃ s, Trace.Reaches (Cached.step fun _ => 0) Trace.Always ⟨.new, .new 0, 0⟩ s ∧
      s.content 1 = some (addEntries [([102], 0x80000000), ([100], 5)]) ∧
      ∃ st held s',
        (unlink ⟨0, 0⟩ 1 [102]).runLocked (Cached.serve fun _ => 0) ∅ s = some (st, held, s') ∧
        (UnlinksOne 1 [([102], 0x80000000), ([100], 5)] [102] st s s' ↔
          ∀ i, (([102] : Bytes), i) ∈ [(([102] : Bytes), (0x80000000 : Inum)), ([100], 5)] →
            isfile i = true → ∀ e ∈ [(([102] : Bytes), (0x80000000 : Inum)), ([100], 5)],
              e.1 ≠ [102] → e.2 ≠ i ∧ e.1 ≠ filename i ∧ filename e.2 ≠ [102]) := by
  have hrun : Trace.Reaches (Cached.step fun _ => 0) Trace.Always ⟨.new, .new 0, 0⟩ _ :=
    Trace.reaches_always_of_run
      [.call 1 (.put (addEntries [([102], 0x80000000), ([100], 5)]))] rfl
  exact ⟨_, hrun, rfl, unlinksOne_iff ⟨0, 0⟩ (fun _ => 0) hrun (by decide)
    (by simp [Listable]) (by decide) rfl [102]⟩

/-- Two files, the second of which has the numeral of the first one's inum for a name: the
    unlink of the first takes the name of the second along. -/
theorem unlink_takes_two :
    (runOps ⟨0, 0⟩ (Cached.serve fun _ => 0)
      [.create 1 [102] 0x80000000, .create 1 (filename 0x80000000) 0x80000001, .unlink 1 [102],
        .readdir 1] ∅ ⟨.new, .new 0, 0⟩).map (fun r => r.1)
      = some [.attr .ok (some ⟨0, 0, 0, 0⟩), .attr .ok (some ⟨0, 0, 0, 0⟩), .status .ok,
          .tokens .ok [filename 0x80000001]] := by
  decide +kernel

end Yfs
