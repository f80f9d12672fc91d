import Yfs.Theory.Operations

/-!
# Creations with Failing Fetches

Whether `create` and `mymkdir` are all or nothing when calls to the extent server fail.

A creation reads the directory twice: `isExist` looks for the name, and `add_entry` extends
the content. In between it has made the empty extent. Two things go wrong there. `isExist`
takes a failed fetch for an absent name, so that a second fetch that succeeds adds a second
entry under the name. And where the second fetch fails too, the error comes after the extent
was made, and nothing undoes it.

A fetch that succeeds fills the cache, and a cached content is never fetched again. So the
first fetch decides: if it succeeds the second one does, and the creation is all or nothing.

## Main definitions

* `Flaky.fetches`: A fetch of an extent succeeds.
* `AllOrNothing`: What a creation may do to the contents.

## Theorems

* `get_of_fetches`, `get_of_not_fetches`: A `get` with failing calls.
* `allOrNothing_iff`: When a creation is all or nothing.
-/

namespace Yfs

open Extent Txn

/-! ## Calls that fail -/

namespace Flaky

/-- A fetch of the extent succeeds: from the cache, or by the `k`-th call from now. -/
def fetches (rpc : Nat → CallOutcome) (s : Flaky) (eid : Inum) (k : Nat) : Bool :=
  (s.client.contentMapCache eid).isSome ||
    (decide ((rpc (s.calls + k)).status = .ok) && (s.server.contentMap eid).isSome)

variable (rpc : Nat → CallOutcome) (clock : Nat → UInt32) {eid : Inum} {s : Flaky} {f : Store}

theorem get_cached {buf : Bytes} (hc : s.client.contentMapCache eid = some buf) :
    serve rpc clock eid .get s
      = ((.ok, buf), ⟨⟨s.client, s.server, s.ticks + 1⟩, s.calls⟩) := by
  simp only [serve, hc, Cached.serve, s.client.fetch_cached s.server _ eid buf hc]

theorem get_answered (hc : s.client.contentMapCache eid = none)
    (hok : (rpc s.calls).status = .ok) :
    serve rpc clock eid .get s = ((Cached.serve clock eid .get s.toCached).1,
      ⟨(Cached.serve clock eid .get s.toCached).2, s.calls + 1⟩) := by
  simp only [serve, hc, call, if_pos hok]

/-- A call that fails leaves the cache and, apart from access times, the server alone. -/
theorem get_failed (hc : s.client.contentMapCache eid = none)
    (hfail : (rpc s.calls).status ≠ .ok) :
    ∃ srv, serve rpc clock eid .get s
        = (((rpc s.calls).status, []), ⟨⟨s.client, srv, s.ticks + 1⟩, s.calls + 1⟩) ∧
      srv.contentMap = s.server.contentMap ∧
      ∀ e, (srv.attrMap e).map (·.size) = (s.server.attrMap e).map (·.size) := by
  simp only [serve, hc, call, if_neg hfail]
  refine ⟨_, rfl, ?_⟩
  split
  -- The call was executed and only its answer is lost: the server has set an access time.
  · exact ⟨s.server.get_contentMap _ eid, s.server.get_size _ eid⟩
  · exact ⟨rfl, fun _ => rfl⟩

/-- Whatever becomes of its call, a `get` does not change what the client stands for. -/
theorem holds_get (h : s.Holds f) : (serve rpc clock eid .get s).2.Holds f := by
  cases hc : s.client.contentMapCache eid with
  | some buf =>
      rw [get_cached rpc clock hc]
      exact h
  | none =>
      by_cases hok : (rpc s.calls).status = .ok
      · rw [get_answered rpc clock hc hok]
        exact (cached_answers clock eid .get s.toCached f h).2
      · obtain ⟨srv, heq, hcontent, hsize⟩ := get_failed rpc clock hc hok
        rw [heq]
        exact fun e => (h e).server_congr (congrFun hcontent e) (hsize e)

/-- A fetch that succeeds returns the content and leaves it in the cache. -/
theorem get_of_fetches (h : s.Holds f) (hf : s.fetches rpc eid 0 = true) :
    ∃ buf, f eid = some buf ∧ (serve rpc clock eid .get s).1 = (.ok, buf) ∧
      (serve rpc clock eid .get s).2.client.contentMapCache eid = some buf := by
  have hv := (h eid).content
  unfold fetches at hf
  cases hc : s.client.contentMapCache eid with
  | some buf =>
      rw [hc, Option.some_or] at hv
      refine ⟨buf, hv.symm, ?_⟩
      rw [get_cached rpc clock hc]
      exact ⟨rfl, hc⟩
  | none =>
      rw [hc, Option.none_or] at hv
      rw [hc, hv, Option.isSome_none, Bool.false_or, Bool.and_eq_true, decide_eq_true_eq] at hf
      obtain ⟨buf, hbuf⟩ := Option.isSome_iff_exists.mp hf.2
      refine ⟨buf, hbuf, ?_⟩
      rw [get_answered rpc clock hc hf.1]
      simp only [Cached.serve, s.client.fetch_uncached s.server _ eid hc (h eid).synced, hv, hbuf]
      exact ⟨rfl, Function.update_self _ _ _⟩

/-- A fetch that does not succeed returns an error and leaves the extent uncached. -/
theorem get_of_not_fetches (h : s.Holds f) (hf : s.fetches rpc eid 0 = false) :
    (serve rpc clock eid .get s).1.1 ≠ .ok ∧
      (serve rpc clock eid .get s).2.client = s.client ∧
      (serve rpc clock eid .get s).2.server.contentMap = s.server.contentMap ∧
      (serve rpc clock eid .get s).2.calls = s.calls + 1 := by
  unfold fetches at hf
  rw [Bool.or_eq_false_iff, Option.isSome_eq_false_iff, Option.isNone_iff_eq_none] at hf
  obtain ⟨hc, hf⟩ := hf
  by_cases hok : (rpc s.calls).status = .ok
  · -- The call is answered, and the extent does not exist.
    rw [Nat.add_zero, decide_eq_true hok, Bool.true_and, Option.isSome_eq_false_iff,
      Option.isNone_iff_eq_none] at hf
    rw [get_answered rpc clock hc hok]
    refine ⟨?_, ?_, (Cached.serve_server clock eid .get s.toCached).1, rfl⟩
    · simp only [Cached.serve, s.client.fetch_uncached s.server _ eid hc (h eid).synced, hf]
      decide
    · simp only [Cached.serve, s.client.fetch_uncached s.server _ eid hc (h eid).synced, hf]
      rfl
  · obtain ⟨srv, heq, hcontent, -⟩ := get_failed rpc clock hc hok
    rw [heq]
    exact ⟨hok, rfl, hcontent, rfl⟩

/-- Of other extents the client caches what it cached before. -/
theorem sameAt_get {e : Inum} (he : e ≠ eid) :
    SameAt s.client (serve rpc clock eid .get s).2.client e := by
  cases hc : s.client.contentMapCache eid with
  | some buf =>
      rw [get_cached rpc clock hc]
      exact sameAt_refl _ _
  | none =>
      by_cases hok : (rpc s.calls).status = .ok
      · rw [get_answered rpc clock hc hok]
        exact Cached.sameAt_serve clock he .get s.toCached
      · obtain ⟨srv, heq, -⟩ := get_failed rpc clock hc hok
        rw [heq]
        exact sameAt_refl _ _

theorem holds_put (buf : Bytes) (h : s.Holds f) :
    (serve rpc clock eid (.put buf) s).2.Holds (Function.update f eid (some buf)) :=
  (cached_answers clock eid (.put buf) s.toCached f h).2

/-- Cached attributes are returned without a call. -/
theorem getattr_cached {a : Attr} (ha : s.client.attrMapCache eid = some a) :
    serve rpc clock eid .getattr s = ((.ok, a), s) := by
  simp only [serve, ha, Cached.serve, ExtentClient.fetchattr,
    s.client.getattr_cached eid _ a ha]

end Flaky

/-! ## Creations -/

/-- With OK, the name was absent, and what has changed is one entry and one empty extent;
    with an error, nothing has changed. -/
def AllOrNothing (f f' : Store) (dir : Inum) (c : Creation) (st : YfsStatus) : Prop :=
  if st = .ok then
    ∃ entries, f dir = some entries ∧ findEntry entries c.name = none ∧
      f' = f.withEntry dir entries c.name c.inum
  else f' = f

section AllOrNothing

variable (u : Uninit) (rpc : Nat → CallOutcome) (clock : Nat → UInt32) {dir : Inum}
  {c : Creation} {s : Flaky} {f : Store}

/-- Where the second fetch succeeds, the entry is added, whether or not the name is there. -/
theorem creation_adds (hne : c.inum ≠ dir) (h : s.Holds f)
    (habsent : ¬ ((Flaky.serve rpc clock dir .get s).1.1 = .ok ∧
      (findEntry (Flaky.serve rpc clock dir .get s).1.2 c.name).isSome = true))
    (hf : (extentMade (Flaky.serve rpc clock) dir c s).fetches rpc dir 0 = true) :
    ∃ r s' entries, ((c.op dir).prog u).runLocked (Flaky.serve rpc clock) ∅ s = some (r, ∅, s') ∧
      r.ret = .ok ∧ f dir = some entries ∧ s'.Holds (f.withEntry dir entries c.name c.inum) := by
  -- After the new extent has been put, the client stands for the store with it.
  have hmade : (extentMade (Flaky.serve rpc clock) dir c s).Holds
      (Function.update f c.inum (some [])) :=
    Flaky.holds_put rpc clock [] (Flaky.holds_get rpc clock h)
  obtain ⟨entries, hdir, hget, -⟩ := Flaky.get_of_fetches rpc clock hmade hf
  rw [Function.update_of_ne hne.symm] at hdir
  have hadded : (entryAdded (Flaky.serve rpc clock) dir c entries s).Holds
      (f.withEntry dir entries c.name c.inum) :=
    Flaky.holds_put rpc clock _ (Flaky.holds_get rpc clock hmade)
  -- The `put` of the extent has cached its attributes, so the last call cannot fail.
  obtain ⟨a, hattr⟩ : ∃ a, (entryAdded (Flaky.serve rpc clock) dir c entries s).client.attrMapCache
      c.inum = some a := by
    refine ⟨Attr.stamped (clock (Flaky.serve rpc clock dir .get s).2.ticks) [], ?_⟩
    refine (Function.update_of_ne hne _ _).trans ?_
    rw [(Flaky.sameAt_get rpc clock hne).attr]
    exact Function.update_self _ _ _
  have hlast := Flaky.getattr_cached rpc clock hattr
  obtain ⟨r, s', hrun, hret, hs'⟩ :=
    creation_added u hne (fun _ _ _ => rfl) habsent hget (congrArg Prod.fst hlast)
  rw [hlast, or_self] at hs'
  exact ⟨r, s', entries, hrun, hret, hdir, hs' ▸ hadded⟩

/-- Where the second fetch fails, the extent has been made. -/
theorem creation_stops (hne : c.inum ≠ dir) (h : s.Holds f)
    (habsent : ¬ ((Flaky.serve rpc clock dir .get s).1.1 = .ok ∧
      (findEntry (Flaky.serve rpc clock dir .get s).1.2 c.name).isSome = true))
    (hf : (extentMade (Flaky.serve rpc clock) dir c s).fetches rpc dir 0 = false) :
    ∃ r s', ((c.op dir).prog u).runLocked (Flaky.serve rpc clock) ∅ s = some (r, ∅, s') ∧
      r.ret = .ioerr ∧ s'.Holds (Function.update f c.inum (some [])) := by
  have hmade : (extentMade (Flaky.serve rpc clock) dir c s).Holds
      (Function.update f c.inum (some [])) :=
    Flaky.holds_put rpc clock [] (Flaky.holds_get rpc clock h)
  -- The second fetch is an error, and what was put before is not taken back.
  have hget := (Flaky.get_of_not_fetches rpc clock hmade hf).1
  obtain ⟨r, hrun, hret⟩ := creation_stopped u hne (fun _ _ _ => rfl) habsent hget
  exact ⟨r, _, hrun, hret, Flaky.holds_get rpc clock hmade⟩

/-- The second fetch after a first one that succeeded is from the cache. -/
theorem fetches_of_fetches (hne : c.inum ≠ dir) (h : s.Holds f)
    (hf : s.fetches rpc dir 0 = true) :
    (extentMade (Flaky.serve rpc clock) dir c s).fetches rpc dir 0 = true := by
  obtain ⟨entries, -, -, hcached⟩ := Flaky.get_of_fetches rpc clock h hf
  have hkept : (extentMade (Flaky.serve rpc clock) dir c s).client.contentMapCache dir
      = some entries := (Function.update_of_ne hne.symm _ _).trans hcached
  unfold Flaky.fetches
  rw [hkept]
  rfl

/-- After a first one that failed it is the next call. -/
theorem fetches_of_not_fetches (hne : c.inum ≠ dir) (h : s.Holds f)
    (hf : s.fetches rpc dir 0 = false) :
    (extentMade (Flaky.serve rpc clock) dir c s).fetches rpc dir 0 = s.fetches rpc dir 1 := by
  obtain ⟨-, hclient, hserver, hcalls⟩ := Flaky.get_of_not_fetches rpc clock h hf
  have hcontent : (extentMade (Flaky.serve rpc clock) dir c s).client.contentMapCache dir
      = s.client.contentMapCache dir := by
    refine (Function.update_of_ne hne.symm _ _).trans ?_
    rw [hclient]
  have hcalls' : (extentMade (Flaky.serve rpc clock) dir c s).calls = s.calls + 1 := hcalls
  have hserver' : (extentMade (Flaky.serve rpc clock) dir c s).server.contentMap
      = s.server.contentMap := hserver
  unfold Flaky.fetches
  rw [hcontent, hserver', hcalls', Nat.add_zero]

/-- A first fetch that succeeds decides whether the name is there. -/
theorem allOrNothing_of_fetches (hne : c.inum ≠ dir) (h : s.Holds f)
    (hf : s.fetches rpc dir 0 = true) :
    ∃ r s', ((c.op dir).prog u).runLocked (Flaky.serve rpc clock) ∅ s = some (r, ∅, s') ∧
      AllOrNothing f s'.content dir c r.ret := by
  obtain ⟨entries, hdir, hget, -⟩ := Flaky.get_of_fetches rpc clock h hf
  -- With the directory at hand, the name is there and nothing is done, or it is not and all is
  -- done.
  by_cases hfound : (findEntry entries c.name).isSome = true
  · obtain ⟨r, hrun, hret⟩ := creation_found u hne hget hfound
    refine ⟨r, _, hrun, ?_⟩
    rw [AllOrNothing, hret, if_neg (by decide)]
    exact funext (Flaky.holds_get rpc clock h).content
  · have habsent : ¬ ((Flaky.serve rpc clock dir .get s).1.1 = .ok ∧
        (findEntry (Flaky.serve rpc clock dir .get s).1.2 c.name).isSome = true) := by
      rw [hget]
      exact fun hc => hfound hc.2
    obtain ⟨r, s', entries', hrun, hret, hdir', hholds⟩ :=
      creation_adds u rpc clock hne h habsent (fetches_of_fetches rpc clock hne h hf)
    have heq : entries' = entries := Option.some.inj (hdir'.symm.trans hdir)
    subst heq
    refine ⟨r, s', hrun, ?_⟩
    rw [AllOrNothing, if_pos hret]
    exact ⟨entries', hdir, Option.not_isSome_iff_eq_none.mp hfound, funext hholds.content⟩

/-- After a first fetch that failed, the second one decides how the creation ends. -/
theorem allOrNothing_iff_of_not_fetches (hne : c.inum ≠ dir) (h : s.Holds f)
    (hf : s.fetches rpc dir 0 = false) :
    (∃ r s', ((c.op dir).prog u).runLocked (Flaky.serve rpc clock) ∅ s = some (r, ∅, s') ∧
        AllOrNothing f s'.content dir c r.ret) ↔
      if s.fetches rpc dir 1 = true
      then ∀ entries, f dir = some entries → findEntry entries c.name = none
      else f c.inum = some [] := by
  -- A failed fetch looks to `create` as if the name were absent.
  have habsent : ¬ ((Flaky.serve rpc clock dir .get s).1.1 = .ok ∧
      (findEntry (Flaky.serve rpc clock dir .get s).1.2 c.name).isSome = true) :=
    fun hc => (Flaky.get_of_not_fetches rpc clock h hf).1 hc.1
  have hsecond := fetches_of_not_fetches (c := c) rpc clock hne h hf
  by_cases hf1 : s.fetches rpc dir 1 = true
  · obtain ⟨r, s', entries, hrun, hret, hdir, hholds⟩ :=
      creation_adds u rpc clock hne h habsent (hsecond.trans hf1)
    rw [if_pos hf1, hrun]
    constructor
    · rintro ⟨r', s'', heq, hall⟩ entries' hdir'
      cases heq
      rw [AllOrNothing, if_pos hret] at hall
      obtain ⟨entries'', hdir'', hnone, -⟩ := hall
      rw [Option.some.inj (hdir'.symm.trans hdir'')]
      exact hnone
    · intro hnone
      refine ⟨r, s', rfl, ?_⟩
      rw [AllOrNothing, if_pos hret]
      exact ⟨entries, hdir, hnone entries hdir, funext hholds.content⟩
  · obtain ⟨r, s', hrun, hret, hholds⟩ :=
      creation_stops u rpc clock hne h habsent (hsecond.trans (Bool.eq_false_iff.mpr hf1))
    have hcontent : s'.content = Function.update f c.inum (some []) := funext hholds.content
    have hsame : AllOrNothing f s'.content dir c r.ret ↔ f c.inum = some [] := by
      rw [AllOrNothing, hret, if_neg (by decide), hcontent, Function.update_eq_self_iff, eq_comm]
    rw [if_neg hf1, hrun, ← hsame]
    constructor
    · rintro ⟨r', s'', heq, hall⟩
      cases heq
      exact hall
    · exact fun hall => ⟨r, s', rfl, hall⟩

/-- When a creation is all or nothing: the first fetch of the directory succeeds, or the second one
    does and the name is not there, or the new extent was there and empty. `create` fetches the
    directory twice, once to look for the name and once to add the entry, with the extent made in
    between; it takes a first fetch that fails for a name that is not there. -/
theorem allOrNothing_iff (c : Creation) (dir : Inum) (h : s.Holds f) :
    (∃ r s', ((c.op dir).prog u).runLocked (Flaky.serve rpc clock) ∅ s = some (r, ∅, s') ∧
        AllOrNothing f s'.content dir c r.ret) ↔
      c.inum ≠ dir ∧ (s.fetches rpc dir 0 = true ∨
        if s.fetches rpc dir 1 = true
        then ∀ entries, f dir = some entries → findEntry entries c.name = none
        else f c.inum = some []) := by
  by_cases hne : c.inum = dir
  · -- The second lock is the first one.
    rw [creation_blocks u _ dir c hne]
    refine iff_of_false ?_ (fun hc => hc.1 hne)
    rintro ⟨r, s', hrun, -⟩
    cases hrun
  · by_cases hf : s.fetches rpc dir 0 = true
    · exact iff_of_true (allOrNothing_of_fetches u rpc clock hne h hf) ⟨hne, .inl hf⟩
    · rw [allOrNothing_iff_of_not_fetches u rpc clock hne h (Bool.eq_false_iff.mpr hf)]
      exact ⟨fun hc => ⟨hne, .inr hc⟩, fun hc => hc.2.resolve_left hf⟩

end AllOrNothing

/-- A file made in the root of a new file system, with every call answered. -/
theorem allOrNothing_first_file :
    ∃ r s', ((Creation.op 1 ⟨false, [97], 0x80000001⟩).prog ⟨0, 0⟩).runLocked
        (Flaky.serve (fun _ => ⟨.ok, true⟩) fun _ => 0) ∅ ⟨⟨.new, .new 0, 0⟩, 0⟩
          = some (r, ∅, s') ∧
      AllOrNothing (ExtentServer.new 0).contentMap s'.content 1 ⟨false, [97], 0x80000001⟩ r.ret :=
  (allOrNothing_iff ⟨0, 0⟩ (fun _ => ⟨.ok, true⟩) (fun _ => 0) ⟨false, [97], 0x80000001⟩ 1
    (Cached.holds_new 0 0)).mpr ⟨by decide, .inl (by decide)⟩

/-- A client with an empty cache, and on the server a root directory with an entry under
    `a`. -/
def oneEntry : Flaky :=
  ⟨⟨.new, (ExtentServer.new 0).put 0 1 (appendEntry [] [97] 0x80000001), 0⟩, 0⟩

/-- The first call fails and the second one is answered: `create` returns OK for a name that
    is there, and the directory has two entries under it. -/
theorem name_created_twice :
    ∃ r s', ((Creation.op 1 ⟨false, [97], 0x80000002⟩).prog ⟨0, 0⟩).runLocked
        (Flaky.serve (fun n => if n = 0 then ⟨.failed, false⟩ else ⟨.ok, true⟩) fun _ => 0) ∅
          oneEntry = some (r, ∅, s') ∧
      r.ret = .ok ∧
      oneEntry.content 1 = some (appendEntry [] [97] 0x80000001) ∧
      s'.content 1 = some (appendEntry (appendEntry [] [97] 0x80000001) [97] 0x80000002) ∧
      ¬ AllOrNothing oneEntry.content s'.content 1 ⟨false, [97], 0x80000002⟩ r.ret := by
  have hdir : oneEntry.content 1 = some (appendEntry [] [97] 0x80000001) := by decide
  refine ⟨_, _, rfl, rfl, hdir, by decide, ?_⟩
  rintro ⟨entries, hentries, hnone, -⟩
  have heq : appendEntry [] [97] 0x80000001 = entries :=
    Option.some.inj (hdir.symm.trans hentries)
  subst heq
  revert hnone
  decide

end Yfs
