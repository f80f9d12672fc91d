import Yfs.Theory.Sharing

/-!
# What a Write-Back Keeps

`flush` is where a cached `put` reaches the server. Two things can get lost there.

The content: the dirty mark and the cached values go whatever the call returns, so a
content that the server did not take is nowhere any more.

The times: the client stamps them into its cache at the `put`, and the server stamps them
again when the write-back arrives. A `getattr` before the write-back reports the first
stamp and one after it the second, with no `put` in between. The times of an extent that
is not dirty do not move, so on the way from one `getattr` to another without a `put`
there is at most one write-back that counts.

## Main definitions

* `DirtyKept`: The dirty content is on the server or still to be written back.
* `Cached.times`: The times that a `getattr` reports.
* `Cached.Stamped`: How the times in a cache and on the server belong together.
* `Sharing.timely`: A write-back in the second of the `put` it writes back.

## Theorems

* `dirtyKept_iff`: When a `flush` keeps the content.
* `Sharing.settled_reachable`: The discipline of the locks keeps the times together.
* `Sharing.times_run_iff`: The times along a run without `put`.
* `Sharing.times_kept_iff`: When two `getattr` results have the same times.
-/

namespace Yfs

open Extent

/-! ## Contents -/

/-- After a `flush` of `c` that left `c'` and `srv`, a content that was dirty is with the
    server, or it is still cached and dirty. -/
def DirtyKept (c c' : ExtentClient) (srv : ExtentServer) (eid : Inum) : Prop :=
  ∀ buf, c.contentMapCache eid = some buf → c.dirtyEidSet eid = true →
    srv.contentMap eid = some buf ∨
      c'.contentMapCache eid = some buf ∧ c'.dirtyEidSet eid = true

/-- `flush` drops what is cached, whatever the call returns. -/
theorem flush_uncached (c : ExtentClient) (eid : Inum) (rpc : Status) :
    (c.flush eid rpc).2.contentMapCache eid = none := by
  unfold ExtentClient.flush ExtentClient.remove
  split <;> exact Function.update_self _ _ _

/-- What the server has after a `flush` of a dirty extent. -/
theorem flushWith_contentMap {c : ExtentClient} (srv : ExtentServer) (now : UInt32) {eid : Inum}
    (o : CallOutcome) {buf : Bytes} (hbuf : c.contentMapCache eid = some buf)
    (hd : c.dirtyEidSet eid = true) :
    (c.flushWith srv now eid o).2.2.contentMap eid =
      if o.executed then some buf else srv.contentMap eid := by
  simp only [ExtentClient.flushWith, ExtentClient.flushRequest, hd, if_true, hbuf,
    Option.getD_some]
  split
  · exact Function.update_self _ _ _
  · rfl

/-- A `flush` keeps the content of a dirty extent exactly if the server has executed the call, or
    had that content already. `flush` takes away the mark and the cached copy whatever the call
    returns, so a call that was not executed loses what was written. -/
theorem dirtyKept_iff (c : ExtentClient) (srv : ExtentServer) (now : UInt32) (eid : Inum)
    (o : CallOutcome) :
    DirtyKept c (c.flushWith srv now eid o).2.1 (c.flushWith srv now eid o).2.2 eid ↔
      ∀ buf, c.contentMapCache eid = some buf → c.dirtyEidSet eid = true →
        o.executed = true ∨ srv.contentMap eid = some buf := by
  unfold DirtyKept
  refine forall_congr' fun buf => forall_congr' fun hbuf => forall_congr' fun hd => ?_
  -- Nothing is cached any more, so the content has to be with the server.
  have hnone : (c.flushWith srv now eid o).2.1.contentMapCache eid = none :=
    flush_uncached c eid o.status
  rw [hnone, flushWith_contentMap srv now o hbuf hd]
  by_cases hex : o.executed = true
  · simp only [hex, if_true, true_or]
  · simp only [hex, Bool.false_eq_true, if_false, reduceCtorEq, false_and, or_false, false_or]

/-- A content that is only in the cache, and a server that cannot be reached. -/
theorem dirty_content_lost :
    ∃ c : ExtentClient, c.contentMapCache 5 = some [104] ∧ c.dirtyEidSet 5 = true ∧
      (c.flushWith (ExtentServer.new 0) 1 5 ⟨.failed, false⟩).2.1.contentMapCache 5 = none ∧
      (c.flushWith (ExtentServer.new 0) 1 5 ⟨.failed, false⟩).2.1.dirtyEidSet 5 = false ∧
      (c.flushWith (ExtentServer.new 0) 1 5 ⟨.failed, false⟩).2.2.contentMap 5 = none :=
  ⟨ExtentClient.new.put 0 5 [104], by decide⟩

/-- `writeBack` is `flush` with a call that succeeds. -/
theorem flushWith_executed (c : ExtentClient) (srv : ExtentServer) (now : UInt32) (eid : Inum) :
    (c.flushWith srv now eid ⟨.ok, true⟩).2 = c.writeBack srv now eid := by
  unfold ExtentClient.flushWith ExtentClient.writeBack
  cases c.flushRequest eid <;> rfl

/-! ## Times -/

/-- The times that a `put` sets. -/
def Attr.times (a : Attr) : UInt32 × UInt32 :=
  (a.mtime, a.ctime)

namespace Cached

/-- The times that a `getattr` reports. -/
def times (k : Cached) (eid : Inum) : Option (UInt32 × UInt32) :=
  ((k.client.attrMapCache eid).or (k.server.attrMap eid)).map Attr.times

/-- Cached attributes of a dirty extent have one stamp for both times, and those of a
    clean one have the times of the server. -/
structure Stamped (k : Cached) (eid : Inum) : Prop where
  dirty : k.client.dirtyEidSet eid = true →
    ∃ a, k.client.attrMapCache eid = some a ∧ a.ctime = a.mtime
  clean : k.client.dirtyEidSet eid = false → ∀ a, k.client.attrMapCache eid = some a →
    (k.server.attrMap eid).map Attr.times = some a.times

variable {k t : Cached} {eid : Inum}

/-- Nothing is cached, so there is nothing to say. -/
theorem stamped_of_uncached (h : Uncached k.client eid) : k.Stamped eid := by
  refine ⟨fun hd => ?_, fun _ a ha => ?_⟩
  · rw [h.dirty] at hd
    cases hd
  · rw [h.attr] at ha
    cases ha

/-- Two views with the same cached attributes, the same mark and the same times on the
    server. -/
structure SameTimes (k t : Cached) (eid : Inum) : Prop where
  attr : t.client.attrMapCache eid = k.client.attrMapCache eid
  dirty : t.client.dirtyEidSet eid = k.client.dirtyEidSet eid
  server : (t.server.attrMap eid).map Attr.times = (k.server.attrMap eid).map Attr.times

theorem SameView.sameTimes (h : k.SameView t eid) : k.SameTimes t eid :=
  ⟨h.client.attr, h.client.dirty, by rw [h.attr]⟩

/-- The condition is on nothing but the attributes, the mark and the times on the server. -/
theorem SameTimes.stamped (h : k.SameTimes t eid) (hk : k.Stamped eid) : t.Stamped eid := by
  refine ⟨?_, ?_⟩
  · rw [h.dirty, h.attr]
    exact hk.dirty
  · rw [h.dirty, h.attr, h.server]
    exact hk.clean

/-- So are the times. -/
theorem SameTimes.times_eq (h : k.SameTimes t eid) : t.times eid = k.times eid := by
  unfold times
  rw [h.attr]
  cases k.client.attrMapCache eid with
  | some a => rfl
  | none => exact h.server

/-- What a `getattr` answers are these times: it asks the server only if nothing is cached. -/
theorem times_of_getattr (clock : Nat → UInt32) {a : Attr}
    (h : (serve clock eid .getattr k).1 = (.ok, a)) : k.times eid = some a.times := by
  simp only [serve, ExtentClient.fetchattr] at h
  unfold times
  cases ha : k.client.attrMapCache eid with
  | some b =>
      rw [k.client.getattr_cached eid _ b ha, Prod.mk.injEq] at h
      rw [Option.some_or, Option.map_some, h.2]
  | none =>
      rw [k.client.getattr_uncached eid _ ha] at h
      unfold ExtentServer.getattr at h
      cases hs : k.server.attrMap eid with
      | none =>
          rw [hs] at h
          cases h
      | some b =>
          rw [hs, Prod.mk.injEq] at h
          rw [Option.none_or, Option.map_some, h.2]

/-- A `get` fills the other cache, and leaves an access time on the server, which is not among the
    times. -/
theorem sameTimes_get (clock : Nat → UInt32) (k : Cached) (eid : Inum) :
    k.SameTimes (serve clock eid .get k).2 eid := by
  simp only [serve, ExtentClient.fetch, ExtentClient.get]
  cases hc : k.client.contentMapCache eid with
  | some buf => exact ⟨rfl, rfl, rfl⟩
  | none =>
      have htimes := k.server.get_attrMap Attr.times (fun _ _ => rfl) (clock k.ticks) eid eid
      dsimp only
      split
      · exact ⟨rfl, rfl, htimes⟩
      · exact ⟨rfl, rfl, htimes⟩

/-- A `getattr` caches what it reports, so that the times are those of the server before and after
    it. -/
theorem getattr_keeps (clock : Nat → UInt32) (hk : k.Stamped eid) :
    (serve clock eid .getattr k).2.Stamped eid ∧
    (serve clock eid .getattr k).2.times eid = k.times eid ∧
    (serve clock eid .getattr k).2.client.dirtyEidSet eid = k.client.dirtyEidSet eid := by
  simp only [serve, ExtentClient.fetchattr]
  cases ha : k.client.attrMapCache eid with
  | some a =>
      rw [k.client.getattr_cached eid _ a ha]
      exact ⟨hk, rfl, rfl⟩
  | none =>
      rw [k.client.getattr_uncached eid _ ha]
      unfold ExtentServer.getattr
      cases hs : k.server.attrMap eid with
      | none => exact ⟨hk, rfl, rfl⟩
      | some b =>
          refine ⟨⟨fun hd => ?_, fun _ a hset => ?_⟩, ?_, rfl⟩
          · -- A dirty extent has its attributes cached.
            rcases hk.dirty hd with ⟨a, hset, _⟩
            rw [ha] at hset
            cases hset
          · simp only [ExtentClient.filledAttr, if_true, Function.update_self,
              Option.some.injEq] at hset
            rw [hs, Option.map_some, hset]
          · simp only [times, ExtentClient.filledAttr, if_true, Function.update_self, ha, hs,
              Option.some_or, Option.none_or]

/-- One call of the owner. A `put` sets both times of the cached attributes to one reading of the
    clock. -/
theorem stamped_serve (clock : Nat → UInt32) (o : ExtentCall) (hk : k.Stamped eid) :
    (serve clock eid o k).2.Stamped eid := by
  cases o with
  | get => exact (sameTimes_get clock k eid).stamped hk
  | getattr => exact (getattr_keeps clock hk).1
  | put buf =>
      refine ⟨fun _ => ⟨_, Function.update_self _ _ _, rfl⟩, fun hd => ?_⟩
      simp only [serve, ExtentClient.put, Function.update_self, Bool.true_eq_false] at hd

/-- After a write-back nothing of the extent is cached. -/
theorem flushed_uncached (clock : Nat → UInt32) (k : Cached) (eid : Inum) :
    Uncached (k.flushed clock eid).client eid :=
  uncached_writeBack k.client k.server (clock k.ticks) eid

/-- The write-back of a clean extent drops what the server has as well. -/
theorem times_flushed_of_clean (clock : Nat → UInt32) (hk : k.Stamped eid)
    (hd : k.client.dirtyEidSet eid = false) : (k.flushed clock eid).times eid = k.times eid := by
  have hserver : (k.flushed clock eid).server = k.server := by
    simp only [flushed, ExtentClient.writeBack, ExtentClient.flushRequest, hd,
      Bool.false_eq_true, if_false]
  unfold times
  rw [(flushed_uncached clock k eid).attr, hserver, Option.none_or]
  cases ha : k.client.attrMapCache eid with
  | none => rw [Option.none_or]
  | some a => rw [Option.some_or, hk.clean hd a ha, Option.map_some]

/-- That of a dirty one sets both times to the present: the server's `put` does not know when the
    client's was made. -/
theorem times_flushed_of_dirty (clock : Nat → UInt32) (hd : k.client.dirtyEidSet eid = true) :
    (k.flushed clock eid).times eid = some (clock k.ticks, clock k.ticks) := by
  have hserver : (k.flushed clock eid).server =
      k.server.put (clock k.ticks) eid ((k.client.contentMapCache eid).getD []) := by
    simp only [flushed, ExtentClient.writeBack, ExtentClient.flushRequest, hd, if_true]
  unfold times
  rw [(flushed_uncached clock k eid).attr, hserver, Option.none_or]
  simp only [ExtentServer.put, Function.update_self]
  cases k.server.attrMap eid <;> rfl

end Cached

namespace Sharing

variable {C : Type} [DecidableEq C] {clock : Nat → UInt32} {s s' : Sys C}

/-- The times that the owner's `getattr` reports. -/
def Sys.times (s : Sys C) (eid : Inum) : Option (UInt32 × UInt32) :=
  (s.ownerView eid).times eid

/-- The owner has something to write back. -/
def Sys.dirty (s : Sys C) (eid : Inum) : Bool :=
  (s.ownerView eid).client.dirtyEidSet eid

/-- The caches are coherent, in their times as well. -/
structure Settled (s : Sys C) : Prop where
  coherent : Coherent s
  stamped : ∀ eid, (s.ownerView eid).Stamped eid

/-- One step. For each extent it is a call of its owner, a write-back by its owner, or nothing that
    its owner could see. -/
theorem settled_step (a : Action C) (h : Settled s) (hs : step clock s a = some s') :
    Settled s' := by
  refine ⟨coherent_step a h.coherent hs, fun e => ?_⟩
  rcases view_step h.coherent hs e with ⟨c, o, _, heq⟩ | ⟨c, _, _, heq⟩ | ⟨_, hsame⟩
  · rw [heq]
    exact Cached.stamped_serve clock o (h.stamped e)
  · rw [heq]
    exact Cached.stamped_of_uncached (Cached.flushed_uncached clock _ e)
  · exact hsame.sameTimes.stamped (h.stamped e)

/-- The caches are coherent, in their times as well, in every reachable state. -/
theorem settled_reachable {now : UInt32}
    (hr : Trace.Reaches (step clock) Trace.Always (Sys.init C now) s) : Settled s := by
  refine Trace.invariant_of_step Settled ⟨coherent_init now, fun e => ?_⟩
    (fun _ a _ h _ hs => settled_step a h hs) hr
  exact Cached.stamped_of_uncached ⟨rfl, rfl, rfl⟩

/-- A write-back of the extent happens in the second of the `put` it writes back. -/
def timely (clock : Nat → UInt32) (eid : Inum) (s : Sys C) : Action C → Prop
  | .flush c e => e = eid → (s.client c).dirtyEidSet eid = true →
      ∀ a, (s.client c).attrMapCache eid = some a → a.mtime = clock s.ticks
  | _ => True

omit [DecidableEq C] in
/-- Only a write-back of the extent can be late. -/
theorem timely_of_ne {a : Action C} {e : Inum} (h : ∀ c, a ≠ .flush c e) :
    timely clock e s a := by
  cases a with
  | call c eid o => trivial
  | flush c eid => exact fun heq => absurd (heq ▸ rfl) (h c)
  | handover eid c => trivial

omit [DecidableEq C] in
/-- A write-back of a dirty extent keeps its times exactly if it is timely. -/
theorem times_flush_iff (h : Settled s) {c : C} {e : Inum} (ho : s.owner e = some c)
    (hd : s.dirty e = true) :
    ((s.ownerView e).flushed clock e).times e = s.times e ↔ timely clock e s (.flush c e) := by
  have hstamped := h.stamped e
  unfold Sys.dirty at hd
  unfold Sys.times
  rw [ownerView_of_owner ho] at hd hstamped ⊢
  rcases hstamped.dirty hd with ⟨a, ha, hsame⟩
  rw [Cached.times_flushed_of_dirty clock hd, Cached.times, ha, Option.some_or, Option.map_some,
    Option.some.injEq, Attr.times, hsame, Prod.mk.injEq, and_self]
  constructor
  · intro heq _ _ b hb
    rw [show b = a from Option.some.inj (hb.symm.trans ha)]
    exact heq.symm
  · intro htimely
    exact (htimely rfl hd a ha).symm

/-- A step without a `put` keeps the times exactly if it is timely, and after one that does not keep
    them the extent is clean. The last part is what makes the condition exact along a run: a late
    write-back is not made up for by a later one. -/
theorem times_step (a : Action C) (h : Settled s) (hs : step clock s a = some s') (e : Inum)
    (hput : a.puts e = false) :
    (s'.times e = s.times e ↔ timely clock e s a) ∧
      (s'.times e = s.times e ∧ s'.dirty e = s.dirty e ∨ s'.dirty e = false) ∧
      (s.dirty e = false → s'.times e = s.times e) := by
  -- Two of the three kinds of steps keep the times and are no write-backs.
  have hkept : s'.times e = s.times e → (∀ c, a ≠ .flush c e) → s'.dirty e = s.dirty e →
      (s'.times e = s.times e ↔ timely clock e s a) ∧
      (s'.times e = s.times e ∧ s'.dirty e = s.dirty e ∨ s'.dirty e = false) ∧
      (s.dirty e = false → s'.times e = s.times e) :=
    fun ht hne hd => ⟨⟨fun _ => timely_of_ne hne, fun _ => ht⟩, Or.inl ⟨ht, hd⟩, fun _ => ht⟩
  rcases view_step h.coherent hs e with ⟨c, o, rfl, heq⟩ | ⟨c, rfl, ho, heq⟩ | ⟨hne, hsame⟩
  · -- A call of the owner.
    have hne : ∀ d, Action.call c e o ≠ .flush d e := fun d hd => by cases hd
    have htimes : s'.times e = (Cached.serve clock e o (s.ownerView e)).2.times e :=
      congrArg (fun k => Cached.times k e) heq
    have hdirty : s'.dirty e =
        (Cached.serve clock e o (s.ownerView e)).2.client.dirtyEidSet e :=
      congrArg (fun k => Cached.client k |>.dirtyEidSet e) heq
    cases o with
    | get =>
        have hsame := Cached.sameTimes_get clock (s.ownerView e) e
        exact hkept (htimes.trans hsame.times_eq) hne (hdirty.trans hsame.dirty)
    | getattr =>
        have hsame := Cached.getattr_keeps clock (h.stamped e)
        exact hkept (htimes.trans hsame.2.1) hne (hdirty.trans hsame.2.2)
    | put buf => simp only [Action.puts, beq_self_eq_true, Bool.true_eq_false] at hput
  · -- A write-back by the owner.
    have htimes : s'.times e = ((s.ownerView e).flushed clock e).times e :=
      congrArg (fun k => Cached.times k e) heq
    have hclean : s'.dirty e = false := by
      unfold Sys.dirty
      rw [heq]
      exact (Cached.flushed_uncached clock _ e).dirty
    rw [htimes]
    -- The times of a dirty extent are set anew; a clean one has those of the server.
    by_cases hd : s.dirty e = true
    · exact ⟨times_flush_iff h ho hd, Or.inr hclean,
        fun hf => absurd hd (by rw [hf]; exact Bool.false_ne_true)⟩
    · have hf : s.dirty e = false := Bool.eq_false_iff.mpr hd
      have hsame := Cached.times_flushed_of_clean clock (h.stamped e) hf
      refine ⟨⟨fun _ _ hdc => absurd hdc ?_, fun _ => hsame⟩, Or.inr hclean, fun _ => hsame⟩
      unfold Sys.dirty at hd
      rw [ownerView_of_owner ho] at hd
      exact hd
  · have hsame' := hsame.sameTimes
    exact hkept hsame'.times_eq hne hsame'.dirty

/-- Without a `put` a clean extent stays clean and keeps its times. -/
theorem times_of_clean (acts : List (Action C)) {e : Inum}
    (hput : ∀ a ∈ acts, a.puts e = false) :
    ∀ s : Sys C, Settled s → s.dirty e = false →
      Trace.run (step clock) (fun _ _ => true) s acts = some s' → s'.times e = s.times e := by
  induction acts with
  | nil =>
      intro s _ _ hrun
      rw [← Option.some.inj hrun]
  | cons a acts ih =>
      intro s h hd hrun
      rcases Trace.run_cons hrun with ⟨s₁, hs, hrest⟩
      rcases times_step a h hs e (hput a List.mem_cons_self) with ⟨_, hmark, hclean⟩
      have hd₁ : s₁.dirty e = false := by
        rcases hmark with ⟨_, heq⟩ | hf
        · rw [heq, hd]
        · exact hf
      exact (ih (fun b hb => hput b (List.mem_cons_of_mem a hb)) s₁ (settled_step a h hs) hd₁
        hrest).trans (hclean hd)

/-- Along a run without a `put` the times are kept exactly if every write-back is timely. The
    induction is over the run: after the first step that changes the times the extent is clean, and
    nothing changes them back. -/
theorem times_run_iff (acts : List (Action C)) {e : Inum}
    (hput : ∀ a ∈ acts, a.puts e = false) :
    ∀ s : Sys C, Settled s →
      Trace.run (step clock) (fun _ _ => true) s acts = some s' →
      (s'.times e = s.times e ↔ Trace.Along (step clock) (timely clock e) s acts) := by
  induction acts with
  | nil =>
      intro s _ hrun
      rw [← Option.some.inj hrun]
      exact ⟨fun _ => trivial, fun _ => rfl⟩
  | cons a acts ih =>
      intro s h hrun
      rcases Trace.run_cons hrun with ⟨s₁, hs, hrest⟩
      have hput' : ∀ b ∈ acts, b.puts e = false := fun b hb => hput b (List.mem_cons_of_mem a hb)
      have h₁ := settled_step a h hs
      rcases times_step a h hs e (hput a List.mem_cons_self) with ⟨hiff, hmark, _⟩
      rw [Trace.along_cons hs, ← hiff, ← ih hput' s₁ h₁ hrest]
      rcases hmark with ⟨heq, _⟩ | hclean
      · rw [heq]
        exact ⟨fun h => ⟨rfl, h⟩, fun h => h.2⟩
      · -- Nothing changes the times any more.
        rw [times_of_clean acts hput' s₁ h₁ hclean hrest]
        exact ⟨fun h => ⟨h, rfl⟩, fun h => h.1⟩

/-- Two `getattr` results without a `put` between them have the same times exactly if every
    write-back between them is timely, that is, made in the second of the `put` it writes back. The
    two calls may be made by different clients, and the lock may be handed over in between. -/
theorem times_kept_iff {now : UInt32}
    (hr : Trace.Reaches (step clock) Trace.Always (Sys.init C now) s) {c d : C} {eid : Inum}
    {a a' : Attr} {s₁ s₂ : Sys C} (hget : step clock s (.call c eid .getattr) = some s₁)
    (ha : s.answer clock c eid .getattr = (.ok, a)) (acts : List (Action C))
    (hput : ∀ x ∈ acts, x.puts eid = false)
    (hrun : Trace.run (step clock) (fun _ _ => true) s₁ acts = some s')
    (hget' : step clock s' (.call d eid .getattr) = some s₂)
    (ha' : s'.answer clock d eid .getattr = (.ok, a')) :
    (a'.mtime = a.mtime ∧ a'.ctime = a.ctime) ↔
      Trace.Along (step clock) (timely clock eid) s₁ acts := by
  have h := settled_reachable hr
  have h₁ := settled_step _ h hget
  -- Each of the two results is what the owner's view has for the times.
  have hfirst : s₁.times eid = some a.times := by
    have hkeep := times_step _ h hget eid rfl
    rw [hkeep.1.mpr trivial, Sys.times, ownerView_of_owner (step_call hget).1]
    exact Cached.times_of_getattr clock ha
  have hsecond : s'.times eid = some a'.times := by
    rw [Sys.times, ownerView_of_owner (step_call hget').1]
    exact Cached.times_of_getattr clock ha'
  rw [← times_run_iff acts hput s₁ h₁ hrun, hfirst, hsecond, Option.some.injEq]
  exact Prod.mk.injEq _ _ _ _ ▸ Iff.rfl

/-- A clock that shows 10 once and then 11. -/
def lateClock (n : Nat) : UInt32 :=
  if n = 0 then 10 else 11

/-- A write-back in the second of the `put`. -/
theorem times_kept_same_second :
    ∃ (s s₁ s' s₂ : Sys Bool) (a a' : Attr),
      Trace.Reaches (step fun _ => 7) Trace.Always (Sys.init Bool 0) s ∧
      step (fun _ => 7) s (.call true 5 .getattr) = some s₁ ∧
      s.answer (fun _ => 7) true 5 .getattr = (.ok, a) ∧
      Trace.run (step fun _ => 7) (fun _ _ => true) s₁ [.flush true 5, .handover 5 false]
        = some s' ∧
      step (fun _ => 7) s' (.call false 5 .getattr) = some s₂ ∧
      s'.answer (fun _ => 7) false 5 .getattr = (.ok, a') ∧
      (a'.mtime = a.mtime ∧ a'.ctime = a.ctime ↔ Trace.Along (step fun _ => 7)
        (timely (fun _ => 7) 5) s₁ [.flush true 5, .handover 5 false]) := by
  have hrun : Trace.Reaches (step fun _ => 7) Trace.Always (Sys.init Bool 0) _ :=
    Trace.reaches_always_of_run [.handover 5 true, .call true 5 (.put [104])] rfl
  refine ⟨_, _, _, _, ⟨7, 7, 7, 1⟩, ⟨7, 7, 7, 1⟩, hrun, rfl, rfl, rfl, rfl, rfl, ?_⟩
  exact times_kept_iff (c := true) (d := false) hrun rfl rfl _ (by decide) rfl rfl rfl

/-- The client that has written reports 10, and the one that gets the lock next 11. -/
theorem mtime_moves_without_put :
    (∀ m n, m ≤ n → lateClock m ≤ lateClock n) ∧ ∃ s s₁ s' : Sys Bool,
      Trace.Reaches (step lateClock) Trace.Always (Sys.init Bool 0) s ∧
      s.answer lateClock true 5 .getattr = (.ok, ⟨10, 10, 10, 1⟩) ∧
      step lateClock s (.call true 5 .getattr) = some s₁ ∧
      Trace.run (step lateClock) (fun _ _ => true) s₁ [.flush true 5, .handover 5 false]
        = some s' ∧
      s'.owner 5 = some false ∧
      s'.answer lateClock false 5 .getattr = (.ok, ⟨11, 11, 11, 1⟩) := by
  refine ⟨fun m n hmn => ?_, ?_⟩
  · unfold lateClock
    by_cases hm : m = 0
    · rw [if_pos hm]
      split <;> decide
    · rw [if_neg hm, if_neg (by omega)]
      decide
  · have hrun : Trace.Reaches (step lateClock) Trace.Always (Sys.init Bool 0) _ :=
      Trace.reaches_always_of_run [.handover 5 true, .call true 5 (.put [104])] rfl
    exact ⟨_, _, _, hrun, rfl, rfl, rfl, rfl, rfl⟩

end Sharing

end Yfs
