import Yfs.Core.Sharing
import Yfs.Theory.ExtentStore

/-!
# Shared Extents are Coherent

Under the discipline of the locks at most one client caches anything of an extent: its
owner. So the extent is what the owner's cache and the server make of it, `ownerView`,
and a step is one of three things for it: a call of the owner, a write-back by the owner,
or nothing that shows. A lock that passes on is of the third kind, since neither the old
owner nor the new one has anything cached then.

Whatever can be read from that view is followed through these three cases. The content
is read here: only a `put` changes it, and a write-back moves it to the server.

## Main definitions

* `ActsOn`: What a call or a write-back does to one extent leaves the others alone.
* `SameView`: Two views of an extent that show the same.
* `Sys.ownerView`, `Sys.content`: An extent as its owner sees it.
* `Coherent`: The owner sees a content, and nobody else caches anything.

## Theorems

* `view_step`: What a step is for an extent.
* `coherent_step`, `coherent_reachable`: The discipline keeps the caches coherent.
* `content_step`: Only a `put` on an extent changes its content.
-/

namespace Yfs

/-- From `k` to `t` only the extent `eid` has been worked on. -/
structure Cached.ActsOn (k t : Cached) (eid : Inum) : Prop where
  client : ∀ e, e ≠ eid → SameAt k.client t.client e
  content : ∀ e, e ≠ eid → t.server.contentMap e = k.server.contentMap e
  attr : ∀ e, e ≠ eid → t.server.attrMap e = k.server.attrMap e
  synced : ∀ e, Synced k.server e → Synced t.server e

theorem ExtentServer.get_attrMap_of_ne (srv : ExtentServer) (now : UInt32) {eid e : Inum}
    (he : e ≠ eid) : (srv.get now eid).2.attrMap e = srv.attrMap e := by
  unfold get
  split
  · exact Function.update_of_ne he _ _
  · rfl

/-- A call works on its own extent. It may fill the client's cache and, as a `get` that reaches the
    server, set the access time there; the contents at the server stay as they are. -/
theorem Cached.actsOn_serve (clock : Nat → UInt32) (eid : Inum) (o : ExtentCall) (k : Cached) :
    k.ActsOn (serve clock eid o k).2 eid := by
  have hserver := serve_server clock eid o k
  refine ⟨fun e he => sameAt_serve clock he o k, fun e _ => congrFun hserver.1 e, ?_, ?_⟩
  · intro e he
    cases o with
    | get =>
        -- Only the access time of the extent itself is written.
        simp only [serve, ExtentClient.fetch]
        cases k.client.contentMapCache eid with
        | some buf => rfl
        | none => exact k.server.get_attrMap_of_ne _ he
    | getattr => rfl
    | put buf => rfl
  · intro e hs
    rw [Synced, hserver.2 e, hserver.1]
    exact hs

/-- The state after a write-back. -/
def Cached.flushed (clock : Nat → UInt32) (k : Cached) (eid : Inum) : Cached where
  client := (k.client.writeBack k.server (clock k.ticks) eid).1
  server := (k.client.writeBack k.server (clock k.ticks) eid).2
  ticks := k.ticks + 1

/-- A write-back works on its own extent: the cache is cleared for it, and what was dirty goes to
    the server. -/
theorem Cached.actsOn_flushed (clock : Nat → UInt32) (eid : Inum) (k : Cached) :
    k.ActsOn (k.flushed clock eid) eid := by
  refine ⟨fun e he => sameAt_writeBack k.client k.server (clock k.ticks) he, ?_,
    fun e he => writeBack_size k.client k.server (clock k.ticks) he,
    fun e hs => synced_writeBack (clock k.ticks) eid hs⟩
  intro e he
  unfold flushed ExtentClient.writeBack
  dsimp only
  cases k.client.flushRequest eid with
  | none => rfl
  | some buf => exact Function.update_of_ne he _ _

/-- The two views show the same of an extent. -/
structure Cached.SameView (k t : Cached) (e : Inum) : Prop where
  client : SameAt k.client t.client e
  content : t.server.contentMap e = k.server.contentMap e
  attr : t.server.attrMap e = k.server.attrMap e

/-- Work on one extent shows in no other one. -/
theorem Cached.ActsOn.sameView {k t : Cached} {eid e : Inum} (h : k.ActsOn t eid)
    (he : e ≠ eid) : k.SameView t e :=
  ⟨h.client e he, h.content e he, h.attr e he⟩

/-- Views that show the same see the same content. -/
theorem Cached.SameView.sees {k t : Cached} {e : Inum} (h : k.SameView t e) {v : Option Bytes}
    (hs : Sees k.client k.server e v) : Sees t.client t.server e v :=
  (hs.client_congr h.client).server_congr h.content (by rw [h.attr])

/-- Two clients that cache nothing of an extent are alike at it. This is what lets a lock pass
    on. -/
theorem Uncached.sameAt {c c' : ExtentClient} {eid : Inum} (h : Uncached c eid)
    (h' : Uncached c' eid) : SameAt c c' eid :=
  ⟨h'.content.trans h.content.symm, h'.attr.trans h.attr.symm, h'.dirty.trans h.dirty.symm⟩

namespace Sharing

variable {C : Type} [DecidableEq C] {clock : Nat → UInt32} {s s' : Sys C}

/-- A call is made by the owner, on the owner's cache. -/
theorem step_call {c : C} {eid : Inum} {o : ExtentCall}
    (h : step clock s (.call c eid o) = some s') :
    s.owner eid = some c ∧ s' = s.update c (Cached.serve clock eid o (s.view c)).2 := by
  simp only [step] at h
  split at h
  · rename_i ho
    exact ⟨ho, (Option.some.inj h).symm⟩
  · cases h

/-- A write-back is made by the owner too. -/
theorem step_flush {c : C} {eid : Inum} (h : step clock s (.flush c eid) = some s') :
    s.owner eid = some c ∧ s' = s.update c ((s.view c).flushed clock eid) := by
  simp only [step] at h
  split at h
  · rename_i ho
    exact ⟨ho, (Option.some.inj h).symm⟩
  · cases h

/-- A lock passes on when the owner, if there is one, has nothing of the extent cached. -/
theorem step_handover {eid : Inum} {c : C} (h : step clock s (.handover eid c) = some s') :
    (∀ d, s.owner eid = some d → Uncached (s.client d) eid) ∧
      s' = { s with owner := Function.update s.owner eid (some c) } := by
  simp only [step] at h
  split at h
  · rename_i hclear
    refine ⟨fun d hd => ExtentClient.uncached_of_isClear ?_, (Option.some.inj h).symm⟩
    rw [hd] at hclear
    exact hclear
  · cases h

/-! ## The owner's view -/

/-- The cache and the server of the owner. Without an owner, those of a client that caches
    nothing. -/
def Sys.ownerView (s : Sys C) (eid : Inum) : Cached :=
  match s.owner eid with
  | some c => s.view c
  | none => ⟨ExtentClient.new, s.server, s.ticks⟩

/-- The content of an extent. -/
def Sys.content (s : Sys C) (eid : Inum) : Option Bytes :=
  (s.ownerView eid).content eid

/-- The owner sees a content, and nobody else caches anything. -/
structure Coherent (s : Sys C) : Prop where
  sees : ∀ eid, Sees (s.ownerView eid).client (s.ownerView eid).server eid (s.content eid)
  uncached : ∀ c eid, s.owner eid ≠ some c → Uncached (s.client c) eid

omit [DecidableEq C] in
theorem ownerView_of_owner {eid : Inum} {c : C} (ho : s.owner eid = some c) :
    s.ownerView eid = s.view c := by
  rw [Sys.ownerView, ho]

omit [DecidableEq C] in
/-- There is one server, whoever owns the lock. -/
theorem ownerView_server (eid : Inum) : (s.ownerView eid).server = s.server := by
  unfold Sys.ownerView
  cases s.owner eid <;> rfl

theorem view_update (c : C) (t : Cached) : (s.update c t).view c = t := by
  simp only [Sys.view, Sys.update, Function.update_self]

theorem ownerView_update {eid : Inum} {c : C} (ho : s.owner eid = some c) (t : Cached) :
    (s.update c t).ownerView eid = t := by
  rw [ownerView_of_owner (show (s.update c t).owner eid = some c from ho), view_update]

/-- What the owner of one extent does to it shows in no other extent, whoever owns that one: the
    client that acts may own it too, and then its cache is the same at it; another client's cache is
    not touched. -/
theorem sameView_update {eid e : Inum} {c : C} {t : Cached} (ha : (s.view c).ActsOn t eid)
    (he : e ≠ eid) : (s.ownerView e).SameView ((s.update c t).ownerView e) e := by
  have hview := ha.sameView he
  unfold Sys.ownerView
  change Cached.SameView _ (match s.owner e with
    | some d => (s.update c t).view d
    | none => ⟨ExtentClient.new, t.server, t.ticks⟩) e
  cases s.owner e with
  | none => exact ⟨sameAt_refl _ e, hview.content, hview.attr⟩
  | some d =>
      -- The other extent may have the same owner.
      by_cases hdc : d = c
      · subst hdc
        dsimp only
        rw [view_update]
        exact hview
      · refine ⟨?_, hview.content, hview.attr⟩
        have hclient : (s.update c t).client d = s.client d := Function.update_of_ne hdc _ _
        dsimp only [Sys.view]
        rw [hclient]
        exact sameAt_refl _ e

/-- With nothing cached before and after, a lock that passes on shows nowhere. -/
theorem sameView_handover (h : Coherent s) {eid : Inum} {c : C}
    (hclear : ∀ d, s.owner eid = some d → Uncached (s.client d) eid) (e : Inum) :
    (s.ownerView e).SameView
      (Sys.ownerView { s with owner := Function.update s.owner eid (some c) } e) e := by
  -- The old owner has flushed the extent, and a client that is not the owner never caches it.
  have hall : ∀ d, Uncached (s.client d) eid := by
    intro d
    by_cases hd : s.owner eid = some d
    · exact hclear d hd
    · exact h.uncached d eid hd
  by_cases he : e = eid
  · subst he
    have hafter : Sys.ownerView { s with owner := Function.update s.owner e (some c) } e
        = s.view c := by
      rw [ownerView_of_owner (Function.update_self e (some c) s.owner)]
      rfl
    rw [hafter]
    refine ⟨?_, by rw [ownerView_server]; rfl, by rw [ownerView_server]; rfl⟩
    unfold Sys.ownerView
    cases s.owner e with
    | none => exact Uncached.sameAt ⟨rfl, rfl, rfl⟩ (hall c)
    | some d => exact (hall d).sameAt (hall c)
  · simp only [Sys.ownerView, Function.update_of_ne he]
    exact ⟨sameAt_refl _ e, rfl, rfl⟩

/-- What a step is for an extent: a call of the owner, a write-back by the owner, or nothing that
    shows. Every invariant of the extents is proved with these three cases, and no other proof looks
    at what the actions do. -/
theorem view_step (h : Coherent s) {a : Action C} (hs : step clock s a = some s') (e : Inum) :
    (∃ c o, a = .call c e o ∧ s'.ownerView e = (Cached.serve clock e o (s.ownerView e)).2) ∨
    (∃ c, a = .flush c e ∧ s.owner e = some c ∧
      s'.ownerView e = (s.ownerView e).flushed clock e) ∨
    (∀ c, a ≠ .flush c e) ∧ (s.ownerView e).SameView (s'.ownerView e) e := by
  cases a with
  | call c eid o =>
      rcases step_call hs with ⟨ho, rfl⟩
      by_cases he : e = eid
      · subst he
        exact Or.inl ⟨c, o, rfl, by rw [ownerView_update ho, ownerView_of_owner ho]⟩
      · exact Or.inr (Or.inr ⟨(fun _ h => by cases h),
          sameView_update (Cached.actsOn_serve clock eid o _) he⟩)
  | flush c eid =>
      rcases step_flush hs with ⟨ho, rfl⟩
      by_cases he : e = eid
      · subst he
        exact Or.inr (Or.inl ⟨c, rfl, ho, by rw [ownerView_update ho, ownerView_of_owner ho]⟩)
      · refine Or.inr (Or.inr ⟨fun _ h => ?_,
          sameView_update (Cached.actsOn_flushed clock eid _) he⟩)
        cases h
        exact he rfl
  | handover eid c =>
      rcases step_handover hs with ⟨hclear, rfl⟩
      exact Or.inr (Or.inr ⟨(fun _ h => by cases h), sameView_handover h hclear e⟩)

/-! ## Coherence -/

omit [DecidableEq C] in
/-- New clients cache nothing, and the server has the root directory. -/
theorem coherent_init (now : UInt32) : Coherent (Sys.init C now) where
  sees := fun eid => Cached.holds_new now 0 eid
  uncached := fun _ _ _ => ⟨rfl, rfl, rfl⟩

/-- A write-back leaves the content with the server. What was seen in the cache before is seen
    through the empty cache afterwards. -/
theorem sees_flushed {k : Cached} {eid : Inum} {v : Option Bytes}
    (h : Sees k.client k.server eid v) :
    Sees (k.flushed clock eid).client (k.flushed clock eid).server eid v := by
  have hsees := Sees.of_uncached (synced_writeBack (c := k.client) (clock k.ticks) eid h.synced)
    (uncached_writeBack k.client k.server (clock k.ticks) eid)
  rwa [writeBack_contentMap (clock k.ticks) h, Function.update_self] at hsees

omit [DecidableEq C] in
/-- A view that sees some content sees the content. -/
theorem sees_content {eid : Inum} {v : Option Bytes}
    (h : Sees (s.ownerView eid).client (s.ownerView eid).server eid v) :
    Sees (s.ownerView eid).client (s.ownerView eid).server eid (s.content eid) := by
  have heq : s.content eid = v := h.content
  rwa [heq]

/-- Who does not own an extent caches nothing of it, also after a step of a client. If that client
    is meant, the extent is not the one it has worked on, since it owns that one. -/
theorem uncached_update (h : Coherent s) {c : C} {eid : Inum} (ho : s.owner eid = some c)
    {t : Cached} (ha : (s.view c).ActsOn t eid) (d : C) (e : Inum) (hd : s.owner e ≠ some d) :
    Uncached ((s.update c t).client d) e := by
  by_cases hdc : d = c
  · subst hdc
    have he : e ≠ eid := fun heq => hd (heq ▸ ho)
    have hclient : (s.update d t).client d = t.client := Function.update_self _ _ _
    rw [hclient]
    exact (h.uncached d e hd).congr (ha.client e he)
  · have hclient : (s.update c t).client d = s.client d := Function.update_of_ne hdc _ _
    rw [hclient]
    exact h.uncached d e hd

/-- The owner works on the extent. The extent itself is seen as the work leaves it, and every other
    one as before. -/
theorem coherent_update (h : Coherent s) {c : C} {eid : Inum} (ho : s.owner eid = some c)
    {t : Cached} (ha : (s.view c).ActsOn t eid) {v : Option Bytes}
    (hsees : Sees t.client t.server eid v) : Coherent (s.update c t) := by
  refine ⟨fun e => ?_, fun d e hd => uncached_update h ho ha d e hd⟩
  by_cases he : e = eid
  · subst he
    rw [← ownerView_update ho t] at hsees
    exact sees_content hsees
  · exact sees_content ((sameView_update ha he).sees (h.sees e))

/-- Each step of the discipline keeps the caches coherent. A call and a write-back are work of the
    owner; a lock that passes on moves the right to cache from one client to another while neither
    of them does. -/
theorem coherent_step (a : Action C) (h : Coherent s) (hs : step clock s a = some s') :
    Coherent s' := by
  cases a with
  | call c eid o =>
      rcases step_call hs with ⟨ho, rfl⟩
      have hsees := h.sees eid
      rw [ownerView_of_owner ho] at hsees
      exact coherent_update h ho (Cached.actsOn_serve clock eid o (s.view c))
        (Cached.serve_sees clock o hsees).2
  | flush c eid =>
      rcases step_flush hs with ⟨ho, rfl⟩
      have hsees := h.sees eid
      rw [ownerView_of_owner ho] at hsees
      exact coherent_update h ho (Cached.actsOn_flushed clock eid (s.view c))
        (sees_flushed hsees)
  | handover eid c =>
      rcases step_handover hs with ⟨hclear, rfl⟩
      refine ⟨fun e => sees_content ((sameView_handover h hclear e).sees (h.sees e)), ?_⟩
      intro d e hd
      dsimp only at hd ⊢
      -- Whoever has lost the lock has flushed.
      by_cases hod : s.owner e = some d
      · by_cases he : e = eid
        · subst he
          exact hclear d hod
        · rw [Function.update_of_ne he] at hd
          exact absurd hod hd
      · exact h.uncached d e hod

/-- In every run, with any number of clients and any times, the owner of an extent sees its content
    and nobody else caches anything of it. -/
theorem coherent_reachable {now : UInt32}
    (hr : Trace.Reaches (step clock) Trace.Always (Sys.init C now) s) : Coherent s :=
  Trace.invariant_of_step Coherent (coherent_init now)
    (fun _ a _ h _ hs => coherent_step a h hs) hr

/-- The call is a `put` on the extent. -/
def Action.puts (eid : Inum) : Action C → Bool
  | .call _ e (.put _) => e == eid
  | _ => false

/-- Only a `put` on an extent changes its content. Reads do not, write-backs do not, and neither
    does a lock that passes on. -/
theorem content_step (a : Action C) (h : Coherent s) (hs : step clock s a = some s') (e : Inum)
    (hput : a.puts e = false) : s'.content e = s.content e := by
  unfold Sys.content
  rcases view_step h hs e with ⟨c, o, rfl, heq⟩ | ⟨c, rfl, _, heq⟩ | ⟨_, hsame⟩
  · rw [heq]
    have hsees := (Cached.serve_sees clock o (h.sees e)).2
    cases o with
    | get => exact hsees.content
    | getattr => exact hsees.content
    | put buf => simp only [Action.puts, beq_self_eq_true, Bool.true_eq_false] at hput
  -- The write-back takes the content from the cache to the server.
  · rw [heq]
    exact (sees_flushed (h.sees e)).content
  · exact (hsame.sees (h.sees e)).content

end Sharing

end Yfs
