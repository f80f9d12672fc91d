import Yfs.Core.LockHandlers
import Yfs.Theory.GrantExclusivity

/-!
# Where Revokes Go

Whether every `revoke` of `lock_server_cache` goes to the client that has the lock, and not
to the one that asks for it.

`acquire` decides under the mutex that the owner has to be revoked, and reads who that is
after it has dropped the mutex. A `release` in between leaves the empty id there, or the
next owner. And the branch that revokes does not compare the owner with the requester: a
client that is giving a lock back may ask for it again before its release arrives, and is
then sent a `revoke` for its own request.

`Undisturbed` excludes the two. Then a handler that is about to read has an owner waiting
for it that is not its own client (`Aimed`), since nothing but a `release` takes an owner
away.

## Main definitions

* `Revoke.Addressed`: To the owner, who is not the requester.
* `Undisturbed`: No release before the read, and no request of the owner.
* `Effect`: The kinds of steps.
* `Aimed`: What the handlers that still have to revoke can rely on.

## Theorems

* `step_effect`: What a step can do.
* `aimed_step`: An undisturbed step keeps the handlers aimed.
* `revokes_addressed`: In an undisturbed run every `revoke` is addressed to the owner.
* `revoke_to_requester`: A client that asks for its own lock is revoked.
-/

namespace Yfs

namespace LockHandlers

variable {H L : Type} [DecidableEq H] [DecidableEq L]

/-- To a client that had the lock when the address was read, and that did not ask for it. -/
def Revoke.Addressed (v : Revoke L) : Prop :=
  v.address ≠ [] ∧ v.address ≠ v.requester ∧ v.owner = some v.address

/-- The handler has decided to revoke the owner of the lock, and not read who it is. -/
def Pc.awaits (lid : L) : Pc L → Bool
  | .queued l _ true => decide (l = lid)
  | _ => false

/-- For a handler that is about to enter: an `acquire` that would revoke does not come from
    the owner, and for a `release` no handler still has to read the owner. -/
def Sys.Calm (s : Sys H L) : Pc L → Prop
  | .arrived (.acquire lid id) =>
      s.server.whoWaitingLock lid = [] → s.server.owner lid ≠ some id
  | .arrived (.release lid _) => ∀ h, (s.handler h).awaits lid = false
  | _ => True

/-- A step is undisturbed unless a handler enters that is not calm. -/
def Undisturbed (s : Sys H L) : Action H L → Prop
  | .enter h => s.Calm (s.handler h)
  | _ => True

instance [Fintype H] (s : Sys H L) : (pc : Pc L) → Decidable (s.Calm pc)
  | .arrived (.acquire lid id) => inferInstanceAs
      (Decidable (s.server.whoWaitingLock lid = [] → s.server.owner lid ≠ some id))
  | .arrived (.release lid _) =>
      inferInstanceAs (Decidable (∀ h, (s.handler h).awaits lid = false))
  | .idle => isTrue trivial
  | .queued _ _ _ => isTrue trivial
  | .binding _ => isTrue trivial
  | .revoking _ => isTrue trivial
  | .retrying _ _ => isTrue trivial
  | .returned _ => isTrue trivial

instance [Fintype H] (s : Sys H L) : (a : Action H L) → Decidable (Undisturbed s a)
  | .enter h => inferInstanceAs (Decidable (s.Calm (s.handler h)))
  | .arrive _ _ => isTrue trivial
  | .noRevoke _ => isTrue trivial
  | .readOwner _ => isTrue trivial
  | .bindReturns _ _ => isTrue trivial
  | .revokeReturns _ _ => isTrue trivial
  | .retryReturns _ => isTrue trivial

/-! ## Steps -/

/-- The handler neither has an owner to read nor has read one. -/
def Pc.Plain (pc : Pc L) : Prop :=
  (∀ lid id, pc ≠ .queued lid id true) ∧ ∀ v, pc ≠ .binding v

omit [DecidableEq L] in
/-- A request that has arrived has not looked at owners. -/
theorem plain_arrived (r : Request L) : (Pc.arrived r).Plain :=
  ⟨by simp only [ne_eq, reduceCtorEq, not_false_eq_true, implies_true],
    by simp only [ne_eq, reduceCtorEq, not_false_eq_true, implies_true]⟩

omit [DecidableEq L] in
/-- And one that has returned no longer does. -/
theorem plain_returned (st : LockProtocol.Status) : (Pc.returned st : Pc L).Plain :=
  ⟨by simp only [ne_eq, reduceCtorEq, not_false_eq_true, implies_true],
    by simp only [ne_eq, reduceCtorEq, not_false_eq_true, implies_true]⟩

/-- What a step can do. -/
inductive Effect (s : Sys H L) : Action H L → Sys H L → Prop where
  | acquire (h : H) (lid : L) (id : Bytes) (hpc : s.handler h = .arrived (.acquire lid id)) :
      Effect s (.enter h) (s.enterAcquire h lid id)
  | release (h : H) (lid : L) (id : Bytes) (hpc : s.handler h = .arrived (.release lid id))
      (s' : Sys H L) (hs : s.enterRelease h lid id = some s') : Effect s (.enter h) s'
  | read (h : H) (lid : L) (id : Bytes) (hpc : s.handler h = .queued lid id true) :
      Effect s (.readOwner h) (s.readOwner h lid id)
  | bound (h : H) (v : Revoke L) (hpc : s.handler h = .binding v) :
      Effect s (.bindReturns h true) ({ s with revokes := v :: s.revokes }.setPc h (.revoking v))
  /-- A step of a handler that concerns neither owners nor addresses. -/
  | plain (a : Action H L) (h : H) (pc : Pc L) (hpc : pc.Plain) (m : Option H) :
      Effect s a ({ s with serverlockMutex := m }.setPc h pc)

/-- A step does one of these five things. What follows is by cases on them and not on the
    actions. -/
theorem step_effect {s s' : Sys H L} {a : Action H L} (hs : step s a = some s') :
    Effect s a s' := by
  cases a with
  | arrive h r =>
      simp only [step] at hs
      split at hs
      · cases hs
        exact .plain _ h _ (plain_arrived r) s.serverlockMutex
      · cases hs
  | enter h =>
      simp only [step] at hs
      split at hs
      · rename_i lid id hpc _
        cases hs
        exact .acquire h lid id hpc
      · rename_i lid id hpc _
        exact .release h lid id hpc s' hs
      · cases hs
  | noRevoke h =>
      simp only [step] at hs
      split at hs
      · cases hs
        exact .plain _ h _ (plain_returned _) s.serverlockMutex
      · cases hs
  | readOwner h =>
      simp only [step] at hs
      split at hs
      · rename_i lid id hpc
        cases hs
        exact .read h lid id hpc
      · cases hs
  | bindReturns h bound =>
      simp only [step] at hs
      split at hs
      · rename_i v hpc
        cases hs
        exact .bound h v hpc
      · cases hs
        exact .plain _ h _ (plain_returned _) none
      · cases hs
  | revokeReturns h ok =>
      simp only [step] at hs
      split at hs
      · cases hs
        exact .plain _ h _ (plain_returned _) s.serverlockMutex
      · cases hs
        exact .plain _ h _ (plain_returned _) none
      · cases hs
  | retryReturns h =>
      simp only [step] at hs
      split at hs
      · cases hs
        exact .plain _ h _ (plain_returned _) none
      · cases hs

/-! ## Owners -/

omit [DecidableEq L] in
/-- An owner is the id that is down for the lock, and not the empty id, which is what the server
    writes for nobody. -/
theorem owner_ne_nil {srv : LockServer L} {lid : L} {o : Bytes} (h : srv.owner lid = some o) :
    srv.whereIsLock lid = some o ∧ o ≠ [] := by
  unfold LockServer.owner at h
  obtain ⟨hw, ho⟩ := Option.filter_eq_some_iff.mp h
  exact ⟨hw, of_decide_eq_true ho⟩

/-- A lookup that creates the empty id creates no owner. -/
theorem owner_lookup (srv : LockServer L) (lid l : L) :
    (srv.setWhere lid ((srv.whereIsLock lid).getD [])).owner l = srv.owner l := by
  rw [LockServer.owner_setWhere]
  by_cases hl : l = lid
  · rw [if_pos hl, hl]
    unfold LockServer.owner
    cases srv.whereIsLock lid with
    | none => rfl
    | some o => rfl
  · rw [if_neg hl]

/-! ## Aimed handlers -/

/-- A handler that is about to read will find an owner, and not its own client; and what has
    been read is addressed. -/
structure Aimed (s : Sys H L) : Prop where
  queued : ∀ h lid id, s.handler h = .queued lid id true →
    ∃ o, s.server.owner lid = some o ∧ o ≠ id
  binding : ∀ h v, s.handler h = .binding v → v.Addressed
  revokes : ∀ v ∈ s.revokes, v.Addressed

omit [DecidableEq L] in
/-- One handler moves, and the owners that the others wait for stay. -/
theorem Aimed.move {s s' : Sys H L} (hi : Aimed s) {h : H} {pc : Pc L}
    (hh : s'.handler = Function.update s.handler h pc)
    (howner : ∀ h' lid id, s.handler h' = .queued lid id true →
      s'.server.owner lid = s.server.owner lid)
    (hq : ∀ lid id, pc = .queued lid id true → ∃ o, s'.server.owner lid = some o ∧ o ≠ id)
    (hb : ∀ v, pc = .binding v → v.Addressed) (hr : ∀ v ∈ s'.revokes, v.Addressed) :
    Aimed s' := by
  refine ⟨fun h' lid id hpc => ?_, fun h' v hpc => ?_, hr⟩
  · rw [hh, Function.update_apply] at hpc
    by_cases he : h' = h
    · rw [if_pos he] at hpc
      exact hq lid id hpc
    · rw [if_neg he] at hpc
      rw [howner h' lid id hpc]
      exact hi.queued h' lid id hpc
  · rw [hh, Function.update_apply] at hpc
    by_cases he : h' = h
    · rw [if_pos he] at hpc
      exact hb v hpc
    · rw [if_neg he] at hpc
      exact hi.binding h' v hpc

/-- An `acquire` of a free lock is granted on the spot. -/
theorem enterAcquire_free {s : Sys H L} (h : H) {lid : L} (id : Bytes)
    (hfree : s.server.owner lid = none) :
    s.enterAcquire h lid id
      = { s with server := s.server.setWhere lid id }.setPc h (.returned .ok) := by
  unfold Sys.enterAcquire
  rw [LockServer.acquire_free s.server lid id .ok hfree]

/-- An `acquire` of an owned lock puts the client in the queue, and the handler revokes if the queue
    was empty. -/
theorem enterAcquire_owned {s : Sys H L} (h : H) {lid : L} (id : Bytes)
    (howned : s.server.owner lid ≠ none) :
    ∃ q, s.enterAcquire h lid id = { s with server := s.server.setWaiting lid q }.setPc h
      (.queued lid id (s.server.whoWaitingLock lid).isEmpty) := by
  refine ⟨LockProtocol.Sys.enqueue (s.server.whoWaitingLock lid) id, ?_⟩
  unfold Sys.enterAcquire
  rw [LockServer.acquire_owned s.server lid id .ok howned, if_neg (fun hc => hc.2 rfl)]

/-- An `acquire` keeps the aim if its client is not the owner that it would revoke. -/
theorem aimed_acquire {s : Sys H L} (hi : Aimed s) {h : H} {lid : L} {id : Bytes}
    (hcalm : s.server.whoWaitingLock lid = [] → s.server.owner lid ≠ some id) :
    Aimed (s.enterAcquire h lid id) := by
  cases hown : s.server.owner lid with
  | none =>
      rw [enterAcquire_free h id hown]
      have hplain := plain_returned (L := L) .ok
      refine hi.move rfl (fun h' l i hpc => ?_) (fun l i hpc => absurd hpc (hplain.1 l i))
        (fun v hpc => absurd hpc (hplain.2 v)) hi.revokes
      -- A lock that another handler waits for is owned, so this is a grant of another one.
      obtain ⟨o, ho, -⟩ := hi.queued h' l i hpc
      refine (LockServer.owner_setWhere s.server lid l id).trans (if_neg ?_)
      rintro rfl
      rw [hown] at ho
      cases ho
  | some o =>
      have howned : s.server.owner lid ≠ none := by
        rw [hown]
        exact Option.some_ne_none o
      obtain ⟨q, hq⟩ := enterAcquire_owned h id howned
      rw [hq]
      refine hi.move rfl (fun _ _ _ _ => rfl) (fun l i hpc => ?_) (fun v hpc => by cases hpc)
        hi.revokes
      -- The handler itself is to read now. The queue was empty, so the owner is somebody else.
      obtain ⟨rfl, rfl, hempty⟩ := Pc.queued.inj hpc
      have hne := hcalm (List.isEmpty_iff.mp hempty)
      rw [hown] at hne
      exact ⟨o, hown, fun heq => hne (congrArg some heq)⟩

/-- A `release` keeps the aim if nobody still has to read the owner of the lock, since the lock is
    nobody's then or the next one's. -/
theorem aimed_release {s s' : Sys H L} (hi : Aimed s) {h : H} {lid : L} {id : Bytes}
    (hs : s.enterRelease h lid id = some s')
    (hcalm : ∀ h', (s.handler h').awaits lid = false) : Aimed s' := by
  unfold Sys.enterRelease at hs
  obtain ⟨server, hrel, rfl⟩ := Option.map_eq_some_iff.mp hs
  have howner : ∀ h' l i, s.handler h' = .queued l i true → server.owner l = s.server.owner l := by
    intro h' l i hpc
    rw [LockServer.release_owner s.server server lid l id .ok hrel, if_neg]
    -- Nobody waits to read the owner of the lock that is released.
    rintro rfl
    have hawaits := hcalm h'
    rw [hpc] at hawaits
    exact absurd hawaits (by simp only [Pc.awaits, decide_true, reduceCtorEq, not_false_eq_true])
  cases s.server.whoWaitingLock lid with
  | nil =>
      have hplain := plain_returned (L := L) .ok
      exact hi.move rfl howner (fun l i hpc => absurd hpc (hplain.1 l i))
        (fun v hpc => absurd hpc (hplain.2 v)) hi.revokes
  | cons first rest =>
      exact hi.move rfl howner (fun _ _ hpc => by cases hpc) (fun _ hpc => by cases hpc)
        hi.revokes

/-- The read finds the owner that was promised, and nothing has happened to it since. -/
theorem aimed_read {s : Sys H L} (hi : Aimed s) {h : H} {lid : L} {id : Bytes}
    (hpc : s.handler h = .queued lid id true) : Aimed (s.readOwner h lid id) := by
  refine hi.move rfl (fun _ l _ _ => owner_lookup s.server lid l) (fun _ _ hpc' => by cases hpc')
    (fun v hv => ?_) hi.revokes
  obtain ⟨o, ho, hne⟩ := hi.queued h lid id hpc
  obtain ⟨hwhere, hnil⟩ := owner_ne_nil ho
  cases hv
  simp only [Revoke.Addressed, hwhere, Option.getD_some, ho]
  exact ⟨hnil, hne, trivial⟩

/-- Every undisturbed step keeps the aim. The two conditions on entering handlers are used where an
    `acquire` and a `release` enter; the other steps need none. -/
theorem aimed_step {s s' : Sys H L} {a : Action H L} (hi : Aimed s) (hok : Undisturbed s a)
    (hs : step s a = some s') : Aimed s' := by
  cases step_effect hs with
  | acquire h lid id hpc =>
      have hcalm : s.Calm (s.handler h) := hok
      rw [hpc] at hcalm
      exact aimed_acquire hi hcalm
  | release h lid id hpc s' hrel =>
      have hcalm : s.Calm (s.handler h) := hok
      rw [hpc] at hcalm
      exact aimed_release hi hrel hcalm
  | read h lid id hpc => exact aimed_read hi hpc
  | bound h v hpc =>
      refine hi.move rfl (fun _ _ _ _ => rfl) (fun _ _ hpc' => by cases hpc')
        (fun _ hpc' => by cases hpc') ?_
      exact List.forall_mem_cons.mpr ⟨hi.binding h v hpc, hi.revokes⟩
  | plain a h pc hpc m =>
      exact hi.move rfl (fun _ _ _ _ => rfl) (fun l i hpc' => absurd hpc' (hpc.1 l i))
        (fun v hpc' => absurd hpc' (hpc.2 v)) hi.revokes

/-- As long as no lock is released while a handler still has to read its owner, and no client asks
    for a lock of its own, every `revoke` goes to the owner. The handler reads the address in a
    second step, after it has put its client into the queue, and this is what the two conditions
    protect. -/
theorem revokes_addressed (s : Sys H L)
    (h : Trace.Reaches step Undisturbed (Sys.init H L) s) : ∀ v ∈ s.revokes, v.Addressed := by
  refine (Trace.invariant_of_step Aimed ?_ (fun s a s' hi hok hs => aimed_step hi hok hs) h).revokes
  refine ⟨fun _ _ _ hpc => ?_, fun _ _ hpc => ?_, fun _ hv => ?_⟩
  · cases hpc
  · cases hpc
  · cases hv

/-- `a` has the lock and `b` asks for it. -/
theorem revokes_addressed_contended :
    ∃ s : Sys Bool Nat, Trace.Reaches step Undisturbed (Sys.init Bool Nat) s ∧
      s.revokes = [⟨7, [98], [97], some [97]⟩] ∧ ∀ v ∈ s.revokes, v.Addressed := by
  have hrun : Trace.Reaches step (fun s a => decide (Undisturbed s a) = true)
      (Sys.init Bool Nat) _ :=
    Trace.reaches_of_run [.arrive false (.acquire 7 [97]), .enter false,
      .arrive true (.acquire 7 [98]), .enter true, .readOwner true, .bindReturns true true] rfl
  have h := Trace.reaches_weaken (fun s a ha => of_decide_eq_true ha) hrun
  exact ⟨_, h, rfl, revokes_addressed _ h⟩

/-- `a` asks for a lock that the server has down as its own, and is revoked. Or `b` asks for
    it, and `a` releases it before the owner is read: the address is empty. -/
theorem revoke_to_requester :
    (∃ s : Sys Bool Nat, Trace.Reaches step Trace.Always (Sys.init Bool Nat) s ∧
      s.revokes = [⟨7, [97], [97], some [97]⟩] ∧ ¬ ∀ v ∈ s.revokes, v.Addressed) ∧
    ∃ s : Sys (Fin 3) Nat, Trace.Reaches step Trace.Always (Sys.init (Fin 3) Nat) s ∧
      s.handler 1 = .binding ⟨7, [98], [], none⟩ := by
  refine ⟨⟨_, Trace.reaches_always_of_run [.arrive false (.acquire 7 [97]), .enter false,
      .arrive true (.acquire 7 [97]), .enter true, .readOwner true, .bindReturns true true] rfl,
      rfl, fun hall => ?_⟩,
    ⟨_, Trace.reaches_always_of_run [.arrive 0 (.acquire 7 [97]), .enter 0,
      .arrive 1 (.acquire 7 [98]), .enter 1, .arrive 2 (.release 7 [97]), .enter 2,
      .readOwner 1] rfl, rfl⟩⟩
  exact (hall _ (List.mem_singleton_self _)).2.1 rfl

open LockProtocol in
/-- The clients of the protocol get there: `give_back` has written `NONE` and not yet called
    `release` when a thread of the same client asks for the lock again. -/
example : ∃ s : LockProtocol.Sys Unit Unit Nat,
    Trace.Reaches LockProtocol.step Trace.Always (LockProtocol.init Unit Unit Nat) s ∧
      s.thread ((), .app ()) = .acquireRpc 7 (.revoking (some ())) :=
  ⟨_, Trace.reaches_always_of_run [.callAcquire () () 7, .enterAcquire () (),
    .serverAcquire () (.app ()), .acquireReturns () (), .callRelease () () 7,
    .enterRelease () (), .giveBackTest () 7, .giveBackUpdate (), .callAcquire () () 7,
    .enterAcquire () (), .serverAcquire () (.app ()), .serverReadOwner () (.app ())] rfl, rfl⟩

end LockHandlers

end Yfs
