import Yfs.Core.LockProtocol
import Yfs.Library.Threads

/-!
# Steps of the Lock Protocol

What one action of the lock protocol can do, said once. `Step` has one
constructor for each branch of each critical section, with the guards that lead
there and the fields that change; `step_cases` is the inversion of `step`. Every
invariant of the protocol is a case analysis over `Step`, and none of them
unfolds the model again.

A turn of the loop of `acquire` is entered from two places, the start of the
function and a return from `pthread_cond_wait`. `Turn` is what both have in
common.

Most invariants are about the state that a client has recorded for a lock, which
eight of the branches change. `Writes` names those eight, and `lockstate_step`
reads the state after a step back: it was the same before, or one of them has
written it.

## Main definitions

* `Turn`: A thread runs one turn of the loop of `acquire`.
* `Step`: The effect of an action, branch by branch.
* `Action.actor`, `Action.turns`: The thread that an action moves, and the actions
  that run the loop of `acquire`.
* `Writes`: The branches that change the state of a lock at a client.

## Theorems

* `acquireLoop_step`: A turn of the loop is one of three branches.
* `step_cases`: Every enabled action is one of the branches.
* `lockstate_step`: Where the state of a lock comes from.
-/

namespace Yfs

namespace LockProtocol

variable {C T L : Type} [DecidableEq C] [DecidableEq T] [DecidableEq L]

open Sys

/-- Thread `t` of client `c` has `lockmap_mutex` at the head of the loop of
    `acquire(lid)`; `cv` is the map of condition variables there. -/
structure Turn (s : Sys C T L) (a : Action C T L) (c : C) (t : T) (lid : L)
    (cv : C × L → Bool) : Prop where
  mutex : s.lockmapMutex c = none
  entered : (s.thread (c, .app t) = .acquire lid ∧ a = .enterAcquire c t ∧
      (s.lockstateMap (c, lid) = none → cv (c, lid) = true)) ∨
    (s.thread (c, .app t) = .condWait lid ∧ a = .wake c t)
  cv_mono : ∀ k, s.lockCvMap k = true → cv k = true

/-- The effect of an action, one constructor for each branch of the source. -/
inductive Step (s : Sys C T L) : Action C T L → Sys C T L → Prop where
  | callAcquire (c : C) (t : T) (lid : L) (hpc : s.thread (c, .app t) = .idle) :
      Step s (.callAcquire c t lid) { s with
        thread := Function.update s.thread (c, .app t) (.acquire lid) }
  | acquireFree (a : Action C T L) (c : C) (t : T) (lid : L) (cv : C × L → Bool)
      (ha : Turn s a c t lid cv) (hst : s.lockstate c lid = .free) :
      Step s a { s with
        lockstateMap := Function.update s.lockstateMap (c, lid) (some .locked)
        lockCvMap := cv
        thread := Function.update s.thread (c, .app t) .idle
        holds := Function.update s.holds (c, t, lid) true }
  | acquireNone (a : Action C T L) (c : C) (t : T) (lid : L) (cv : C × L → Bool)
      (ha : Turn s a c t lid cv) (hst : s.lockstate c lid = .none) :
      Step s a { s with
        lockstateMap := Function.update s.lockstateMap (c, lid) (some .none)
        lockCvMap := cv
        lockmapMutex := Function.update s.lockmapMutex c (some (.app t))
        thread := Function.update s.thread (c, .app t) (.acquireRpc lid .sent) }
  | acquireWait (a : Action C T L) (c : C) (t : T) (lid : L) (cv : C × L → Bool)
      (ha : Turn s a c t lid cv) (hfree : s.lockstate c lid ≠ .free)
      (hnone : s.lockstate c lid ≠ .none) :
      Step s a { s with
        lockstateMap := Function.update s.lockstateMap (c, lid) (some (s.lockstate c lid))
        lockCvMap := Function.update cv (c, lid) true
        thread := Function.update s.thread (c, .app t) (.condWait lid) }
  | replyOk (c : C) (t : T) (lid : L)
      (hpc : s.thread (c, .app t) = .acquireRpc lid (.replied .ok)) :
      Step s (.acquireReturns c t) { s with
        lockstateMap := Function.update s.lockstateMap (c, lid) (some .locked)
        lockmapMutex := Function.update s.lockmapMutex c none
        thread := Function.update s.thread (c, .app t) .idle
        holds := Function.update s.holds (c, t, lid) true }
  | replyRetry (c : C) (t : T) (lid : L)
      (hpc : s.thread (c, .app t) = .acquireRpc lid (.replied .retry)) :
      Step s (.acquireReturns c t) { s with
        lockstateMap := Function.update s.lockstateMap (c, lid) (some .acquiring)
        lockCvMap := Function.update s.lockCvMap (c, lid) true
        lockmapMutex := Function.update s.lockmapMutex c none
        thread := Function.update s.thread (c, .app t) (.condWait lid) }
  | replyOther (c : C) (t : T) (lid : L) (st : Status)
      (hpc : s.thread (c, .app t) = .acquireRpc lid (.replied st)) (hok : st ≠ .ok)
      (hretry : st ≠ .retry) :
      Step s (.acquireReturns c t) { s with
        thread := Function.update s.thread (c, .app t) (.acquireRpc lid .sent) }
  | callRelease (c : C) (t : T) (lid : L) (hpc : s.thread (c, .app t) = .idle)
      (hh : s.holds (c, t, lid) = true) :
      Step s (.callRelease c t lid) { s with
        thread := Function.update s.thread (c, .app t) (.release lid)
        holds := Function.update s.holds (c, t, lid) false }
  | releaseUnknown (c : C) (t : T) (lid : L) (hpc : s.thread (c, .app t) = .release lid)
      (hm : s.lockmapMutex c = none) (hst : s.lockstateMap (c, lid) = none) :
      Step s (.enterRelease c t) { s with
        thread := Function.update s.thread (c, .app t) .idle }
  | releaseRevoked (c : C) (t : T) (lid : L) (hpc : s.thread (c, .app t) = .release lid)
      (hm : s.lockmapMutex c = none) (hst : s.lockstateMap (c, lid) = some .releasing) :
      Step s (.enterRelease c t) { s with
        lockstateMap := Function.update s.lockstateMap (c, lid) (some .none)
        thread := Function.update s.thread (c, .app t) (.dorelease lid) }
  | releaseLocal (c : C) (t : T) (lid : L) (hpc : s.thread (c, .app t) = .release lid)
      (hm : s.lockmapMutex c = none) (hsome : s.lockstateMap (c, lid) ≠ none)
      (hst : s.lockstateMap (c, lid) ≠ some .releasing) :
      Step s (.enterRelease c t) { s with
        lockstateMap := Function.update s.lockstateMap (c, lid) (some .free)
        thread := Function.update s.thread (c, .app t) .idle }
  | doreleaseReturns (c : C) (i : ThreadId T) (lid : L)
      (hpc : s.thread (c, i) = .dorelease lid) :
      Step s (.doreleaseReturns c i) { s with
        thread := Function.update s.thread (c, i) (.releaseRpc lid .sent) }
  | releaseReturns (c : C) (i : ThreadId T) (lid : L)
      (hpc : s.thread (c, i) = .releaseRpc lid .replied) :
      Step s (.releaseReturns c i) { s with thread := Function.update s.thread (c, i) .idle }
  | giveBackTest (c : C) (lid : L) (hpc : s.thread (c, .giveBack) = .idle)
      (hst : s.lockstateMap (c, lid) = some .free) :
      Step s (.giveBackTest c lid) { s with
        thread := Function.update s.thread (c, .giveBack) (.tested lid) }
  | giveBackUpdate (c : C) (lid : L) (hpc : s.thread (c, .giveBack) = .tested lid)
      (hm : s.lockmapMutex c = none) :
      Step s (.giveBackUpdate c) { s with
        lockstateMap := Function.update s.lockstateMap (c, lid) (some .none)
        thread := Function.update s.thread (c, .giveBack) (.dorelease lid) }
  | serverGrant (c : C) (i : ThreadId T) (lid : L)
      (hpc : s.thread (c, i) = .acquireRpc lid .sent) (hm : s.serverlockMutex = none)
      (hfree : (s.whereIsLock lid).join = none) :
      Step s (.serverAcquire c i) { s with
        whereIsLock := Function.update s.whereIsLock lid (some (some c))
        thread := Function.update s.thread (c, i) (.acquireRpc lid (.replied .ok)) }
  | serverQueue (c : C) (i : ThreadId T) (lid : L) (o : C)
      (hpc : s.thread (c, i) = .acquireRpc lid .sent) (hm : s.serverlockMutex = none)
      (hown : s.whereIsLock lid = some (some o)) :
      Step s (.serverAcquire c i) { s with
        whoWaitingLock := Function.update s.whoWaitingLock lid (enqueue (s.whoWaitingLock lid) c)
        thread := Function.update s.thread (c, i)
          (.acquireRpc lid (.queued (s.whoWaitingLock lid).isEmpty)) }
  | serverReadOwner (c : C) (i : ThreadId T) (lid : L)
      (hpc : s.thread (c, i) = .acquireRpc lid (.queued true)) :
      Step s (.serverReadOwner c i) { s with
        thread := Function.update s.thread (c, i)
          (.acquireRpc lid (.revoking (s.whereIsLock lid).join)) }
  | clientRevoke (c : C) (i : ThreadId T) (lid : L) (o : C) (v : ClientLockState)
      (hpc : s.thread (c, i) = .acquireRpc lid (.revoking (some o)))
      (hm : s.lockmapMutex o = none)
      (hv : (s.lockstate o lid = .locked ∧ v = .releasing) ∨
        (s.lockstate o lid ≠ .locked ∧ v = s.lockstate o lid)) :
      Step s (.clientRevoke c i) { s with
        lockstateMap := Function.update s.lockstateMap (o, lid) (some v)
        thread := Function.update s.thread (c, i) (.acquireRpc lid .revoked) }
  | serverRetryReply (c : C) (i : ThreadId T) (lid : L)
      (hpc : s.thread (c, i) = .acquireRpc lid (.queued false) ∨
        s.thread (c, i) = .acquireRpc lid .revoked) :
      Step s (.serverRetryReply c i) { s with
        thread := Function.update s.thread (c, i) (.acquireRpc lid (.replied .retry)) }
  | serverReleaseEmpty (c : C) (i : ThreadId T) (lid : L)
      (hpc : s.thread (c, i) = .releaseRpc lid .sent) (hm : s.serverlockMutex = none)
      (hq : s.whoWaitingLock lid = []) :
      Step s (.serverRelease c i) { s with
        whereIsLock := Function.update s.whereIsLock lid (some none)
        thread := Function.update s.thread (c, i) (.releaseRpc lid .replied) }
  | serverReleasePop (c : C) (i : ThreadId T) (lid : L) (first : C) (rest : List C)
      (hpc : s.thread (c, i) = .releaseRpc lid .sent) (hm : s.serverlockMutex = none)
      (hq : s.whoWaitingLock lid = first :: rest) :
      Step s (.serverRelease c i) { s with
        whereIsLock := Function.update s.whereIsLock lid (some none)
        whoWaitingLock := Function.update s.whoWaitingLock lid rest
        thread := Function.update s.thread (c, i) (.releaseRpc lid (.retrying first))
        serverlockMutex := some (c, i) }
  | clientRetry (c : C) (i : ThreadId T) (lid : L) (first : C)
      (hpc : s.thread (c, i) = .releaseRpc lid (.retrying first))
      (hm : s.lockmapMutex first = none) (hcv : s.lockCvMap (first, lid) = true) :
      Step s (.clientRetry c i) { s with
        lockstateMap := Function.update s.lockstateMap (first, lid) (some .none)
        thread := Function.update s.thread (c, i) (.releaseRpc lid (.retried first)) }
  | clientRetryUnknown (c : C) (i : ThreadId T) (lid : L) (first : C)
      (hpc : s.thread (c, i) = .releaseRpc lid (.retrying first))
      (hm : s.lockmapMutex first = none) (hcv : s.lockCvMap (first, lid) = false) :
      Step s (.clientRetry c i) { s with
        thread := Function.update s.thread (c, i) (.releaseRpc lid (.retried first)) }
  | serverReleaseReply (c : C) (i : ThreadId T) (lid : L) (first : C)
      (hpc : s.thread (c, i) = .releaseRpc lid (.retried first)) :
      Step s (.serverReleaseReply c i) { s with
        thread := Function.update s.thread (c, i) (.releaseRpc lid .replied)
        serverlockMutex := none }

/-- The thread that an action moves. An action of the server or of a callback
    moves the thread whose call it works on. -/
def Action.actor : Action C T L → C × ThreadId T
  | .callAcquire c t _ => (c, .app t)
  | .enterAcquire c t => (c, .app t)
  | .wake c t => (c, .app t)
  | .acquireReturns c t => (c, .app t)
  | .callRelease c t _ => (c, .app t)
  | .enterRelease c t => (c, .app t)
  | .doreleaseReturns c i => (c, i)
  | .releaseReturns c i => (c, i)
  | .giveBackTest c _ => (c, .giveBack)
  | .giveBackUpdate c => (c, .giveBack)
  | .serverAcquire c i => (c, i)
  | .serverReadOwner c i => (c, i)
  | .clientRevoke c i => (c, i)
  | .serverRetryReply c i => (c, i)
  | .serverRelease c i => (c, i)
  | .clientRetry c i => (c, i)
  | .serverReleaseReply c i => (c, i)

omit [DecidableEq C] [DecidableEq T] [DecidableEq L] in
/-- A turn is taken by the thread that the action is about. -/
theorem Turn.actor_eq {s : Sys C T L} {a : Action C T L} {c : C} {t : T} {lid : L}
    {cv : C × L → Bool} (ha : Turn s a c t lid cv) : a.actor = (c, .app t) := by
  rcases ha.entered with ⟨_, rfl, _⟩ | ⟨_, rfl⟩
  · rfl
  · rfl

/-- The actions that run a turn of the loop of `acquire`. -/
def Action.turns : Action C T L → Bool
  | .enterAcquire _ _ => true
  | .wake _ _ => true
  | _ => false

omit [DecidableEq C] [DecidableEq T] [DecidableEq L] in
/-- And by one of the two actions that enter the loop. -/
theorem Turn.turns {s : Sys C T L} {a : Action C T L} {c : C} {t : T} {lid : L}
    {cv : C × L → Bool} (ha : Turn s a c t lid cv) : a.turns = true := by
  rcases ha.entered with ⟨_, rfl, _⟩ | ⟨_, rfl⟩
  · rfl
  · rfl

omit [DecidableEq L] in
/-- A turn is not seen by an observer to whom the place where it ends looks like
    the two places where it can start. -/
theorem Turn.observe {s : Sys C T L} {a : Action C T L} {c : C} {t : T} {lid : L}
    {cv : C × L → Bool} (ha : Turn s a c t lid cv) {β : Sort*} (g : ThreadPc C L → β)
    {pc : ThreadPc C L} (hacquire : g pc = g (.acquire lid)) (hwait : g pc = g (.condWait lid))
    (k : C × ThreadId T) : g (Function.update s.thread (c, .app t) pc k) = g (s.thread k) := by
  rcases ha.entered with ⟨hpc, _, _⟩ | ⟨hpc, _⟩
  · exact Threads.observe_update g hpc hacquire k
  · exact Threads.observe_update g hpc hwait k

omit [DecidableEq L] in
/-- A thread that is neither at the start of `acquire` nor in its wait is not the
    one that runs the turn. -/
theorem Turn.stays {s : Sys C T L} {a : Action C T L} {c : C} {t : T} {lid : L}
    {cv : C × L → Bool} (ha : Turn s a c t lid cv) {k : C × ThreadId T} {pc pc' : ThreadPc C L}
    (hk : s.thread k = pc) (hacquire : .acquire lid ≠ pc) (hwait : .condWait lid ≠ pc) :
    Function.update s.thread (c, .app t) pc' k = pc := by
  rcases ha.entered with ⟨hpc, _, _⟩ | ⟨hpc, _⟩
  · exact Threads.stays_update hk hpc hacquire
  · exact Threads.stays_update hk hpc hwait

/-- One turn of the loop, from a state that differs from `s` only in what the
    first lines of `acquire` may have created. -/
theorem acquireLoop_step (s : Sys C T L) (a : Action C T L) (c : C) (t : T) (lid : L)
    (v : Option ClientLockState) (cv : C × L → Bool) (hv : v.getD .none = s.lockstate c lid)
    (ht : Turn s a c t lid cv) :
    Step s a (acquireLoop { s with lockstateMap := Function.update s.lockstateMap (c, lid) v
                                   lockCvMap := cv } c t lid) := by
  set s₁ : Sys C T L := { s with lockstateMap := Function.update s.lockstateMap (c, lid) v
                                 lockCvMap := cv } with hs₁
  -- An entry that is missing reads as `NONE`, and so does the one that is created.
  have hls : s₁.lockstate c lid = s.lockstate c lid := by
    rw [hs₁, ← hv]
    simp only [lockstate, Function.update_self]
  -- The branch is decided by the state of the lock, which creation keeps.
  by_cases hf : s.lockstate c lid = .free
  · have h := Step.acquireFree a c t lid cv ht hf
    simp only [acquireLoop, hls, hf]
    simpa only [hs₁, setLockstate, setThread, setHolds, Function.update_idem] using h
  · by_cases hn : s.lockstate c lid = .none
    · have h := Step.acquireNone a c t lid cv ht hn
      simp only [acquireLoop, hls, hn]
      simpa only [hs₁, setLockstate, setThread, setMutex, Function.update_idem] using h
    · have h := Step.acquireWait a c t lid cv ht hf hn
      -- The other three states share a branch.
      have hres : s₁.acquireLoop c t lid
          = ((s₁.setLockstate c lid (s.lockstate c lid)).setCv c lid).setThread c (.app t)
            (.condWait lid) := by
        rw [acquireLoop, hls]
        split
        · exact absurd ‹_› hf
        · exact absurd ‹_› hn
        · rfl
      rw [hres, hs₁]
      simpa only [setLockstate, setThread, setCv, Function.update_idem] using h

omit [DecidableEq T] in
/-- A state is itself with any of its lock states written back. -/
theorem update_lockstateMap_self (s : Sys C T L) (c : C) (lid : L) :
    { s with lockstateMap := Function.update s.lockstateMap (c, lid) (s.lockstateMap (c, lid)) }
      = s := by
  rw [Function.update_eq_self]

omit [DecidableEq C] [DecidableEq T] [DecidableEq L] in
theorem lockstate_of_some (s : Sys C T L) (c : C) (lid : L) (v : ClientLockState)
    (h : s.lockstateMap (c, lid) = some v) : s.lockstate c lid = v := by
  rw [lockstate, h, Option.getD_some]

/-- The first lines of `acquire` create the entries of a lock that was never seen. -/
theorem enterAcquire_step (s : Sys C T L) (c : C) (t : T) (lid : L)
    (hpc : s.thread (c, .app t) = .acquire lid) (hm : s.lockmapMutex c = none) :
    Step s (.enterAcquire c t) ((s.initLock c lid).acquireLoop c t lid) := by
  cases hst : s.lockstateMap (c, lid) with
  | none =>
      simp only [initLock, hst]
      -- The lock has never been seen here, and both entries are created.
      refine acquireLoop_step s _ c t lid (some .none) _ ?_ ⟨hm, Or.inl ⟨hpc, rfl, fun _ => ?_⟩, ?_⟩
      · rw [lockstate, hst]
        rfl
      · exact Function.update_self _ _ _
      · intro k hk
        by_cases hkl : k = (c, lid)
        · rw [hkl]
          exact Function.update_self _ _ _
        · rw [Function.update_of_ne hkl]
          exact hk
  | some v =>
      simp only [initLock, hst]
      -- Nothing is created, and the loop starts from `s` itself.
      have h := acquireLoop_step s (.enterAcquire c t) c t lid (s.lockstateMap (c, lid))
        s.lockCvMap rfl ⟨hm, Or.inl ⟨hpc, rfl, fun hc => ?_⟩, fun _ hk => hk⟩
      · rwa [update_lockstateMap_self] at h
      · rw [hst] at hc
        exact absurd hc (by simp only [reduceCtorEq, not_false_eq_true])

/-- A thread that is woken starts the loop again without them. -/
theorem wake_step (s : Sys C T L) (c : C) (t : T) (lid : L)
    (hpc : s.thread (c, .app t) = .condWait lid) (hm : s.lockmapMutex c = none) :
    Step s (.wake c t) (s.acquireLoop c t lid) := by
  have h := acquireLoop_step s (.wake c t) c t lid (s.lockstateMap (c, lid)) s.lockCvMap rfl
    ⟨hm, Or.inr ⟨hpc, rfl⟩, fun _ hk => hk⟩
  rwa [update_lockstateMap_self] at h

/-- What the client does with the answer of the server. Every status but `OK` and `RETRY` sends the
    request again. -/
theorem acquireReply_step (s : Sys C T L) (c : C) (t : T) (lid : L) (st : Status)
    (hpc : s.thread (c, .app t) = .acquireRpc lid (.replied st)) :
    Step s (.acquireReturns c t) (s.acquireReply c t lid st) := by
  cases st with
  | ok => exact Step.replyOk c t lid hpc
  | retry => exact Step.replyRetry c t lid hpc
  | rpcerr => exact Step.replyOther c t lid _ hpc (by decide) (by decide)
  | noent => exact Step.replyOther c t lid _ hpc (by decide) (by decide)
  | ioerr => exact Step.replyOther c t lid _ hpc (by decide) (by decide)

/-- `release` looks at the state of the lock only for `RELEASING`. -/
theorem releaseBody_step (s : Sys C T L) (c : C) (t : T) (lid : L)
    (hpc : s.thread (c, .app t) = .release lid) (hm : s.lockmapMutex c = none) :
    Step s (.enterRelease c t) (s.releaseBody c t lid) := by
  -- A lock without an entry was never acquired here, and nothing happens.
  cases hst : s.lockstateMap (c, lid) with
  | none =>
      simp only [releaseBody, hst]
      exact Step.releaseUnknown c t lid hpc hm hst
  | some v =>
      by_cases hv : v = .releasing
      · rw [hv] at hst
        simp only [releaseBody, hst]
        exact Step.releaseRevoked c t lid hpc hm hst
      · -- Whatever else the state is, it becomes `FREE`.
        have hres : s.releaseBody c t lid
            = (s.setLockstate c lid .free).setThread c (.app t) .idle := by
          cases v <;> first | exact absurd rfl hv | simp only [releaseBody, hst]
        rw [hres]
        refine Step.releaseLocal c t lid hpc hm ?_ ?_
        · rw [hst]
          exact Option.some_ne_none v
        · rw [hst]
          exact fun hc => hv (Option.some.inj hc)

/-- The handler marks a lock in use, and leaves any other state alone. -/
theorem clientRevoke_step (s : Sys C T L) (c : C) (i : ThreadId T) (lid : L) (o : C)
    (hpc : s.thread (c, i) = .acquireRpc lid (.revoking (some o)))
    (hm : s.lockmapMutex o = none) :
    Step s (.clientRevoke c i)
      ((s.revokeHandler o lid).setThread c i (.acquireRpc lid .revoked)) := by
  -- A lock in use becomes `RELEASING`; a free one is left to `give_back`.
  by_cases hl : s.lockstate o lid = .locked
  · have h := Step.clientRevoke c i lid o .releasing hpc hm (Or.inl ⟨hl, rfl⟩)
    simp only [revokeHandler, hl]
    exact h
  · have h := Step.clientRevoke c i lid o (s.lockstate o lid) hpc hm (Or.inr ⟨hl, rfl⟩)
    by_cases hf : s.lockstate o lid = .free
    · -- A free lock has its entry, so leaving it alone writes it back.
      have hsome : s.lockstateMap (o, lid) = some .free := by
        rw [lockstate] at hf
        cases hst : s.lockstateMap (o, lid) with
        | none => rw [hst] at hf; exact absurd hf (by decide)
        | some v => rw [hst, Option.getD_some] at hf; rw [hf]
      rw [hf, ← hsome, Function.update_eq_self] at h
      simp only [revokeHandler, hf]
      exact h
    · have hres : s.revokeHandler o lid = s.setLockstate o lid (s.lockstate o lid) := by
        rw [revokeHandler]
        split
        · exact absurd ‹_› hf
        · exact absurd ‹_› hl
        · rfl
      rw [hres]
      exact h

/-- The handler wakes the threads only if there is a condition variable to wake them on. -/
theorem clientRetry_step (s : Sys C T L) (c : C) (i : ThreadId T) (lid : L) (first : C)
    (hpc : s.thread (c, i) = .releaseRpc lid (.retrying first))
    (hm : s.lockmapMutex first = none) :
    Step s (.clientRetry c i)
      ((s.retryHandler first lid).setThread c i (.releaseRpc lid (.retried first))) := by
  cases hcv : s.lockCvMap (first, lid) with
  | false =>
      simp only [retryHandler, hcv]
      exact Step.clientRetryUnknown c i lid first hpc hm hcv
  | true =>
      simp only [retryHandler, hcv]
      exact Step.clientRetry c i lid first hpc hm hcv

/-- The server grants or queues. -/
theorem serverAcquire_step (s : Sys C T L) (c : C) (i : ThreadId T) (lid : L)
    (hpc : s.thread (c, i) = .acquireRpc lid .sent) (hm : s.serverlockMutex = none) :
    Step s (.serverAcquire c i) (s.serverAcquire c i lid) := by
  -- A lock that was never granted and one that was released are both free.
  cases hw : s.whereIsLock lid with
  | none =>
      simp only [serverAcquire, hw]
      exact Step.serverGrant c i lid hpc hm (by rw [hw]; rfl)
  | some o =>
      cases o with
      | none =>
          simp only [serverAcquire, hw]
          exact Step.serverGrant c i lid hpc hm (by rw [hw]; rfl)
      | some o =>
          simp only [serverAcquire, hw]
          exact Step.serverQueue c i lid o hpc hm hw

/-- The server frees the lock, and tells the first client in the queue. -/
theorem serverRelease_step (s : Sys C T L) (c : C) (i : ThreadId T) (lid : L)
    (hpc : s.thread (c, i) = .releaseRpc lid .sent) (hm : s.serverlockMutex = none) :
    Step s (.serverRelease c i) (s.serverRelease c i lid) := by
  cases hq : s.whoWaitingLock lid with
  | nil =>
      simp only [serverRelease, hq]
      exact Step.serverReleaseEmpty c i lid hpc hm hq
  | cons first rest =>
      simp only [serverRelease, hq]
      exact Step.serverReleasePop c i lid first rest hpc hm hq

/-- Every enabled action is one of the branches of `Step`. All that is proved about the protocol
    from here on is by cases on the branches, and does not look into `step` again. -/
theorem step_cases (s s' : Sys C T L) (a : Action C T L) (h : step s a = some s') :
    Step s a s' := by
  cases a with
  | callAcquire c t lid =>
      simp only [step] at h
      split at h
      · cases h
        exact Step.callAcquire c t lid ‹_›
      · cases h
  | enterAcquire c t =>
      simp only [step] at h
      split at h
      · cases h
        exact enterAcquire_step s c t _ ‹_› ‹_›
      · cases h
  | wake c t =>
      simp only [step] at h
      split at h
      · cases h
        exact wake_step s c t _ ‹_› ‹_›
      · cases h
  | acquireReturns c t =>
      simp only [step] at h
      split at h
      · cases h
        exact acquireReply_step s c t _ _ ‹_›
      · cases h
  | callRelease c t lid =>
      simp only [step] at h
      split at h
      · cases h
        exact Step.callRelease c t lid ‹_› ‹_›
      · cases h
  | enterRelease c t =>
      simp only [step] at h
      split at h
      · cases h
        exact releaseBody_step s c t _ ‹_› ‹_›
      · cases h
  | doreleaseReturns c i =>
      simp only [step] at h
      split at h
      · cases h
        exact Step.doreleaseReturns c i _ ‹_›
      · cases h
  | releaseReturns c i =>
      simp only [step] at h
      split at h
      · cases h
        exact Step.releaseReturns c i _ ‹_›
      · cases h
  | giveBackTest c lid =>
      simp only [step] at h
      split at h
      · cases h
        exact Step.giveBackTest c lid ‹_› ‹_›
      · cases h
  | giveBackUpdate c =>
      simp only [step] at h
      split at h
      · cases h
        exact Step.giveBackUpdate c _ ‹_› ‹_›
      · cases h
  | serverAcquire c i =>
      simp only [step] at h
      split at h
      · cases h
        exact serverAcquire_step s c i _ ‹_› ‹_›
      · cases h
  | serverReadOwner c i =>
      simp only [step] at h
      split at h
      · cases h
        exact Step.serverReadOwner c i _ ‹_›
      · cases h
  | clientRevoke c i =>
      simp only [step] at h
      split at h
      · split at h
        · cases h
          exact clientRevoke_step s c i _ _ ‹_› ‹_›
        · cases h
      · cases h
  | serverRetryReply c i =>
      simp only [step] at h
      split at h
      · cases h
        exact Step.serverRetryReply c i _ (Or.inl ‹_›)
      · cases h
        exact Step.serverRetryReply c i _ (Or.inr ‹_›)
      · cases h
  | serverRelease c i =>
      simp only [step] at h
      split at h
      · cases h
        exact serverRelease_step s c i _ ‹_› ‹_›
      · cases h
  | clientRetry c i =>
      simp only [step] at h
      split at h
      · split at h
        · cases h
          exact clientRetry_step s c i _ _ ‹_› ‹_›
        · cases h
      · cases h
  | serverReleaseReply c i =>
      simp only [step] at h
      split at h
      · cases h
        exact Step.serverReleaseReply c i _ _ ‹_›
      · cases h

/-! ## The state of a lock at a client -/

/-- The branches that change the state of `lid` at client `c`, with the new state.
    The loop of `acquire` and `revoke_handler` also write a state back as it is,
    which is no change. -/
inductive Writes (s : Sys C T L) : Action C T L → C → L → ClientLockState → Prop where
  | taken (a : Action C T L) (c : C) (t : T) (lid : L) (cv : C × L → Bool)
      (ha : Turn s a c t lid cv) (hst : s.lockstate c lid = .free) : Writes s a c lid .locked
  | granted (c : C) (t : T) (lid : L)
      (hpc : s.thread (c, .app t) = .acquireRpc lid (.replied .ok)) :
      Writes s (.acquireReturns c t) c lid .locked
  | refused (c : C) (t : T) (lid : L)
      (hpc : s.thread (c, .app t) = .acquireRpc lid (.replied .retry)) :
      Writes s (.acquireReturns c t) c lid .acquiring
  | givenUp (c : C) (t : T) (lid : L) (hpc : s.thread (c, .app t) = .release lid)
      (hm : s.lockmapMutex c = none) (hst : s.lockstateMap (c, lid) = some .releasing) :
      Writes s (.enterRelease c t) c lid .none
  | freed (c : C) (t : T) (lid : L) (hpc : s.thread (c, .app t) = .release lid)
      (hm : s.lockmapMutex c = none) : Writes s (.enterRelease c t) c lid .free
  | givenBack (c : C) (lid : L) (hpc : s.thread (c, .giveBack) = .tested lid)
      (hm : s.lockmapMutex c = none) : Writes s (.giveBackUpdate c) c lid .none
  | revoked (c : C) (i : ThreadId T) (lid : L) (o : C)
      (hpc : s.thread (c, i) = .acquireRpc lid (.revoking (some o)))
      (hm : s.lockmapMutex o = none) (hst : s.lockstate o lid = .locked) :
      Writes s (.clientRevoke c i) o lid .releasing
  | retried (c : C) (i : ThreadId T) (lid : L) (first : C)
      (hpc : s.thread (c, i) = .releaseRpc lid (.retrying first))
      (hm : s.lockmapMutex first = none) : Writes s (.clientRetry c i) first lid .none

omit [DecidableEq T] in
/-- A step that writes one entry of the map, with what it was or with a change
    that `Writes` names. -/
theorem lockstate_of_write {s s' : Sys C T L} {a : Action C T L} {c₀ : C} {l₀ : L}
    {w : ClientLockState}
    (hmap : s'.lockstateMap = Function.update s.lockstateMap (c₀, l₀) (some w))
    (hw : s.lockstate c₀ l₀ = w ∨ Writes s a c₀ l₀ w) {c : C} {lid : L} {v : ClientLockState}
    (hv : s'.lockstate c lid = v) : s.lockstate c lid = v ∨ Writes s a c lid v := by
  -- The entry that is written, or one that the step does not touch.
  by_cases hcl : (c, lid) = (c₀, l₀)
  · cases hcl
    rw [lockstate, hmap, Function.update_self, Option.getD_some] at hv
    rw [← hv]
    exact hw
  · rw [lockstate, hmap, Function.update_of_ne hcl] at hv
    exact Or.inl hv

/-- A state is the one before the step, or the step has written it. Most branches do not touch the
    map; those that write back what was there are no change either. -/
theorem lockstate_step {s s' : Sys C T L} {a : Action C T L} (h : Step s a s') {c' : C} {lid' : L}
    {v' : ClientLockState} (hv' : s'.lockstate c' lid' = v') :
    s.lockstate c' lid' = v' ∨ Writes s a c' lid' v' := by
  cases h with
  | acquireFree a c t lid cv ha hst =>
      exact lockstate_of_write rfl (Or.inr (Writes.taken a c t lid cv ha hst)) hv'
  | acquireNone a c t lid cv ha hst => exact lockstate_of_write rfl (Or.inl hst) hv'
  | acquireWait a c t lid cv ha hfree hnone => exact lockstate_of_write rfl (Or.inl rfl) hv'
  | replyOk c t lid hpc =>
      exact lockstate_of_write rfl (Or.inr (Writes.granted c t lid hpc)) hv'
  | replyRetry c t lid hpc =>
      exact lockstate_of_write rfl (Or.inr (Writes.refused c t lid hpc)) hv'
  | releaseRevoked c t lid hpc hm hst =>
      exact lockstate_of_write rfl (Or.inr (Writes.givenUp c t lid hpc hm hst)) hv'
  | releaseLocal c t lid hpc hm hsome hst =>
      exact lockstate_of_write rfl (Or.inr (Writes.freed c t lid hpc hm)) hv'
  | giveBackUpdate c lid hpc hm =>
      exact lockstate_of_write rfl (Or.inr (Writes.givenBack c lid hpc hm)) hv'
  | clientRevoke c i lid o v hpc hm hv =>
      refine lockstate_of_write rfl ?_ hv'
      -- Only a lock in use is marked; every other state is written back.
      rcases hv with ⟨hst, rfl⟩ | ⟨_, rfl⟩
      · exact Or.inr (Writes.revoked c i lid o hpc hm hst)
      · exact Or.inl rfl
  | clientRetry c i lid first hpc hm hcv =>
      exact lockstate_of_write rfl (Or.inr (Writes.retried c i lid first hpc hm)) hv'
  | _ => exact Or.inl hv'

end LockProtocol

end Yfs
