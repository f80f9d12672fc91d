import Yfs.Theory.LockExclusion
import Mathlib.Data.Fintype.Prod
import Mathlib.Data.Fintype.Option

/-!
# Cyclic Waits

Which call of the lock protocol waits for which. A call is a client's thread
inside `acquire`, `release` or `give_back`, the server's handler for the remote
call that thread is in, or the client's handler for the callback that the
server's handler is in. `WaitsFor` has one constructor for each way a call can be
blocked: on `lockmap_mutex`, on `serverlock_mutex`, or on a reply.

`acquire` keeps `lockmap_mutex` across its remote call, and both callbacks need
that mutex. So two clients that each ask for the lock the other one owns block
each other for ever (`crossedRun`), and so does a client that asks again while
its own `release` is on its way.

`CallbacksClear` says when the waits cannot close. A client starts an `acquire`
call only while no callback to it is outstanding, the server revokes an owner
only while that owner has no thread inside an `acquire` call, and it pops a
waiter only while that waiter has no `acquire` call in front of
`serverlock_mutex`. A callback is then never behind a call that is itself behind
a callback, and no set of calls waits for itself.

## Main definitions

* `Call`, `WaitsFor`: The calls in progress and what they are blocked on.
* `CyclicWait`: A set of calls each of which waits for another member.
* `CallbacksClear`: The condition on the three steps that create a wait.
* `Clear`: What the condition keeps true.

## Theorems

* `clear_reachable`: The invariant along every run under the condition.
* `no_cyclicWait`: No cyclic wait along such a run.
* `cyclicWait_crossed`: A cyclic wait without the condition.
-/

namespace Yfs

namespace LockProtocol

variable {C T L : Type}

open Sys Threads

/-- A call in progress, named after the client thread it works for. -/
inductive Call (C T : Type) where
  /-- The thread itself, inside `acquire`, `release` or `give_back`. -/
  | client (k : C × ThreadId T)
  /-- The server's handler for the remote call the thread is in. -/
  | server (k : C × ThreadId T)
  /-- The `revoke_handler` or `retry_handler` that server handler has called. -/
  | callback (k : C × ThreadId T)
  deriving DecidableEq

/-- The lock in front of whose `lockmap_mutex` section the thread stands. -/
def ThreadPc.entering : ThreadPc C L → Option L
  | .acquire lid => some lid
  | .condWait lid => some lid
  | .release lid => some lid
  | .tested lid => some lid
  | _ => none

/-- The thread is inside a remote call that has not been answered. -/
def ThreadPc.unanswered : ThreadPc C L → Bool
  | .acquireRpc _ (.replied _) => false
  | .acquireRpc _ _ => true
  | .releaseRpc _ .replied => false
  | .releaseRpc _ _ => true
  | _ => false

/-- The server has not yet run its critical section for the thread's call. -/
def ThreadPc.atServer : ThreadPc C L → Bool
  | .acquireRpc _ .sent => true
  | .releaseRpc _ .sent => true
  | _ => false

/-- The client whose callback the server's handler for the thread is in. -/
def ThreadPc.callsBack : ThreadPc C L → Option C
  | .acquireRpc _ (.revoking o) => o
  | .releaseRpc _ (.retrying c) => some c
  | _ => none

/-- The first call is blocked until the second one moves. -/
inductive WaitsFor (s : Sys C T L) : Call C T → Call C T → Prop where
  /-- For `lockmap_mutex`, held by another thread of the client. -/
  | lockmap (c : C) (i j : ThreadId T) (lid : L) (hpc : (s.thread (c, i)).entering = some lid)
      (hm : s.lockmapMutex c = some j) : WaitsFor s (.client (c, i)) (.client (c, j))
  /-- For the answer of `acquire` or `release`. -/
  | reply (k : C × ThreadId T) (hpc : (s.thread k).unanswered = true) :
      WaitsFor s (.client k) (.server k)
  /-- For `serverlock_mutex`, held by another handler. -/
  | serverlock (k k' : C × ThreadId T) (hpc : (s.thread k).atServer = true)
      (hm : s.serverlockMutex = some k') : WaitsFor s (.server k) (.server k')
  /-- For the answer of `revoke` or `retry`. -/
  | callbackReply (k : C × ThreadId T) (o : C) (hpc : (s.thread k).callsBack = some o) :
      WaitsFor s (.server k) (.callback k)
  /-- For the `lockmap_mutex` of the client called back. -/
  | callbackLockmap (k : C × ThreadId T) (o : C) (j : ThreadId T)
      (hpc : (s.thread k).callsBack = some o) (hm : s.lockmapMutex o = some j) :
      WaitsFor s (.callback k) (.client (o, j))

/-- A non-empty set of calls each of which waits for another member. -/
def CyclicWait (s : Sys C T L) : Prop :=
  ∃ W : Set (Call C T), W.Nonempty ∧ ∀ a ∈ W, ∃ b ∈ W, b ≠ a ∧ WaitsFor s a b

/-- No callback to the client is outstanding. -/
def NoCallback (s : Sys C T L) (c : C) : Prop :=
  ∀ k, (s.thread k).callsBack ≠ some c

/-- No `acquire` call of the client is still in front of `serverlock_mutex`. -/
def NoneSent (s : Sys C T L) (c : C) : Prop :=
  ∀ i, ¬ ((s.thread (c, i)).calling ≠ none ∧ (s.thread (c, i)).atServer = true)

/-- A turn of `acquire` that makes the remote call finds no callback to its
    client. -/
def StartClear (s : Sys C T L) (c : C) : ThreadPc C L → Prop
  | .acquire lid => s.lockstate c lid = .none → NoCallback s c
  | .condWait lid => s.lockstate c lid = .none → NoCallback s c
  | _ => True

/-- The owner that is about to be revoked is not inside an `acquire` call. -/
def RevokeClear (s : Sys C T L) : ThreadPc C L → Prop
  | .acquireRpc lid _ => ∀ o ∈ (s.whereIsLock lid).join, s.lockmapMutex o = none
  | _ => True

/-- The waiter that is about to be popped has no `acquire` call in front of
    `serverlock_mutex`. -/
def RetryClear (s : Sys C T L) : ThreadPc C L → Prop
  | .releaseRpc lid _ => ∀ first ∈ (s.whoWaitingLock lid).head?, NoneSent s first
  | _ => True

/-- The condition on the steps that create a wait. -/
def CallbacksClear (s : Sys C T L) : Action C T L → Prop
  | .enterAcquire c t => StartClear s c (s.thread (c, .app t))
  | .wake c t => StartClear s c (s.thread (c, .app t))
  | .serverReadOwner c i => RevokeClear s (s.thread (c, i))
  | .serverRelease c i => RetryClear s (s.thread (c, i))
  | _ => True

/-- What the condition keeps true: a revoke is addressed to a client whose
    `lockmap_mutex` is free, and a retry to one that has no `acquire` call in
    front of `serverlock_mutex`. The server answers `acquire` with `OK` or
    `RETRY`. -/
structure Clear (s : Sys C T L) : Prop where
  revoke : ∀ k lid o, s.thread k = .acquireRpc lid (.revoking (some o)) →
    s.lockmapMutex o = none
  retry : ∀ k lid c, s.thread k = .releaseRpc lid (.retrying c) → NoneSent s c
  answers : ∀ k lid st, s.thread k = .acquireRpc lid (.replied st) → st = .ok ∨ st = .retry

/-- A thread that holds `lockmap_mutex` is inside an `acquire` call. -/
theorem acquireRpc_of_mutex (s : Sys C T L) (hw : WaitingInv s) (c : C) (j : ThreadId T)
    (hm : s.lockmapMutex c = some j) : ∃ lid call, s.thread (c, j) = .acquireRpc lid call := by
  have hcall := (hw.mutex c j).mp hm
  cases hpc : s.thread (c, j) with
  | acquireRpc lid call => exact ⟨lid, call, rfl⟩
  | _ => exact absurd (by rw [hpc]; rfl) hcall

/-- No callback is part of a cyclic wait: a revoke finds its mutex free, and the
    call that keeps a retry waiting waits at most for a revoke. -/
theorem callback_not_mem (s : Sys C T L) (hw : WaitingInv s) (hi : Clear s)
    (W : Set (Call C T)) (hW : ∀ a ∈ W, ∃ b ∈ W, b ≠ a ∧ WaitsFor s a b)
    (k : C × ThreadId T) : .callback k ∉ W := by
  -- A revoke finds the mutex of the owner free, and waits for nobody.
  have hrevoke : ∀ k lid call, s.thread k = .acquireRpc lid call → Call.callback k ∉ W := by
    intro k lid call hpc hk
    rcases hW _ hk with ⟨b, _, _, hb⟩
    cases hb with
    | callbackLockmap _ o j hcb hm =>
        cases call with
        | revoking o' =>
            rw [hpc] at hcb
            simp only [ThreadPc.callsBack] at hcb
            rw [hcb] at hpc
            rw [hi.revoke _ lid o hpc] at hm
            cases hm
        | _ =>
            rw [hpc] at hcb
            cases hcb
  intro hk
  rcases hW _ hk with ⟨b, hbW, _, hb⟩
  cases hb with
  | callbackLockmap _ o j hcb hm =>
      rcases acquireRpc_of_mutex s hw o j hm with ⟨lid, call, hpc⟩
      -- The holder waits for its own handler, and that one is past the mutex.
      rcases hW _ hbW with ⟨b', hb'W, _, hb'⟩
      cases hb' with
      | lockmap _ _ _ lid' he _ =>
          rw [hpc] at he
          cases he
      | reply _ _ =>
          rcases hW _ hb'W with ⟨b'', hb''W, _, hb''⟩
          cases hb'' with
          | serverlock _ k' hat hm' =>
              -- A retry is not addressed to a client with a call in front of the server's mutex.
              cases hkpc : s.thread k with
              | acquireRpc lid' call' => exact hrevoke k lid' call' hkpc hk
              | releaseRpc lid' call' =>
                  rw [hkpc] at hcb
                  cases call' with
                  | retrying c =>
                      simp only [ThreadPc.callsBack, Option.some.injEq] at hcb
                      rw [← hcb] at hpc hat
                      refine hi.retry k lid' c hkpc j ⟨?_, hat⟩
                      rw [hpc]
                      exact Option.some_ne_none lid
                  | _ => cases hcb
              | _ =>
                  rw [hkpc] at hcb
                  cases hcb
          | callbackReply _ _ _ => exact hrevoke (o, j) lid call hpc hb''W

theorem no_cyclicWait_of_clear (s : Sys C T L) (hw : WaitingInv s) (hs : ServerHeld s)
    (hi : Clear s) : ¬ CyclicWait s := by
  rintro ⟨W, ⟨a, ha⟩, hW⟩
  have hcb := callback_not_mem s hw hi W hW
  -- The holder of `serverlock_mutex` waits for its callback only.
  have hserver : ∀ k, .server k ∉ W := by
    intro k hk
    rcases hW _ hk with ⟨b, hbW, _, hb⟩
    cases hb with
    | serverlock _ k' _ hm =>
        have hretry := (hs k').mp hm
        rcases hW _ hbW with ⟨b', hb'W, _, hb'⟩
        cases hb' with
        | serverlock _ _ hat _ =>
            cases hpc : s.thread k' with
            | releaseRpc lid call =>
                rw [hpc] at hretry hat
                cases call with
                | sent => cases hretry
                | _ => cases hat
            | _ =>
                rw [hpc] at hretry
                cases hretry
        | callbackReply _ _ _ => exact hcb k' hb'W
    | callbackReply _ _ _ => exact hcb k hbW
  -- A thread waits for its handler, or for a thread that waits for its handler.
  have hclient : ∀ k, .client k ∉ W := by
    intro k hk
    rcases hW _ hk with ⟨b, hbW, _, hb⟩
    cases hb with
    | lockmap c i j lid _ hm =>
        rcases acquireRpc_of_mutex s hw c j hm with ⟨lid', call, hpc⟩
        rcases hW _ hbW with ⟨b', hb'W, _, hb'⟩
        cases hb' with
        | lockmap _ _ _ lid'' he _ =>
            rw [hpc] at he
            cases he
        | reply _ _ => exact hserver (c, j) hb'W
    | reply _ _ => exact hserver k hbW
  cases a with
  | client k => exact hclient k ha
  | server k => exact hserver k ha
  | callback k => exact hcb k ha

/-- The condition, at a turn of `acquire` that starts the remote call. -/
theorem noCallback_of_turn (s : Sys C T L) (a : Action C T L) (c : C) (t : T) (lid : L)
    (cv : C × L → Bool) (ha : Turn s a c t lid cv) (hst : s.lockstate c lid = .none)
    (hok : CallbacksClear s a) : NoCallback s c := by
  rcases ha.entered with ⟨hpc, rfl, _⟩ | ⟨hpc, rfl⟩
  · simp only [CallbacksClear, hpc] at hok
    exact hok hst
  · simp only [CallbacksClear, hpc] at hok
    exact hok hst

variable [DecidableEq C] [DecidableEq T] [DecidableEq L]

omit [DecidableEq T] [DecidableEq L] in
/-- A mutex that is dropped is free, and a free one stays free. -/
theorem mutex_dropped {s s' : Sys C T L} {c o : C}
    (hmutex : s'.lockmapMutex = Function.update s.lockmapMutex c none)
    (hfree : s.lockmapMutex o = none) : s'.lockmapMutex o = none := by
  rw [hmutex]
  by_cases ho : o = c
  · rw [ho, Function.update_self]
  · rw [Function.update_of_ne ho, hfree]

/-- A revoke is addressed to a client whose mutex is free when it starts, and nobody
    takes that mutex while the callback is outstanding. -/
theorem clear_revoke_step (s s' : Sys C T L) (a : Action C T L) (hi : Clear s)
    (hok : CallbacksClear s a) (h : Step s a s') (k : C × ThreadId T) (lid : L) (o : C)
    (hr : s'.thread k = .acquireRpc lid (.revoking (some o))) : s'.lockmapMutex o = none := by
  have hcases := @of_update (C × ThreadId T) (ThreadPc C L) _
    fun pc => pc = .acquireRpc lid (.revoking (some o))
  cases h with
  | acquireNone a c t lid' cv ha hst =>
      rcases hcases hr with ⟨_, hnew⟩ | ⟨_, hold⟩
      · cases hnew
      · -- The mutex is taken at a client that nobody calls back.
        have hne : o ≠ c := by
          rintro rfl
          exact noCallback_of_turn s a o t lid' cv ha hst hok k (by rw [hold]; rfl)
        exact (Function.update_of_ne hne _ _).trans (hi.revoke k lid o hold)
  | replyOk c t lid' hpc =>
      rcases hcases hr with ⟨_, hnew⟩ | ⟨_, hold⟩
      · cases hnew
      · exact mutex_dropped rfl (hi.revoke k lid o hold)
  | replyRetry c t lid' hpc =>
      rcases hcases hr with ⟨_, hnew⟩ | ⟨_, hold⟩
      · cases hnew
      · exact mutex_dropped rfl (hi.revoke k lid o hold)
  | serverReadOwner c i lid' hpc =>
      rcases hcases hr with ⟨_, hnew⟩ | ⟨_, hold⟩
      · -- By the condition the owner that is read is not inside a call.
        simp only [CallbacksClear, hpc, RevokeClear] at hok
        refine hok o ?_
        simp only [ThreadPc.acquireRpc.injEq, AcquireCall.revoking.injEq] at hnew
        exact Option.mem_def.mpr hnew.2
      · exact hi.revoke k lid o hold
  | _ =>
      rcases hcases hr with ⟨_, hnew⟩ | ⟨_, hold⟩
      · cases hnew
      · exact hi.revoke k lid o hold

/-- The thread has sent its `acquire`, and the server has not taken it up. -/
def ThreadPc.sent : ThreadPc C L → Bool
  | .acquireRpc _ .sent => true
  | _ => false

omit [DecidableEq C] [DecidableEq L] in
theorem ThreadPc.sent_iff {pc : ThreadPc C L} :
    (pc.calling ≠ none ∧ pc.atServer = true) ↔ pc.sent = true := by
  cases pc with
  | acquireRpc lid call =>
      cases call with
      | sent => exact iff_of_true ⟨Option.some_ne_none lid, rfl⟩ rfl
      | _ => exact iff_of_false (fun h => by cases h.2) Bool.false_ne_true
  | _ => exact iff_of_false (fun h => h.1 rfl) Bool.false_ne_true

/-- A call in front of the server's mutex was there before the step, or a turn of the
    loop has sent it; then no callback to its client is outstanding. -/
theorem sent_step {s s' : Sys C T L} {a : Action C T L} (hi : Clear s) (hok : CallbacksClear s a)
    (h : Step s a s') {c' : C} {j : ThreadId T} (hsent : (s'.thread (c', j)).sent = true) :
    (s.thread (c', j)).sent = true ∨ (a.turns = true ∧ NoCallback s c') := by
  have hcases := @of_update (C × ThreadId T) (ThreadPc C L) _ fun pc => pc.sent = true
  cases h with
  | acquireNone a c t lid cv ha hst =>
      rcases hcases hsent with ⟨hk, _⟩ | ⟨_, hold⟩
      · cases hk
        exact Or.inr ⟨ha.turns, noCallback_of_turn s a c' t lid cv ha hst hok⟩
      · exact Or.inl hold
  | replyOther c t lid st hpc hne hretry =>
      -- The server gives no answer that would make the loop send the call again.
      rcases hi.answers (c, .app t) lid st hpc with rfl | rfl
      · exact absurd rfl hne
      · exact absurd rfl hretry
  | _ =>
      rcases hcases hsent with ⟨_, hnew⟩ | ⟨_, hold⟩
      · cases hnew
      · exact Or.inl hold

theorem clear_retry_step (s s' : Sys C T L) (a : Action C T L) (hi : Clear s)
    (hok : CallbacksClear s a) (h : Step s a s') (k : C × ThreadId T) (lid : L) (c' : C)
    (hr : s'.thread k = .releaseRpc lid (.retrying c')) : NoneSent s' c' := by
  intro j hj
  rw [ThreadPc.sent_iff] at hj
  -- The retry is older than the step, or the step has popped its client.
  have hretry : s.thread k = .releaseRpc lid (.retrying c') ∨
      (NoneSent s c' ∧ a.turns = false) := by
    cases h with
    | serverReleasePop c i lid' first rest hpc hm hq =>
        rcases of_update (fun pc : ThreadPc C L => pc = .releaseRpc lid (.retrying c')) hr with
          ⟨_, hnew⟩ | ⟨_, hold⟩
        · cases hnew
          simp only [CallbacksClear, hpc, RetryClear, hq] at hok
          exact Or.inr ⟨hok c' rfl, rfl⟩
        · exact Or.inl hold
    | _ =>
        have hold := before_of_update (fun pc : ThreadPc C L => pc = .releaseRpc lid (.retrying c'))
          (by rintro ⟨⟩) hr
        exact Or.inl hold
  -- A call that is sent while a retry is on its way would be a call of a client that is being
  -- called back.
  rcases hretry with hold | ⟨hnone, hturns⟩
  · rcases sent_step hi hok h hj with hsent | ⟨_, hno⟩
    · exact hi.retry k lid c' hold j (ThreadPc.sent_iff.mpr hsent)
    · exact hno k (by rw [hold]; rfl)
  · rcases sent_step hi hok h hj with hsent | ⟨hturn, _⟩
    · exact hnone j (ThreadPc.sent_iff.mpr hsent)
    · rw [hturns] at hturn
      cases hturn

/-- The server has two answers, so the loop of `acquire` never repeats its call by itself. -/
theorem clear_answers_step (s s' : Sys C T L) (a : Action C T L) (hi : Clear s)
    (h : Step s a s') (k : C × ThreadId T) (lid : L) (st : Status)
    (hr : s'.thread k = .acquireRpc lid (.replied st)) : st = .ok ∨ st = .retry := by
  have hcases := @of_update (C × ThreadId T) (ThreadPc C L) _
    fun pc => pc = .acquireRpc lid (.replied st)
  cases h with
  | serverGrant c i lid' hpc hm hfree =>
      rcases hcases hr with ⟨_, hnew⟩ | ⟨_, hold⟩
      · cases hnew
        exact Or.inl rfl
      · exact hi.answers k lid st hold
  | serverRetryReply c i lid' hpc =>
      rcases hcases hr with ⟨_, hnew⟩ | ⟨_, hold⟩
      · cases hnew
        exact Or.inr rfl
      · exact hi.answers k lid st hold
  | _ =>
      rcases hcases hr with ⟨_, hnew⟩ | ⟨_, hold⟩
      · cases hnew
      · exact hi.answers k lid st hold

section Decidable

variable [Fintype C] [Fintype T]

instance : Fintype (ThreadId T) :=
  Fintype.ofEquiv (Option T)
    { toFun := fun o => o.elim .giveBack .app
      invFun := fun i => match i with
        | .app t => some t
        | .giveBack => none
      left_inv := fun o => by cases o <;> rfl
      right_inv := fun i => by cases i <;> rfl }

instance (s : Sys C T L) (c : C) : Decidable (NoCallback s c) :=
  inferInstanceAs (Decidable (∀ k, (s.thread k).callsBack ≠ some c))

instance (s : Sys C T L) (c : C) : Decidable (NoneSent s c) :=
  inferInstanceAs (Decidable (∀ i, ¬ ((s.thread (c, i)).calling ≠ none ∧
    (s.thread (c, i)).atServer = true)))

instance (s : Sys C T L) (c : C) : (pc : ThreadPc C L) → Decidable (StartClear s c pc)
  | .acquire lid => inferInstanceAs (Decidable (s.lockstate c lid = .none → NoCallback s c))
  | .condWait lid => inferInstanceAs (Decidable (s.lockstate c lid = .none → NoCallback s c))
  | .idle | .acquireRpc _ _ | .release _ | .tested _ | .dorelease _ | .releaseRpc _ _ =>
      isTrue trivial

instance (s : Sys C T L) : (pc : ThreadPc C L) → Decidable (RevokeClear s pc)
  | .acquireRpc lid _ =>
      inferInstanceAs (Decidable (∀ o ∈ (s.whereIsLock lid).join, s.lockmapMutex o = none))
  | .idle | .acquire _ | .condWait _ | .release _ | .tested _ | .dorelease _ | .releaseRpc _ _ =>
      isTrue trivial

instance (s : Sys C T L) : (pc : ThreadPc C L) → Decidable (RetryClear s pc)
  | .releaseRpc lid _ =>
      inferInstanceAs (Decidable (∀ first ∈ (s.whoWaitingLock lid).head?, NoneSent s first))
  | .idle | .acquire _ | .condWait _ | .release _ | .tested _ | .dorelease _ | .acquireRpc _ _ =>
      isTrue trivial

/-- For finitely many clients and threads the condition is executable. -/
instance (s : Sys C T L) : (a : Action C T L) → Decidable (CallbacksClear s a)
  | .enterAcquire c t => inferInstanceAs (Decidable (StartClear s c (s.thread (c, .app t))))
  | .wake c t => inferInstanceAs (Decidable (StartClear s c (s.thread (c, .app t))))
  | .serverReadOwner c i => inferInstanceAs (Decidable (RevokeClear s (s.thread (c, i))))
  | .serverRelease c i => inferInstanceAs (Decidable (RetryClear s (s.thread (c, i))))
  | .callAcquire _ _ _ | .acquireReturns _ _ | .callRelease _ _ _ | .enterRelease _ _
  | .doreleaseReturns _ _ | .releaseReturns _ _ | .giveBackTest _ _ | .giveBackUpdate _
  | .serverAcquire _ _ | .clientRevoke _ _ | .serverRetryReply _ _ | .clientRetry _ _
  | .serverReleaseReply _ _ => isTrue trivial

end Decidable

omit [DecidableEq C] [DecidableEq T] [DecidableEq L] in
theorem clear_init : Clear (init C T L) where
  revoke := by simp only [init, reduceCtorEq, implies_true]
  retry := by simp only [init, reduceCtorEq, false_implies, implies_true]
  answers := by simp only [init, reduceCtorEq, false_implies, implies_true]

theorem clear_reachable (s : Sys C T L)
    (h : Trace.Reaches step CallbacksClear (init C T L) s) :
    WaitingInv s ∧ ServerHeld s ∧ Clear s := by
  refine Trace.invariant_of_step (fun s => WaitingInv s ∧ ServerHeld s ∧ Clear s)
    ⟨waitingInv_init, token_init.server, clear_init⟩ ?_ h
  rintro s a s' ⟨hw, hs, hi⟩ hok hstep
  have hc := step_cases s s' a hstep
  exact ⟨waitingInv_step s a s' hw hstep, serverHeld_step s s' a hs hc,
    ⟨clear_revoke_step s s' a hi hok hc, clear_retry_step s s' a hi hok hc,
      clear_answers_step s s' a hi hc⟩⟩

/-- While callbacks and `acquire` calls keep clear of each other, no set of calls waits for itself.
    Three conditions are put on the steps that start a wait: `acquire` is not called while a
    callback to its client is on its way, the owner that is revoked is not inside a call of its own,
    and a client that is told to retry has no call in front of the server's mutex.
    `cyclicWait_crossed` shows what happens without them. -/
theorem no_cyclicWait (s : Sys C T L)
    (h : Trace.Reaches step CallbacksClear (init C T L) s) : ¬ CyclicWait s := by
  rcases clear_reachable s h with ⟨hw, hs, hi⟩
  exact no_cyclicWait_of_clear s hw hs hi

/-- A lock is revoked from one client and granted to the other. -/
def revokedRun : List (Action (Fin 2) (Fin 1) (Fin 1)) :=
  [.callAcquire 0 0 0, .enterAcquire 0 0, .serverAcquire 0 (.app 0), .acquireReturns 0 0,
   .callAcquire 1 0 0, .enterAcquire 1 0, .serverAcquire 1 (.app 0),
   .serverReadOwner 1 (.app 0), .clientRevoke 1 (.app 0), .serverRetryReply 1 (.app 0),
   .acquireReturns 1 0,
   .callRelease 0 0 0, .enterRelease 0 0, .doreleaseReturns 0 (.app 0),
   .serverRelease 0 (.app 0), .clientRetry 0 (.app 0), .serverReleaseReply 0 (.app 0),
   .wake 1 0, .serverAcquire 1 (.app 0), .acquireReturns 1 0]

theorem no_cyclicWait_revoked :
    ∃ s, Trace.Reaches step CallbacksClear (init (Fin 2) (Fin 1) (Fin 1)) s ∧
      s.holds (1, 0, 0) = true ∧ ¬ CyclicWait s := by
  have hrun : ((Trace.run step (fun s a => decide (CallbacksClear s a))
      (init (Fin 2) (Fin 1) (Fin 1)) revokedRun).map fun s => s.holds (1, 0, 0)) = some true := by
    decide +kernel
  rcases Option.map_eq_some_iff.mp hrun with ⟨s, hs, hh⟩
  have hr := Trace.reaches_weaken (fun _ _ h => of_decide_eq_true h)
    (Trace.reaches_of_run revokedRun hs)
  exact ⟨s, hr, hh, no_cyclicWait s hr⟩

/-- Two clients with a lock each, and each calls `acquire` for the other's. -/
def crossedRun : List (Action Nat Nat Nat) :=
  [.callAcquire 0 0 7, .enterAcquire 0 0, .serverAcquire 0 (.app 0), .acquireReturns 0 0,
   .callAcquire 1 0 8, .enterAcquire 1 0, .serverAcquire 1 (.app 0), .acquireReturns 1 0,
   .callAcquire 0 0 8, .enterAcquire 0 0, .serverAcquire 0 (.app 0),
   .callAcquire 1 0 7, .enterAcquire 1 0, .serverAcquire 1 (.app 0),
   .serverReadOwner 0 (.app 0), .serverReadOwner 1 (.app 0)]

/-- Each thread waits for its handler, the handler for its revoke, and the revoke
    for the `lockmap_mutex` that the other thread holds. -/
theorem cyclicWait_crossed :
    ∃ s, Trace.Reaches step Trace.Always (init Nat Nat Nat) s ∧ CyclicWait s := by
  have hrun : ∃ s, Trace.run step (fun _ _ => true) (init Nat Nat Nat) crossedRun = some s ∧
      s.thread (0, .app 0) = .acquireRpc 8 (.revoking (some 1)) ∧
      s.thread (1, .app 0) = .acquireRpc 7 (.revoking (some 0)) ∧
      s.lockmapMutex 0 = some (.app 0) ∧ s.lockmapMutex 1 = some (.app 0) :=
    ⟨_, rfl, rfl, rfl, rfl, rfl⟩
  rcases hrun with ⟨s, hs, h0, h1, hm0, hm1⟩
  refine ⟨s, Trace.reaches_always_of_run crossedRun hs, ?_⟩
  refine ⟨{.client (0, .app 0), .server (0, .app 0), .callback (0, .app 0),
    .client (1, .app 0), .server (1, .app 0), .callback (1, .app 0)}, ⟨_, Or.inl rfl⟩, ?_⟩
  have hclient : ∀ k lid o, s.thread k = .acquireRpc lid (.revoking o) →
      WaitsFor s (.client k) (.server k) :=
    fun k lid o hpc => .reply k (by rw [hpc]; rfl)
  have hserver : ∀ k lid o, s.thread k = .acquireRpc lid (.revoking (some o)) →
      WaitsFor s (.server k) (.callback k) :=
    fun k lid o hpc => .callbackReply k o (by rw [hpc]; rfl)
  simp only [Set.mem_insert_iff, Set.mem_singleton_iff, forall_eq_or_imp, forall_eq]
  refine ⟨⟨_, Or.inr (Or.inl rfl), by decide, hclient _ _ _ h0⟩,
    ⟨_, Or.inr (Or.inr (Or.inl rfl)), by decide, hserver _ _ _ h0⟩,
    ⟨_, Or.inr (Or.inr (Or.inr (Or.inl rfl))), by decide,
      .callbackLockmap _ 1 _ (by rw [h0]; rfl) hm1⟩,
    ⟨_, Or.inr (Or.inr (Or.inr (Or.inr (Or.inl rfl)))), by decide, hclient _ _ _ h1⟩,
    ⟨_, Or.inr (Or.inr (Or.inr (Or.inr (Or.inr rfl)))), by decide, hserver _ _ _ h1⟩,
    ⟨_, Or.inl rfl, by decide, .callbackLockmap _ 0 _ (by rw [h1]; rfl) hm0⟩⟩

end LockProtocol

end Yfs
