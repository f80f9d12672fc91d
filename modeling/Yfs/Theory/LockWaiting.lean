import Yfs.Theory.LockSteps

/-!
# No Waiter Is Lost

A client whose lock is `ACQUIRING` sleeps until the server calls `retry`, so it
must be somewhere the server will find it: in the waiting list of the lock, or
already popped from it by a `release` handler whose `retry` call is under way.

The difficulty is that the list entry is made before the client knows it is
waiting. Between the server's critical section and the client's own write of
`ACQUIRING`, a release can pop the entry and call back. What saves the client is
that it keeps `lockmap_mutex` across its call, so the callback has to wait for
the write. `Announced` therefore speaks about the call from the moment the
server has queued it (`AcquireCall.contended`), and not only about the state.

The second half of the argument is that the callback does something when it
runs. `retry_handler` refuses a lock it has no condition variable for, which
would leave the state at `ACQUIRING` with nobody left to wake it. `Known` shows
that every id the server can call back has one: a client is in a list, or is an
owner, only after its own `acquire` created the entry.

## Main definitions

* `AcquireCall.contended`, `ThreadPc.queuedFor`: The server has queued the caller.
* `MutexHeld`: `lockmap_mutex` is held exactly inside the `acquire` call.
* `Known`: Every id the server may call back knows the lock.
* `Announced`: Every waiter is in a list or in a `retry` call.

## Theorems

* `mutexHeld_step`, `known_step`, `nodup_step`, `announced_step`: One step
  preserves each of them.
* `waitingInv_reachable`: All of them hold in every reachable state.
* `acquiring_announced`: No waiter is lost, and no id waits twice.
-/

namespace Yfs

namespace LockProtocol

variable {C T L : Type} [DecidableEq C] [DecidableEq T] [DecidableEq L]

open Sys Threads

/-- The lock a thread is calling `acquire` for, if it is inside that call. -/
def ThreadPc.calling : ThreadPc C L → Option L
  | .acquireRpc lid _ => some lid
  | _ => none

/-- The handler has put the caller into the waiting list and will answer
    `RETRY`. -/
def AcquireCall.contended : AcquireCall C → Bool
  | .queued _ => true
  | .revoking _ => true
  | .revoked => true
  | .replied .retry => true
  | _ => false

/-- `lockmap_mutex` is held between two actions only by the thread inside the
    `acquire` call. -/
def MutexHeld (s : Sys C T L) : Prop :=
  ∀ c i, s.lockmapMutex c = some i ↔ (s.thread (c, i)).calling ≠ none

omit [DecidableEq C] [DecidableEq T] [DecidableEq L] in
theorem mutexHeld_of_same {s s' : Sys C T L} (hi : MutexHeld s)
    (hmutex : s'.lockmapMutex = s.lockmapMutex)
    (hcalling : ∀ k, (s'.thread k).calling = (s.thread k).calling) : MutexHeld s' := by
  intro c i
  rw [hmutex, hcalling]
  exact hi c i

omit [DecidableEq L] in
/-- A step that takes or drops the mutex of `c` leaves the threads of the other
    clients alone, so only the threads of `c` have to be looked at. -/
theorem mutexHeld_of_change {s s' : Sys C T L} (hi : MutexHeld s) {c : C} {i : ThreadId T}
    {m : Option (ThreadId T)} {pc : ThreadPc C L}
    (hmutex : s'.lockmapMutex = Function.update s.lockmapMutex c m)
    (hthread : s'.thread = Function.update s.thread (c, i) pc)
    (hheld : (∀ j, j ≠ i → (s'.thread (c, j)).calling = (s.thread (c, j)).calling) →
      HeldBy m fun j => (s'.thread (c, j)).calling ≠ none) : MutexHeld s' := by
  intro c'
  by_cases hc : c' = c
  · rw [hc, hmutex, Function.update_self]
    refine hheld fun j hj => ?_
    rw [hthread, Function.update_of_ne fun heq => hj (congrArg Prod.snd heq)]
  · intro i'
    rw [hmutex, Function.update_of_ne hc, hthread,
      Function.update_of_ne fun heq => hc (congrArg Prod.fst heq)]
    exact hi c' i'

omit [DecidableEq L] in
/-- The answer of the call has come: the thread leaves the call and drops the
    mutex. -/
theorem mutexHeld_of_reply {s s' : Sys C T L} (hi : MutexHeld s) {c : C} {i : ThreadId T}
    {lid : L} {call : AcquireCall C} {pc : ThreadPc C L}
    (hpc : s.thread (c, i) = .acquireRpc lid call) (hout : pc.calling = none)
    (hmutex : s'.lockmapMutex = Function.update s.lockmapMutex c none)
    (hthread : s'.thread = Function.update s.thread (c, i) pc) : MutexHeld s' := by
  refine mutexHeld_of_change hi hmutex hthread fun hothers => ?_
  have hheld : HeldBy (s.lockmapMutex c) fun j => (s.thread (c, j)).calling ≠ none := hi c
  have hin : (s.thread (c, i)).calling ≠ none := by
    rw [hpc]
    exact Option.some_ne_none lid
  refine hheld.leave hin ?_ fun j hj => by rw [hothers j hj]
  rw [hthread, Function.update_self, hout]
  exact not_ne_iff.mpr rfl

/-- The mutex changes hands with the call: one branch of the loop enters the call
    with the mutex, two answers leave it, and no other step does either. -/
theorem mutexHeld_step (s s' : Sys C T L) (a : Action C T L) (hi : MutexHeld s)
    (h : Step s a s') : MutexHeld s' := by
  cases h with
  | acquireNone a c t lid cv ha hst =>
      refine mutexHeld_of_change hi rfl rfl fun hothers => ?_
      have hheld : HeldBy (s.lockmapMutex c) fun j => (s.thread (c, j)).calling ≠ none := hi c
      -- The mutex was free, so no other thread of the client was calling.
      refine hheld.enter ha.mutex ?_ fun j hj => by rw [hothers j hj]
      simp only [Function.update_self]
      exact Option.some_ne_none lid
  | replyOk c t lid hpc => exact mutexHeld_of_reply hi hpc rfl rfl rfl
  | replyRetry c t lid hpc => exact mutexHeld_of_reply hi hpc rfl rfl rfl
  | acquireFree a c t lid cv ha hst =>
      exact mutexHeld_of_same hi rfl (ha.observe ThreadPc.calling (by rfl) (by rfl))
  | acquireWait a c t lid cv ha hfree hnone =>
      exact mutexHeld_of_same hi rfl (ha.observe ThreadPc.calling (by rfl) (by rfl))
  | serverRetryReply c i lid hpc =>
      rcases hpc with hpc | hpc
      · exact mutexHeld_of_same hi rfl (observe_update ThreadPc.calling hpc rfl)
      · exact mutexHeld_of_same hi rfl (observe_update ThreadPc.calling hpc rfl)
  | _ => exact mutexHeld_of_same hi rfl (observe_update ThreadPc.calling ‹_› (by rfl))

/-- The clients and locks a program counter will touch again: its own client's
    wait, and the client a callback is addressed to. -/
def ThreadPc.touches (c : C) : ThreadPc C L → List (C × L)
  | .acquireRpc lid (.revoking (some o)) => [(c, lid), (o, lid)]
  | .acquireRpc lid _ => [(c, lid)]
  | .condWait lid => [(c, lid)]
  | .tested lid => [(c, lid)]
  | .releaseRpc lid (.retrying first) => [(first, lid)]
  | _ => []

/-- Every id the server may call back has a condition variable for the lock. -/
structure Known (s : Sys C T L) : Prop where
  entry : ∀ k, s.lockstateMap k ≠ none → s.lockCvMap k = true
  thread : ∀ k p, p ∈ (s.thread k).touches k.1 → s.lockCvMap p = true
  owner : ∀ c lid, s.whereIsLock lid = some (some c) → s.lockCvMap (c, lid) = true
  waiting : ∀ c lid, c ∈ s.whoWaitingLock lid → s.lockCvMap (c, lid) = true

theorem mem_enqueue (q : List C) (c x : C) : x ∈ enqueue q c ↔ x ∈ q ∨ x = c := by
  unfold enqueue
  by_cases hc : c ∈ q
  · rw [if_pos hc]
    constructor
    · exact Or.inl
    · rintro (h | rfl)
      · exact h
      · exact hc
  · rw [if_neg hc, List.mem_append, List.mem_singleton]

theorem nodup_enqueue (q : List C) (c : C) (hq : q.Nodup) : (enqueue q c).Nodup := by
  unfold enqueue
  by_cases hc : c ∈ q
  · rw [if_pos hc]
    exact hq
  · rw [if_neg hc]
    exact hq.append (List.nodup_singleton c) (List.disjoint_singleton.mpr hc)

/-- Condition variables are never removed. -/
theorem cv_mono (s s' : Sys C T L) (a : Action C T L) (h : Step s a s') (k : C × L)
    (hk : s.lockCvMap k = true) : s'.lockCvMap k = true := by
  cases h with
  -- A turn of the loop creates the condition variable when it finds none.
  | acquireFree a c t lid cv ha hst => exact ha.cv_mono k hk
  | acquireNone a c t lid cv ha hst => exact ha.cv_mono k hk
  | acquireWait a c t lid cv ha hf hn =>
      simp only [Function.update_apply, ha.cv_mono k hk, ite_self]
  | replyRetry c t lid hpc => simp only [Function.update_apply, hk, ite_self]
  | _ => exact hk

omit [DecidableEq C] [DecidableEq T] [DecidableEq L] in
/-- The thread that runs a turn of the loop has a condition variable for the
    lock once the turn is over. -/
theorem turn_cv (s : Sys C T L) (a : Action C T L) (c : C) (t : T) (lid : L)
    (cv : C × L → Bool) (hi : Known s) (ha : Turn s a c t lid cv) : cv (c, lid) = true := by
  rcases ha.entered with ⟨_, _, hnew⟩ | ⟨hpc, _⟩
  · by_cases hn : s.lockstateMap (c, lid) = none
    · exact hnew hn
    · exact ha.cv_mono _ (hi.entry _ hn)
  · refine ha.cv_mono _ (hi.thread (c, .app t) _ ?_)
    rw [hpc]
    exact List.mem_singleton.mpr rfl

omit [DecidableEq C] [DecidableEq T] [DecidableEq L] in
/-- The caller of `acquire` knows the lock for as long as the call lasts. -/
theorem Known.caller {s : Sys C T L} (hi : Known s) {c : C} {i : ThreadId T} {lid : L}
    {call : AcquireCall C} (hpc : s.thread (c, i) = .acquireRpc lid call) :
    s.lockCvMap (c, lid) = true := by
  refine hi.thread (c, i) (c, lid) ?_
  rw [hpc]
  cases call with
  | revoking o =>
      cases o with
      | none => exact List.mem_cons_self
      | some o => exact List.mem_cons_self
  | _ => exact List.mem_cons_self

omit [DecidableEq T] in
/-- A step that writes the state of one lock keeps `Known.entry` if the lock has a
    condition variable after the step. -/
theorem entry_of_write {s s' : Sys C T L} (hi : Known s)
    (hmono : ∀ k, s.lockCvMap k = true → s'.lockCvMap k = true) {k₀ : C × L}
    {v : Option ClientLockState} (hmap : s'.lockstateMap = Function.update s.lockstateMap k₀ v)
    (hcv : s'.lockCvMap k₀ = true) (k : C × L) (hk : s'.lockstateMap k ≠ none) :
    s'.lockCvMap k = true := by
  rw [hmap] at hk
  rcases of_update (fun v => v ≠ none) hk with ⟨rfl, _⟩ | ⟨_, hold⟩
  · exact hcv
  · exact hmono k (hi.entry k hold)

theorem known_entry_step (s s' : Sys C T L) (a : Action C T L) (hi : Known s)
    (h : Step s a s') (k : C × L) (hk : s'.lockstateMap k ≠ none) : s'.lockCvMap k = true := by
  -- Every state is written for a lock that the client knows, and each writer knows it for its own
  -- reason.
  have hmono := cv_mono s s' a h
  cases h with
  | acquireFree a c t lid cv ha hst =>
      exact entry_of_write hi hmono rfl (turn_cv s a c t lid cv hi ha) k hk
  | acquireNone a c t lid cv ha hst =>
      exact entry_of_write hi hmono rfl (turn_cv s a c t lid cv hi ha) k hk
  | acquireWait a c t lid cv ha hfree hnone =>
      exact entry_of_write hi hmono rfl (Function.update_self _ _ _) k hk
  | replyOk c t lid hpc => exact entry_of_write hi hmono rfl (hi.caller hpc) k hk
  | replyRetry c t lid hpc =>
      exact entry_of_write hi hmono rfl (Function.update_self _ _ _) k hk
  | releaseRevoked c t lid hpc hm hst =>
      refine entry_of_write hi hmono rfl (hi.entry (c, lid) ?_) k hk
      rw [hst]
      exact Option.some_ne_none _
  | releaseLocal c t lid hpc hm hsome hst =>
      exact entry_of_write hi hmono rfl (hi.entry (c, lid) hsome) k hk
  | giveBackUpdate c lid hpc hm =>
      -- What `give_back` has found `FREE` it has found in the map.
      refine entry_of_write hi hmono rfl (hi.thread (c, .giveBack) (c, lid) ?_) k hk
      rw [hpc]
      exact List.mem_singleton.mpr rfl
  | clientRevoke c i lid o v hpc hm hv =>
      refine entry_of_write hi hmono rfl (hi.thread (c, i) (o, lid) ?_) k hk
      rw [hpc]
      exact List.mem_cons_of_mem _ (List.mem_singleton.mpr rfl)
  | clientRetry c i lid first hpc hm hcv => exact entry_of_write hi hmono rfl hcv k hk
  | _ => exact hi.entry k hk

omit [DecidableEq L] in
/-- A step that moves one thread keeps `Known.thread` if what the thread touches
    from its new place is known. -/
theorem thread_of_move {s s' : Sys C T L} (hi : Known s)
    (hmono : ∀ k, s.lockCvMap k = true → s'.lockCvMap k = true) {k₀ : C × ThreadId T}
    {pc : ThreadPc C L} (hthread : s'.thread = Function.update s.thread k₀ pc)
    (hnew : ∀ p ∈ pc.touches k₀.1, s'.lockCvMap p = true) (k : C × ThreadId T) (p : C × L)
    (hp : p ∈ (s'.thread k).touches k.1) : s'.lockCvMap p = true := by
  rw [hthread] at hp
  rcases of_update (fun pc : ThreadPc C L => p ∈ pc.touches k.1) hp with ⟨rfl, hmoved⟩ | ⟨_, hold⟩
  · exact hnew p hmoved
  · exact hmono p (hi.thread k p hold)

/-- A thread touches a new lock, or a new client, in four ways: it starts to call
    or to wait, `give_back` has found a lock `FREE`, the server reads the owner it
    revokes, and it pops the client it calls back. -/
theorem known_thread_step (s s' : Sys C T L) (a : Action C T L) (hi : Known s)
    (h : Step s a s') (k : C × ThreadId T) (p : C × L) (hp : p ∈ (s'.thread k).touches k.1) :
    s'.lockCvMap p = true := by
  have hmono := cv_mono s s' a h
  cases h with
  | acquireNone a c t lid cv ha hst =>
      refine thread_of_move hi hmono rfl (fun q hq => ?_) k p hp
      rw [List.mem_singleton.mp hq]
      exact turn_cv s a c t lid cv hi ha
  | acquireWait a c t lid cv ha hfree hnone =>
      refine thread_of_move hi hmono rfl (fun q hq => ?_) k p hp
      rw [List.mem_singleton.mp hq]
      exact Function.update_self _ _ _
  | replyRetry c t lid hpc =>
      refine thread_of_move hi hmono rfl (fun q hq => ?_) k p hp
      rw [List.mem_singleton.mp hq]
      exact Function.update_self _ _ _
  | replyOther c t lid st hpc hok hretry =>
      refine thread_of_move hi hmono rfl (fun q hq => ?_) k p hp
      rw [List.mem_singleton.mp hq]
      exact hi.caller hpc
  | giveBackTest c lid hpc hst =>
      refine thread_of_move hi hmono rfl (fun q hq => hi.entry q ?_) k p hp
      rw [List.mem_singleton.mp hq, hst]
      exact Option.some_ne_none _
  | serverGrant c i lid hpc hm hfree =>
      refine thread_of_move hi hmono rfl (fun q hq => ?_) k p hp
      rw [List.mem_singleton.mp hq]
      exact hi.caller hpc
  | serverQueue c i lid o hpc hm how =>
      refine thread_of_move hi hmono rfl (fun q hq => ?_) k p hp
      rw [List.mem_singleton.mp hq]
      exact hi.caller hpc
  | serverReadOwner c i lid hpc =>
      refine thread_of_move hi hmono rfl (fun q hq => ?_) k p hp
      cases how : (s.whereIsLock lid).join with
      | none =>
          rw [how] at hq
          rw [List.mem_singleton.mp hq]
          exact hi.caller hpc
      | some o =>
          rw [how] at hq
          rcases List.mem_cons.mp hq with rfl | hq
          · exact hi.caller hpc
          · rw [List.mem_singleton.mp hq]
            exact hi.owner o lid (Option.join_eq_some_iff.mp how)
  | clientRevoke c i lid o v hpc hm hv =>
      refine thread_of_move hi hmono rfl (fun q hq => ?_) k p hp
      rw [List.mem_singleton.mp hq]
      exact hi.caller hpc
  | serverRetryReply c i lid hpc =>
      refine thread_of_move hi hmono rfl (fun q hq => ?_) k p hp
      rw [List.mem_singleton.mp hq]
      rcases hpc with hpc | hpc
      · exact hi.caller hpc
      · exact hi.caller hpc
  | serverReleasePop c i lid first rest hpc hm hfr =>
      refine thread_of_move hi hmono rfl (fun q hq => ?_) k p hp
      rw [List.mem_singleton.mp hq]
      refine hi.waiting first lid ?_
      rw [hfr]
      exact List.mem_cons_self
  | _ =>
      -- From the other places nothing is touched.
      exact thread_of_move hi hmono rfl (fun q hq => by cases hq) k p hp

theorem known_owner_step (s s' : Sys C T L) (a : Action C T L) (hi : Known s)
    (h : Step s a s') (c' : C) (lid' : L) (hown : s'.whereIsLock lid' = some (some c')) :
    s'.lockCvMap (c', lid') = true := by
  have hmono := cv_mono s s' a h (c', lid')
  cases h with
  | serverGrant c i lid hpc hm hfree =>
      -- The new owner is inside its call, which knows the lock.
      rcases of_update (fun o => o = some (some c')) hown with ⟨rfl, hnew⟩ | ⟨_, hold⟩
      · cases hnew
        exact hi.caller hpc
      · exact hi.owner c' lid' hold
  | serverReleaseEmpty c i lid hpc hm hq =>
      have hold := before_of_update (fun o => o = some (some c')) (by rintro ⟨⟩) hown
      exact hi.owner c' lid' hold
  | serverReleasePop c i lid first rest hpc hm hq =>
      have hold := before_of_update (fun o => o = some (some c')) (by rintro ⟨⟩) hown
      exact hi.owner c' lid' hold
  | _ => exact hmono (hi.owner c' lid' hown)

theorem known_waiting_step (s s' : Sys C T L) (a : Action C T L) (hi : Known s)
    (h : Step s a s') (c' : C) (lid' : L) (hq : c' ∈ s'.whoWaitingLock lid') :
    s'.lockCvMap (c', lid') = true := by
  have hmono := cv_mono s s' a h (c', lid')
  cases h with
  | serverQueue c i lid o hpc hm how =>
      -- So is the client that is queued.
      rcases of_update (fun q => c' ∈ q) hq with ⟨rfl, hnew⟩ | ⟨_, hold⟩
      · rcases (mem_enqueue _ _ _).mp hnew with hold | rfl
        · exact hi.waiting c' lid' hold
        · exact hi.caller hpc
      · exact hi.waiting c' lid' hold
  | serverReleasePop c i lid first rest hpc hm hfr =>
      rcases of_update (fun q => c' ∈ q) hq with ⟨rfl, hnew⟩ | ⟨_, hold⟩
      · refine hi.waiting c' lid' ?_
        rw [hfr]
        exact List.mem_cons_of_mem first hnew
      · exact hi.waiting c' lid' hold
  | _ => exact hmono (hi.waiting c' lid' hq)

theorem known_step (s s' : Sys C T L) (a : Action C T L) (hi : Known s) (h : Step s a s') :
    Known s' where
  entry := known_entry_step s s' a hi h
  thread := known_thread_step s s' a hi h
  owner := known_owner_step s s' a hi h
  waiting := known_waiting_step s s' a hi h

/-- `acquire` puts an id into the list only if it is not there. -/
theorem nodup_step (s s' : Sys C T L) (a : Action C T L)
    (hi : ∀ lid, (s.whoWaitingLock lid).Nodup) (h : Step s a s') (lid' : L) :
    (s'.whoWaitingLock lid').Nodup := by
  have hold := hi lid'
  cases h with
  | serverQueue c i lid o hpc hm how =>
      by_cases hl : lid' = lid
      · rw [hl]
        simp only [Function.update_self]
        exact nodup_enqueue _ _ (hi lid)
      · simp only [Function.update_of_ne hl]
        exact hold
  | serverReleasePop c i lid first rest hpc hm hq =>
      by_cases hl : lid' = lid
      · have hcons := hi lid
        rw [hq] at hcons
        rw [hl]
        simp only [Function.update_self]
        exact hcons.of_cons
      · simp only [Function.update_of_ne hl]
        exact hold
  | _ => exact hold

/-- The lock that the server has queued a call of this thread for. -/
def ThreadPc.queuedFor : ThreadPc C L → Option L
  | .acquireRpc lid call => if call.contended then some lid else none
  | _ => none

omit [DecidableEq C] [DecidableEq L] in
theorem ThreadPc.queuedFor_eq_some {pc : ThreadPc C L} {lid : L} :
    pc.queuedFor = some lid ↔ ∃ call, pc = .acquireRpc lid call ∧ call.contended = true := by
  constructor
  · intro h
    cases pc with
    | acquireRpc lid₀ call =>
        simp only [ThreadPc.queuedFor, Option.ite_none_right_eq_some, Option.some.injEq] at h
        exact ⟨call, by rw [h.2], h.1⟩
    | _ => cases h
  · rintro ⟨call, rfl, hcall⟩
    exact if_pos hcall

/-- Client `c` waits for `lid`, or the server has queued a call of its that will
    make it wait. -/
def Waits (s : Sys C T L) (c : C) (lid : L) : Prop :=
  s.lockstate c lid = .acquiring ∨
    ∃ i call, s.thread (c, i) = .acquireRpc lid call ∧ call.contended = true

omit [DecidableEq C] [DecidableEq T] [DecidableEq L] in
theorem waits_iff {s : Sys C T L} {c : C} {lid : L} :
    Waits s c lid ↔ s.lockstate c lid = .acquiring ∨
      ∃ i, (s.thread (c, i)).queuedFor = some lid :=
  or_congr_right (exists_congr fun _ => ThreadPc.queuedFor_eq_some.symm)

/-- The server has `c` in the list of `lid`, or is calling it back. -/
def Listed (s : Sys C T L) (c : C) (lid : L) : Prop :=
  c ∈ s.whoWaitingLock lid ∨ ∃ k, s.thread k = .releaseRpc lid (.retrying c)

/-- Every waiter is listed. -/
def Announced (s : Sys C T L) : Prop :=
  ∀ c lid, Waits s c lid → Listed s c lid

/-- A call that is queued was queued before the step, or the server has queued it
    in this step. -/
theorem queuedFor_step {s s' : Sys C T L} {a : Action C T L} (h : Step s a s') {c' : C}
    {i' : ThreadId T} {lid' : L} (hq : (s'.thread (c', i')).queuedFor = some lid') :
    (s.thread (c', i')).queuedFor = some lid' ∨ c' ∈ s'.whoWaitingLock lid' := by
  cases h with
  | serverQueue c i lid o hpc hm how =>
      rcases of_update (fun pc : ThreadPc C L => pc.queuedFor = some lid') hq with
        ⟨hk, hnew⟩ | ⟨_, hold⟩
      · -- The caller has just been put into the list.
        cases hk
        cases hnew
        right
        simp only [Function.update_self]
        exact (mem_enqueue _ _ _).mpr (Or.inr rfl)
      · exact Or.inl hold
  | serverReadOwner c i lid hpc =>
      exact Or.inl ((observe_update ThreadPc.queuedFor hpc (by rfl) (c', i')).symm.trans hq)
  | clientRevoke c i lid o v hpc hm hv =>
      exact Or.inl ((observe_update ThreadPc.queuedFor hpc (by rfl) (c', i')).symm.trans hq)
  | serverRetryReply c i lid hpc =>
      rcases hpc with hpc | hpc
      · exact Or.inl ((observe_update ThreadPc.queuedFor hpc (by rfl) (c', i')).symm.trans hq)
      · exact Or.inl ((observe_update ThreadPc.queuedFor hpc (by rfl) (c', i')).symm.trans hq)
  | _ =>
      have hold := before_of_update (fun pc : ThreadPc C L => pc.queuedFor = some lid')
        (by rintro ⟨⟩) hq
      exact Or.inl hold

/-- A new waiter is one the server has just queued; every other waiter waited
    before the step. -/
theorem waits_step (s s' : Sys C T L) (a : Action C T L) (h : Step s a s') (c' : C) (lid' : L)
    (hw : Waits s' c' lid') : Waits s c' lid' ∨ Listed s' c' lid' := by
  rw [waits_iff] at hw ⊢
  rcases hw with hacq | ⟨i, hq⟩
  · left
    rcases lockstate_step h hacq with hsame | hwrite
    · exact Or.inl hsame
    · -- The state says `ACQUIRING` since the answer that the call was queued for.
      cases hwrite with
      | refused c t lid hpc =>
          refine Or.inr ⟨.app t, ?_⟩
          rw [hpc]
          rfl
  · rcases queuedFor_step h hq with hold | hnew
    · exact Or.inl (Or.inr ⟨i, hold⟩)
    · exact Or.inr (Or.inl hnew)

/-- A `retry` call is under way until the handler it waits for has run. -/
theorem retrying_step (s s' : Sys C T L) (a : Action C T L) (h : Step s a s')
    (k : C × ThreadId T) (c' : C) (lid' : L)
    (hr : s.thread k = .releaseRpc lid' (.retrying c')) :
    s'.thread k = .releaseRpc lid' (.retrying c') ∨ a = .clientRetry k.1 k.2 := by
  cases h with
  | acquireFree a c t lid cv ha hst =>
      exact Or.inl (ha.stays hr (by intro heq; cases heq) (by intro heq; cases heq))
  | acquireNone a c t lid cv ha hst =>
      exact Or.inl (ha.stays hr (by intro heq; cases heq) (by intro heq; cases heq))
  | acquireWait a c t lid cv ha hfree hnone =>
      exact Or.inl (ha.stays hr (by intro heq; cases heq) (by intro heq; cases heq))
  | serverRetryReply c i lid hpc =>
      left
      rcases hpc with hpc | hpc
      · exact stays_update hr hpc (by intro heq; cases heq)
      · exact stays_update hr hpc (by intro heq; cases heq)
  | clientRetry c i lid first hpc hm hcv =>
      by_cases hk : k = (c, i)
      · rw [hk]
        exact Or.inr rfl
      · exact Or.inl ((Function.update_of_ne hk _ _).trans hr)
  | clientRetryUnknown c i lid first hpc hm hcv =>
      by_cases hk : k = (c, i)
      · rw [hk]
        exact Or.inr rfl
      · exact Or.inl ((Function.update_of_ne hk _ _).trans hr)
  | _ =>
      -- The thread that moves is at another place.
      exact Or.inl (stays_update hr ‹_› (by intro heq; cases heq))

/-- The `retry_handler` of a known client finds the mutex free and leaves the
    lock at `NONE`. -/
theorem clientRetry_effect (s s' : Sys C T L) (k : C × ThreadId T) (hk : Known s)
    (h : Step s (.clientRetry k.1 k.2) s') (c' : C) (lid' : L)
    (hr : s.thread k = .releaseRpc lid' (.retrying c')) :
    s'.lockmapMutex c' = none ∧ s'.lockstate c' lid' = .none := by
  rcases k with ⟨c, i⟩
  cases h with
  | acquireFree a c t lid cv ha hst => cases ha.turns
  | acquireNone a c t lid cv ha hst => cases ha.turns
  | acquireWait a c t lid cv ha hf hn => cases ha.turns
  | clientRetry _ _ lid first hpc hm hcv =>
      rw [hpc] at hr
      cases hr
      refine ⟨hm, ?_⟩
      simp only [lockstate, Function.update_self, Option.getD_some]
  | clientRetryUnknown _ _ lid first hpc hm hcv =>
      rw [hpc] at hr
      cases hr
      -- The client called back knows the lock, so its handler does not refuse.
      have hcv' := hk.thread (c, i) (c', lid')
      rw [hpc] at hcv'
      rw [hcv' (List.mem_singleton.mpr rfl)] at hcv
      cases hcv

/-- An id leaves the list only into a `retry` call. -/
theorem mem_waiting_step (s s' : Sys C T L) (a : Action C T L) (h : Step s a s')
    (c' : C) (lid' : L) (hq : c' ∈ s.whoWaitingLock lid') : Listed s' c' lid' := by
  cases h with
  | serverQueue c i lid o hpc hm how =>
      left
      by_cases hl : lid' = lid
      · simp only [hl, Function.update_self]
        exact (mem_enqueue _ _ _).mpr (Or.inl (hl ▸ hq))
      · simp only [Function.update_of_ne hl]
        exact hq
  | serverReleasePop c i lid first rest hpc hm hfr =>
      by_cases hl : lid' = lid
      · rw [hl, hfr, List.mem_cons] at hq
        rcases hq with hf | hrest
        · -- The popped id is the one the handler now calls.
          right
          refine ⟨(c, i), ?_⟩
          simp only [Function.update_self, hl, hf]
        · left
          simp only [hl, Function.update_self]
          exact hrest
      · left
        simp only [Function.update_of_ne hl]
        exact hq
  | _ => exact Or.inl hq

/-- A waiter stays listed: it leaves the list only into a `retry` call, and once that call has run
    it does not wait any more. -/
theorem announced_step (s s' : Sys C T L) (a : Action C T L) (hk : Known s)
    (hm : MutexHeld s) (hi : Announced s) (h : Step s a s') : Announced s' := by
  intro c' lid' hw
  rcases waits_step s s' a h c' lid' hw with hold | hnew
  · rcases hi c' lid' hold with hq | ⟨k, hr⟩
    · exact mem_waiting_step s s' a h c' lid' hq
    · rcases retrying_step s s' a h k c' lid' hr with hstay | hrun
      · exact Or.inr ⟨k, hstay⟩
      · -- The handler has run, so the client no longer waits for this lock.
        exfalso
        rw [hrun] at h
        rcases clientRetry_effect s s' k hk h c' lid' hr with ⟨hfree, hnone⟩
        rcases hw with hacq | ⟨i, call, hpc, _⟩
        · rw [hnone] at hacq
          cases hacq
        · -- A queued call would still hold the mutex that the handler found free.
          have hheld := (mutexHeld_step s s' _ hm h c' i).mpr (by
            rw [hpc]
            exact Option.some_ne_none lid')
          rw [hfree] at hheld
          cases hheld
  · exact hnew

/-- The invariants of every reachable state that the waiting lists rest on. -/
structure WaitingInv (s : Sys C T L) : Prop where
  mutex : MutexHeld s
  known : Known s
  nodup : ∀ lid, (s.whoWaitingLock lid).Nodup
  announced : Announced s

omit [DecidableEq C] [DecidableEq T] [DecidableEq L] in
theorem waitingInv_init : WaitingInv (init C T L) := by
  refine ⟨?_, ⟨?_, ?_, ?_, ?_⟩, ?_, ?_⟩
  · intro c i
    simp only [init, ThreadPc.calling, reduceCtorEq, ne_eq, not_true_eq_false]
  · intro k hk
    exact absurd rfl hk
  · intro k p hp
    exact absurd hp (by simp only [init, ThreadPc.touches, List.not_mem_nil, not_false_eq_true])
  · intro c lid hw
    exact absurd hw (by simp only [init, reduceCtorEq, not_false_eq_true])
  · intro c lid hq
    exact absurd hq (by simp only [init, List.not_mem_nil, not_false_eq_true])
  · intro lid
    exact List.nodup_nil
  · intro c lid hw
    rcases hw with hacq | ⟨i, call, hpc, _⟩
    · exact absurd hacq (by simp only [init, lockstate, Option.getD_none, reduceCtorEq,
        not_false_eq_true])
    · exact absurd hpc (by simp only [init, reduceCtorEq, not_false_eq_true])

theorem waitingInv_step (s : Sys C T L) (a : Action C T L) (s' : Sys C T L)
    (hi : WaitingInv s) (h : step s a = some s') : WaitingInv s' := by
  have hs := step_cases s s' a h
  exact ⟨mutexHeld_step s s' a hi.mutex hs, known_step s s' a hi.known hs,
    nodup_step s s' a hi.nodup hs, announced_step s s' a hi.known hi.mutex hi.announced hs⟩

/-- They hold in every state reached under any condition on the steps. -/
theorem waitingInv_reachable (ok : Sys C T L → Action C T L → Prop) (s : Sys C T L)
    (h : Trace.Reaches step ok (init C T L) s) : WaitingInv s :=
  Trace.invariant_of_step WaitingInv waitingInv_init
    (fun s a s' hi _ hs => waitingInv_step s a s' hi hs) h

/-- No waiter is lost between the `RETRY` answer and the `retry` callback: a
    client at `ACQUIRING` is in the waiting list of the lock or a `release`
    handler is inside the `retry` call for it, and no id waits twice. -/
theorem acquiring_announced (s : Sys C T L)
    (h : Trace.Reaches step Trace.Always (init C T L) s) :
    (∀ c lid, s.lockstateMap (c, lid) = some .acquiring →
      c ∈ s.whoWaitingLock lid ∨ ∃ k, s.thread k = .releaseRpc lid (.retrying c)) ∧
    ∀ lid, (s.whoWaitingLock lid).Nodup := by
  have hi := waitingInv_reachable Trace.Always s h
  refine ⟨fun c lid hst => ?_, hi.nodup⟩
  exact hi.announced c lid (Or.inl (lockstate_of_some s c lid _ hst))

/-- Client 0 takes a lock; client 1 asks for it, is queued, has the owner
    revoked and is told to retry. -/
def contendedRun : List (Action Nat Nat Nat) :=
  [.callAcquire 0 0 7, .enterAcquire 0 0, .serverAcquire 0 (.app 0), .acquireReturns 0 0,
   .callAcquire 1 0 7, .enterAcquire 1 0, .serverAcquire 1 (.app 0),
   .serverReadOwner 1 (.app 0), .clientRevoke 1 (.app 0), .serverRetryReply 1 (.app 0),
   .acquireReturns 1 0]

theorem acquiring_announced_contended :
    ∃ s, Trace.Reaches step Trace.Always (init Nat Nat Nat) s ∧
      s.lockstateMap (1, 7) = some .acquiring ∧
      (1 ∈ s.whoWaitingLock 7 ∨ ∃ k, s.thread k = .releaseRpc 7 (.retrying 1)) := by
  have hrun : ∃ s, Trace.run step (fun _ _ => true) (init Nat Nat Nat) contendedRun = some s ∧
      s.lockstateMap (1, 7) = some .acquiring := ⟨_, rfl, rfl⟩
  rcases hrun with ⟨s, hs, hst⟩
  have hr := Trace.reaches_always_of_run contendedRun hs
  exact ⟨s, hr, hst, (acquiring_announced s hr).1 1 7 hst⟩

end LockProtocol

end Yfs
