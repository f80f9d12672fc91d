import Yfs.Theory.LockWaiting

/-!
# Mutual Exclusion

Ownership of a lock is a token. The server says which client has it
(`whereIsLock`). That client keeps it in its state map (`FREE`, `LOCKED` or
`RELEASING`), or one of its threads carries it: to the server inside
`dorelease` or the `release` RPC, or from the server in an `OK` reply that
`acquire` has not recorded yet. `Token` says that these places are exclusive, and
that inside a client one thread at a time uses a locked lock.

One step breaks it. `give_back` tests for `FREE` without `lockmap_mutex`, and its
later update writes `NONE` and starts a `release` RPC whatever the state is by
then. `giveBackFree` is the condition under which that update is harmless: the
lock is still `FREE`. In every run that meets it there is at most one holder;
without it, `stolenRun` gives two.

The proof that a step keeps `Token` looks at each place where the token can be
and asks how it came there. It was in the client's map before, or the map has
just got it from an answer (`owned_step`); it was carried by the thread before,
or one of three steps has handed it over (`TakesUp`, `carries_step`); the thread
used the lock before, or one of two steps has given it the lock (`Acquires`,
`uses_step`). The server's entry changes only when it grants a lock that has no
owner or takes one back from the thread that carries it (`whereIsLock_kept`).

## Main definitions

* `Token`: The ownership invariant.
* `giveBackFree`: The condition on the update of `give_back`.
* `TakesUp`, `Acquires`: The steps that hand the token to a thread.
* `MutualExclusion`: At most one thread holds each lock.

## Theorems

* `owned_step`, `carries_step`, `uses_step`: Where the token was before a step.
* `token_step`: One step keeps the invariant.
* `token_reachable`: The invariant along every run under the condition.
* `mutual_exclusion`: At most one holder along every run under the condition.
* `mutual_exclusion_broken`: Two holders without it.
-/

namespace Yfs

namespace LockProtocol

variable {C T L : Type}

open Sys Threads

/-- The states in which a client has the lock. -/
def ClientLockState.owned : ClientLockState → Bool
  | .free => true
  | .locked => true
  | .releasing => true
  | _ => false

/-- The lock whose ownership is with the thread and not in its client's map: on
    its way back to the server, or granted and not yet recorded. -/
def ThreadPc.carries : ThreadPc C L → Option L
  | .dorelease lid => some lid
  | .releaseRpc lid .sent => some lid
  | .acquireRpc lid (.replied .ok) => some lid
  | _ => none

/-- The thread is a server `release` handler inside its `retry` call. -/
def ThreadPc.inRetry : ThreadPc C L → Bool
  | .releaseRpc _ (.retrying _) => true
  | .releaseRpc _ (.retried _) => true
  | _ => false

/-- `serverlock_mutex` is held between two actions only by the `release` handler
    inside its `retry` call. -/
def ServerHeld (s : Sys C T L) : Prop :=
  ∀ k, s.serverlockMutex = some k ↔ (s.thread k).inRetry = true

/-- Thread `t` of `c` has returned from `acquire(lid)`, and `release(lid)` has
    not yet given the lock up. -/
def Uses (s : Sys C T L) (c : C) (t : T) (lid : L) : Prop :=
  s.holds (c, t, lid) = true ∨ s.thread (c, .app t) = .release lid

/-- Ownership as a token: it is at most at one client, in at most one of the
    client's map, a thread of the client or the server. -/
structure Token (s : Sys C T L) : Prop where
  server : ServerHeld s
  state_owner : ∀ c lid, (s.lockstate c lid).owned = true → s.whereIsLock lid = some (some c)
  carry_owner : ∀ c i lid, (s.thread (c, i)).carries = some lid →
    s.whereIsLock lid = some (some c)
  carry_state : ∀ c i lid, (s.thread (c, i)).carries = some lid →
    (s.lockstate c lid).owned = false
  carry_unique : ∀ c i j lid, (s.thread (c, i)).carries = some lid →
    (s.thread (c, j)).carries = some lid → i = j
  calling_state : ∀ c i lid, (s.thread (c, i)).calling = some lid → s.lockstate c lid = .none
  listed_waits : ∀ c lid, Listed s c lid → Waits s c lid
  retrying_once : ∀ k c lid, s.thread k = .releaseRpc lid (.retrying c) →
    c ∉ s.whoWaitingLock lid
  uses_state : ∀ c t lid, Uses s c t lid →
    s.lockstate c lid = .locked ∨ s.lockstate c lid = .releasing
  uses_unique : ∀ c t u lid, Uses s c t lid → Uses s c u lid → t = u
  release_once : ∀ c t lid, s.thread (c, .app t) = .release lid → s.holds (c, t, lid) = false

/-- The server's `release` handler takes the token: its caller carries the lock,
    so no client's map has it. -/
theorem state_not_owned_of_carry (s : Sys C T L) (hi : Token s) (c : C) (i : ThreadId T)
    (lid : L) (hc : (s.thread (c, i)).carries = some lid) (c' : C) :
    (s.lockstate c' lid).owned = false := by
  cases ho : (s.lockstate c' lid).owned with
  | false => rfl
  | true =>
      have howner := hi.state_owner c' lid ho
      rw [hi.carry_owner c i lid hc] at howner
      cases howner
      rw [hi.carry_state c i lid hc] at ho
      cases ho

/-- Two threads that carry the same lock are one thread. -/
theorem carry_unique_all (s : Sys C T L) (hi : Token s) (c c' : C) (i j : ThreadId T) (lid : L)
    (hc : (s.thread (c, i)).carries = some lid) (hc' : (s.thread (c', j)).carries = some lid) :
    (c', j) = (c, i) := by
  have howner := hi.carry_owner c' j lid hc'
  rw [hi.carry_owner c i lid hc] at howner
  cases howner
  rw [hi.carry_unique c i j lid hc hc']

/-- A `retry_handler` that can run finds its client waiting. -/
theorem acquiring_of_retrying (s : Sys C T L) (hw : WaitingInv s) (hi : Token s)
    (k : C × ThreadId T) (c : C) (lid : L) (hr : s.thread k = .releaseRpc lid (.retrying c))
    (hm : s.lockmapMutex c = none) : s.lockstate c lid = .acquiring := by
  rcases hi.listed_waits c lid (Or.inr ⟨k, hr⟩) with hacq | ⟨i, call, hpc, _⟩
  · exact hacq
  · have hheld := (hw.mutex c i).mpr (by rw [hpc]; exact Option.some_ne_none lid)
    rw [hm] at hheld
    cases hheld

variable [DecidableEq C] [DecidableEq T] [DecidableEq L]

/-- `give_back` overwrites the state only of a lock that is still `FREE`. -/
def giveBackFree (s : Sys C T L) : Action C T L → Bool
  | .giveBackUpdate c => match s.thread (c, .giveBack) with
    | .tested lid => decide (s.lockstateMap (c, lid) = some .free)
    | _ => true
  | _ => true

omit [DecidableEq C] [DecidableEq T] [DecidableEq L] in
theorem giveBackFree_update (s : Sys C T L) (c : C) (lid : L)
    (hok : giveBackFree s (.giveBackUpdate c) = true)
    (hpc : s.thread (c, .giveBack) = .tested lid) : s.lockstateMap (c, lid) = some .free := by
  simp only [giveBackFree, hpc, decide_eq_true_eq] at hok
  exact hok

/-! ## One step -/

omit [DecidableEq C] [DecidableEq T] [DecidableEq L] in
theorem serverHeld_of_same {s s' : Sys C T L} (hi : ServerHeld s)
    (hmutex : s'.serverlockMutex = s.serverlockMutex)
    (hretry : ∀ k, (s'.thread k).inRetry = (s.thread k).inRetry) : ServerHeld s' := by
  intro k
  rw [hmutex, hretry]
  exact hi k

/-- The `release` handler that pops a waiter takes the mutex into its `retry`
    call, and the same handler drops it when it returns. -/
theorem serverHeld_step (s s' : Sys C T L) (a : Action C T L) (hi : ServerHeld s)
    (h : Step s a s') : ServerHeld s' := by
  have hheld : HeldBy s.serverlockMutex fun k => (s.thread k).inRetry = true := hi
  cases h with
  | serverReleasePop c i lid first rest hpc hm hq =>
      refine hheld.enter hm ?_ fun k hk => ?_
      · simp only [Function.update_self]
        rfl
      · simp only [Function.update_of_ne hk]
  | serverReleaseReply c i lid first hpc =>
      have hin : (s.thread (c, i)).inRetry = true := by
        rw [hpc]
        rfl
      refine hheld.leave hin ?_ fun k hk => ?_
      · simp only [Function.update_self]
        exact Bool.false_ne_true
      · simp only [Function.update_of_ne hk]
  | acquireFree a c t lid cv ha hst =>
      exact serverHeld_of_same hi rfl (ha.observe ThreadPc.inRetry (by rfl) (by rfl))
  | acquireNone a c t lid cv ha hst =>
      exact serverHeld_of_same hi rfl (ha.observe ThreadPc.inRetry (by rfl) (by rfl))
  | acquireWait a c t lid cv ha hfree hnone =>
      exact serverHeld_of_same hi rfl (ha.observe ThreadPc.inRetry (by rfl) (by rfl))
  | serverRetryReply c i lid hpc =>
      rcases hpc with hpc | hpc
      · exact serverHeld_of_same hi rfl (observe_update ThreadPc.inRetry hpc rfl)
      · exact serverHeld_of_same hi rfl (observe_update ThreadPc.inRetry hpc rfl)
  | _ => exact serverHeld_of_same hi rfl (observe_update ThreadPc.inRetry ‹_› (by rfl))

/-- An owned lock stays with its owner, unless the step is the server's `release`
    of that lock. -/
theorem whereIsLock_kept {s s' : Sys C T L} {a : Action C T L} (h : Step s a s') {c' : C}
    {lid' : L} (hown : s.whereIsLock lid' = some (some c'))
    (hkept : ∀ c i, a = .serverRelease c i → s.thread (c, i) ≠ .releaseRpc lid' .sent) :
    s'.whereIsLock lid' = some (some c') := by
  cases h with
  | serverGrant c i lid hpc hm hfree =>
      -- What is granted has no owner.
      have hl : lid' ≠ lid := by
        rintro rfl
        rw [hown] at hfree
        cases hfree
      exact (Function.update_of_ne hl _ _).trans hown
  | serverReleaseEmpty c i lid hpc hm hq =>
      have hl : lid' ≠ lid := by
        rintro rfl
        exact hkept c i rfl hpc
      exact (Function.update_of_ne hl _ _).trans hown
  | serverReleasePop c i lid first rest hpc hm hq =>
      have hl : lid' ≠ lid := by
        rintro rfl
        exact hkept c i rfl hpc
      exact (Function.update_of_ne hl _ _).trans hown
  | _ => exact hown

/-- A lock that is in a client's map was there before the step, or the step has
    recorded the server's `OK`. -/
theorem owned_step {s s' : Sys C T L} {a : Action C T L} (hi : Token s) (h : Step s a s')
    {c' : C} {lid' : L} (ho : (s'.lockstate c' lid').owned = true) :
    (s.lockstate c' lid').owned = true ∨ ∃ t, a = .acquireReturns c' t ∧
      s.thread (c', .app t) = .acquireRpc lid' (.replied .ok) := by
  -- Who may write a state is listed once, in `lockstate_step`; here each writer is asked where the
  -- token was.
  rcases lockstate_step h rfl with hsame | hwrite
  · left
    rw [hsame]
    exact ho
  · generalize s'.lockstate c' lid' = v at ho hwrite
    cases hwrite with
    | taken _ _ t _ cv ha hst =>
        left
        rw [hst]
        rfl
    | granted _ t _ hpc => exact Or.inr ⟨t, rfl, hpc⟩
    | freed _ t _ hpc hm =>
        -- Only a thread that uses the lock releases it.
        left
        rcases hi.uses_state c' t lid' (Or.inr hpc) with hst | hst
        · rw [hst]
          rfl
        · rw [hst]
          rfl
    | revoked c i _ _ hpc hm hst =>
        left
        rw [hst]
        rfl
    | _ => cases ho

theorem state_owner_step (s s' : Sys C T L) (a : Action C T L) (hi : Token s)
    (h : Step s a s') (c' : C) (lid' : L)
    (ho : (s'.lockstate c' lid').owned = true) : s'.whereIsLock lid' = some (some c') := by
  rcases owned_step hi h ho with hold | ⟨t, rfl, hpc⟩
  · refine whereIsLock_kept h (hi.state_owner c' lid' hold) fun c i _ hpc => ?_
    -- The caller of `release` carries the token, so it is in no map.
    rw [state_not_owned_of_carry s hi c i lid' (by rw [hpc]; rfl) c'] at hold
    cases hold
  · refine whereIsLock_kept h (hi.carry_owner c' (.app t) lid' (by rw [hpc]; rfl)) fun c i ha => ?_
    cases ha

/-- The three steps after which a thread carries a lock that it did not carry
    before: it takes the lock out of its client's map, as the `release` of a
    revoked lock or in `give_back`, or the server grants it. -/
inductive TakesUp (s s' : Sys C T L) : Action C T L → C → ThreadId T → L → Prop where
  | revoked (c : C) (t : T) (lid : L) (hpc : s.thread (c, .app t) = .release lid)
      (hst : s'.lockstate c lid = .none) : TakesUp s s' (.enterRelease c t) c (.app t) lid
  | unused (c : C) (lid : L) (hpc : s.thread (c, .giveBack) = .tested lid)
      (hst : s'.lockstate c lid = .none) : TakesUp s s' (.giveBackUpdate c) c .giveBack lid
  | granted (c : C) (i : ThreadId T) (lid : L) (hpc : s.thread (c, i) = .acquireRpc lid .sent)
      (hfree : (s.whereIsLock lid).join = none) (hown : s'.whereIsLock lid = some (some c))
      (hst : s'.lockstate c lid = s.lockstate c lid) :
      TakesUp s s' (.serverAcquire c i) c i lid

omit [DecidableEq C] [DecidableEq T] [DecidableEq L] in
theorem TakesUp.unique {s s' : Sys C T L} {a : Action C T L} {c : C} {i j : ThreadId T} {lid : L}
    (h : TakesUp s s' a c i lid) (h' : TakesUp s s' a c j lid) : i = j := by
  cases h with
  | revoked => cases h' with | revoked => rfl
  | unused => cases h' with | unused => rfl
  | granted => cases h' with | granted => rfl

omit [DecidableEq T] in
theorem lockstate_written {s s' : Sys C T L} {c : C} {lid : L} {v : ClientLockState}
    (hmap : s'.lockstateMap = Function.update s.lockstateMap (c, lid) (some v)) :
    s'.lockstate c lid = v := by
  rw [lockstate, hmap, Function.update_self, Option.getD_some]

/-- A thread that carries a lock has taken it up in this step or carried it
    before. In the second case it is another thread that moves, or it goes from
    `dorelease` into the call. -/
theorem carries_step {s s' : Sys C T L} {a : Action C T L} (h : Step s a s') {c' : C}
    {i' : ThreadId T} {lid' : L} (hc : (s'.thread (c', i')).carries = some lid') :
    ((s.thread (c', i')).carries = some lid' ∧
      ((c', i') = a.actor → a = .doreleaseReturns c' i')) ∨ TakesUp s s' a c' i' lid' := by
  have hcases := @of_update (C × ThreadId T) (ThreadPc C L) _ fun pc => pc.carries = some lid'
  cases h with
  | releaseRevoked c t lid hpc hm hst =>
      rcases hcases hc with ⟨hk, hnew⟩ | ⟨hk, hold⟩
      · cases hk
        cases hnew
        exact Or.inr (TakesUp.revoked c' t lid' hpc (lockstate_written rfl))
      · exact Or.inl ⟨hold, fun heq => absurd heq hk⟩
  | giveBackUpdate c lid hpc hm =>
      rcases hcases hc with ⟨hk, hnew⟩ | ⟨hk, hold⟩
      · cases hk
        cases hnew
        exact Or.inr (TakesUp.unused c' lid' hpc (lockstate_written rfl))
      · exact Or.inl ⟨hold, fun heq => absurd heq hk⟩
  | serverGrant c i lid hpc hm hfree =>
      rcases hcases hc with ⟨hk, hnew⟩ | ⟨hk, hold⟩
      · cases hk
        cases hnew
        exact Or.inr (TakesUp.granted c' i' lid' hpc hfree (Function.update_self _ _ _) rfl)
      · exact Or.inl ⟨hold, fun heq => absurd heq hk⟩
  | doreleaseReturns c i lid hpc =>
      rcases hcases hc with ⟨hk, hnew⟩ | ⟨hk, hold⟩
      · cases hk
        left
        rw [hpc]
        exact ⟨hnew, fun _ => rfl⟩
      · exact Or.inl ⟨hold, fun heq => absurd heq hk⟩
  | acquireFree a c t lid cv ha hst =>
      rcases hcases hc with ⟨_, hnew⟩ | ⟨hk, hold⟩
      · cases hnew
      · exact Or.inl ⟨hold, fun heq => absurd (heq.trans ha.actor_eq) hk⟩
  | acquireNone a c t lid cv ha hst =>
      rcases hcases hc with ⟨_, hnew⟩ | ⟨hk, hold⟩
      · cases hnew
      · exact Or.inl ⟨hold, fun heq => absurd (heq.trans ha.actor_eq) hk⟩
  | acquireWait a c t lid cv ha hfree hnone =>
      rcases hcases hc with ⟨_, hnew⟩ | ⟨hk, hold⟩
      · cases hnew
      · exact Or.inl ⟨hold, fun heq => absurd (heq.trans ha.actor_eq) hk⟩
  | _ =>
      rcases hcases hc with ⟨_, hnew⟩ | ⟨hk, hold⟩
      · cases hnew
      · exact Or.inl ⟨hold, fun heq => absurd heq hk⟩

/-- What a thread carries is its client's, according to the server. A thread takes the token out of
    its client's map or gets it from the server, and the server takes it back only from the thread
    itself. -/
theorem carry_owner_step (s s' : Sys C T L) (a : Action C T L) (hi : Token s)
    (hok : giveBackFree s a = true) (h : Step s a s') (c' : C) (i' : ThreadId T) (lid' : L)
    (hc : (s'.thread (c', i')).carries = some lid') : s'.whereIsLock lid' = some (some c') := by
  rcases carries_step h hc with ⟨hold, hmoved⟩ | hnew
  · refine whereIsLock_kept h (hi.carry_owner c' i' lid' hold) fun c i ha hpc => ?_
    -- The server takes the token from the only thread that carries it.
    have hsame := carry_unique_all s hi c c' i i' lid' (by rw [hpc]; rfl) hold
    rw [ha] at hmoved
    cases hmoved hsame
  · cases hnew with
    | revoked c t lid hpc hst =>
        have hown : s.whereIsLock lid' = some (some c') := by
          refine hi.state_owner c' lid' ?_
          rcases hi.uses_state c' t lid' (Or.inr hpc) with hst | hst
          · rw [hst]
            rfl
          · rw [hst]
            rfl
        exact whereIsLock_kept h hown fun c i ha => by cases ha
    | unused c lid hpc hst =>
        -- The lock is still `FREE`: the token moves from the map to the thread.
        have hfree := lockstate_of_some s c' lid' _ (giveBackFree_update s c' lid' hok hpc)
        have hown := hi.state_owner c' lid' (by rw [hfree]; rfl)
        exact whereIsLock_kept h hown fun c i ha => by cases ha
    | granted c i lid hpc hfree hown hst => exact hown

/-- A token that a thread carries is not in its client's map as well. -/
theorem carry_state_step (s s' : Sys C T L) (a : Action C T L) (hi : Token s)
    (h : Step s a s') (c' : C) (i' : ThreadId T) (lid' : L)
    (hc : (s'.thread (c', i')).carries = some lid') :
    (s'.lockstate c' lid').owned = false := by
  rcases carries_step h hc with ⟨hold, hmoved⟩ | hnew
  · by_contra ho
    rw [Bool.not_eq_false] at ho
    rcases owned_step hi h ho with hown | ⟨t, rfl, hpc⟩
    · rw [hi.carry_state c' i' lid' hold] at hown
      cases hown
    · -- The thread puts the token into the map, and no other thread has it.
      have hsame := hi.carry_unique c' i' (.app t) lid' hold (by rw [hpc]; rfl)
      cases hmoved (congrArg (Prod.mk c') hsame)
  · cases hnew with
    | revoked c t lid hpc hst =>
        rw [hst]
        rfl
    | unused c lid hpc hst =>
        rw [hst]
        rfl
    | granted c i lid hpc hfree hown hst =>
        rw [hst, hi.calling_state c' i' lid' (by rw [hpc]; rfl)]
        rfl

omit [DecidableEq C] [DecidableEq T] [DecidableEq L] in
/-- What a thread takes up was carried by no thread of its client: the client's
    map had it, or nobody. -/
theorem not_carried_of_takesUp {s s' : Sys C T L} {a : Action C T L} (hi : Token s)
    (hok : giveBackFree s a = true) {c : C} {i : ThreadId T} {lid : L}
    (h : TakesUp s s' a c i lid) (j : ThreadId T) : (s.thread (c, j)).carries ≠ some lid := by
  intro hc
  have hstate := hi.carry_state c j lid hc
  cases h with
  | revoked _ t _ hpc hst =>
      rcases hi.uses_state c t lid (Or.inr hpc) with hst | hst
      · rw [hst] at hstate
        cases hstate
      · rw [hst] at hstate
        cases hstate
  | unused _ _ hpc hst =>
      rw [lockstate_of_some s c lid _ (giveBackFree_update s c lid hok hpc)] at hstate
      cases hstate
  | granted _ _ _ hpc hfree hown hst =>
      rw [hi.carry_owner c j lid hc] at hfree
      cases hfree

/-- Two threads of a client do not carry the same token: a thread takes up only what no other thread
    has. -/
theorem carry_unique_step (s s' : Sys C T L) (a : Action C T L) (hi : Token s)
    (hok : giveBackFree s a = true) (h : Step s a s') (c' : C) (i' j' : ThreadId T) (lid' : L)
    (hc : (s'.thread (c', i')).carries = some lid')
    (hc' : (s'.thread (c', j')).carries = some lid') : i' = j' := by
  -- Each of the two has carried the lock before the step or takes it up in it.
  rcases carries_step h hc with ⟨hold, _⟩ | hnew
  · rcases carries_step h hc' with ⟨hold', _⟩ | hnew'
    · exact hi.carry_unique c' i' j' lid' hold hold'
    · exact absurd hold (not_carried_of_takesUp hi hok hnew' i')
  · rcases carries_step h hc' with ⟨hold', _⟩ | hnew'
    · exact absurd hold' (not_carried_of_takesUp hi hok hnew j')
    · exact hnew.unique hnew'

/-- A thread inside its `acquire` call was inside before the step, or has entered
    it and found the state at `NONE`. -/
theorem calling_step {s s' : Sys C T L} {a : Action C T L} (h : Step s a s') {c' : C}
    {i' : ThreadId T} {lid' : L} (hc : (s'.thread (c', i')).calling = some lid') :
    (s.thread (c', i')).calling = some lid' ∨ s'.lockstate c' lid' = .none := by
  cases h with
  | acquireNone a c t lid cv ha hst =>
      rcases of_update (fun pc : ThreadPc C L => pc.calling = some lid') hc with
        ⟨hk, hnew⟩ | ⟨_, hold⟩
      · cases hk
        cases hnew
        exact Or.inr (lockstate_written rfl)
      · exact Or.inl hold
  | acquireFree a c t lid cv ha hst =>
      have hold := before_of_update (fun pc : ThreadPc C L => pc.calling = some lid')
        (by rintro ⟨⟩) hc
      exact Or.inl hold
  | acquireWait a c t lid cv ha hfree hnone =>
      have hold := before_of_update (fun pc : ThreadPc C L => pc.calling = some lid')
        (by rintro ⟨⟩) hc
      exact Or.inl hold
  | replyOk c t lid hpc =>
      have hold := before_of_update (fun pc : ThreadPc C L => pc.calling = some lid')
        (by rintro ⟨⟩) hc
      exact Or.inl hold
  | replyRetry c t lid hpc =>
      have hold := before_of_update (fun pc : ThreadPc C L => pc.calling = some lid')
        (by rintro ⟨⟩) hc
      exact Or.inl hold
  | serverRetryReply c i lid hpc =>
      rcases hpc with hpc | hpc
      · exact Or.inl ((observe_update ThreadPc.calling hpc (by rfl) (c', i')).symm.trans hc)
      · exact Or.inl ((observe_update ThreadPc.calling hpc (by rfl) (c', i')).symm.trans hc)
  | _ => exact Or.inl ((observe_update ThreadPc.calling ‹_› (by rfl) (c', i')).symm.trans hc)

/-- The answer `OK` or `RETRY` makes the thread drop the mutex. -/
theorem mutex_of_reply {s s' : Sys C T L} {c : C} {t : T} {lid : L} {st : Status}
    (h : Step s (.acquireReturns c t) s')
    (hpc : s.thread (c, .app t) = .acquireRpc lid (.replied st)) (hst : st = .ok ∨ st = .retry) :
    s'.lockmapMutex c = none := by
  cases h with
  | acquireFree a c t lid cv ha hst => cases ha.turns
  | acquireNone a c t lid cv ha hst => cases ha.turns
  | acquireWait a c t lid cv ha hfree hnone => cases ha.turns
  | replyOk _ _ _ _ => exact Function.update_self _ _ _
  | replyRetry _ _ _ _ => exact Function.update_self _ _ _
  | replyOther _ _ _ st' hpc' hok hretry =>
      rw [hpc] at hpc'
      cases hpc'
      rcases hst with rfl | rfl
      · exact absurd rfl hok
      · exact absurd rfl hretry

/-- A caller finds the state as it has left it: it has `lockmap_mutex`, so nobody
    else writes the state of any lock of its client meanwhile. -/
theorem calling_state_step (s s' : Sys C T L) (a : Action C T L) (hw : WaitingInv s)
    (hi : Token s) (h : Step s a s') (c' : C) (i' : ThreadId T) (lid' : L)
    (hc : (s'.thread (c', i')).calling = some lid') : s'.lockstate c' lid' = .none := by
  rcases calling_step h hc with hold | hnone
  · have hst := hi.calling_state c' i' lid' hold
    -- The mutex is held from before the step until after it, and the writers need it or drop it.
    have hmutex : s.lockmapMutex c' = some i' :=
      (hw.mutex c' i').mpr (by rw [hold]; exact Option.some_ne_none lid')
    have hmutex' : s'.lockmapMutex c' = some i' :=
      (mutexHeld_step s s' a hw.mutex h c' i').mpr (by rw [hc]; exact Option.some_ne_none lid')
    rcases lockstate_step h rfl with hsame | hwrite
    · exact hsame.symm.trans hst
    · generalize s'.lockstate c' lid' = v at hwrite ⊢
      cases hwrite with
      | taken _ _ t _ cv ha hfree =>
          rw [ha.mutex] at hmutex
          cases hmutex
      | granted _ t _ hpc =>
          -- The thread that records the answer has dropped the mutex.
          rw [mutex_of_reply h hpc (Or.inl rfl)] at hmutex'
          cases hmutex'
      | refused _ t _ hpc =>
          rw [mutex_of_reply h hpc (Or.inr rfl)] at hmutex'
          cases hmutex'
      | freed _ t _ hpc hm =>
          rw [hm] at hmutex
          cases hmutex
      | revoked c i _ _ hpc hm _ =>
          rw [hm] at hmutex
          cases hmutex
      | _ => rfl
  · exact hnone

/-- The retry call of a popped id is the only one, so that id is listed nowhere
    once its handler has run. -/
theorem not_listed_of_retry {s s' : Sys C T L} (hi : Token s) {c : C} {i : ThreadId T} {lid : L}
    {first : C} (h : Step s (.clientRetry c i) s')
    (hpc : s.thread (c, i) = .releaseRpc lid (.retrying first)) : ¬ Listed s' first lid := by
  have hframe : s'.whoWaitingLock = s.whoWaitingLock ∧
      ∃ l c₁, s'.thread = Function.update s.thread (c, i) (.releaseRpc l (.retried c₁)) := by
    cases h with
    | acquireFree a c t lid cv ha hst => cases ha.turns
    | acquireNone a c t lid cv ha hst => cases ha.turns
    | acquireWait a c t lid cv ha hfree hnone => cases ha.turns
    | clientRetry _ _ l c₁ _ _ _ => exact ⟨rfl, l, c₁, rfl⟩
    | clientRetryUnknown _ _ l c₁ _ _ _ => exact ⟨rfl, l, c₁, rfl⟩
  rcases hframe with ⟨hwaiting, l, c₁, hthread⟩
  rintro (hmem | ⟨k, hk⟩)
  · rw [hwaiting] at hmem
    exact hi.retrying_once (c, i) first lid hpc hmem
  · rw [hthread] at hk
    rcases of_update (fun pc : ThreadPc C L => pc = .releaseRpc lid (.retrying first)) hk with
      ⟨_, hnew⟩ | ⟨hki, hold⟩
    · cases hnew
    · -- Both handlers would hold `serverlock_mutex`.
      have h1 := (hi.server (c, i)).mpr (by rw [hpc]; rfl)
      have h2 := (hi.server k).mpr (by rw [hold]; rfl)
      rw [h1] at h2
      exact hki (Option.some.inj h2).symm

/-- A new entry of a list is one whose caller the server has just queued. -/
theorem listed_before (s s' : Sys C T L) (a : Action C T L) (h : Step s a s') (c' : C)
    (lid' : L) (hl : Listed s' c' lid') : Listed s c' lid' ∨ Waits s' c' lid' := by
  rcases hl with hq | ⟨k, hk⟩
  · cases h with
    | serverQueue c i lid o hpc hm how =>
        by_cases hl : lid' = lid
        · simp only [hl, Function.update_self] at hq
          rcases (mem_enqueue _ _ _).mp hq with hold | hnew
          · left
            left
            rw [hl]
            exact hold
          · right
            right
            refine ⟨i, .queued (s.whoWaitingLock lid).isEmpty, ?_, rfl⟩
            simp only [hnew, hl, Function.update_self]
        · simp only [Function.update_of_ne hl] at hq
          exact Or.inl (Or.inl hq)
    | serverReleasePop c i lid first rest hpc hm hfr =>
        left
        left
        by_cases hl : lid' = lid
        · simp only [hl, Function.update_self] at hq
          rw [hl, hfr]
          exact List.mem_cons_of_mem first hq
        · simp only [Function.update_of_ne hl] at hq
          exact hq
    | _ => exact Or.inl (Or.inl hq)
  · left
    cases h with
    | serverReleasePop c i lid first rest hpc hm hfr =>
        by_cases hki : k = (c, i)
        · -- The handler has just popped this id.
          simp only [hki, Function.update_self] at hk
          cases hk
          left
          rw [hfr]
          exact List.mem_cons_self
        · simp only [Function.update_of_ne hki] at hk
          exact Or.inr ⟨k, hk⟩
    | _ =>
        -- No other step starts a `retry` call.
        have hold := before_of_update (fun pc : ThreadPc C L => pc = .releaseRpc lid' (.retrying c'))
          (by rintro ⟨⟩) hk
        exact Or.inr ⟨k, hold⟩

/-- A queued call stays queued until its client has recorded the answer. -/
theorem queuedFor_kept {s s' : Sys C T L} {a : Action C T L} (h : Step s a s') {c' : C}
    {i' : ThreadId T} {lid' : L} (hq : (s.thread (c', i')).queuedFor = some lid') :
    (s'.thread (c', i')).queuedFor = some lid' ∨ s'.lockstate c' lid' = .acquiring := by
  cases h with
  | replyRetry c t lid hpc =>
      by_cases hk : (c', i') = (c, .app t)
      · cases hk
        rw [hpc] at hq
        cases hq
        exact Or.inr (lockstate_written rfl)
      · exact Or.inl ((congrArg ThreadPc.queuedFor (Function.update_of_ne hk _ _)).trans hq)
  | serverQueue c i lid o hpc hm how =>
      -- The call that the server queues now was not queued before.
      have hk : (c', i') ≠ (c, i) := by
        intro heq
        rw [heq, hpc] at hq
        cases hq
      exact Or.inl ((congrArg ThreadPc.queuedFor (Function.update_of_ne hk _ _)).trans hq)
  | replyOther c t lid st hpc hok hretry =>
      refine Or.inl ((observe_update ThreadPc.queuedFor hpc ?_ (c', i')).trans hq)
      cases st with
      | ok => exact absurd rfl hok
      | retry => exact absurd rfl hretry
      | _ => rfl
  | acquireFree a c t lid cv ha hst =>
      exact Or.inl ((ha.observe ThreadPc.queuedFor (by rfl) (by rfl) (c', i')).trans hq)
  | acquireNone a c t lid cv ha hst =>
      exact Or.inl ((ha.observe ThreadPc.queuedFor (by rfl) (by rfl) (c', i')).trans hq)
  | acquireWait a c t lid cv ha hfree hnone =>
      exact Or.inl ((ha.observe ThreadPc.queuedFor (by rfl) (by rfl) (c', i')).trans hq)
  | serverRetryReply c i lid hpc =>
      rcases hpc with hpc | hpc
      · exact Or.inl ((observe_update ThreadPc.queuedFor hpc (by rfl) (c', i')).trans hq)
      · exact Or.inl ((observe_update ThreadPc.queuedFor hpc (by rfl) (c', i')).trans hq)
  | _ => exact Or.inl ((observe_update ThreadPc.queuedFor ‹_› (by rfl) (c', i')).trans hq)

omit [DecidableEq C] [DecidableEq T] [DecidableEq L] in
/-- A lock in one of these states is not in use at its client. -/
theorem Token.not_uses {s : Sys C T L} (hi : Token s) {c : C} {lid : L} {v : ClientLockState}
    (hst : s.lockstate c lid = v) (hlocked : v ≠ .locked) (hreleasing : v ≠ .releasing) (t : T) :
    ¬ Uses s c t lid := by
  intro huse
  rcases hi.uses_state c t lid huse with hst' | hst'
  · exact hlocked (hst.symm.trans hst')
  · exact hreleasing (hst.symm.trans hst')

/-- Nothing but the retry, which takes the client off the lists, overwrites
    `ACQUIRING`: the other writers have found another state. -/
theorem acquiring_kept {s s' : Sys C T L} {a : Action C T L} (hi : Token s)
    (hok : giveBackFree s a = true) (h : Step s a s') {c' : C} {lid' : L}
    (hacq : s.lockstate c' lid' = .acquiring) (hl : Listed s' c' lid') :
    s'.lockstate c' lid' = .acquiring := by
  rcases lockstate_step h rfl with hsame | hwrite
  · exact hsame.symm.trans hacq
  · generalize s'.lockstate c' lid' = v at hwrite ⊢
    cases hwrite with
    | taken _ _ t _ cv ha hst =>
        rw [hst] at hacq
        cases hacq
    | granted _ t _ hpc =>
        rw [hi.calling_state c' (.app t) lid' (by rw [hpc]; rfl)] at hacq
        cases hacq
    | refused _ t _ hpc => rfl
    | givenUp _ t _ hpc hm hst =>
        rw [lockstate_of_some s c' lid' _ hst] at hacq
        cases hacq
    | freed _ t _ hpc hm =>
        refine absurd (Or.inr hpc) (hi.not_uses hacq ?_ ?_ t)
        · decide
        · decide
    | givenBack _ _ hpc hm =>
        rw [lockstate_of_some s c' lid' _ (giveBackFree_update s c' lid' hok hpc)] at hacq
        cases hacq
    | revoked c i _ _ hpc hm hst =>
        rw [hst] at hacq
        cases hacq
    | retried c i _ _ hpc hm => exact absurd hl (not_listed_of_retry hi h hpc)

/-- A waiter waits until its `retry_handler` runs. -/
theorem waits_until_retry (s s' : Sys C T L) (a : Action C T L) (hi : Token s)
    (hok : giveBackFree s a = true) (h : Step s a s') (c' : C) (lid' : L)
    (hwait : Waits s c' lid') (hl : Listed s' c' lid') : Waits s' c' lid' := by
  rw [waits_iff] at hwait ⊢
  rcases hwait with hacq | ⟨i', hq⟩
  · exact Or.inl (acquiring_kept hi hok h hacq hl)
  · rcases queuedFor_kept h hq with hkept | hacq
    · exact Or.inr ⟨i', hkept⟩
    · exact Or.inl hacq

/-- Whoever is listed waits. `retry_handler` sets the state of its client to `NONE`, and this is
    what makes sure that it overwrites nothing but `ACQUIRING`. -/
theorem listed_waits_step (s s' : Sys C T L) (a : Action C T L) (hi : Token s)
    (hok : giveBackFree s a = true) (h : Step s a s') (c' : C) (lid' : L)
    (hl : Listed s' c' lid') : Waits s' c' lid' := by
  rcases listed_before s s' a h c' lid' hl with hold | hnew
  · exact waits_until_retry s s' a hi hok h c' lid' (hi.listed_waits c' lid' hold) hl
  · exact hnew

/-- A client that is being called back has left the list, and comes back to it only
    through a call, which the server does not take while it calls back. -/
theorem retrying_once_step (s s' : Sys C T L) (a : Action C T L) (hw : WaitingInv s)
    (hi : Token s) (h : Step s a s') (k' : C × ThreadId T) (c' : C) (lid' : L)
    (hr : s'.thread k' = .releaseRpc lid' (.retrying c')) : c' ∉ s'.whoWaitingLock lid' := by
  have hcases := @of_update (C × ThreadId T) (ThreadPc C L) _
    fun pc => pc = .releaseRpc lid' (.retrying c')
  have hbusy : s.thread k' = .releaseRpc lid' (.retrying c') → s.serverlockMutex ≠ none := by
    intro hold hm
    have hheld := (hi.server k').mpr (by rw [hold]; rfl)
    rw [hm] at hheld
    cases hheld
  cases h with
  | serverQueue c i lid o hpc hm how =>
      rcases hcases hr with ⟨_, hnew⟩ | ⟨_, hold⟩
      · cases hnew
      · exact absurd hm (hbusy hold)
  | serverReleasePop c i lid first rest hpc hm hq =>
      rcases hcases hr with ⟨_, hnew⟩ | ⟨_, hold⟩
      · -- No id is in the list twice, so the popped one is not in the rest.
        cases hnew
        have hnodup := hw.nodup lid'
        rw [hq] at hnodup
        simp only [Function.update_self]
        exact (List.nodup_cons.mp hnodup).1
      · exact absurd hm (hbusy hold)
  | _ =>
      rcases hcases hr with ⟨_, hnew⟩ | ⟨_, hold⟩
      · cases hnew
      · exact hi.retrying_once k' c' lid' hold

/-- The two steps that give a lock to a thread of the client: the thread finds it
    `FREE` in the map, or its call has been granted. -/
inductive Acquires (s s' : Sys C T L) : Action C T L → C → T → L → Prop where
  | free (a : Action C T L) (c : C) (t : T) (lid : L) (cv : C × L → Bool)
      (ha : Turn s a c t lid cv) (hst : s.lockstate c lid = .free)
      (hlocked : s'.lockstate c lid = .locked) : Acquires s s' a c t lid
  | granted (c : C) (t : T) (lid : L)
      (hpc : s.thread (c, .app t) = .acquireRpc lid (.replied .ok))
      (hlocked : s'.lockstate c lid = .locked) : Acquires s s' (.acquireReturns c t) c t lid

namespace Acquires

variable {s s' : Sys C T L} {a : Action C T L} {c : C} {t : T} {lid : L}

omit [DecidableEq C] [DecidableEq T] [DecidableEq L] in
theorem locked (h : Acquires s s' a c t lid) : s'.lockstate c lid = .locked := by
  cases h with
  | free _ _ _ _ cv ha hst hlocked => exact hlocked
  | granted _ _ _ hpc hlocked => exact hlocked

omit [DecidableEq C] [DecidableEq T] [DecidableEq L] in
theorem actor_eq (h : Acquires s s' a c t lid) : a.actor = (c, .app t) := by
  cases h with
  | free _ _ _ _ cv ha hst hlocked => exact ha.actor_eq
  | granted _ _ _ hpc hlocked => rfl

omit [DecidableEq C] [DecidableEq T] [DecidableEq L] in
/-- Nobody of the client used the lock before. -/
theorem unused (h : Acquires s s' a c t lid) (hi : Token s) (u : T) : ¬ Uses s c u lid := by
  cases h with
  | free _ _ _ _ cv ha hst hlocked =>
      refine hi.not_uses hst ?_ ?_ u
      · decide
      · decide
  | granted _ _ _ hpc hlocked =>
      refine hi.not_uses (hi.calling_state c (.app t) lid (by rw [hpc]; rfl)) ?_ ?_ u
      · decide
      · decide

end Acquires

theorem holds_step {s s' : Sys C T L} {a : Action C T L} (h : Step s a s') {c' : C} {t' : T}
    {lid' : L} (hh : s'.holds (c', t', lid') = true) :
    s.holds (c', t', lid') = true ∨ Acquires s s' a c' t' lid' := by
  cases h with
  | acquireFree a c t lid cv ha hst =>
      rcases of_update (fun b => b = true) hh with ⟨hk, _⟩ | ⟨_, hold⟩
      · cases hk
        exact Or.inr (Acquires.free a c' t' lid' cv ha hst (lockstate_written rfl))
      · exact Or.inl hold
  | replyOk c t lid hpc =>
      rcases of_update (fun b => b = true) hh with ⟨hk, _⟩ | ⟨_, hold⟩
      · cases hk
        exact Or.inr (Acquires.granted c' t' lid' hpc (lockstate_written rfl))
      · exact Or.inl hold
  | callRelease c t lid hpc hheld =>
      have hold := before_of_update (fun b => b = true) (by rintro ⟨⟩) hh
      exact Or.inl hold
  | _ => exact Or.inl hh

/-- A thread that is entering `release` was there before, and is not the one that
    has now entered it, or has just called it and no longer counts as a holder. -/
theorem release_step {s s' : Sys C T L} {a : Action C T L} (h : Step s a s') {c' : C} {t' : T}
    {lid' : L} (hr : s'.thread (c', .app t') = .release lid') :
    (s.thread (c', .app t') = .release lid' ∧ a ≠ .enterRelease c' t') ∨
      (a = .callRelease c' t' lid' ∧ s.holds (c', t', lid') = true ∧
        s'.holds (c', t', lid') = false) := by
  have hcases := @of_update (C × ThreadId T) (ThreadPc C L) _ fun pc => pc = .release lid'
  cases h with
  | callRelease c t lid hpc hheld =>
      rcases hcases hr with ⟨hk, hnew⟩ | ⟨_, hold⟩
      · cases hk
        cases hnew
        exact Or.inr ⟨rfl, hheld, Function.update_self _ _ _⟩
      · exact Or.inl ⟨hold, fun heq => by cases heq⟩
  | releaseUnknown c t lid hpc hm hst =>
      rcases hcases hr with ⟨_, hnew⟩ | ⟨hk, hold⟩
      · cases hnew
      · exact Or.inl ⟨hold, fun heq => hk (by cases heq; rfl)⟩
  | releaseRevoked c t lid hpc hm hst =>
      rcases hcases hr with ⟨_, hnew⟩ | ⟨hk, hold⟩
      · cases hnew
      · exact Or.inl ⟨hold, fun heq => hk (by cases heq; rfl)⟩
  | releaseLocal c t lid hpc hm hsome hst =>
      rcases hcases hr with ⟨_, hnew⟩ | ⟨hk, hold⟩
      · cases hnew
      · exact Or.inl ⟨hold, fun heq => hk (by cases heq; rfl)⟩
  | acquireFree a c t lid cv ha hst =>
      rcases hcases hr with ⟨_, hnew⟩ | ⟨_, hold⟩
      · cases hnew
      · exact Or.inl ⟨hold, fun heq => by cases heq ▸ ha.turns⟩
  | acquireNone a c t lid cv ha hst =>
      rcases hcases hr with ⟨_, hnew⟩ | ⟨_, hold⟩
      · cases hnew
      · exact Or.inl ⟨hold, fun heq => by cases heq ▸ ha.turns⟩
  | acquireWait a c t lid cv ha hfree hnone =>
      rcases hcases hr with ⟨_, hnew⟩ | ⟨_, hold⟩
      · cases hnew
      · exact Or.inl ⟨hold, fun heq => by cases heq ▸ ha.turns⟩
  | _ =>
      rcases hcases hr with ⟨_, hnew⟩ | ⟨_, hold⟩
      · cases hnew
      · exact Or.inl ⟨hold, fun heq => by cases heq⟩

/-- A thread that uses a lock used it before and is not the one that has given it
    up, or it has acquired it in this step. -/
theorem uses_step {s s' : Sys C T L} {a : Action C T L} (hi : Token s) (h : Step s a s') {c' : C}
    {t' : T} {lid' : L} (hu : Uses s' c' t' lid') :
    (Uses s c' t' lid' ∧ (a = .enterRelease c' t' → s.thread (c', .app t') ≠ .release lid')) ∨
      Acquires s s' a c' t' lid' := by
  rcases hu with hh | hr
  · rcases holds_step h hh with hold | hnew
    · refine Or.inl ⟨Or.inl hold, fun _ hpc => ?_⟩
      rw [hi.release_once c' t' lid' hpc] at hold
      cases hold
    · exact Or.inr hnew
  · rcases release_step h hr with ⟨hold, hne⟩ | ⟨rfl, hheld, _⟩
    · exact Or.inl ⟨Or.inr hold, fun ha => absurd ha hne⟩
    · exact Or.inl ⟨Or.inl hheld, fun ha => by cases ha⟩

/-- A lock in use is `LOCKED` or `RELEASING` at its client. This is where `give_back` needs its
    condition: it writes `NONE` without looking at what the state has become since its test. -/
theorem uses_state_step (s s' : Sys C T L) (a : Action C T L) (hw : WaitingInv s)
    (hi : Token s) (hok : giveBackFree s a = true) (h : Step s a s') (c' : C) (t' : T) (lid' : L)
    (hu : Uses s' c' t' lid') :
    s'.lockstate c' lid' = .locked ∨ s'.lockstate c' lid' = .releasing := by
  rcases uses_step hi h hu with ⟨hold, hstill⟩ | hnew
  · have hnot : ∀ v, s.lockstate c' lid' = v → v ≠ .locked → v ≠ .releasing → False :=
      fun v hst hlocked hreleasing => hi.not_uses hst hlocked hreleasing t' hold
    rcases lockstate_step h rfl with hsame | hwrite
    · rw [← hsame]
      exact hi.uses_state c' t' lid' hold
    · generalize s'.lockstate c' lid' = v at hwrite ⊢
      cases hwrite with
      | taken _ _ t _ cv ha hst => exact Or.inl rfl
      | granted _ t _ hpc => exact Or.inl rfl
      | refused _ t _ hpc =>
          -- A lock that a thread of the client is calling for is not in use.
          have hcall := hi.calling_state c' (.app t) lid' (by rw [hpc]; rfl)
          exact (hnot .none hcall (by decide) (by decide)).elim
      | givenUp _ t _ hpc hm hst =>
          -- The thread that gives the lock up is the one that used it.
          have hsame := hi.uses_unique c' t' t lid' hold (Or.inr hpc)
          subst hsame
          exact absurd hpc (hstill rfl)
      | freed _ t _ hpc hm =>
          have hsame := hi.uses_unique c' t' t lid' hold (Or.inr hpc)
          subst hsame
          exact absurd hpc (hstill rfl)
      | givenBack _ _ hpc hm =>
          have hfree := lockstate_of_some s c' lid' _ (giveBackFree_update s c' lid' hok hpc)
          exact (hnot .free hfree (by decide) (by decide)).elim
      | revoked c i _ _ hpc hm hst => exact Or.inr rfl
      | retried c i _ _ hpc hm =>
          -- Nor is one that the client waits for.
          have hacq := acquiring_of_retrying s hw hi (c, i) c' lid' hpc hm
          exact (hnot .acquiring hacq (by decide) (by decide)).elim
  · exact Or.inl hnew.locked

/-- One thread of a client at a time uses a lock. -/
theorem uses_unique_step (s s' : Sys C T L) (a : Action C T L) (hi : Token s)
    (h : Step s a s') (c' : C) (t' u' : T) (lid' : L) (ht : Uses s' c' t' lid')
    (hu : Uses s' c' u' lid') : t' = u' := by
  rcases uses_step hi h ht with ⟨hold, _⟩ | hnew
  · rcases uses_step hi h hu with ⟨hold', _⟩ | hnew'
    · exact hi.uses_unique c' t' u' lid' hold hold'
    · exact absurd hold (hnew'.unused hi t')
  · rcases uses_step hi h hu with ⟨hold', _⟩ | hnew'
    · exact absurd hold' (hnew.unused hi u')
    · -- One step moves one thread.
      have hactor := hnew.actor_eq.symm.trans hnew'.actor_eq
      cases hactor
      rfl

theorem release_once_step (s s' : Sys C T L) (a : Action C T L) (hi : Token s)
    (h : Step s a s') (c' : C) (t' : T) (lid' : L)
    (hr : s'.thread (c', .app t') = .release lid') : s'.holds (c', t', lid') = false := by
  rcases release_step h hr with ⟨hold, _⟩ | ⟨_, _, hnot⟩
  · by_contra hh
    rw [Bool.not_eq_false] at hh
    rcases holds_step h hh with hheld | hnew
    · rw [hi.release_once c' t' lid' hold] at hheld
      cases hheld
    · exact hnew.unused hi t' (Or.inr hold)
  · exact hnot

/-- One step keeps the token in one place. Each part has its lemma, and the parts need each other
    before the step only. -/
theorem token_step (s s' : Sys C T L) (a : Action C T L) (hw : WaitingInv s) (hi : Token s)
    (hok : giveBackFree s a = true) (h : Step s a s') : Token s' where
  server := serverHeld_step s s' a hi.server h
  state_owner := state_owner_step s s' a hi h
  carry_owner := carry_owner_step s s' a hi hok h
  carry_state := carry_state_step s s' a hi h
  carry_unique := carry_unique_step s s' a hi hok h
  calling_state := calling_state_step s s' a hw hi h
  listed_waits := listed_waits_step s s' a hi hok h
  retrying_once := retrying_once_step s s' a hw hi h
  uses_state := uses_state_step s s' a hw hi hok h
  uses_unique := uses_unique_step s s' a hi h
  release_once := release_once_step s s' a hi h

omit [DecidableEq C] [DecidableEq T] [DecidableEq L] in
theorem not_uses_init (c : C) (t : T) (lid : L) : ¬ Uses (init C T L) c t lid := by
  rintro (hh | hr)
  · exact absurd hh (by simp only [init, reduceCtorEq, not_false_eq_true])
  · exact absurd hr (by simp only [init, reduceCtorEq, not_false_eq_true])

omit [DecidableEq C] [DecidableEq T] [DecidableEq L] in
theorem token_init : Token (init C T L) where
  server := by simp only [ServerHeld, init, ThreadPc.inRetry, reduceCtorEq, implies_true]
  state_owner := by
    simp only [lockstate, init, Option.getD_none, ClientLockState.owned, reduceCtorEq,
      false_implies, implies_true]
  carry_owner := by
    simp only [init, ThreadPc.carries, reduceCtorEq, false_implies, implies_true]
  carry_state := by
    simp only [init, ThreadPc.carries, reduceCtorEq, false_implies, implies_true]
  carry_unique := by
    simp only [init, ThreadPc.carries, reduceCtorEq, false_implies, implies_true]
  calling_state := by
    simp only [init, ThreadPc.calling, reduceCtorEq, false_implies, implies_true]
  listed_waits := by
    simp only [Listed, init, List.not_mem_nil, reduceCtorEq, exists_false, or_self,
      false_implies, implies_true]
  retrying_once := by
    simp only [init, reduceCtorEq, false_implies, implies_true]
  uses_state := fun c t lid hu => absurd hu (not_uses_init c t lid)
  uses_unique := fun c t _ lid hu => absurd hu (not_uses_init c t lid)
  release_once := by
    simp only [init, implies_true]

theorem token_reachable (s : Sys C T L)
    (h : Trace.Reaches step (fun s a => giveBackFree s a = true) (init C T L) s) : Token s := by
  refine (Trace.invariant_of_step (fun s => WaitingInv s ∧ Token s)
    ⟨waitingInv_init, token_init⟩ ?_ h).2
  intro s a s' hi hok hs
  exact ⟨waitingInv_step s a s' hi.1 hs,
    token_step s s' a hi.1 hi.2 hok (step_cases s s' a hs)⟩

/-- At most one thread of the whole system is between a return of `acquire(lid)`
    and its next call of `release(lid)`. -/
def MutualExclusion (s : Sys C T L) : Prop :=
  ∀ lid c t c' t', s.holds (c, t, lid) = true → s.holds (c', t', lid) = true →
    c' = c ∧ t' = t

/-- While `give_back` overwrites only locks that are still `FREE`, the protocol excludes: a holder's
    client owns the lock at the server, which has one owner, and inside a client one thread at a
    time uses the lock. `mutual_exclusion_broken` is the run in which a thread takes the lock
    between the two sections of `give_back`. -/
theorem mutual_exclusion (s : Sys C T L)
    (h : Trace.Reaches step (fun s a => giveBackFree s a = true) (init C T L) s) :
    MutualExclusion s := by
  have hi := token_reachable s h
  intro lid c t c' t' hc hc'
  have howner : ∀ c t, s.holds (c, t, lid) = true → s.whereIsLock lid = some (some c) := by
    intro c t hh
    refine hi.state_owner c lid ?_
    rcases hi.uses_state c t lid (Or.inl hh) with hst | hst
    · rw [hst]
      rfl
    · rw [hst]
      rfl
  -- The server knows one owner.
  have hcc : c' = c := by
    have h1 := howner c t hc
    rw [howner c' t' hc'] at h1
    exact Option.some.inj (Option.some.inj h1)
  subst hcc
  exact ⟨rfl, hi.uses_unique c' t' t lid (Or.inl hc') (Or.inl hc)⟩

/-- One client takes and releases a lock, `give_back` returns it unused, and
    another client takes it. -/
def handoverRun : List (Action Nat Nat Nat) :=
  [.callAcquire 0 0 7, .enterAcquire 0 0, .serverAcquire 0 (.app 0), .acquireReturns 0 0,
   .callRelease 0 0 7, .enterRelease 0 0,
   .giveBackTest 0 7, .giveBackUpdate 0, .doreleaseReturns 0 .giveBack,
   .serverRelease 0 .giveBack, .releaseReturns 0 .giveBack,
   .callAcquire 1 0 7, .enterAcquire 1 0, .serverAcquire 1 (.app 0), .acquireReturns 1 0]

theorem mutual_exclusion_handover :
    ∃ s, Trace.Reaches step (fun s a => giveBackFree s a = true) (init Nat Nat Nat) s ∧
      s.holds (1, 0, 7) = true ∧ MutualExclusion s := by
  have hrun : ∃ s, Trace.run step giveBackFree (init Nat Nat Nat) handoverRun = some s ∧
      s.holds (1, 0, 7) = true := ⟨_, rfl, rfl⟩
  rcases hrun with ⟨s, hs, hh⟩
  have hr := Trace.reaches_of_run handoverRun hs
  exact ⟨s, hr, hh, mutual_exclusion s hr⟩

/-- The same lock is taken locally between the test of `give_back` and its
    update, which then returns a lock that is in use. -/
def stolenRun : List (Action Nat Nat Nat) :=
  [.callAcquire 0 0 7, .enterAcquire 0 0, .serverAcquire 0 (.app 0), .acquireReturns 0 0,
   .callRelease 0 0 7, .enterRelease 0 0,
   .giveBackTest 0 7, .callAcquire 0 0 7, .enterAcquire 0 0,
   .giveBackUpdate 0, .doreleaseReturns 0 .giveBack,
   .serverRelease 0 .giveBack, .releaseReturns 0 .giveBack,
   .callAcquire 1 0 7, .enterAcquire 1 0, .serverAcquire 1 (.app 0), .acquireReturns 1 0]

/-- Without the condition two clients hold the lock at once. -/
theorem mutual_exclusion_broken :
    ∃ s, Trace.Reaches step Trace.Always (init Nat Nat Nat) s ∧ ¬ MutualExclusion s := by
  have hrun : ∃ s, Trace.run step (fun _ _ => true) (init Nat Nat Nat) stolenRun = some s ∧
      s.holds (0, 0, 7) = true ∧ s.holds (1, 0, 7) = true := ⟨_, rfl, rfl, rfl⟩
  rcases hrun with ⟨s, hs, h0, h1⟩
  refine ⟨s, Trace.reaches_always_of_run stolenRun hs, fun hm => ?_⟩
  exact absurd (hm 7 0 0 1 0 h0 h1).1 (by decide)

end LockProtocol

end Yfs
