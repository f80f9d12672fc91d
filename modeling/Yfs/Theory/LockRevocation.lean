import Mathlib.Algebra.GroupWithZero.Nat
import Yfs.Library.History
import Yfs.Theory.LockExclusion

/-!
# Who Is Asked to Give a Lock Back

The server asks an owner for its lock when the first client is put into an empty
waiting list, and only then. Ownership moves on while the rest of the list stays, so
whether an owner has been asked depends on the list it was granted the lock over.

`Logged` is the protocol with a record of its grants and revokes; a grant is recorded
with the waiting list it found. `Ledger` follows the current owner of a lock. If the
list was empty at its grant, then as soon as somebody waits the owner has been asked,
or the handler that will ask it is on its way. If the list was not empty, it never runs
empty under this owner, so nobody asks.

The second half needs that no handler from before the grant is still about to ask.
Such a handler put the first client into the list, and a release that took the owner
away would have popped that client. It would still be inside its `retry` call: the
client keeps `lockmap_mutex` until the handler has answered it, so the callback cannot
run, and `serverlock_mutex` is held against a grant (`Fresh`).

## Main definitions

* `Notice`, `notices`, `Logged`: The protocol with a record of grants and revokes.
* `LastGrant`: The last grant of a lock and what was recorded since.
* `Asking`: A handler is about to read the owner it will revoke.
* `HandlerRunning`: A handler for the lock has started and not answered.
* `Ledger`, `Fresh`: What the record says of the current owner.

## Theorems

* `fresh_step`, `ledger_step`: One step preserves both.
* `revoked_iff_granted_alone`: An owner with somebody waiting has been asked exactly if
  nobody waited when it got the lock.
* `contendedGrant_unasked`: An owner that has not been asked.
-/

namespace Yfs

namespace LockProtocol

open Sys Threads

/-- What the server has done about a lock. -/
inductive Notice (C L : Type) where
  /-- `acquire` answered `OK`; the waiting list at that moment. -/
  | granted (lid : L) (c : C) (waiting : List C)
  /-- `revoke` was called at this client. -/
  | revoked (lid : L) (o : C)
  deriving DecidableEq, Repr

variable {C T L : Type}

/-- What an action adds to the record. -/
def notices (s : Sys C T L) : Action C T L → List (Notice C L)
  | .serverAcquire c i => match s.thread (c, i) with
    | .acquireRpc lid .sent => match (s.whereIsLock lid).join with
      | none => [.granted lid c (s.whoWaitingLock lid)]
      | some _ => []
    | _ => []
  | .serverReadOwner c i => match s.thread (c, i) with
    | .acquireRpc lid (.queued true) => match (s.whereIsLock lid).join with
      | some o => [.revoked lid o]
      | none => []
    | _ => []
  | _ => []

/-- The protocol and its record, oldest first. -/
structure Logged (C T L : Type) where
  sys : Sys C T L
  log : List (Notice C L)

/-- The last grant of `lid` went to `o` over the list `waiting`; `since` is the record
    after it. -/
def LastGrant (log : List (Notice C L)) (lid : L) (o : C) (waiting : List C)
    (since : List (Notice C L)) : Prop :=
  ∃ pre, log = pre ++ .granted lid o waiting :: since ∧
    ∀ c w, Notice.granted lid c w ∉ since

/-- A handler has put the first client into the list and has not read the owner yet. -/
def Asking (s : Sys C T L) (lid : L) : Prop :=
  ∃ k, s.thread k = .acquireRpc lid (.queued true)

/-- The call is with a handler that has had `serverlock_mutex` and not answered. -/
def ThreadPc.handled (lid : L) : ThreadPc C L → Prop
  | .acquireRpc l (.queued _) => l = lid
  | .acquireRpc l (.revoking _) => l = lid
  | .acquireRpc l .revoked => l = lid
  | .releaseRpc l (.retrying _) => l = lid
  | .releaseRpc l (.retried _) => l = lid
  | _ => False

/-- A server `acquire` or `release` handler for `lid` is executing. -/
def HandlerRunning (s : Sys C T L) (lid : L) : Prop :=
  ∃ k, (s.thread k).handled lid

/-- Threads outside every call have no handler. -/
theorem not_handlerRunning (s : Sys C T L) (lid : L)
    (h : ∀ k, s.thread k = .idle ∨ s.thread k = .condWait lid) : ¬HandlerRunning s lid := by
  rintro ⟨k, hk⟩
  rcases h k with h | h
  · rw [h] at hk
    exact hk
  · rw [h] at hk
    exact hk

/-- The lock a notice is about. -/
def Notice.lid : Notice C L → L
  | .granted lid _ _ => lid
  | .revoked lid _ => lid

/-- The grant that `o` has `lid` by, and what it has been asked since. -/
def Entry (s : Sys C T L) (log : List (Notice C L)) (lid : L) (o : C) : Prop :=
  ∃ w since, LastGrant log lid o w since ∧
    (w = [] → s.whoWaitingLock lid = [] ∨ .revoked lid o ∈ since ∨ Asking s lid) ∧
    (w ≠ [] → s.whoWaitingLock lid ≠ [] ∧ .revoked lid o ∉ since ∧ ¬Asking s lid)

/-- Every owner has its entry. -/
def Ledger (s : Logged C T L) : Prop :=
  ∀ lid o, s.sys.whereIsLock lid = some (some o) → Entry s.sys s.log lid o

/-- A handler that is about to ask works for the first in the list of an owned lock, or
    for a client that a release has popped and cannot call back yet. -/
def Fresh (s : Sys C T L) : Prop :=
  ∀ c i lid, s.thread (c, i) = .acquireRpc lid (.queued true) →
    ((s.whereIsLock lid).join ≠ none ∧ (s.whoWaitingLock lid).head? = some c) ∨
      ∃ k, s.thread k = .releaseRpc lid (.retrying c)

/-- Nothing of a lock is granted or asked: the record of it is the same. -/
theorem LastGrant.append {log : List (Notice C L)} {lid : L} {o : C} {w : List C}
    {since more : List (Notice C L)} (h : LastGrant log lid o w since)
    (hmore : ∀ c w, Notice.granted lid c w ∉ more) :
    LastGrant (log ++ more) lid o w (since ++ more) := by
  rcases h with ⟨pre, rfl, hsince⟩
  refine ⟨pre, by rw [List.append_assoc, List.cons_append], fun c w hmem => ?_⟩
  rcases List.mem_append.mp hmem with h | h
  · exact hsince c w h
  · exact hmore c w h

/-- Notices about other locks do not touch an entry. -/
theorem Entry.congr {s s' : Sys C T L} {log more : List (Notice C L)} {lid : L} {o : C}
    (h : Entry s log lid o) (hq : s'.whoWaitingLock lid = s.whoWaitingLock lid)
    (ha : Asking s' lid ↔ Asking s lid) (hmore : ∀ n ∈ more, n.lid ≠ lid) :
    Entry s' (log ++ more) lid o := by
  rcases h with ⟨w, since, hlast, halone, hover⟩
  have hrev : .revoked lid o ∈ since ++ more ↔ .revoked lid o ∈ since := by
    rw [List.mem_append, or_iff_left fun hmem => hmore _ hmem rfl]
  refine ⟨w, since ++ more, hlast.append fun c w hmem => hmore _ hmem rfl, ?_, ?_⟩
  · rw [hq, hrev, ha]
    exact halone
  · rw [hq, hrev, ha]
    exact hover

/-- A turn of the loop of `acquire` is the client's own affair. -/
theorem notices_turn {s : Sys C T L} {a : Action C T L} {c : C} {t : T} {lid : L}
    {cv : C × L → Bool} (ha : Turn s a c t lid cv) : notices s a = [] := by
  rcases ha.entered with ⟨_, rfl, _⟩ | ⟨_, rfl⟩ <;> rfl

/-- A grant starts the record afresh. -/
theorem lastGrant_granted (log : List (Notice C L)) (lid : L) (c : C) (w : List C) :
    LastGrant (log ++ [.granted lid c w]) lid c w [] :=
  ⟨log, rfl, fun _ _ h => absurd h List.not_mem_nil⟩

variable [DecidableEq C] [DecidableEq T] [DecidableEq L]

def Logged.init : Logged C T L where
  sys := LockProtocol.init C T L
  log := []

def Logged.step (s : Logged C T L) (a : Action C T L) : Option (Logged C T L) :=
  (LockProtocol.step s.sys a).map fun sys => ⟨sys, s.log ++ notices s.sys a⟩

/-- The first in a list stays the first when another client is put into it. -/
theorem head?_enqueue (q : List C) (c x : C) (h : q.head? = some x) :
    (enqueue q c).head? = some x := by
  unfold enqueue
  split
  · exact h
  · rw [List.head?_append, h]
    rfl

omit [DecidableEq L] in
/-- A thread that moves from one place where its handler is not about to ask to another such place
    does not change whether some handler is. -/
theorem asking_of_move {s s' : Sys C T L} {k₀ : C × ThreadId T} {pc pc' : ThreadPc C L} {lid : L}
    (hthread : s'.thread = Function.update s.thread k₀ pc') (hpc : s.thread k₀ = pc)
    (hold : pc ≠ .acquireRpc lid (.queued true)) (hnew : pc' ≠ .acquireRpc lid (.queued true)) :
    Asking s' lid ↔ Asking s lid := by
  refine exists_congr fun k => ?_
  rw [hthread]
  exact iff_of_eq (observe_update (fun pc => pc = .acquireRpc lid (.queued true)) hpc
    (propext (iff_of_false hnew hold)) k)

omit [DecidableEq L] in
/-- A turn of the loop of `acquire` is no handler's step. -/
theorem asking_of_turn {s s' : Sys C T L} {a : Action C T L} {c : C} {t : T} {lid l : L}
    {cv : C × L → Bool} (ha : Turn s a c t lid cv) {pc : ThreadPc C L}
    (hthread : s'.thread = Function.update s.thread (c, .app t) pc)
    (hnew : pc ≠ .acquireRpc l (.queued true)) : Asking s' l ↔ Asking s l := by
  rcases ha.entered with ⟨hpc, _, _⟩ | ⟨hpc, _⟩
  · exact asking_of_move hthread hpc (by intro heq; cases heq) hnew
  · exact asking_of_move hthread hpc (by intro heq; cases heq) hnew

/-- A handler is about to ask since before the step, or the step has just put its client into an
    empty list. Only the first in a list makes its handler call `revoke`. -/
theorem asking_before (s s' : Sys C T L) (a : Action C T L) (h : Step s a s') (c' : C)
    (i' : ThreadId T) (lid' : L) (hpc' : s'.thread (c', i') = .acquireRpc lid' (.queued true)) :
    s.thread (c', i') = .acquireRpc lid' (.queued true) ∨
      (s.whoWaitingLock lid' = [] ∧ s.serverlockMutex = none ∧
        (s'.whereIsLock lid').join ≠ none ∧ s'.whoWaitingLock lid' = [c']) := by
  cases h with
  -- The only step that leads to this place; the handler is about to ask if the list was empty.
  | serverQueue c i lid o hpc hm hown =>
      by_cases hself : (c', i') = (c, i)
      · cases hself
        simp only [Function.update_self, ThreadPc.acquireRpc.injEq, AcquireCall.queued.injEq,
          List.isEmpty_iff] at hpc'
        rcases hpc' with ⟨rfl, hempty⟩
        refine Or.inr ⟨hempty, hm, ?_, ?_⟩
        · simp only [hown, Option.join_some, ne_eq, reduceCtorEq, not_false_eq_true]
        · simp only [Function.update_self, hempty, enqueue, List.not_mem_nil, if_false,
            List.nil_append]
      · simp only [Function.update_of_ne hself] at hpc'
        exact Or.inl hpc'
  | _ =>
      have hold := before_of_update (fun pc : ThreadPc C L => pc = .acquireRpc lid' (.queued true))
        (by rintro ⟨⟩) hpc'
      exact Or.inl hold

/-- The first in the list of an owned lock stays the first, or is popped into a `retry` call. -/
theorem head_step (s s' : Sys C T L) (a : Action C T L) (h : Step s a s') (c' : C) (lid' : L)
    (hown : (s.whereIsLock lid').join ≠ none) (hhead : (s.whoWaitingLock lid').head? = some c') :
    ((s'.whereIsLock lid').join ≠ none ∧ (s'.whoWaitingLock lid').head? = some c') ∨
      ∃ k, s'.thread k = .releaseRpc lid' (.retrying c') := by
  cases h with
  | serverGrant c i lid hpc hm hfree =>
      have hl : lid' ≠ lid := fun hl => hown (hl ▸ hfree)
      simp only [Function.update_of_ne hl]
      exact Or.inl ⟨hown, hhead⟩
  | serverQueue c i lid o hpc hm how =>
      refine Or.inl ⟨hown, ?_⟩
      by_cases hl : lid' = lid
      · rw [hl] at hhead ⊢
        simp only [Function.update_self]
        exact head?_enqueue _ c c' hhead
      · simp only [Function.update_of_ne hl]
        exact hhead
  | serverReleaseEmpty c i lid hpc hm hq =>
      have hl : lid' ≠ lid := by
        rintro rfl
        rw [hq] at hhead
        cases hhead
      simp only [Function.update_of_ne hl]
      exact Or.inl ⟨hown, hhead⟩
  | serverReleasePop c i lid first rest hpc hm hq =>
      by_cases hl : lid' = lid
      · -- The popped client is the one the handler calls.
        rw [hl, hq, List.head?_cons, Option.some.injEq] at hhead
        refine Or.inr ⟨(c, i), ?_⟩
        simp only [Function.update_self, hl, hhead]
      · simp only [Function.update_of_ne hl]
        exact Or.inl ⟨hown, hhead⟩
  | _ => exact Or.inl ⟨hown, hhead⟩

/-- A handler that is about to ask keeps its reason: its client stays at the head of the list, or a
    release has popped it and cannot call it back, since the client's mutex is held during its call
    of `acquire`. -/
theorem fresh_step (s s' : Sys C T L) (a : Action C T L) (hw : WaitingInv s) (hi : Fresh s)
    (h : Step s a s') : Fresh s' := by
  intro c i lid hpc
  -- The handler was about to ask before the step, or has been sent by it.
  rcases asking_before s s' a h c i lid hpc with hold | ⟨_, _, hown, hq⟩
  · rcases hi c i lid hold with ⟨hown, hhead⟩ | ⟨k, hr⟩
    · exact head_step s s' a h c lid hown hhead
    · rcases retrying_step s s' a h k c lid hr with hstay | hrun
      · exact Or.inr ⟨k, hstay⟩
      · -- The callback has run, so the mutex was free; but the call still holds it.
        exfalso
        rw [hrun] at h
        have hfree := (clientRetry_effect s s' k hw.known h c lid hr).1
        have hheld := (mutexHeld_step s s' _ hw.mutex h c i).mpr (by
          rw [hpc]
          exact Option.some_ne_none lid)
        rw [hfree] at hheld
        cases hheld
  · exact Or.inl ⟨hown, by rw [hq]; rfl⟩

omit [DecidableEq C] [DecidableEq T] [DecidableEq L] in
/-- While the server may grant a lock, nobody is about to ask for it back: the lock has no owner,
    and the handler of a release that has popped a client would have the server's mutex. -/
theorem not_asking_of_free (s : Sys C T L) (hs : ServerHeld s) (hi : Fresh s) (lid : L)
    (hm : s.serverlockMutex = none) (hfree : (s.whereIsLock lid).join = none) :
    ¬Asking s lid := by
  rintro ⟨⟨c, i⟩, hpc⟩
  rcases hi c i lid hpc with ⟨hown, _⟩ | ⟨k, hr⟩
  · exact hown hfree
  · have hheld := (hs k).mpr (by rw [hr]; rfl)
    rw [hm] at hheld
    cases hheld

/-! ## The ledger -/

/-- Putting a client into the list of an owned lock: the first one is about to ask. If the owner was
    granted the lock over a list that was not empty, the list has not become empty since, and nobody
    is sent. -/
theorem entry_queue (s : Sys C T L) (log : List (Notice C L)) (c : C) (i : ThreadId T) (lid : L)
    (o : C) (hpc : s.thread (c, i) = .acquireRpc lid .sent) (h : Entry s log lid o) :
    Entry { s with
      whoWaitingLock := Function.update s.whoWaitingLock lid (enqueue (s.whoWaitingLock lid) c)
      thread := Function.update s.thread (c, i)
        (.acquireRpc lid (.queued (s.whoWaitingLock lid).isEmpty)) } log lid o := by
  rcases h with ⟨w, since, hlast, halone, hover⟩
  refine ⟨w, since, hlast, fun hw => Or.inr ?_, fun hw => ?_⟩
  · rcases halone hw with hempty | hrev | ⟨k, hk⟩
    · refine Or.inr ⟨(c, i), ?_⟩
      simp only [Function.update_self, hempty, List.isEmpty_nil]
    · exact Or.inl hrev
    · -- The other handler is not the one that moves.
      have hne : k ≠ (c, i) := by
        rintro rfl
        rw [hpc] at hk
        cases hk
      refine Or.inr ⟨k, ?_⟩
      simp only [Function.update_of_ne hne, hk]
  · rcases hover hw with ⟨hq, hrev, hask⟩
    refine ⟨?_, hrev, ?_⟩
    · simp only [Function.update_self, enqueue]
      split
      · exact hq
      · exact List.append_ne_nil_of_left_ne_nil hq _
    · -- With the list not empty nobody is sent to ask.
      rintro ⟨k, hk⟩
      simp only [Function.update_apply] at hk
      split at hk
      · simp only [ThreadPc.acquireRpc.injEq, AcquireCall.queued.injEq, List.isEmpty_iff,
          true_and] at hk
        exact hq hk
      · exact hask ⟨k, hk⟩

/-- One step keeps the entries. A grant starts one, a client that is put into the list may be about
    to ask, a handler that reads the owner asks it, and a release ends one; the other steps touch
    neither the list nor the record. -/
theorem ledger_step (s s' : Logged C T L) (a : Action C T L) (hs : ServerHeld s.sys)
    (hf : Fresh s.sys) (hi : Ledger s) (h : s.step a = some s') : Ledger s' := by
  simp only [Logged.step, Option.map_eq_some_iff] at h
  rcases h with ⟨sys, hstep, rfl⟩
  have hS := step_cases s.sys sys a hstep
  intro lid' o' hown'
  cases hS with
  | serverGrant c i lid hpc hm hfree =>
      have hnotice : notices s.sys (.serverAcquire c i)
          = [.granted lid c (s.sys.whoWaitingLock lid)] := by
        simp only [notices, hpc, hfree]
      have hasking : ∀ l, Asking { s.sys with
          whereIsLock := Function.update s.sys.whereIsLock lid (some (some c))
          thread := Function.update s.sys.thread (c, i) (.acquireRpc lid (.replied .ok)) } l
          ↔ Asking s.sys l := fun l =>
        asking_of_move rfl hpc (by intro heq; cases heq) (by intro heq; cases heq)
      rw [hnotice]
      by_cases hl : lid' = lid
      · subst hl
        simp only [Function.update_self, Option.some.injEq] at hown'
        subst hown'
        -- The new entry: nothing has been asked, and nobody is about to.
        refine ⟨s.sys.whoWaitingLock lid', [], lastGrant_granted _ _ _ _, Or.inl, fun hw => ?_⟩
        exact ⟨hw, List.not_mem_nil, fun hask =>
          not_asking_of_free s.sys hs hf lid' hm hfree ((hasking lid').mp hask)⟩
      · simp only [Function.update_of_ne hl] at hown'
        refine (hi lid' o' hown').congr rfl (hasking lid') ?_
        simpa only [List.mem_singleton, forall_eq, Notice.lid] using Ne.symm hl
  | serverQueue c i lid o hpc hm how =>
      have hnotice : notices s.sys (.serverAcquire c i) = [] := by
        simp only [notices, hpc, how, Option.join_some]
      rw [hnotice, List.append_nil]
      by_cases hl : lid' = lid
      · subst hl
        exact entry_queue s.sys s.log c i lid' o' hpc (hi lid' o' hown')
      · rw [← List.append_nil s.log]
        refine (hi lid' o' hown').congr (Function.update_of_ne hl _ _) ?_ (by simp)
        exact asking_of_move rfl hpc (by intro heq; cases heq)
          fun heq => hl (ThreadPc.acquireRpc.inj heq).1.symm
  -- The handler asks the owner of this moment, and the entry says that it has not been granted the
  -- lock over waiting clients.
  | serverReadOwner c i lid hpc =>
      by_cases hl : lid' = lid
      · subst hl
        have hown : s.sys.whereIsLock lid' = some (some o') := hown'
        have hnotice : notices s.sys (.serverReadOwner c i) = [.revoked lid' o'] := by
          simp only [notices, hpc, hown, Option.join_some]
        rw [hnotice]
        rcases hi lid' o' hown' with ⟨w, since, hlast, _, hover⟩
        refine ⟨w, _, hlast.append (by simp), fun _ => Or.inr (Or.inl ?_), fun hw => ?_⟩
        · exact List.mem_append_right _ (List.mem_singleton.mpr rfl)
        · exact absurd ⟨_, hpc⟩ (hover hw).2.2
      · have hasking : Asking { s.sys with
            thread := Function.update s.sys.thread (c, i)
              (.acquireRpc lid (.revoking (s.sys.whereIsLock lid).join)) } lid'
            ↔ Asking s.sys lid' :=
          asking_of_move rfl hpc (fun heq => hl (ThreadPc.acquireRpc.inj heq).1.symm)
            (by intro heq; cases heq)
        refine (hi lid' o' hown').congr rfl hasking ?_
        intro n hn
        simp only [notices, hpc] at hn
        split at hn
        · rw [List.mem_singleton.mp hn]
          exact Ne.symm hl
        · cases hn
  | serverReleaseEmpty c i lid hpc hm hq =>
      -- The released lock has no owner; the others keep their entries.
      have hl : lid' ≠ lid := by
        rintro rfl
        simp only [Function.update_self, Option.some.injEq, reduceCtorEq] at hown'
      simp only [Function.update_of_ne hl] at hown'
      exact (hi lid' o' hown').congr rfl
        (asking_of_move rfl hpc (by intro heq; cases heq) (by intro heq; cases heq))
        (by simp [notices])
  | serverReleasePop c i lid first rest hpc hm hq =>
      have hl : lid' ≠ lid := by
        rintro rfl
        simp only [Function.update_self, Option.some.injEq, reduceCtorEq] at hown'
      simp only [Function.update_of_ne hl] at hown'
      exact (hi lid' o' hown').congr (Function.update_of_ne hl _ _)
        (asking_of_move rfl hpc (by intro heq; cases heq) (by intro heq; cases heq))
        (by simp [notices])
  | acquireFree a c t lid cv ha hst =>
      exact (hi lid' o' hown').congr rfl (asking_of_turn ha rfl (by intro heq; cases heq))
        (by simp [notices_turn ha])
  | acquireNone a c t lid cv ha hst =>
      exact (hi lid' o' hown').congr rfl (asking_of_turn ha rfl (by intro heq; cases heq))
        (by simp [notices_turn ha])
  | acquireWait a c t lid cv ha hf hn =>
      exact (hi lid' o' hown').congr rfl (asking_of_turn ha rfl (by intro heq; cases heq))
        (by simp [notices_turn ha])
  | serverRetryReply c i lid hpc =>
      rcases hpc with hpc | hpc
      · exact (hi lid' o' hown').congr rfl
          (asking_of_move rfl hpc (by intro heq; cases heq) (by intro heq; cases heq))
          (by simp [notices])
      · exact (hi lid' o' hown').congr rfl
          (asking_of_move rfl hpc (by intro heq; cases heq) (by intro heq; cases heq))
          (by simp [notices])
  | _ =>
      exact (hi lid' o' hown').congr rfl
        (asking_of_move rfl ‹_› (by intro heq; cases heq) (by intro heq; cases heq))
        (by simp [notices])

/-- The invariants of the protocol that the ledger rests on, and the ledger. -/
structure LoggedInv (s : Logged C T L) : Prop where
  waiting : WaitingInv s.sys
  server : ServerHeld s.sys
  fresh : Fresh s.sys
  ledger : Ledger s

omit [DecidableEq C] [DecidableEq T] [DecidableEq L] in
/-- At first there is no owner and no handler. -/
theorem loggedInv_init : LoggedInv (Logged.init : Logged C T L) := by
  refine ⟨waitingInv_init, fun k => ?_, fun c i lid hpc => ?_, fun lid o hown => ?_⟩
  · simp only [Logged.init, init, ThreadPc.inRetry, reduceCtorEq, Bool.false_eq_true]
  · exact absurd hpc (by simp only [Logged.init, init, reduceCtorEq, not_false_eq_true])
  · exact absurd hown (by simp only [Logged.init, init, reduceCtorEq, not_false_eq_true])

/-- The ledger needs the other invariants before the step, and they hold after it without the
    ledger. -/
theorem loggedInv_step (s : Logged C T L) (a : Action C T L) (s' : Logged C T L)
    (hi : LoggedInv s) (h : s.step a = some s') : LoggedInv s' := by
  have hledger := ledger_step s s' a hi.server hi.fresh hi.ledger h
  simp only [Logged.step, Option.map_eq_some_iff] at h
  rcases h with ⟨sys, hstep, rfl⟩
  have hS := step_cases s.sys sys a hstep
  exact ⟨waitingInv_step s.sys a sys hi.waiting hstep, serverHeld_step s.sys sys a hi.server hS,
    fresh_step s.sys sys a hi.waiting hi.fresh hS, hledger⟩

/-- An owner with somebody waiting, and no handler at work on the lock, has been asked for it since
    its grant exactly if nobody waited when it was granted. `revoke` is called for the first client
    in the list only, so a client that is granted a lock over a list that others are still in is
    never asked to give it back. -/
theorem revoked_iff_granted_alone (s : Logged C T L)
    (h : Trace.Reaches Logged.step Trace.Always Logged.init s) (lid : L) (o c : C)
    (hown : s.sys.whereIsLock lid = some (some o)) (hc : c ∈ s.sys.whoWaitingLock lid)
    (hidle : ¬HandlerRunning s.sys lid) :
    ∃ w since, LastGrant s.log lid o w since ∧ (.revoked lid o ∈ since ↔ w = []) := by
  have hi := Trace.invariant_of_step LoggedInv loggedInv_init
    (fun s a s' hi _ hs => loggedInv_step s a s' hi hs) h
  rcases hi.ledger lid o hown with ⟨w, since, hlast, halone, hover⟩
  refine ⟨w, since, hlast, fun hrev => ?_, fun hw => ?_⟩
  · by_contra hw
    exact (hover hw).2.1 hrev
  · rcases halone hw with hempty | hrev | ⟨k, hk⟩
    · rw [hempty] at hc
      cases hc
    · exact hrev
    · exact absurd ⟨k, by rw [hk]; rfl⟩ hidle

/-- One client takes the lock and the other one asks for it. -/
def firstWaiter : List (Action Bool Unit Nat) :=
  [.callAcquire false () 7, .enterAcquire false (), .serverAcquire false (.app ()),
   .acquireReturns false (), .callAcquire true () 7, .enterAcquire true (),
   .serverAcquire true (.app ()), .serverReadOwner true (.app ()), .clientRevoke true (.app ()),
   .serverRetryReply true (.app ()), .acquireReturns true ()]

theorem revoked_firstWaiter :
    ∃ s : Logged Bool Unit Nat, Trace.Reaches Logged.step Trace.Always Logged.init s ∧
      s.log = [.granted 7 false [], .revoked 7 false] ∧
      ∃ w since, LastGrant s.log 7 false w since ∧ (.revoked 7 false ∈ since ↔ w = []) := by
  have hrun : ∃ s : Logged Bool Unit Nat,
      Trace.run Logged.step (fun _ _ => true) Logged.init firstWaiter = some s ∧
      s.sys.whereIsLock 7 = some (some false) ∧ s.sys.whoWaitingLock 7 = [true] ∧
      (∀ k, s.sys.thread k = .idle ∨ s.sys.thread k = .condWait 7) ∧
      s.log = [.granted 7 false [], .revoked 7 false] := by
    refine ⟨_, rfl, rfl, rfl, fun k => ?_, rfl⟩
    rcases k with ⟨c, i⟩
    cases i with
    | giveBack => cases c <;> exact Or.inl rfl
    | app t =>
        cases c with
        | false => exact Or.inl rfl
        | true => exact Or.inr rfl
  rcases hrun with ⟨s, hs, hown, hq, hidle, hlog⟩
  have hr := Trace.reaches_always_of_run firstWaiter hs
  exact ⟨s, hr, hlog, revoked_iff_granted_alone s hr 7 false true hown (by rw [hq]; decide)
    (not_handlerRunning s.sys 7 hidle)⟩

/-- Client 0 has the lock; 1 and 2 ask for it, and 0 is revoked for 1. It releases the
    lock, 1 is told to retry and is granted it, and 2 still waits. -/
def contendedGrant : List (Action (Fin 3) Unit Nat) :=
  [.callAcquire 0 () 7, .enterAcquire 0 (), .serverAcquire 0 (.app ()), .acquireReturns 0 (),
   .callAcquire 1 () 7, .enterAcquire 1 (), .serverAcquire 1 (.app ()),
   .serverReadOwner 1 (.app ()), .clientRevoke 1 (.app ()), .serverRetryReply 1 (.app ()),
   .acquireReturns 1 (),
   .callAcquire 2 () 7, .enterAcquire 2 (), .serverAcquire 2 (.app ()),
   .serverRetryReply 2 (.app ()), .acquireReturns 2 (),
   .callRelease 0 () 7, .enterRelease 0 (), .doreleaseReturns 0 (.app ()),
   .serverRelease 0 (.app ()), .clientRetry 0 (.app ()), .serverReleaseReply 0 (.app ()),
   .releaseReturns 0 (.app ()),
   .wake 1 (), .serverAcquire 1 (.app ()), .acquireReturns 1 ()]

theorem contendedGrant_unasked :
    ∃ s : Logged (Fin 3) Unit Nat, Trace.Reaches Logged.step Trace.Always Logged.init s ∧
      s.sys.whereIsLock 7 = some (some 1) ∧ 2 ∈ s.sys.whoWaitingLock 7 ∧
      ¬HandlerRunning s.sys 7 ∧ s.log = [.granted 7 0 [], .revoked 7 0, .granted 7 1 [2]] ∧
      ¬∃ w since, LastGrant s.log 7 1 w since ∧ .revoked 7 1 ∈ since := by
  have hrun : ∃ s : Logged (Fin 3) Unit Nat,
      Trace.run Logged.step (fun _ _ => true) Logged.init contendedGrant = some s ∧
      s.sys.whereIsLock 7 = some (some 1) ∧ s.sys.whoWaitingLock 7 = [2] ∧
      (∀ k, s.sys.thread k = .idle ∨ s.sys.thread k = .condWait 7) ∧
      s.log = [.granted 7 0 [], .revoked 7 0, .granted 7 1 [2]] := by
    refine ⟨_, rfl, rfl, rfl, fun k => ?_, rfl⟩
    match k with
    | (0, .app ()) => exact Or.inl rfl
    | (1, .app ()) => exact Or.inl rfl
    | (2, .app ()) => exact Or.inr rfl
    | (0, .giveBack) => exact Or.inl rfl
    | (1, .giveBack) => exact Or.inl rfl
    | (2, .giveBack) => exact Or.inl rfl
  rcases hrun with ⟨s, hs, hown, hq, hidle, hlog⟩
  refine ⟨s, Trace.reaches_always_of_run contendedGrant hs, hown, by rw [hq]; decide,
    not_handlerRunning s.sys 7 hidle, hlog, ?_⟩
  -- The record has no revoke of client 1 at all.
  rintro ⟨w, since, ⟨pre, heq, _⟩, hrev⟩
  have hmem : Notice.revoked 7 1 ∈ s.log := by
    rw [heq]
    exact List.mem_append_right _ (List.mem_cons_of_mem _ hrev)
  rw [hlog] at hmem
  exact absurd hmem (by decide)

end LockProtocol

end Yfs
