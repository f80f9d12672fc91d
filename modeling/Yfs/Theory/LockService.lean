import Yfs.Library.Simulation
import Yfs.Theory.LockExclusion

/-!
# The Lock Protocol as a Lock Service

What the caching lock protocol is for: a lock has at most one owner, the owner's threads
take and drop it one at a time, and it passes on only after the owner has done its release
action. `IdealLock` is that service, with an action for each of the four things that can
happen to a lock.

The protocol takes about twenty kinds of steps for these four. A client has a lock
(`Has`) from the moment the server says so until its `dorelease` returns, wherever the
ownership is recorded on the way: in the state map, in an `OK` that has not been read, or
in a thread that flushes. `Event` says what a step does to that and to the lock calls that
the threads have not got through, and `event_of_step` that every step does one of these
things. Most steps do nothing of it: the waiting lists, the callbacks and the state
`ACQUIRING` are not visible above.

The update of `give_back` is bound to a lock that is still `FREE`, as for mutual exclusion.

## Main definitions

* `IdealLock`: Owners and users of locks.
* `Has`: A client has the lock.
* `Request`, `ThreadPc.request`: The lock call a thread is in.
* `Event`: What a step does, seen from above.

## Theorems

* `event_of_move`, `event_take`, `event_drop`: The kinds of steps, seen from above.
* `event_of_step`: Every step of the protocol is an event.
* `protocol_is_lock_service`: Every run of the protocol is a run of the ideal service.
-/

namespace Yfs

/-! ## The ideal service -/

namespace IdealLock

/-- `user` is the thread between its acquire and its release. -/
structure Sys (C T L : Type) where
  owner : L → Option C
  user : L → Option (C × T)

inductive Action (C T L : Type) where
  | grant (lid : L) (c : C)
  | take (lid : L) (c : C) (t : T)
  | drop (lid : L) (c : C) (t : T)
  | giveBack (lid : L) (c : C)

def init (C T L : Type) : Sys C T L where
  owner := fun _ => none
  user := fun _ => none

variable {C T L : Type} [DecidableEq C] [DecidableEq T] [DecidableEq L]

def step (s : Sys C T L) : Action C T L → Option (Sys C T L)
  | .grant lid c =>
      if s.owner lid = none then some { s with owner := Function.update s.owner lid (some c) }
      else none
  | .take lid c t =>
      if s.owner lid = some c ∧ s.user lid = none then
        some { s with user := Function.update s.user lid (some (c, t)) }
      else none
  | .drop lid c t =>
      if s.user lid = some (c, t) then some { s with user := Function.update s.user lid none }
      else none
  | .giveBack lid c =>
      if s.owner lid = some c ∧ s.user lid = none then
        some { s with owner := Function.update s.owner lid none }
      else none

end IdealLock

namespace LockProtocol

variable {C T L : Type}

open Sys Threads

/-! ## What a client has, and what its threads ask for -/

/-- The lock that is the client's although its map does not say so: granted and not yet
    recorded, or in the release action. -/
def ThreadPc.keeps : ThreadPc C L → Option L
  | .dorelease lid => some lid
  | .acquireRpc lid (.replied .ok) => some lid
  | _ => none

/-- The client has the lock, and what it caches under the lock is its to use. -/
def Has (s : Sys C T L) (c : C) (lid : L) : Prop :=
  (s.lockstate c lid).owned = true ∨ ∃ i, (s.thread (c, i)).keeps = some lid

/-- A lock call that is not through: an `acquire` that has not got the lock, or a `release`
    that has not given it up. -/
inductive Request (L : Type) where
  | acquire (lid : L)
  | release (lid : L)

def ThreadPc.request : ThreadPc C L → Option (Request L)
  | .acquire lid => some (.acquire lid)
  | .acquireRpc lid _ => some (.acquire lid)
  | .condWait lid => some (.acquire lid)
  | .release lid => some (.release lid)
  | _ => none

theorem ThreadPc.carries_of_keeps {pc : ThreadPc C L} {lid : L} (h : pc.keeps = some lid) :
    pc.carries = some lid := by
  unfold ThreadPc.keeps at h
  split at h
  · exact h
  · exact h
  · cases h

theorem ThreadPc.request_eq_release {pc : ThreadPc C L} {lid : L} :
    pc.request = some (.release lid) ↔ pc = .release lid := by
  cases pc with
  | release lid' => simp only [ThreadPc.request, Option.some.injEq, Request.release.injEq,
      ThreadPc.release.injEq]
  | _ => simp only [ThreadPc.request, Option.some.injEq, reduceCtorEq]

/-- A thread that asks for a lock keeps no other one. -/
theorem ThreadPc.keeps_of_acquire {pc : ThreadPc C L} {lid lid' : L}
    (h : pc.request = some (.acquire lid)) (hk : pc.keeps = some lid') : lid' = lid := by
  cases pc with
  | acquireRpc lid₀ call =>
      simp only [ThreadPc.request, Option.some.injEq, Request.acquire.injEq] at h
      unfold ThreadPc.keeps at hk
      split at hk
      · cases ‹ThreadPc.acquireRpc lid₀ call = _›
      · cases ‹ThreadPc.acquireRpc lid₀ call = _›
        rw [← h, Option.some.inj hk]
      · cases hk
  | _ => cases hk <;> cases h

/-- The server says so too. -/
theorem Token.owner_of_has {s : Sys C T L} (hi : Token s) {c : C} {lid : L} (h : Has s c lid) :
    s.whereIsLock lid = some (some c) := by
  rcases h with hown | ⟨i, hkeeps⟩
  · exact hi.state_owner c lid hown
  · exact hi.carry_owner c i lid (ThreadPc.carries_of_keeps hkeeps)

theorem Token.has_unique {s : Sys C T L} (hi : Token s) {c c' : C} {lid : L} (h : Has s c lid)
    (h' : Has s c' lid) : c' = c := by
  have hw := hi.owner_of_has h
  rw [hi.owner_of_has h'] at hw
  exact Option.some.inj (Option.some.inj hw)

theorem Token.has_of_uses {s : Sys C T L} (hi : Token s) {c : C} {t : T} {lid : L}
    (h : Uses s c t lid) : Has s c lid := by
  left
  rcases hi.uses_state c t lid h with hst | hst
  · rw [hst]
    rfl
  · rw [hst]
    rfl

/-- At most one thread of all clients uses a lock. -/
theorem Token.uses_unique_all {s : Sys C T L} (hi : Token s) {c c' : C} {t t' : T} {lid : L}
    (h : Uses s c t lid) (h' : Uses s c' t' lid) : (c', t') = (c, t) := by
  have hc := hi.has_unique (hi.has_of_uses h) (hi.has_of_uses h')
  subst hc
  rw [hi.uses_unique c' t' t lid h' h]

/-- Nobody uses a lock that is on its way between the server and the owner's map. -/
theorem Token.unused_of_keeps {s : Sys C T L} (hi : Token s) {c : C} {i : ThreadId T} {lid : L}
    (h : (s.thread (c, i)).keeps = some lid) (c' : C) (t : T) : ¬ Uses s c' t lid := by
  intro huse
  have hc := hi.has_unique (Or.inr ⟨i, h⟩) (hi.has_of_uses huse)
  subst hc
  have hstate := hi.carry_state c' i lid (ThreadPc.carries_of_keeps h)
  rcases hi.uses_state c' t lid huse with hst | hst
  · rw [hst] at hstate
    cases hstate
  · rw [hst] at hstate
    cases hstate

/-- Nobody uses a lock that its owner's map says is `FREE`. -/
theorem Token.unused_of_free {s : Sys C T L} (hi : Token s) {c : C} {lid : L}
    (h : s.lockstate c lid = .free) (c' : C) (t : T) : ¬ Uses s c' t lid := by
  intro huse
  have hhas : Has s c lid := Or.inl (by rw [h]; rfl)
  have hc := hi.has_unique hhas (hi.has_of_uses huse)
  subst hc
  rcases hi.uses_state c' t lid huse with hst | hst
  · rw [h] at hst
    cases hst
  · rw [h] at hst
    cases hst

/-! ## Events -/

def SameHas (s s' : Sys C T L) : Prop :=
  ∀ c lid, Has s' c lid ↔ Has s c lid

def SameUses (s s' : Sys C T L) : Prop :=
  ∀ c t lid, Uses s' c t lid ↔ Uses s c t lid

def SameRequests (s s' : Sys C T L) : Prop :=
  ∀ c t, (s'.thread (c, .app t)).request = (s.thread (c, .app t)).request

/-- The lock call of one thread changes to `r`. -/
structure Requests (s s' : Sys C T L) (c : C) (t : T) (r : Option (Request L)) : Prop where
  self : (s'.thread (c, .app t)).request = r
  others : ∀ c' t', (c', t') ≠ (c, t) →
    (s'.thread (c', .app t')).request = (s.thread (c', .app t')).request

/-- The actions that do something besides what they do to the locks: an operation makes a
    lock call, a release takes effect, the release action is done. -/
def Action.plain : Action C T L → Bool
  | .callAcquire _ _ _ => false
  | .callRelease _ _ _ => false
  | .enterRelease _ _ => false
  | .doreleaseReturns _ _ => false
  | _ => true

/-- What a step does to the owners, the users and the lock calls. -/
inductive Event (s : Sys C T L) : Action C T L → Sys C T L → Prop where
  | quiet (a : Action C T L) (s' : Sys C T L) (ha : a.plain = true) (hhas : SameHas s s')
      (huses : SameUses s s') (hreq : SameRequests s s') : Event s a s'
  | callAcquire (c : C) (t : T) (lid : L) (s' : Sys C T L)
      (hpc : s.thread (c, .app t) = .idle) (hhas : SameHas s s') (huses : SameUses s s')
      (hreq : Requests s s' c t (some (.acquire lid))) : Event s (.callAcquire c t lid) s'
  | callRelease (c : C) (t : T) (lid : L) (s' : Sys C T L)
      (hpc : s.thread (c, .app t) = .idle) (hhas : SameHas s s') (huses : SameUses s s')
      (hreq : Requests s s' c t (some (.release lid))) : Event s (.callRelease c t lid) s'
  | grant (a : Action C T L) (c : C) (lid : L) (s' : Sys C T L) (ha : a.plain = true)
      (hfree : ∀ c', ¬ Has s c' lid)
      (hhas : ∀ c' lid', Has s' c' lid' ↔ Has s c' lid' ∨ (c', lid') = (c, lid))
      (huses : SameUses s s') (hreq : SameRequests s s') : Event s a s'
  | take (a : Action C T L) (c : C) (t : T) (lid : L) (s' : Sys C T L) (ha : a.plain = true)
      (hown : Has s c lid) (hfree : ∀ c' t', ¬ Uses s c' t' lid) (hhas : SameHas s s')
      (huses : ∀ c' t' lid', Uses s' c' t' lid' ↔
        Uses s c' t' lid' ∨ (c', t', lid') = (c, t, lid))
      (hasked : (s.thread (c, .app t)).request = some (.acquire lid))
      (hreq : Requests s s' c t none) : Event s a s'
  | drop (c : C) (t : T) (lid : L) (s' : Sys C T L) (huse : Uses s c t lid)
      (hhas : SameHas s s')
      (huses : ∀ c' t' lid', Uses s' c' t' lid' ↔
        Uses s c' t' lid' ∧ (c', t', lid') ≠ (c, t, lid))
      (hasked : (s.thread (c, .app t)).request = some (.release lid))
      (hreq : Requests s s' c t none) : Event s (.enterRelease c t) s'
  | giveBack (c : C) (i : ThreadId T) (lid : L) (s' : Sys C T L)
      (hpc : s.thread (c, i) = .dorelease lid)
      (hhas : ∀ c' lid', Has s' c' lid' ↔ Has s c' lid' ∧ (c', lid') ≠ (c, lid))
      (huses : SameUses s s') (hreq : SameRequests s s') : Event s (.doreleaseReturns c i) s'

/-- Having a lock is read off the state and the threads of the client. -/
theorem has_congr {s s' : Sys C T L} {c : C} {lid : L}
    (hstate : (s'.lockstate c lid).owned = (s.lockstate c lid).owned)
    (hkeeps : ∀ i, (s'.thread (c, i)).keeps = some lid ↔ (s.thread (c, i)).keeps = some lid) :
    Has s' c lid ↔ Has s c lid := by
  unfold Has
  rw [hstate]
  exact or_congr_right (exists_congr hkeeps)

theorem uses_congr {s s' : Sys C T L} {c : C} {t : T} {lid : L}
    (hholds : s'.holds (c, t, lid) = s.holds (c, t, lid))
    (hrelease : s'.thread (c, .app t) = .release lid ↔ s.thread (c, .app t) = .release lid) :
    Uses s' c t lid ↔ Uses s c t lid := by
  unfold Uses
  rw [hholds]
  exact or_congr_right hrelease

variable [DecidableEq C] [DecidableEq T] [DecidableEq L]

omit [DecidableEq T] in
/-- A write that does not change whether the client has the lock. -/
theorem owned_of_write {s s' : Sys C T L} {c₀ : C} {l₀ : L} {w : ClientLockState}
    (hmap : s'.lockstateMap = Function.update s.lockstateMap (c₀, l₀) (some w))
    (hw : w.owned = (s.lockstate c₀ l₀).owned) (c : C) (lid : L) :
    (s'.lockstate c lid).owned = (s.lockstate c lid).owned := by
  by_cases hcl : (c, lid) = (c₀, l₀)
  · cases hcl
    rw [lockstate_written hmap, hw]
  · rw [lockstate, hmap, Function.update_of_ne hcl]
    rfl

omit [DecidableEq L] in
/-- A thread that keeps at most `lid` before and after its move changes nothing for the
    other locks. -/
theorem keeps_of_move {s s' : Sys C T L} {c : C} {i : ThreadId T} {pc pc' : ThreadPc C L} {lid : L}
    (hthread : s'.thread = Function.update s.thread (c, i) pc') (hpc : s.thread (c, i) = pc)
    (hold : ∀ l, pc.keeps = some l → l = lid) (hnew : ∀ l, pc'.keeps = some l → l = lid)
    (c' : C) (j : ThreadId T) (lid' : L) (hne : (c', lid') ≠ (c, lid)) :
    (s'.thread (c', j)).keeps = some lid' ↔ (s.thread (c', j)).keeps = some lid' := by
  by_cases hk : (c', j) = (c, i)
  · have hl : lid' ≠ lid := by
      rintro rfl
      cases hk
      exact hne rfl
    rw [hthread, hk, Function.update_self, hpc]
    exact iff_of_false (fun hkeeps => hl (hnew lid' hkeeps)) fun hkeeps => hl (hold lid' hkeeps)
  · rw [hthread, Function.update_of_ne hk]

omit [DecidableEq L] in
/-- Nor does a thread that neither stands at `release(lid)` before its move nor after it
    change who uses `lid`. -/
theorem release_of_move {s s' : Sys C T L} {k₀ k : C × ThreadId T} {pc pc' : ThreadPc C L} {lid : L}
    (hthread : s'.thread = Function.update s.thread k₀ pc') (hpc : s.thread k₀ = pc)
    (hold : pc ≠ .release lid) (hnew : pc' ≠ .release lid) :
    s'.thread k = .release lid ↔ s.thread k = .release lid := by
  rw [hthread]
  exact iff_of_eq (observe_update (fun pc => pc = .release lid) hpc
    (propext (iff_of_false hnew hold)) k)

omit [DecidableEq L] in
/-- So the users are the same if a thread moves outside of `release` and nobody is granted or
    gives up a lock. -/
theorem sameUses_of_move {s s' : Sys C T L} {k₀ : C × ThreadId T} {pc pc' : ThreadPc C L}
    (hthread : s'.thread = Function.update s.thread k₀ pc') (hpc : s.thread k₀ = pc)
    (hholds : s'.holds = s.holds) (hold : ∀ lid, pc ≠ .release lid)
    (hnew : ∀ lid, pc' ≠ .release lid) : SameUses s s' := by
  intro c t lid
  exact uses_congr (by rw [hholds]) (release_of_move hthread hpc (hold lid) (hnew lid))

omit [DecidableEq L] in
theorem sameRequests_of_move {s s' : Sys C T L} {k₀ : C × ThreadId T} {pc pc' : ThreadPc C L}
    (hthread : s'.thread = Function.update s.thread k₀ pc') (hpc : s.thread k₀ = pc)
    (hreq : pc'.request = pc.request) : SameRequests s s' := by
  intro c t
  rw [hthread]
  exact observe_update ThreadPc.request hpc hreq (c, .app t)

omit [DecidableEq T] in
/-- The ownership moves inside the client: from the map to a thread, or back. -/
theorem sameHas_move {s s' : Sys C T L} (c : C) (lid : L) (h : Has s c lid) (h' : Has s' c lid)
    (hstate : ∀ c' lid', (c', lid') ≠ (c, lid) → s'.lockstate c' lid' = s.lockstate c' lid')
    (hkeeps : ∀ c' i lid', (c', lid') ≠ (c, lid) →
      ((s'.thread (c', i)).keeps = some lid' ↔ (s.thread (c', i)).keeps = some lid')) :
    SameHas s s' := by
  intro c' lid'
  by_cases hcl : (c', lid') = (c, lid)
  · cases hcl
    exact iff_of_true h' h
  · exact has_congr (by rw [hstate c' lid' hcl]) fun i => hkeeps c' i lid' hcl

omit [DecidableEq C] [DecidableEq T] [DecidableEq L] in
/-- The steps that only the protocol sees leave all three alone. -/
theorem event_quiet {s s' : Sys C T L} {a : Action C T L} (ha : a.plain = true)
    (hstate : ∀ c lid, (s'.lockstate c lid).owned = (s.lockstate c lid).owned)
    (hkeeps : ∀ k, (s'.thread k).keeps = (s.thread k).keeps) (hholds : s'.holds = s.holds)
    (hreq : ∀ k, (s'.thread k).request = (s.thread k).request) : Event s a s' := by
  refine Event.quiet a s' ha (fun c lid => ?_) (fun c t lid => ?_) fun c t => hreq _
  · exact has_congr (hstate c lid) fun i => by rw [hkeeps]
  · unfold Uses
    rw [hholds, ← ThreadPc.request_eq_release, ← ThreadPc.request_eq_release, hreq]

omit [DecidableEq L] in
/-- A thread moves between two places that are the same from above. -/
theorem event_of_move {s s' : Sys C T L} {a : Action C T L} {k₀ : C × ThreadId T}
    {pc pc' : ThreadPc C L} (ha : a.plain = true)
    (hstate : ∀ c lid, (s'.lockstate c lid).owned = (s.lockstate c lid).owned)
    (hholds : s'.holds = s.holds) (hthread : s'.thread = Function.update s.thread k₀ pc')
    (hpc : s.thread k₀ = pc) (hkeeps : pc'.keeps = pc.keeps) (hreq : pc'.request = pc.request) :
    Event s a s' := by
  refine event_quiet ha hstate ?_ hholds ?_
  · rw [hthread]
    exact observe_update ThreadPc.keeps hpc hkeeps
  · rw [hthread]
    exact observe_update ThreadPc.request hpc hreq

/-- A turn of the loop that does not get the lock: the thread goes into the call, or waits. -/
theorem event_of_turn {s s' : Sys C T L} {a : Action C T L} {c : C} {t : T} {lid : L}
    {cv : C × L → Bool} (ha : Turn s a c t lid cv) {pc : ThreadPc C L}
    (hmap : s'.lockstateMap =
      Function.update s.lockstateMap (c, lid) (some (s.lockstate c lid)))
    (hholds : s'.holds = s.holds) (hthread : s'.thread = Function.update s.thread (c, .app t) pc)
    (hkeeps : pc.keeps = none) (hreq : pc.request = some (.acquire lid)) : Event s a s' := by
  have hstate := owned_of_write hmap rfl
  rcases ha.entered with ⟨hpc, rfl, _⟩ | ⟨hpc, rfl⟩
  · exact event_of_move rfl hstate hholds hthread hpc hkeeps hreq
  · exact event_of_move rfl hstate hholds hthread hpc hkeeps hreq

omit [DecidableEq L] in
/-- The lock calls of the other threads stay. -/
theorem request_of_ne {s s' : Sys C T L} {c : C} {t : T} {pc : ThreadPc C L}
    (hthread : s'.thread = Function.update s.thread (c, .app t) pc) (c' : C) (t' : T)
    (hne : (c', t') ≠ (c, t)) :
    (s'.thread (c', .app t')).request = (s.thread (c', .app t')).request := by
  rw [hthread, Function.update_of_ne]
  intro heq
  cases heq
  exact hne rfl

/-- A thread leaves `acquire` with the lock. -/
theorem event_take {s s' : Sys C T L} {a : Action C T L} {c : C} {t : T} {lid : L}
    (ha : a.plain = true) (hown : Has s c lid) (hfree : ∀ c' t', ¬ Uses s c' t' lid)
    (hasked : (s.thread (c, .app t)).request = some (.acquire lid))
    (hstate : s'.lockstateMap = Function.update s.lockstateMap (c, lid) (some .locked))
    (hthread : s'.thread = Function.update s.thread (c, .app t) .idle)
    (hholds : s'.holds = Function.update s.holds (c, t, lid) true) : Event s a s' := by
  have hrelease : ∀ lid', s.thread (c, .app t) ≠ .release lid' := by
    intro lid' hpc
    rw [hpc] at hasked
    cases hasked
  refine Event.take a c t lid s' ha hown hfree ?_ ?_ hasked ⟨?_, request_of_ne hthread⟩
  · refine sameHas_move c lid hown (Or.inl ?_) ?_ ?_
    · rw [lockstate_written hstate]
      rfl
    · intro c' lid' hne
      simp only [lockstate, hstate, Function.update_of_ne hne]
    · -- Before, the thread may have kept this lock, in an `OK` that it had not read.
      refine keeps_of_move hthread rfl (fun l => ThreadPc.keeps_of_acquire hasked) fun l hl => ?_
      cases hl
  · intro c' t' lid'
    by_cases hself : (c', t', lid') = (c, t, lid)
    · cases hself
      refine iff_of_true (Or.inl ?_) (Or.inr rfl)
      rw [hholds, Function.update_self]
    · rw [or_iff_left hself]
      refine uses_congr ?_ (release_of_move hthread rfl (hrelease lid') ?_)
      · rw [hholds, Function.update_of_ne hself]
      · simp only [ne_eq, reduceCtorEq, not_false_eq_true]
  · rw [hthread, Function.update_self]
    rfl

/-- A `release` takes effect: the lock goes into the map as `FREE`, or to the thread that
    will give it back. -/
theorem event_drop {s s' : Sys C T L} (hi : Token s) {c : C} {t : T} {lid : L}
    (hpc : s.thread (c, .app t) = .release lid) {v : ClientLockState} {pc : ThreadPc C L}
    (hstate : s'.lockstateMap = Function.update s.lockstateMap (c, lid) (some v))
    (hthread : s'.thread = Function.update s.thread (c, .app t) pc)
    (hholds : s'.holds = s.holds)
    (hv : (v = .free ∧ pc = .idle) ∨ (v = .none ∧ pc = .dorelease lid)) :
    Event s (.enterRelease c t) s' := by
  have huse : Uses s c t lid := Or.inr hpc
  have hleft : ∀ lid', pc ≠ .release lid' := by
    rintro lid' rfl
    rcases hv with ⟨_, heq⟩ | ⟨_, heq⟩
    · cases heq
    · cases heq
  refine Event.drop c t lid s' huse ?_ ?_ (by rw [hpc]; rfl) ⟨?_, request_of_ne hthread⟩
  · refine sameHas_move c lid (hi.has_of_uses huse) ?_ ?_ ?_
    · rcases hv with ⟨rfl, rfl⟩ | ⟨rfl, rfl⟩
      · left
        rw [lockstate_written hstate]
        rfl
      · right
        refine ⟨.app t, ?_⟩
        rw [hthread, Function.update_self]
        rfl
    · intro c' lid' hne
      simp only [lockstate, hstate, Function.update_of_ne hne]
    · refine keeps_of_move hthread hpc (fun l hl => by cases hl) fun l hl => ?_
      rcases hv with ⟨_, rfl⟩ | ⟨_, rfl⟩
      · cases hl
      · cases hl
        rfl
  · intro c' t' lid'
    by_cases hself : (c', t', lid') = (c, t, lid)
    · -- The thread has left `release`, and since its call it is no holder.
      cases hself
      refine iff_of_false ?_ fun h => h.2 rfl
      rintro (hh | hr)
      · rw [hholds, hi.release_once c t lid hpc] at hh
        cases hh
      · rw [hthread, Function.update_self] at hr
        exact hleft lid hr
    · rw [and_iff_left hself]
      refine uses_congr (by rw [hholds]) ?_
      by_cases hk : (c', ThreadId.app t') = (c, ThreadId.app t)
      · -- The same thread, so it is another lock.
        cases hk
        refine release_of_move hthread hpc (fun heq => hself ?_) (hleft lid')
        cases heq
        rfl
      · rw [hthread, Function.update_of_ne hk]
  · rw [hthread, Function.update_self]
    rcases hv with ⟨_, rfl⟩ | ⟨_, rfl⟩
    · rfl
    · rfl

omit [DecidableEq L] in
/-- An operation makes a lock call: nothing has happened to the lock yet. -/
theorem sameHas_of_call {s s' : Sys C T L} {c : C} {t : T} {pc : ThreadPc C L}
    (hpc : s.thread (c, .app t) = .idle) (hmap : s'.lockstateMap = s.lockstateMap)
    (hthread : s'.thread = Function.update s.thread (c, .app t) pc) (hkeeps : pc.keeps = none) :
    SameHas s s' := by
  intro c' lid'
  refine has_congr (by rw [lockstate, hmap]; rfl) fun i => ?_
  rw [hthread, observe_update ThreadPc.keeps hpc hkeeps]

/-- A thread calls `release`, and goes on using the lock until `release` has the mutex. -/
theorem event_callRelease {s s' : Sys C T L} {c : C} {t : T} {lid : L}
    (hpc : s.thread (c, .app t) = .idle) (hh : s.holds (c, t, lid) = true)
    (hmap : s'.lockstateMap = s.lockstateMap)
    (hthread : s'.thread = Function.update s.thread (c, .app t) (.release lid))
    (hholds : s'.holds = Function.update s.holds (c, t, lid) false) :
    Event s (.callRelease c t lid) s' := by
  refine Event.callRelease c t lid s' hpc (sameHas_of_call hpc hmap hthread rfl) ?_
    ⟨?_, request_of_ne hthread⟩
  · intro c' t' lid'
    by_cases hself : (c', t', lid') = (c, t, lid)
    · cases hself
      refine iff_of_true (Or.inr ?_) (Or.inl hh)
      rw [hthread, Function.update_self]
    · refine uses_congr (by rw [hholds, Function.update_of_ne hself]) ?_
      by_cases hk : (c', ThreadId.app t') = (c, ThreadId.app t)
      · -- The thread calls `release` for this lock, and for no other one.
        cases hk
        refine release_of_move hthread hpc ?_ fun heq => hself ?_
        · simp only [ne_eq, reduceCtorEq, not_false_eq_true]
        · cases heq
          rfl
      · rw [hthread, Function.update_of_ne hk]
  · rw [hthread, Function.update_self]
    rfl

/-- The server grants a lock: the client has it as soon as the server has written its name, before
    the answer arrives. -/
theorem event_grant {s s' : Sys C T L} (hi : Token s) {a : Action C T L} (ha : a.plain = true)
    {c : C} {i : ThreadId T} {lid : L} (hpc : s.thread (c, i) = .acquireRpc lid .sent)
    (hfree : (s.whereIsLock lid).join = none) (hmap : s'.lockstateMap = s.lockstateMap)
    (hthread : s'.thread =
      Function.update s.thread (c, i) (.acquireRpc lid (.replied .ok)))
    (hholds : s'.holds = s.holds) : Event s a s' := by
  have hnobody : ∀ c', ¬ Has s c' lid := by
    intro c' hhas
    rw [hi.owner_of_has hhas] at hfree
    cases hfree
  refine Event.grant a c lid s' ha hnobody ?_ ?_ (sameRequests_of_move hthread hpc rfl)
  · intro c' lid'
    by_cases hself : (c', lid') = (c, lid)
    · cases hself
      refine iff_of_true (Or.inr ⟨i, ?_⟩) (Or.inr rfl)
      rw [hthread, Function.update_self]
      rfl
    · rw [or_iff_left hself]
      refine has_congr (by rw [lockstate, hmap]; rfl) fun j =>
        keeps_of_move hthread hpc ?_ ?_ c' j lid' hself
      · intro l hl
        cases hl
      · intro l hl
        cases hl
        rfl
  · refine sameUses_of_move hthread hpc hholds (fun lid' => ?_) fun lid' => ?_
    · simp only [ne_eq, reduceCtorEq, not_false_eq_true]
    · simp only [ne_eq, reduceCtorEq, not_false_eq_true]

/-- The release action is done and the lock goes to the server. The thread was the only place
    where the client had it. -/
theorem event_giveBack {s s' : Sys C T L} (hi : Token s) {c : C} {i : ThreadId T} {lid : L}
    (hpc : s.thread (c, i) = .dorelease lid) (hmap : s'.lockstateMap = s.lockstateMap)
    (hthread : s'.thread = Function.update s.thread (c, i) (.releaseRpc lid .sent))
    (hholds : s'.holds = s.holds) : Event s (.doreleaseReturns c i) s' := by
  have hsame : ∀ c' lid', s'.lockstate c' lid' = s.lockstate c' lid' := by
    intro c' lid'
    rw [lockstate, hmap]
    rfl
  have hcarry : (s.thread (c, i)).carries = some lid := by
    rw [hpc]
    rfl
  refine Event.giveBack c i lid s' hpc ?_ ?_ (sameRequests_of_move hthread hpc rfl)
  · intro c' lid'
    by_cases hself : (c', lid') = (c, lid)
    · cases hself
      refine iff_of_false ?_ fun h => h.2 rfl
      rintro (hown | ⟨j, hkeeps⟩)
      · rw [hsame, hi.carry_state c i lid hcarry] at hown
        cases hown
      · rw [hthread] at hkeeps
        rcases of_update (fun pc : ThreadPc C L => pc.keeps = some lid) hkeeps with
          ⟨_, hnew⟩ | ⟨hk, hold⟩
        · cases hnew
        · -- Another thread would have the lock, too.
          have hj := hi.carry_unique c j i lid (ThreadPc.carries_of_keeps hold) hcarry
          exact hk (congrArg (Prod.mk c) hj)
    · rw [and_iff_left hself]
      refine has_congr (by rw [hsame]) fun j => keeps_of_move hthread hpc ?_ ?_ c' j lid' hself
      · intro l hl
        cases hl
        rfl
      · intro l hl
        cases hl
  · refine sameUses_of_move hthread hpc hholds (fun lid' => ?_) fun lid' => ?_
    · simp only [ne_eq, reduceCtorEq, not_false_eq_true]
    · simp only [ne_eq, reduceCtorEq, not_false_eq_true]

/-- The `give_back` thread takes a lock out of the map and keeps it, so from above nothing
    happens. -/
theorem event_giveBackUpdate {s s' : Sys C T L} {c : C} {lid : L}
    (hpc : s.thread (c, .giveBack) = .tested lid) (hfree : s.lockstate c lid = .free)
    (hmap : s'.lockstateMap = Function.update s.lockstateMap (c, lid) (some .none))
    (hthread : s'.thread = Function.update s.thread (c, .giveBack) (.dorelease lid))
    (hholds : s'.holds = s.holds) : Event s (.giveBackUpdate c) s' := by
  refine Event.quiet _ s' rfl ?_ ?_ (sameRequests_of_move hthread hpc rfl)
  · refine sameHas_move c lid (Or.inl ?_) (Or.inr ⟨.giveBack, ?_⟩) ?_ ?_
    · rw [hfree]
      rfl
    · rw [hthread, Function.update_self]
      rfl
    · intro c' lid' hne
      simp only [lockstate, hmap, Function.update_of_ne hne]
    · refine keeps_of_move hthread hpc ?_ ?_
      · intro l hl
        cases hl
      · intro l hl
        cases hl
        rfl
  · refine sameUses_of_move hthread hpc hholds (fun lid' => ?_) fun lid' => ?_
    · simp only [ne_eq, reduceCtorEq, not_false_eq_true]
    · simp only [ne_eq, reduceCtorEq, not_false_eq_true]

/-- Every step of the protocol is an event. -/
theorem event_of_step {s s' : Sys C T L} {a : Action C T L} (hw : WaitingInv s) (hi : Token s)
    (hok : giveBackFree s a = true) (h : Step s a s') : Event s a s' := by
  -- Three kinds of steps: the calls and returns of the application, the hand-overs between client
  -- and server, and the rest, which only the protocol sees.
  cases h with
  | callAcquire c t lid hpc =>
      refine Event.callAcquire c t lid _ hpc (sameHas_of_call hpc rfl rfl rfl) ?_
        ⟨?_, request_of_ne rfl⟩
      · refine sameUses_of_move rfl hpc rfl (fun lid' => ?_) fun lid' => ?_
        · simp only [ne_eq, reduceCtorEq, not_false_eq_true]
        · simp only [ne_eq, reduceCtorEq, not_false_eq_true]
      · simp only [Function.update_self, ThreadPc.request]
  | acquireFree a c t lid cv ha hst =>
      have hhas : Has s c lid := Or.inl (by rw [hst]; rfl)
      rcases ha.entered with ⟨hpc, rfl, _⟩ | ⟨hpc, rfl⟩
      · exact event_take rfl hhas (hi.unused_of_free hst) (by rw [hpc]; rfl) rfl rfl rfl
      · exact event_take rfl hhas (hi.unused_of_free hst) (by rw [hpc]; rfl) rfl rfl rfl
  | acquireNone a c t lid cv ha hst =>
      exact event_of_turn ha (by rw [hst]) rfl rfl rfl rfl
  | acquireWait a c t lid cv ha hfree hnone => exact event_of_turn ha rfl rfl rfl rfl rfl
  -- The answer was kept by the thread, and becomes an entry of the map.
  | replyOk c t lid hpc =>
      have hkeeps : (s.thread (c, .app t)).keeps = some lid := by
        rw [hpc]
        rfl
      exact event_take rfl (Or.inr ⟨_, hkeeps⟩) (hi.unused_of_keeps hkeeps) (by rw [hpc]; rfl)
        rfl rfl rfl
  | replyRetry c t lid hpc =>
      -- The caller has found the state at `NONE`, and still does.
      have hcall := hi.calling_state c (.app t) lid (by rw [hpc]; rfl)
      exact event_of_move rfl (owned_of_write rfl (by rw [hcall]; rfl)) rfl rfl hpc rfl rfl
  | replyOther c t lid st hpc hne hretry =>
      refine event_of_move rfl (fun _ _ => rfl) rfl rfl hpc ?_ rfl
      cases st with
      | ok => exact absurd rfl hne
      | _ => rfl
  | callRelease c t lid hpc hh => exact event_callRelease hpc hh rfl rfl rfl
  | releaseUnknown c t lid hpc hm hst =>
      -- A lock in use is in the map.
      exfalso
      have huse := hi.uses_state c t lid (Or.inr hpc)
      simp only [lockstate, hst, Option.getD_none, reduceCtorEq, or_self] at huse
  | releaseRevoked c t lid hpc hm hst =>
      exact event_drop hi hpc rfl rfl rfl (Or.inr ⟨rfl, rfl⟩)
  | releaseLocal c t lid hpc hm hsome hst =>
      exact event_drop hi hpc rfl rfl rfl (Or.inl ⟨rfl, rfl⟩)
  | doreleaseReturns c i lid hpc => exact event_giveBack hi hpc rfl rfl rfl
  | giveBackUpdate c lid hpc hm =>
      have hfree := lockstate_of_some s c lid _ (giveBackFree_update s c lid hok hpc)
      exact event_giveBackUpdate hpc hfree rfl rfl rfl
  | serverGrant c i lid hpc hm hfree => exact event_grant hi rfl hpc hfree rfl rfl rfl
  | clientRetry c i lid first hpc hm hcv =>
      -- The client waits, so the state that is overwritten says `ACQUIRING`.
      have hacq := acquiring_of_retrying s hw hi (c, i) first lid hpc hm
      exact event_of_move rfl (owned_of_write rfl (by rw [hacq]; rfl)) rfl rfl hpc rfl rfl
  | clientRevoke c i lid o v hpc hm hv =>
      refine event_of_move rfl (owned_of_write rfl ?_) rfl rfl hpc rfl rfl
      -- A lock in use that is marked is still the client's.
      rcases hv with ⟨hst, rfl⟩ | ⟨_, rfl⟩
      · rw [hst]
        rfl
      · rfl
  | serverRetryReply c i lid hpc =>
      rcases hpc with hpc | hpc
      · exact event_of_move rfl (fun _ _ => rfl) rfl rfl hpc rfl rfl
      · exact event_of_move rfl (fun _ _ => rfl) rfl rfl hpc rfl rfl
  | _ =>
      -- Only the protocol sees the other steps.
      exact event_of_move rfl (fun _ _ => rfl) rfl rfl ‹_› (by rfl) (by rfl)

theorem event_reachable {s s' : Sys C T L} {a : Action C T L}
    (h : Trace.Reaches step (fun s a => giveBackFree s a = true) (init C T L) s)
    (hok : giveBackFree s a = true) (hs : step s a = some s') : Event s a s' :=
  event_of_step (waitingInv_reachable _ s h) (token_reachable s h) hok (step_cases s s' a hs)

/-! ## Refinement -/

/-- The owners and the users of the ideal service are those of the protocol. At most one
    state of the service is like that. -/
structure Realises (s : Sys C T L) (t : IdealLock.Sys C T L) : Prop where
  owner : ∀ lid c, t.owner lid = some c ↔ Has s c lid
  user : ∀ lid c u, t.user lid = some (c, u) ↔ Uses s c u lid

omit [DecidableEq C] [DecidableEq T] [DecidableEq L] in
theorem realises_init : Realises (init C T L) (IdealLock.init C T L) := by
  constructor
  · intro lid c
    simp only [IdealLock.init, init, Has, lockstate, Option.getD_none, ClientLockState.owned,
      ThreadPc.keeps, reduceCtorEq, Bool.false_eq_true, exists_false, or_self]
  · intro lid c u
    simp only [IdealLock.init, init, Uses, reduceCtorEq, Bool.false_eq_true, or_self]

omit [DecidableEq C] [DecidableEq T] [DecidableEq L] in
theorem Realises.owners {s : Sys C T L} {t : IdealLock.Sys C T L} (h : Realises s t) :
    Records t.owner fun c lid => Has s c lid :=
  h.owner

omit [DecidableEq C] [DecidableEq T] [DecidableEq L] in
theorem Realises.users {s : Sys C T L} {t : IdealLock.Sys C T L} (h : Realises s t) :
    Records t.user fun x lid => Uses s x.1 x.2 lid :=
  fun lid x => h.user lid x.1 x.2

omit [DecidableEq C] [DecidableEq T] [DecidableEq L] in
theorem Realises.congr {s s' : Sys C T L} {t : IdealLock.Sys C T L} (h : Realises s t)
    (hhas : SameHas s s') (huses : SameUses s s') : Realises s' t :=
  ⟨fun lid c => (h.owner lid c).trans (hhas c lid).symm,
    fun lid c u => (h.user lid c u).trans (huses c u lid).symm⟩

omit [DecidableEq C] [DecidableEq T] [DecidableEq L] in
theorem Realises.unused {s : Sys C T L} {t : IdealLock.Sys C T L} (h : Realises s t) {lid : L}
    (hfree : ∀ c u, ¬ Uses s c u lid) : t.user lid = none := by
  cases hu : t.user lid with
  | none => rfl
  | some x => exact absurd ((h.user lid x.1 x.2).mp hu) (hfree x.1 x.2)

/-- An event is one action of the ideal service, or none. -/
theorem realises_event {s s' : Sys C T L} {a : Action C T L} (hi : Token s) (h : Event s a s')
    {t : IdealLock.Sys C T L} (ht : Realises s t) :
    Realises s' t ∨ ∃ b t', IdealLock.step t b = some t' ∧ Realises s' t' := by
  cases h with
  | quiet _ _ ha hhas huses hreq => exact Or.inl (ht.congr hhas huses)
  | callAcquire c u lid _ hpc hhas huses hreq => exact Or.inl (ht.congr hhas huses)
  | callRelease c u lid _ hpc hhas huses hreq => exact Or.inl (ht.congr hhas huses)
  | grant _ c lid _ ha hfree hhas huses hreq =>
      have hnone : t.owner lid = none := by
        cases ho : t.owner lid with
        | none => rfl
        | some c' => exact absurd ((ht.owner lid c').mp ho) (hfree c')
      refine Or.inr ⟨.grant lid c, _, if_pos hnone, ?_, ?_⟩
      · refine ht.owners.give hfree fun c' lid' => ?_
        rw [hhas, Prod.mk.injEq]
      · exact fun lid' c' u => (ht.user lid' c' u).trans (huses c' u lid').symm
  -- The user is a thread of a client, so the map of the users is a record of pairs.
  | take _ c u lid _ ha hown hfree hhas huses hasked hreq =>
      have hguard : t.owner lid = some c ∧ t.user lid = none :=
        ⟨(ht.owner lid c).mpr hown, ht.unused hfree⟩
      refine Or.inr ⟨.take lid c u, _, if_pos hguard, ?_, ?_⟩
      · exact fun lid' c' => (ht.owner lid' c').trans (hhas c' lid').symm
      · have huser : Records (Function.update t.user lid (some (c, u)))
            fun x lid => Uses s' x.1 x.2 lid := by
          refine ht.users.give (fun x => hfree x.1 x.2) fun x lid' => ?_
          simp only [huses, Prod.ext_iff, and_assoc]
        exact fun lid' c' u' => huser lid' (c', u')
  | drop c u lid _ huse hhas huses hasked hreq =>
      refine Or.inr ⟨.drop lid c u, _, if_pos ((ht.user lid c u).mpr huse), ?_, ?_⟩
      · exact fun lid' c' => (ht.owner lid' c').trans (hhas c' lid').symm
      · have huser : Records (Function.update t.user lid none)
            fun x lid => Uses s' x.1 x.2 lid := by
          refine ht.users.takeBack (fun x => hi.uses_unique_all huse) fun x lid' => ?_
          simp only [huses, ne_eq, Prod.ext_iff, and_assoc]
        exact fun lid' c' u' => huser lid' (c', u')
  -- The thread that calls `release` at the server keeps the token, so nobody uses the lock.
  | giveBack c i lid _ hpc hhas huses hreq =>
      have hkeeps : (s.thread (c, i)).keeps = some lid := by
        rw [hpc]
        rfl
      have hguard : t.owner lid = some c ∧ t.user lid = none :=
        ⟨(ht.owner lid c).mpr (Or.inr ⟨i, hkeeps⟩), ht.unused (hi.unused_of_keeps hkeeps)⟩
      refine Or.inr ⟨.giveBack lid c, _, if_pos hguard, ?_, ?_⟩
      · refine ht.owners.takeBack (fun c' => hi.has_unique (Or.inr ⟨i, hkeeps⟩)) fun c' lid' => ?_
        rw [hhas, ne_eq, Prod.mk.injEq]
      · exact fun lid' c' u => (ht.user lid' c' u).trans (huses c' u lid').symm

end LockProtocol

end Yfs
