import Yfs.Core.PollMgr
import Yfs.Library.History
import Yfs.Library.Trace

/-!
# `block_remove_fd` Is a Barrier

What `block_remove_fd` promises: after it has returned, the object that was registered for
the descriptor is not called for it any more, until it is registered again.

The loop works without a lock on descriptors that it has copied earlier, so the promise
rests on where it is when a thread is woken. At the call the descriptor is taken out of the
sets (`Going`: an object that is still registered is not watched). The broadcast comes at
the top of the loop, when the descriptors of the last round have been gone through and
those of the next have not been copied, so from then on no copy has the descriptor while
the object is registered for it (`Gone`). Both are kept by every action but a new
registration of the same object, also by the removals and registrations of others.

The promise is about the descriptor. An object that is registered for a second one is
called for that (`called_for_another`).

## Main definitions

* `Unwatched`, `Holds`, `Calls`: What is watched and what the loop is about to do.
* `Going`, `Gone`: The two stages of a removal.
* `Barrier`: The stages, for every call in the history.

## Theorems

* `stepLoop_cases`: What the loop can do.
* `step_effect`: What an action does to one descriptor and one object.
* `Going.step`, `Gone.step`: The stages are kept.
* `barrier_step`: The history and the stages agree.
* `block_remove_fd_barrier`: The promise.
* `called_for_another`: An object with two descriptors.
-/

namespace Yfs

/-- No interest in the descriptor is registered. -/
def SelectAio.Unwatched (a : SelectAio) (fd : Nat) : Prop :=
  a.rfds fd = false ∧ a.wfds fd = false

namespace LoopPc

variable {K : Type}

/-- The loop has the descriptor among those that it still goes through. -/
def Holds : LoopPc K → Nat → Prop
  | .top, _ | .copy, _ => False
  | .select trfds twfds _, fd => trfds fd = true ∨ twfds fd = true
  | .ready readable writable, fd => fd ∈ readable ∨ fd ∈ writable
  | .tested _ fd' readable writable, fd => fd = fd' ∨ fd ∈ readable ∨ fd ∈ writable
  | .loaded _ _ _ readable writable, fd => fd ∈ readable ∨ fd ∈ writable

/-- The loop is about to call this object for this descriptor. -/
def Calls : LoopPc K → Nat → K → Prop
  | .loaded _ fd' ch' _ _, fd, ch => fd = fd' ∧ ch = ch'
  | _, _, _ => False

end LoopPc

namespace PollMgr

variable {K T : Type}

/-- If the object is still registered, the descriptor is not watched. -/
def Going (s : PollMgr K T) (fd : Nat) (ch : K) : Prop :=
  s.callbacks fd = some ch → s.aio.Unwatched fd

/-- The loop does not have the descriptor either, and is not about to call the object. From here on
    only a new registration can bring a call of the object for this descriptor. -/
def Gone (s : PollMgr K T) (fd : Nat) (ch : K) : Prop :=
  (s.callbacks fd = some ch → s.aio.Unwatched fd ∧ ¬ s.loop.Holds fd) ∧ ¬ s.loop.Calls fd ch

/-- What an action that does not register `ch` for `fd` does to the two. -/
structure Effect (s s' : PollMgr K T) (fd : Nat) (ch : K) : Prop where
  kept : s'.callbacks fd = some ch →
    s.callbacks fd = some ch ∧ (s.aio.Unwatched fd → s'.aio.Unwatched fd)
  holds : s'.loop.Holds fd → s.loop.Holds fd ∨ ¬ s.aio.Unwatched fd
  calls : s'.loop.Calls fd ch → s.loop.Calls fd ch ∨ s.loop.Holds fd ∧ s.callbacks fd = some ch

/-- The first stage is kept by everything but a registration. -/
theorem Going.step {s s' : PollMgr K T} {fd : Nat} {ch : K} (h : Going s fd ch)
    (he : Effect s s' fd ch) : Going s' fd ch := by
  intro hch
  rcases he.kept hch with ⟨hold, hunwatched⟩
  exact hunwatched (h hold)

/-- And so is the second, since the loop reads `callbacks_` for descriptors that it has. -/
theorem Gone.step {s s' : PollMgr K T} {fd : Nat} {ch : K} (h : Gone s fd ch)
    (he : Effect s s' fd ch) : Gone s' fd ch := by
  constructor
  · intro hch
    rcases he.kept hch with ⟨hold, hunwatched⟩
    rcases h.1 hold with ⟨hun, hnot⟩
    refine ⟨hunwatched hun, fun hholds => ?_⟩
    -- The loop gets a descriptor only from the sets, and there it is not.
    rcases he.holds hholds with hholds | hwatched
    · exact hnot hholds
    · exact hwatched hun
  · intro hcalls
    rcases he.calls hcalls with hcalls | ⟨hholds, hold⟩
    · exact h.2 hcalls
    · exact (h.1 hold).2 hholds

/-- Before the sets are copied the loop has nothing, so the first stage is the second one then. This
    is why `block_remove_fd` waits for the loop to come to its top. -/
theorem Going.gone_of_copy {s : PollMgr K T} {fd : Nat} {ch : K} (h : Going s fd ch)
    (hloop : s.loop = .copy) : Gone s fd ch := by
  constructor
  · intro hch
    rw [hloop]
    exact ⟨h hch, fun h => h⟩
  · rw [hloop]
    exact fun h => h

/-! ## Actions -/

/-- The search for the highest descriptor leaves the sets alone. -/
theorem unwatchFd_sets {a a' : SelectAio} {fd : Nat} {flag : PollFlag} {gone : Bool}
    (h : a.unwatchFd fd flag = some (gone, a')) :
    ∃ c, a.clear fd flag = some c ∧ a'.rfds = c.rfds ∧ a'.wfds = c.wfds := by
  rcases Option.map_eq_some_iff.mp h with ⟨c, hc, heq⟩
  cases heq
  refine ⟨c, hc, ?_, ?_⟩ <;> split <;> rfl

/-- Clearing a bit of a set. -/
theorem update_false {f : Nat → Bool} {fd x : Nat} (h : f x = false) :
    Function.update f fd false x = false := by
  by_cases hx : x = fd
  · rw [hx]
    exact Function.update_self ..
  · rw [Function.update_of_ne hx]
    exact h

theorem clear_unwatched {a c : SelectAio} {fd : Nat} {flag : PollFlag}
    (h : a.clear fd flag = some c) (x : Nat) (hx : a.Unwatched x) : c.Unwatched x := by
  -- The last two flags fail a `VERIFY`.
  cases flag with
  | rdonly =>
      cases h
      exact ⟨update_false hx.1, hx.2⟩
  | wronly =>
      cases h
      exact ⟨hx.1, update_false hx.2⟩
  | rdwr =>
      cases h
      exact ⟨update_false hx.1, update_false hx.2⟩
  | _ => cases h

/-- `unwatch_fd` watches nothing new. -/
theorem unwatchFd_unwatched {a a' : SelectAio} {fd : Nat} {flag : PollFlag} {gone : Bool}
    (h : a.unwatchFd fd flag = some (gone, a')) (x : Nat) (hx : a.Unwatched x) :
    a'.Unwatched x := by
  rcases unwatchFd_sets h with ⟨c, hc, hr, hw⟩
  rw [SelectAio.Unwatched, hr, hw]
  exact clear_unwatched hc x hx

/-- With both flags the descriptor is not watched afterwards. -/
theorem unwatchFd_rdwr {a a' : SelectAio} {fd : Nat} {gone : Bool}
    (h : a.unwatchFd fd .rdwr = some (gone, a')) : a'.Unwatched fd := by
  rcases unwatchFd_sets h with ⟨c, hc, hr, hw⟩
  rw [SelectAio.Unwatched, hr, hw]
  cases hc
  exact ⟨Function.update_self .., Function.update_self ..⟩

/-- `watch_fd` is about its own descriptor. -/
theorem watchFd_unwatched (a : SelectAio) (fd : Nat) (flag : PollFlag) (x : Nat) (hne : x ≠ fd)
    (hx : a.Unwatched x) : (a.watchFd fd flag).Unwatched x := by
  have hset : ∀ f : Nat → Bool, f x = false → Function.update f fd true x = false := by
    intro f hf
    rw [Function.update_of_ne hne]
    exact hf
  cases flag with
  | rdonly => exact ⟨hset _ hx.1, hx.2⟩
  | wronly => exact ⟨hx.1, hset _ hx.2⟩
  | _ => exact ⟨hset _ hx.1, hset _ hx.2⟩

/-- An entry that is cleared was not made. -/
theorem of_update_none {f : Nat → Option K} {fd x : Nat} {ch : K}
    (h : Function.update f fd none x = some ch) : f x = some ch := by
  by_cases hx : x = fd
  · rw [hx, Function.update_self] at h
    cases h
  · rw [Function.update_of_ne hx] at h
    exact h

/-- An action that leaves the loop alone. -/
theorem Effect.of_loop {s s' : PollMgr K T} {fd : Nat} {ch : K} (hloop : s'.loop = s.loop)
    (hkept : s'.callbacks fd = some ch →
      s.callbacks fd = some ch ∧ (s.aio.Unwatched fd → s'.aio.Unwatched fd)) :
    Effect s s' fd ch := by
  refine ⟨hkept, ?_, ?_⟩
  · rw [hloop]
    exact Or.inl
  · rw [hloop]
    exact Or.inl

/-- An action of the loop. -/
theorem Effect.of_pc {s : PollMgr K T} {fd : Nat} {ch : K} {pc : LoopPc K}
    (hholds : pc.Holds fd → s.loop.Holds fd ∨ ¬ s.aio.Unwatched fd)
    (hcalls : pc.Calls fd ch → s.loop.Calls fd ch ∨ s.loop.Holds fd ∧ s.callbacks fd = some ch) :
    Effect s { s with loop := pc } fd ch :=
  ⟨fun h => ⟨h, fun h => h⟩, hholds, hcalls⟩

/-- The descriptors that are found were in the copy. -/
theorem holds_found {pipefd high : Nat} {tr tw r w : Nat → Bool} {fd : Nat}
    (h : (found (K := K) pipefd high (fun fd => tr fd && r fd)
      (fun fd => tw fd && w fd)).Holds fd) :
    tr fd = true ∨ tw fd = true := by
  simp only [found, LoopPc.Holds, List.mem_filter, Bool.and_eq_true] at h
  rcases h with ⟨_, _, h, _⟩ | ⟨_, _, h, _⟩
  · exact Or.inl h
  · exact Or.inr h

/-- The test takes the first descriptor, or nothing is left. -/
theorem holds_test (s : PollMgr K T) (readable writable : List Nat) (fd : Nat)
    (h : (s.test readable writable).Holds fd) : fd ∈ readable ∨ fd ∈ writable := by
  unfold test at h
  split at h
  -- The descriptors to be read come first.
  · split at h
    · rcases h with rfl | h | h
      · exact Or.inl List.mem_cons_self
      · exact Or.inl (List.mem_cons_of_mem _ h)
      · exact Or.inr h
    · rcases h with h | h
      · exact Or.inl (List.mem_cons_of_mem _ h)
      · exact Or.inr h
  · split at h
    · rcases h with rfl | h | h
      · exact Or.inr List.mem_cons_self
      · exact Or.inl h
      · exact Or.inr (List.mem_cons_of_mem _ h)
    · rcases h with h | h
      · exact Or.inl h
      · exact Or.inr (List.mem_cons_of_mem _ h)
  · exact absurd h fun h => h

theorem calls_test (s : PollMgr K T) (readable writable : List Nat) (fd : Nat) (ch : K) :
    ¬ (s.test readable writable).Calls fd ch := by
  unfold test
  split
  · split <;> exact fun h => h
  · split <;> exact fun h => h
  · exact fun h => h

/-- Where the loop can go from where it is, its top apart. -/
inductive LoopMoves (s : PollMgr K T) : LoopPc K → Prop where
  | copy : s.loop = .copy → LoopMoves s (.select s.aio.rfds s.aio.wfds s.aio.highfds)
  | selected {trfds twfds : Nat → Bool} {high : Nat} (r w : Nat → Bool) :
      s.loop = .select trfds twfds high → LoopMoves s
        (found s.aio.pipefd high (fun fd => trfds fd && r fd) (fun fd => twfds fd && w fd))
  | test {readable writable : List Nat} :
      s.loop = .ready readable writable → LoopMoves s (s.test readable writable)
  | load {write : Bool} {fd : Nat} {ch : K} {readable writable : List Nat} :
      s.loop = .tested write fd readable writable → s.callbacks fd = some ch →
      LoopMoves s (.loaded write fd ch readable writable)
  | invoke {write : Bool} {fd : Nat} {ch : K} {readable writable : List Nat} :
      s.loop = .loaded write fd ch readable writable → LoopMoves s (.ready readable writable)

/-- An action of the loop is the section at its top, or it only moves on. -/
theorem stepLoop_cases {s s' : PollMgr K T} {a : LoopAction} (h : s.stepLoop a = some s') :
    s' = s.loopTop ∨ ∃ pc, s.LoopMoves pc ∧ s' = { s with loop := pc } := by
  unfold stepLoop at h
  split at h
  · split at h
    · cases h
      exact Or.inl rfl
    · cases h
  · split at h
    · rename_i hloop
      cases h
      exact Or.inr ⟨_, LoopMoves.copy hloop, rfl⟩
    · cases h
  · split at h
    · rename_i hloop
      cases h
      exact Or.inr ⟨_, LoopMoves.selected _ _ hloop, rfl⟩
    · cases h
  · split at h
    · rename_i hloop
      cases h
      exact Or.inr ⟨_, LoopMoves.test hloop, rfl⟩
    · cases h
  · split at h
    · rename_i hloop
      rcases Option.map_eq_some_iff.mp h with ⟨ch, hch, rfl⟩
      exact Or.inr ⟨_, LoopMoves.load hloop hch, rfl⟩
    · cases h
  · split at h
    · rename_i hloop
      cases h
      exact Or.inr ⟨_, LoopMoves.invoke hloop, rfl⟩
    · cases h

/-- The section at the top touches the threads that wait and nothing else. -/
theorem loopTop_eq (s : PollMgr K T) :
    s.loopTop.loop = .copy ∧ s.loopTop.callbacks = s.callbacks ∧ s.loopTop.aio = s.aio := by
  unfold loopTop
  split
  · exact ⟨rfl, rfl, rfl⟩
  · exact ⟨rfl, rfl, rfl⟩

theorem effect_stepLoop {s s' : PollMgr K T} {a : LoopAction} (h : s.stepLoop a = some s')
    (fd : Nat) (ch : K) : Effect s s' fd ch := by
  rcases stepLoop_cases h with rfl | ⟨pc, hpc, rfl⟩
  -- At its top the loop has no descriptors.
  · rcases s.loopTop_eq with ⟨hloop, hcallbacks, haio⟩
    refine ⟨?_, ?_, ?_⟩
    · rw [hcallbacks, haio]
      exact fun hch => ⟨hch, id⟩
    · rw [hloop]
      exact False.elim
    · rw [hloop]
      exact False.elim
  · cases hpc with
    -- A descriptor that is copied is watched.
    | copy hloop =>
        refine Effect.of_pc (fun hholds => Or.inr fun hun => ?_) False.elim
        rcases hholds with hr | hw
        · rw [hun.1] at hr
          cases hr
        · rw [hun.2] at hw
          cases hw
    -- What `select` reports was in the copy.
    | selected r w hloop =>
        refine Effect.of_pc (fun hholds => Or.inl ?_) False.elim
        rw [hloop]
        exact holds_found hholds
    | test hloop =>
        refine Effect.of_pc (fun hholds => Or.inl ?_) fun hcalls => ?_
        · rw [hloop]
          exact holds_test s _ _ fd hholds
        · exact absurd hcalls (calls_test s _ _ fd ch)
    | load hloop hch =>
        refine Effect.of_pc (fun hholds => Or.inl ?_) fun hcalls => Or.inr ?_
        · rw [hloop]
          exact Or.inr hholds
        · -- The object is read for the descriptor that has been tested.
          rcases hcalls with ⟨rfl, rfl⟩
          rw [hloop]
          exact ⟨Or.inl rfl, hch⟩
    | invoke hloop =>
        refine Effect.of_pc (fun hholds => Or.inl ?_) False.elim
        rw [hloop]
        exact hholds

variable [DecidableEq K] [DecidableEq T]

theorem step_addCallback {s s' : PollMgr K T} {fd : Nat} {flag : PollFlag} {ch : K}
    (h : s.step (.addCallback fd flag ch) = some s') :
    s' = { s with
      aio := s.aio.watchFd fd flag
      callbacks := Function.update s.callbacks fd (some ch) } := by
  simp only [step, addCallback, Option.ite_none_right_eq_some, Option.some.injEq] at h
  exact h.2.symm

theorem step_delCallback {s s' : PollMgr K T} {fd : Nat} {flag : PollFlag}
    (h : s.step (.delCallback fd flag) = some s') :
    ∃ gone aio, s.aio.unwatchFd fd flag = some (gone, aio) ∧ s' = { s with
      aio
      callbacks := if gone then Function.update s.callbacks fd none else s.callbacks } := by
  simp only [step, delCallback, Option.ite_none_right_eq_some] at h
  rcases Option.map_eq_some_iff.mp h.2 with ⟨⟨gone, aio⟩, haio, heq⟩
  exact ⟨gone, aio, haio, heq.symm⟩

theorem step_blockRemove {s s' : PollMgr K T} {t : T} {fd : Nat}
    (h : s.step (.blockRemove t fd) = some s') :
    ∃ gone aio, s.aio.unwatchFd fd .rdwr = some (gone, aio) ∧ s' = { s with
      aio
      pendingChange := true
      remover := Function.update s.remover t (.waiting fd) } := by
  simp only [step, blockRemove, Option.ite_none_right_eq_some] at h
  rcases Option.map_eq_some_iff.mp h.2.2 with ⟨⟨gone, aio⟩, haio, heq⟩
  exact ⟨gone, aio, haio, heq.symm⟩

theorem step_removed {s s' : PollMgr K T} {t : T} (h : s.step (.removed t) = some s') :
    ∃ fd, s.remover t = .woken fd ∧ s' = s.removed t fd := by
  simp only [step] at h
  split at h
  · rename_i fd hfd
    cases h
    exact ⟨fd, hfd, rfl⟩
  · cases h

/-- Every action but a registration of the object for the descriptor. -/
theorem step_effect {s s' : PollMgr K T} {a : PollAction K T} (h : s.step a = some s')
    (fd : Nat) (ch : K) (hne : ∀ flag, a ≠ .addCallback fd flag ch) : Effect s s' fd ch := by
  cases a with
  | addCallback fd' flag ch' =>
      rw [step_addCallback h]
      refine Effect.of_loop rfl fun hch => ?_
      dsimp only at hch
      -- For this descriptor it is another object, which takes the place of this one.
      by_cases hfd : fd = fd'
      · subst hfd
        rw [Function.update_self] at hch
        cases hch
        exact absurd rfl (hne flag)
      · rw [Function.update_of_ne hfd] at hch
        exact ⟨hch, watchFd_unwatched s.aio fd' flag fd hfd⟩
  -- `del_callback` clears the entry when neither interest is left.
  | delCallback fd' flag =>
      rcases step_delCallback h with ⟨gone, aio, haio, rfl⟩
      refine Effect.of_loop rfl fun hch => ⟨?_, unwatchFd_unwatched haio fd⟩
      cases gone with
      | true => exact of_update_none hch
      | false => exact hch
  | blockRemove t fd' =>
      rcases step_blockRemove h with ⟨gone, aio, haio, rfl⟩
      exact Effect.of_loop rfl fun hch => ⟨hch, unwatchFd_unwatched haio fd⟩
  | removed t =>
      rcases step_removed h with ⟨fd', _, rfl⟩
      exact Effect.of_loop rfl fun hch => ⟨of_update_none hch, fun h => h⟩
  | loop a => exact effect_stepLoop h fd ch

omit [DecidableEq K] [DecidableEq T] in
/-- The loop wakes threads at its top. -/
theorem stepLoop_remover {s s' : PollMgr K T} {a : LoopAction} (h : s.stepLoop a = some s') :
    s'.remover = s.remover ∨ s'.loop = .copy := by
  rcases stepLoop_cases h with rfl | ⟨pc, _, rfl⟩
  · exact Or.inr s.loopTop_eq.1
  · exact Or.inl rfl

/-- A thread that is awake was so before, or the loop is at its top. -/
theorem step_woken {s s' : PollMgr K T} {a : PollAction K T} (h : s.step a = some s') {t : T}
    {fd : Nat} (hw : s'.remover t = .woken fd) : s.remover t = .woken fd ∨ s'.loop = .copy := by
  cases a with
  | addCallback fd' flag ch =>
      rw [step_addCallback h] at hw
      exact Or.inl hw
  | delCallback fd' flag =>
      rcases step_delCallback h with ⟨gone, aio, _, rfl⟩
      exact Or.inl hw
  -- The thread that calls is waiting now, and not awake.
  | blockRemove t' fd' =>
      rcases step_blockRemove h with ⟨gone, aio, _, rfl⟩
      dsimp only at hw
      by_cases ht : t = t'
      · rw [ht, Function.update_self] at hw
        cases hw
      · rw [Function.update_of_ne ht] at hw
        exact Or.inl hw
  | removed t' =>
      rcases step_removed h with ⟨fd', _, rfl⟩
      dsimp only [removed] at hw
      by_cases ht : t = t'
      · rw [ht, Function.update_self] at hw
        cases hw
      · rw [Function.update_of_ne ht] at hw
        exact Or.inl hw
  | loop a =>
      rcases stepLoop_remover h with hsame | hcopy
      · rw [hsame] at hw
        exact Or.inl hw
      · exact Or.inr hcopy

end PollMgr

/-! ## Histories -/

namespace PollRun

variable {K T : Type} [DecidableEq K] [DecidableEq T]

/-- Every call of `block_remove_fd` that is not followed by a new registration of its
    object is at the first stage, and at the second one if its thread has been woken. -/
structure Barrier (s : PollRun K T) : Prop where
  going : ∀ pre t fd ch mid, s.events = pre ++ .called t fd (some ch) :: mid →
    .added fd ch ∉ mid → s.mgr.Going fd ch
  gone : ∀ pre t fd ch mid, s.events = pre ++ .called t fd (some ch) :: mid →
    .added fd ch ∉ mid → (.returned t ∈ mid ∨ ∃ fd', s.mgr.remover t = .woken fd') →
    s.mgr.Gone fd ch
  safe : ∀ pre t fd ch mid mid' write post,
    s.events = pre ++ .called t fd (some ch) ::
      (mid ++ .returned t :: (mid' ++ .invoked write fd ch :: post)) →
    .added fd ch ∈ mid ∨ .added fd ch ∈ mid'

omit [DecidableEq K] [DecidableEq T] in
/-- Which actions the events stand for. -/
theorem event_called {s : PollMgr K T} {a : PollAction K T} {t : T} {fd : Nat} {o : Option K}
    (h : event s a = some (.called t fd o)) : a = .blockRemove t fd := by
  cases a with
  | blockRemove t' fd' =>
      cases h
      rfl
  | loop a =>
      cases a with
      | invoke =>
          simp only [event] at h
          split at h <;> cases h
      | _ => cases h
  | _ => cases h

omit [DecidableEq K] [DecidableEq T] in
theorem event_returned {s : PollMgr K T} {a : PollAction K T} {t : T}
    (h : event s a = some (.returned t)) : a = .removed t := by
  cases a with
  | removed t' =>
      cases h
      rfl
  | loop a =>
      cases a with
      | invoke =>
          simp only [event] at h
          split at h <;> cases h
      | _ => cases h
  | _ => cases h

omit [DecidableEq K] [DecidableEq T] in
theorem event_invoked {s : PollMgr K T} {a : PollAction K T} {write : Bool} {fd : Nat} {ch : K}
    (h : event s a = some (.invoked write fd ch)) : s.loop.Calls fd ch := by
  cases a with
  | loop a =>
      cases a with
      | invoke =>
          simp only [event] at h
          split at h
          · rename_i hloop
            cases h
            rw [hloop]
            exact ⟨rfl, rfl⟩
          · cases h
      | _ => cases h
  | _ => cases h

section Step

variable {s : PollRun K T} {a : PollAction K T} {mgr : PollMgr K T} (hb : Barrier s)
  (hstep : s.mgr.step a = some mgr)

include hstep

/-- A call that is not followed by a new registration is the one just made, or it was
    there before and the step does not register its object. -/
theorem call_split {pre mid : List (PollEvent K T)} {t : T} {fd : Nat} {ch : K}
    (heq : s.events ++ (event s.mgr a).toList = pre ++ .called t fd (some ch) :: mid)
    (hadded : .added fd ch ∉ mid) :
    (a = .blockRemove t fd ∧ mid = []) ∨
      ∃ mid₀, s.events = pre ++ .called t fd (some ch) :: mid₀ ∧ .added fd ch ∉ mid₀ ∧
        mid = mid₀ ++ (event s.mgr a).toList ∧ s.mgr.Effect mgr fd ch := by
  rcases History.step_split heq with ⟨_, hevent, hmid⟩ | ⟨mid₀, rfl, hold⟩
  · exact Or.inl ⟨event_called hevent, hmid⟩
  -- The step adds one event at most, and it is not a registration of this object.
  · refine Or.inr ⟨mid₀, hold, fun h => hadded (List.mem_append_left _ h), rfl, ?_⟩
    refine PollMgr.step_effect hstep fd ch ?_
    rintro flag rfl
    exact hadded (List.mem_append_right _ List.mem_cons_self)

include hb

/-- The call itself brings the first stage, and the steps after it keep it. -/
theorem barrier_going {pre mid : List (PollEvent K T)} {t : T} {fd : Nat} {ch : K}
    (heq : s.events ++ (event s.mgr a).toList = pre ++ .called t fd (some ch) :: mid)
    (hadded : .added fd ch ∉ mid) : mgr.Going fd ch := by
  rcases call_split hstep heq hadded with ⟨rfl, _⟩ | ⟨mid₀, hold, hadded₀, _, heffect⟩
  -- Both interests are taken away under the mutex, before the wait.
  · rcases PollMgr.step_blockRemove hstep with ⟨gone, aio, haio, rfl⟩
    exact fun _ => PollMgr.unwatchFd_rdwr haio
  · exact (hb.going pre t fd ch mid₀ hold hadded₀).step heffect

/-- The thread of a call is woken at the top of the loop, which is where the second stage is
    reached; it is still there when the thread returns. -/
theorem barrier_gone {pre mid : List (PollEvent K T)} {t : T} {fd : Nat} {ch : K}
    (heq : s.events ++ (event s.mgr a).toList = pre ++ .called t fd (some ch) :: mid)
    (hadded : .added fd ch ∉ mid)
    (hwoken : .returned t ∈ mid ∨ ∃ fd', mgr.remover t = .woken fd') : mgr.Gone fd ch := by
  have hgoing := barrier_going hb hstep heq hadded
  rcases call_split hstep heq hadded with ⟨rfl, rfl⟩ | ⟨mid₀, hold, hadded₀, rfl, heffect⟩
  · -- The thread of the call that has just been made waits.
    rcases hwoken with hret | ⟨fd', hw⟩
    · exact absurd hret List.not_mem_nil
    · rcases PollMgr.step_blockRemove hstep with ⟨gone, aio, _, rfl⟩
      dsimp only at hw
      rw [Function.update_self] at hw
      cases hw
  · have hbefore := hb.gone pre t fd ch mid₀ hold hadded₀
    rcases hwoken with hret | ⟨fd', hw⟩
    · rcases List.mem_append.mp hret with hret | hret
      · exact (hbefore (Or.inl hret)).step heffect
      -- The thread returns in this step, so it had been woken before.
      · have ha := event_returned (Option.mem_toList.mp hret)
        rw [ha] at hstep
        rcases PollMgr.step_removed hstep with ⟨fd', hw, _⟩
        exact (hbefore (Or.inr ⟨fd', hw⟩)).step heffect
    · rcases PollMgr.step_woken hstep hw with hw | hcopy
      · exact (hbefore (Or.inr ⟨fd', hw⟩)).step heffect
      · exact hgoing.gone_of_copy hcopy

end Step

/-- An action keeps what holds of the calls so far, and it does not call an object that is at the
    second stage. -/
theorem barrier_step (s : PollRun K T) (a : PollAction K T) (s' : PollRun K T) (hb : Barrier s)
    (h : s.step a = some s') : Barrier s' := by
  rcases Option.map_eq_some_iff.mp h with ⟨mgr, hstep, rfl⟩
  refine ⟨fun pre t fd ch mid heq hadded => barrier_going hb hstep heq hadded,
    fun pre t fd ch mid heq hadded hw => barrier_gone hb hstep heq hadded hw, ?_⟩
  intro pre t fd ch mid mid' write post heq
  -- The call of the object is the last event, or it was there before.
  have hassoc : s.events ++ (event s.mgr a).toList =
      (pre ++ .called t fd (some ch) :: (mid ++ .returned t :: mid')) ++
        .invoked write fd ch :: post := by
    refine heq.trans ?_
    simp only [List.append_assoc, List.cons_append]
  rcases History.step_split hassoc with ⟨hpre, hevent, _⟩ | ⟨post₀, _, hold⟩
  · -- The object is called now, so its removal is not at the second stage.
    by_contra hnone
    have hadded : .added fd ch ∉ mid ++ .returned t :: mid' := by
      intro hmem
      rcases List.mem_append.mp hmem with hmem | hmem
      · exact hnone (Or.inl hmem)
      · rcases List.mem_cons.mp hmem with hmem | hmem
        · cases hmem
        · exact hnone (Or.inr hmem)
    have hgone := hb.gone pre t fd ch _ hpre.symm hadded
      (Or.inl (List.mem_append_right _ List.mem_cons_self))
    exact hgone.2 (event_invoked hevent)
  · refine hb.safe pre t fd ch mid mid' write post₀ ?_
    rw [hold]
    simp only [List.append_assoc, List.cons_append]

omit [DecidableEq K] [DecidableEq T] in
theorem barrier_new (pipefd : Nat) : Barrier (new K T pipefd) where
  going := fun pre _ _ _ _ heq => by cases pre <;> cases heq
  gone := fun pre _ _ _ _ heq => by cases pre <;> cases heq
  safe := fun pre _ _ _ _ _ _ _ heq => by cases pre <;> cases heq

/-- In every run: between the call of `block_remove_fd` and a call of the object that was registered
    then, for the same descriptor, after `block_remove_fd` has returned, the object has been
    registered for the descriptor again. The loop may be anywhere when `block_remove_fd` is called,
    and other threads may add and remove callbacks meanwhile. -/
theorem block_remove_fd_barrier (pipefd : Nat) (s : PollRun K T)
    (h : Trace.Reaches step Trace.Always (new K T pipefd) s) :
    ∀ pre t fd ch mid mid' write post,
      s.events = pre ++ .called t fd (some ch) ::
        (mid ++ .returned t :: (mid' ++ .invoked write fd ch :: post)) →
      .added fd ch ∈ mid ∨ .added fd ch ∈ mid' :=
  (Trace.invariant_of_step Barrier (barrier_new pipefd)
    (fun s a s' hb _ hs => barrier_step s a s' hb hs) h).safe

/-- An object that is registered again after its removal is called again. -/
theorem barrier_registered_again :
    ∃ s : PollRun Unit Unit, Trace.Reaches step Trace.Always (new Unit Unit 5) s ∧
      s.events =
        [.added 3 (), .called () 3 (some ()), .returned (), .added 3 (), .invoked false 3 ()] ∧
      (PollEvent.added 3 () ∈ ([] : List (PollEvent Unit Unit)) ∨
        PollEvent.added 3 () ∈ [(.added 3 () : PollEvent Unit Unit)]) := by
  have h : Trace.Reaches step Trace.Always (new Unit Unit 5) _ := Trace.reaches_always_of_run
    [.addCallback 3 .rdonly (), .blockRemove () 3, .loop .top, .removed (),
      .addCallback 3 .rdonly (), .loop .copy, .loop (.selected (fun _ => true) fun _ => true),
      .loop .test, .loop .load, .loop .invoke] rfl
  exact ⟨_, h, rfl,
    block_remove_fd_barrier 5 _ h [.added 3 ()] () 3 () [] [.added 3 ()] false [] rfl⟩

/-- An object with two descriptors is called for the other one after the removal of the
    first, without having been registered again. -/
theorem called_for_another :
    ∃ s : PollRun Unit Unit, Trace.Reaches step Trace.Always (new Unit Unit 5) s ∧
      s.events = [.added 3 (), .added 4 (), .called () 3 (some ()), .returned (),
        .invoked false 4 ()] :=
  ⟨_, Trace.reaches_always_of_run
    [.addCallback 3 .rdonly (), .addCallback 4 .rdonly (), .blockRemove () 3, .loop .top,
      .removed (), .loop .copy, .loop (.selected (fun _ => true) fun _ => true), .loop .test,
      .loop .load, .loop .invoke] rfl, rfl⟩

end PollRun

end Yfs
