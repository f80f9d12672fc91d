import Yfs.Core.Handle
import Yfs.Library.Trace

/-!
# Reference Counts of Handles

Every `hinfo` that has not been deleted is in `hmap` under its own name, and its `refcnt`
is the number of handles that point to it. So an `hinfo` is not deleted while there is a
handle on it, and that holds in every run (`inv_reachable`).

Whether a handle can be created on an `hinfo` that is to be deleted is another matter.
`get_handle` looks at `del` first, under `handle_mutex`. The paths that set `del` hold that
mutex too, except the one in `safebind` after a bind that failed, which holds only the
`cl_mutex` of the `hinfo`: it can come between the test and the increment
(`created_on_deleted`). `Undisturbed` excludes that.

## Main definitions

* `Inv`: The counters, the map and the heap agree.
* `Counted`: What that says about the handles.
* `Undisturbed`: No bind fails on an `hinfo` that `get_handle` has just tested.

## Theorems

* `inv_update`, `inv_create`, `inv_remove`: The effects.
* `inv_step`, `inv_reachable`: Every run.
* `tested_step`: What a constructor has tested stays as it is.
* `handles_sound`: The handles of every run, and of those under the condition.
* `created_on_deleted`: A handle that is created too late.
-/

namespace Yfs

namespace HandleMgr

variable {N : Type}

/-- The map, the counters and the heap agree. -/
structure Inv (s : HandleMgr N) : Prop where
  mapped : ∀ m a, s.hmap m = some a → ∃ i, s.heap a = some i ∧ i.m = m
  named : ∀ a i, s.heap a = some i → s.hmap i.m = some a
  counted : ∀ a i, s.heap a = some i → i.refcnt = s.handles.count (some a)
  live : ∀ a, some a ∈ s.handles → ∃ i, s.heap a = some i
  bound : ∀ a, s.binding a = true → some a ∈ s.handles
  fresh : ∀ a i, s.heap a = some i → a < s.next
  zero : ∀ e ∈ s.removed, e.2 = 0

/-- Every handle that is not null points to an `hinfo` that is there, under its own name,
    and that counts the handles; and what was removed had no handle. -/
def Counted (s : HandleMgr N) : Prop :=
  (∀ a, some a ∈ s.handles →
    ∃ i, s.heap a = some i ∧ s.hmap i.m = some a ∧ i.refcnt = s.handles.count (some a)) ∧
  ∀ e ∈ s.removed, e.2 = 0

/-- What is wanted of the handles is a part of the invariant. -/
theorem Inv.handles_counted {s : HandleMgr N} (hi : Inv s) : Counted s := by
  refine ⟨fun a ha => ?_, hi.zero⟩
  rcases hi.live a ha with ⟨i, hheap⟩
  exact ⟨i, hheap, hi.named a i hheap, hi.counted a i hheap⟩

/-- At first there are no handles. -/
theorem inv_new : Inv (new N) where
  mapped := fun _ _ h => by cases h
  named := fun _ _ h => by cases h
  counted := fun _ _ h => by cases h
  live := fun _ h => absurd h List.not_mem_nil
  bound := fun _ h => by cases h
  fresh := fun _ _ h => by cases h
  zero := fun _ h => absurd h List.not_mem_nil

/-! ## Effects -/

/-- What is found where an entry has been written is that entry, or it was there before. -/
theorem update_eq_some {α β : Type} [DecidableEq α] {f : α → Option β} {a b : α} {v j : β}
    (h : Function.update f a (some v) b = some j) : b = a ∧ v = j ∨ b ≠ a ∧ f b = some j := by
  by_cases hba : b = a
  · rw [hba, Function.update_self] at h
    exact Or.inl ⟨hba, Option.some.inj h⟩
  · rw [Function.update_of_ne hba] at h
    exact Or.inr ⟨hba, h⟩

/-- Changing an `hinfo` under its name, with handles that its counter still counts. Every section
    under `handle_mutex` that neither creates nor removes an `hinfo` is such a change. -/
theorem inv_update {s : HandleMgr N} (hi : Inv s) {a : Nat} {i : HInfo N}
    (ha : s.heap a = some i) (i' : HInfo N) (hm : i'.m = i.m) (handles : List (Option Nat))
    (hcount : i'.refcnt = handles.count (some a))
    (hother : ∀ b, b ≠ a → handles.count (some b) = s.handles.count (some b))
    (binding : Nat → Bool) (hbound : ∀ b, binding b = true → some b ∈ handles)
    (getting : Option Nat) (created : List (Nat × Bool)) :
    Inv { s with
      heap := Function.update s.heap a (some i')
      handles, binding, getting, created } := by
  refine ⟨?_, ?_, ?_, ?_, hbound, ?_, hi.zero⟩
  · intro m b hb
    rcases hi.mapped m b hb with ⟨j, hj, hname⟩
    by_cases hba : b = a
    · subst hba
      rw [ha] at hj
      cases hj
      exact ⟨i', Function.update_self .., hm.trans hname⟩
    · exact ⟨j, (Function.update_of_ne hba ..).trans hj, hname⟩
  · intro b j hj
    rcases update_eq_some hj with ⟨rfl, rfl⟩ | ⟨_, hj⟩
    · rw [hm]
      exact hi.named b i ha
    · exact hi.named b j hj
  · intro b j hj
    rcases update_eq_some hj with ⟨rfl, rfl⟩ | ⟨hba, hj⟩
    · exact hcount
    · rw [hi.counted b j hj, hother b hba]
  · intro b hb
    by_cases hba : b = a
    · subst hba
      exact ⟨i', Function.update_self ..⟩
    -- Another `hinfo` has as many handles as before, so there is still one.
    · have hpos : 0 < s.handles.count (some b) := by
        rw [← hother b hba]
        exact List.count_pos_iff.mpr hb
      rcases hi.live b (List.count_pos_iff.mp hpos) with ⟨j, hj⟩
      exact ⟨j, (Function.update_of_ne hba ..).trans hj⟩
  · intro b j hj
    rcases update_eq_some hj with ⟨rfl, _⟩ | ⟨_, hj⟩
    · exact hi.fresh b i ha
    · exact hi.fresh b j hj

/-- A null handle is none that counts. -/
theorem inv_null {s : HandleMgr N} (hi : Inv s) (handles : List (Option Nat))
    (hcount : ∀ a, handles.count (some a) = s.handles.count (some a)) :
    Inv { s with handles } := by
  have hmem : ∀ a, some a ∈ handles ↔ some a ∈ s.handles := by
    intro a
    rw [← List.count_pos_iff, ← List.count_pos_iff, hcount a]
  refine ⟨hi.mapped, hi.named, ?_, ?_, ?_, hi.fresh, hi.zero⟩
  · intro a i ha
    rw [hi.counted a i ha, hcount a]
  · exact fun a ha => hi.live a ((hmem a).mp ha)
  · exact fun a ha => (hmem a).mpr (hi.bound a ha)

variable [DecidableEq N]

/-- A destination that is not known gets a new `hinfo`, with a counter of 1 for the handle that it
    is created for. -/
theorem inv_create {s : HandleMgr N} (hi : Inv s) (m : N) (hm : s.hmap m = none) :
    Inv { s with
      heap := Function.update s.heap s.next (some ⟨false, 1, false, m⟩)
      next := s.next + 1
      hmap := Function.update s.hmap m (some s.next)
      handles := s.handles ++ [some s.next]
      created := s.created ++ [(s.next, false)] } := by
  have hunused : s.heap s.next = none := by
    cases h : s.heap s.next with
    | none => rfl
    | some i => exact absurd (hi.fresh _ i h) (Nat.lt_irrefl _)
  have hnone : s.handles.count (some s.next) = 0 := by
    rw [List.count_eq_zero]
    intro hmem
    rcases hi.live _ hmem with ⟨i, h⟩
    rw [hunused] at h
    cases h
  -- An `hinfo` that was there has another address and another name.
  have hold : ∀ a i, s.heap a = some i → a ≠ s.next ∧ i.m ≠ m := by
    intro a i ha
    constructor
    · rintro rfl
      rw [hunused] at ha
      cases ha
    · rintro rfl
      rw [hi.named a i ha] at hm
      cases hm
  refine ⟨?_, ?_, ?_, ?_, ?_, ?_, hi.zero⟩
  · intro m' a ha
    rcases update_eq_some ha with ⟨rfl, rfl⟩ | ⟨_, ha⟩
    · exact ⟨_, Function.update_self .., rfl⟩
    · rcases hi.mapped m' a ha with ⟨i, h, hname⟩
      exact ⟨i, (Function.update_of_ne (hold a i h).1 ..).trans h, hname⟩
  · intro a i ha
    rcases update_eq_some ha with ⟨rfl, rfl⟩ | ⟨_, ha⟩
    · exact Function.update_self ..
    · exact (Function.update_of_ne (hold a i ha).2 ..).trans (hi.named a i ha)
  · intro a i ha
    dsimp only
    rw [List.count_append, List.count_singleton]
    rcases update_eq_some ha with ⟨rfl, rfl⟩ | ⟨haa, ha⟩
    · rw [hnone]
      simp only [beq_self_eq_true, if_true]
      rfl
    · rw [hi.counted a i ha, if_neg (by simpa using Ne.symm haa), Nat.add_zero]
  · intro a ha
    by_cases haa : a = s.next
    · subst haa
      exact ⟨_, Function.update_self ..⟩
    · rcases List.mem_append.mp ha with ha | ha
      · rcases hi.live a ha with ⟨i, h⟩
        exact ⟨i, (Function.update_of_ne haa ..).trans h⟩
      · exact absurd (Option.some.inj (List.mem_singleton.mp ha)) haa
  · exact fun a ha => List.mem_append_left _ (hi.bound a ha)
  · intro a i ha
    rcases update_eq_some ha with ⟨rfl, _⟩ | ⟨_, ha⟩
    · exact Nat.lt_succ_self _
    · exact Nat.lt_succ_of_lt (hi.fresh a i ha)

/-- What is removed has no handle, so nothing points to it. -/
theorem inv_remove {s : HandleMgr N} (hi : Inv s) (m : N) {a : Nat} {i : HInfo N}
    (hm : s.hmap m = some a) (ha : s.heap a = some i) (hzero : i.refcnt = 0) :
    Inv { s with
      heap := Function.update s.heap a none
      hmap := Function.update s.hmap m none
      removed := s.removed ++ [(a, i.refcnt)] } := by
  -- The counter is zero, and it counts the handles.
  have hnone : some a ∉ s.handles := by
    have hcount := hi.counted a i ha
    rw [hzero] at hcount
    exact List.count_eq_zero.mp (by omega)
  have hname : i.m = m := by
    rcases hi.mapped m a hm with ⟨j, hj, hname⟩
    rw [ha] at hj
    cases hj
    exact hname
  -- What is left has another address and another name.
  have hleft : ∀ b j, Function.update s.heap a none b = some j →
      s.heap b = some j ∧ j.m ≠ m := by
    intro b j hj
    by_cases hba : b = a
    · subst hba
      cases (Function.update_self ..).symm.trans hj
    · have h := (Function.update_of_ne hba ..).symm.trans hj
      refine ⟨h, fun hjm => hba ?_⟩
      have hb := hi.named b j h
      rw [hjm, hm] at hb
      exact (Option.some.inj hb).symm
  refine ⟨?_, ?_, ?_, ?_, hi.bound, ?_, ?_⟩
  · intro m' b hb
    by_cases hmm : m' = m
    · subst hmm
      cases (Function.update_self ..).symm.trans hb
    · rcases hi.mapped m' b ((Function.update_of_ne hmm ..).symm.trans hb) with ⟨j, hj, hjm⟩
      have hba : b ≠ a := by
        rintro rfl
        rw [ha] at hj
        cases hj
        exact hmm (hjm.symm.trans hname)
      exact ⟨j, (Function.update_of_ne hba ..).trans hj, hjm⟩
  · intro b j hj
    rcases hleft b j hj with ⟨h, hjm⟩
    exact (Function.update_of_ne hjm ..).trans (hi.named b j h)
  · exact fun b j hj => hi.counted b j (hleft b j hj).1
  · intro b hb
    rcases hi.live b hb with ⟨j, hj⟩
    have hba : b ≠ a := by
      rintro rfl
      exact hnone hb
    exact ⟨j, (Function.update_of_ne hba ..).trans hj⟩
  · exact fun b j hj => hi.fresh b j (hleft b j hj).1
  · intro e he
    rcases List.mem_append.mp he with he | he
    · exact hi.zero e he
    · rw [List.mem_singleton.mp he]
      exact hzero

/-- A destination that is deleted is removed at once, or marked until its last handle goes. -/
theorem inv_deleteHandleWo {s s' : HandleMgr N} (hi : Inv s) (m : N)
    (h : s.deleteHandleWo m = some s') : Inv s' := by
  unfold deleteHandleWo at h
  cases hm : s.hmap m with
  | none =>
      rw [hm] at h
      cases h
      exact hi
  | some a =>
      rw [hm] at h
      rcases Option.map_eq_some_iff.mp h with ⟨i, ha, rfl⟩
      split
      · rename_i hzero
        exact inv_remove hi m hm ha hzero
      · exact inv_update hi ha { i with del := true } rfl s.handles (hi.counted a i ha)
          (fun _ _ => rfl) s.binding hi.bound s.getting s.created

/-! ## Actions -/

/-- A new handle, up to the test of `del`: it is on a new `hinfo`, it is null, or it has yet to be
    counted. -/
theorem inv_construct {s s' : HandleMgr N} (hi : Inv s) (m : N)
    (h : s.construct m = some s') : Inv s' := by
  unfold construct at h
  cases hm : s.hmap m with
  | none =>
      rw [hm] at h
      cases h
      exact inv_create hi m hm
  | some a =>
      rw [hm] at h
      rcases Option.map_eq_some_iff.mp h with ⟨i, ha, rfl⟩
      split
      · refine inv_null hi _ fun a => ?_
        rw [List.count_append, List.count_singleton]
        rfl
      · exact ⟨hi.mapped, hi.named, hi.counted, hi.live, hi.bound, hi.fresh, hi.zero⟩

omit [DecidableEq N] in
/-- The handle is counted. The counter is incremented in the section in which the handle is made. -/
theorem inv_finishGet {s s' : HandleMgr N} (hi : Inv s) (a : Nat)
    (h : s.finishGet a = some s') : Inv s' := by
  simp only [finishGet, Option.bind_eq_bind, Option.bind_eq_some_iff,
    Option.ite_none_right_eq_some, Option.some.injEq] at h
  rcases h with ⟨i, ha, _, rfl⟩
  refine inv_update hi ha { i with refcnt := i.refcnt + 1 } rfl _ ?_ ?_ s.binding ?_ none _
  · dsimp only
    rw [List.count_append, List.count_singleton, hi.counted a i ha]
    simp only [beq_self_eq_true, if_true]
    omega
  · intro b hba
    rw [List.count_append, List.count_singleton, if_neg (by simpa using Ne.symm hba), Nat.add_zero]
  · exact fun b hb => List.mem_append_left _ (hi.bound b hb)

omit [DecidableEq N] in
/-- A bind is made through a handle, which stays until the bind is over. -/
theorem inv_beginBind {s s' : HandleMgr N} (hi : Inv s) (a : Nat) (hmem : some a ∈ s.handles)
    (h : s.beginBind a = some s') : Inv s' := by
  simp only [beginBind, Option.bind_eq_bind, Option.bind_eq_some_iff,
    Option.ite_none_left_eq_some, Option.some.injEq] at h
  rcases h with ⟨i, ha, _, rfl⟩
  refine ⟨hi.mapped, hi.named, hi.counted, hi.live, ?_, hi.fresh, hi.zero⟩
  intro b hb
  by_cases hba : b = a
  · rw [hba]
    exact hmem
  · exact hi.bound b ((Function.update_of_ne hba ..).symm.trans hb)

omit [DecidableEq N] in
/-- A bind that succeeds leaves its client, and one that fails marks the `hinfo`. The counter
    stays. -/
theorem inv_endBind {s s' : HandleMgr N} (hi : Inv s) (a : Nat) (succ : Bool)
    (h : s.endBind a succ = some s') : Inv s' := by
  simp only [endBind, Option.bind_eq_bind, Option.bind_eq_some_iff, Option.some.injEq] at h
  rcases h with ⟨i, ha, rfl⟩
  have hsame : ∀ i' : HInfo N, i' = (if succ then { i with cl := true } else { i with del := true })
      → i'.m = i.m ∧ i'.refcnt = i.refcnt := by
    rintro _ rfl
    cases succ <;> exact ⟨rfl, rfl⟩
  refine inv_update hi ha _ (hsame _ rfl).1 s.handles ?_ (fun _ _ => rfl) _ ?_ s.getting s.created
  · rw [(hsame _ rfl).2]
    exact hi.counted a i ha
  · intro b hb
    by_cases hba : b = a
    · subst hba
      cases (Function.update_self ..).symm.trans hb
    · exact hi.bound b ((Function.update_of_ne hba ..).symm.trans hb)

/-- A handle that goes away is counted off before the `hinfo` is looked at. -/
theorem inv_doneHandle {s s' : HandleMgr N} (hi : Inv s) (a : Nat)
    (hlive : (if s.binding a then 1 else 0) < s.handles.count (some a))
    (h : s.doneHandle a = some s') : Inv s' := by
  simp only [doneHandle, Option.bind_eq_bind, Option.bind_eq_some_iff] at h
  rcases h with ⟨i, ha, h⟩
  have hother : ∀ b, b ≠ a →
      (s.handles.erase (some a)).count (some b) = s.handles.count (some b) :=
    fun b hba => List.count_erase_of_ne fun heq => hba (Option.some.inj heq)
  have hself : (s.handles.erase (some a)).count (some a) = s.handles.count (some a) - 1 :=
    List.count_erase_self
  have hcount : i.refcnt - 1 = ((s.handles.erase (some a)).count (some a) : Nat) := by
    rw [hself, hi.counted a i ha]
    omega
  -- A handle in the middle of a bind is not the one that goes.
  have hbound : ∀ b, s.binding b = true → some b ∈ s.handles.erase (some a) := by
    intro b hb
    by_cases hba : b = a
    · subst hba
      rw [hb, if_pos rfl] at hlive
      exact List.count_pos_iff.mp (by omega)
    · exact (List.mem_erase_of_ne fun heq => hba (Option.some.inj heq)).mpr (hi.bound b hb)
  have hless := inv_update hi ha { i with refcnt := i.refcnt - 1 } rfl _ hcount hother s.binding
    hbound s.getting s.created
  split at h
  · exact inv_deleteHandleWo hless i.m h
  · cases h
    exact hless

/-- Every action under `handle_mutex` keeps the counters right. -/
theorem inv_step (s : HandleMgr N) (a : HandleAction N) (s' : HandleMgr N) (hi : Inv s)
    (h : s.step a = some s') : Inv s' := by
  cases a with
  | construct m =>
      simp only [step, Option.ite_none_right_eq_some] at h
      exact inv_construct hi m h.2
  | finishGet =>
      rcases Option.bind_eq_some_iff.mp h with ⟨a, _, h⟩
      exact inv_finishGet hi a h
  | beginBind a =>
      simp only [step, Option.ite_none_right_eq_some] at h
      exact inv_beginBind hi a h.1 h.2
  | endBind a succ =>
      simp only [step, Option.ite_none_right_eq_some] at h
      exact inv_endBind hi a succ h.2
  | destroy p =>
      cases p with
      | none =>
          simp only [step, Option.ite_none_right_eq_some, Option.some.injEq] at h
          rcases h with ⟨_, rfl⟩
          exact inv_null hi _ fun a => List.count_erase_of_ne fun heq => by cases heq
      | some a =>
          simp only [step, Option.ite_none_right_eq_some] at h
          exact inv_doneHandle hi a h.1.2 h.2
  | deleteHandle m =>
      simp only [step, Option.ite_none_right_eq_some] at h
      exact inv_deleteHandleWo hi m h.2

/-- The counters are right in every reachable state. -/
theorem inv_reachable (s : HandleMgr N) (h : Trace.Reaches step Trace.Always (new N) s) : Inv s :=
  Trace.invariant_of_step Inv inv_new (fun s a s' hi _ hs => inv_step s a s' hi hs) h

/-! ## Deleted destinations -/

/-- No bind fails on an `hinfo` between the test of its `del` and the increment of its
    `refcnt`. -/
def Undisturbed (s : HandleMgr N) : HandleAction N → Bool
  | .endBind a false => decide (s.getting ≠ some a)
  | _ => true

/-- What `get_handle` has tested still holds, and it held for every handle that was
    created. -/
structure Tested (s : HandleMgr N) : Prop where
  getting : ∀ a i, s.getting = some a → s.heap a = some i → i.del = false
  created : ∀ e ∈ s.created, e.2 = false

/-- A section under `handle_mutex` that creates no handle. -/
theorem deleteHandleWo_frame {s s' : HandleMgr N} (m : N) (h : s.deleteHandleWo m = some s') :
    s'.getting = s.getting ∧ s'.created = s.created := by
  unfold deleteHandleWo at h
  cases hm : s.hmap m with
  | none =>
      rw [hm] at h
      cases h
      exact ⟨rfl, rfl⟩
  | some a =>
      rw [hm] at h
      rcases Option.map_eq_some_iff.mp h with ⟨i, ha, rfl⟩
      split <;> exact ⟨rfl, rfl⟩

omit [DecidableEq N] in
/-- Nobody is between the test and the increment, and nothing was created. -/
theorem Tested.of_free {s s' : HandleMgr N} (ht : Tested s) (hfree : s'.getting = none)
    (hsame : s'.created = s.created) : Tested s' := by
  refine ⟨fun a i hg => ?_, ?_⟩
  · rw [hfree] at hg
    cases hg
  · rw [hsame]
    exact ht.created

/-- One action. The test of `del` and the increment are made in one section under `handle_mutex`, so
    only a bind that fails, which sets `del` without that mutex, can come between the two. -/
theorem tested_step (s : HandleMgr N) (a : HandleAction N) (s' : HandleMgr N) (ht : Tested s)
    (hok : Undisturbed s a = true) (h : s.step a = some s') : Tested s' := by
  cases a with
  | construct m =>
      simp only [step, Option.ite_none_right_eq_some] at h
      rcases h with ⟨hfree, h⟩
      unfold construct at h
      cases hm : s.hmap m with
      | none =>
          rw [hm] at h
          cases h
          refine ⟨fun a i hg => ?_, fun e he => ?_⟩
          · cases hfree.symm.trans hg
          · rcases List.mem_append.mp he with he | he
            · exact ht.created e he
            · rw [List.mem_singleton.mp he]
      | some a =>
          rw [hm] at h
          rcases Option.map_eq_some_iff.mp h with ⟨i, ha, rfl⟩
          split
          · exact ht.of_free hfree rfl
          · -- The test has just been made.
            rename_i hdel
            refine ⟨fun b j hg hj => ?_, ht.created⟩
            cases hg
            rw [ha] at hj
            cases hj
            exact Bool.eq_false_iff.mpr hdel
  -- The handle is created on what was tested.
  | finishGet =>
      rcases Option.bind_eq_some_iff.mp h with ⟨a, hg, h⟩
      simp only [finishGet, Option.bind_eq_bind, Option.bind_eq_some_iff,
        Option.ite_none_right_eq_some, Option.some.injEq] at h
      rcases h with ⟨i, ha, _, rfl⟩
      refine ⟨(fun _ _ h => by cases h), fun e he => ?_⟩
      rcases List.mem_append.mp he with he | he
      · exact ht.created e he
      · rw [List.mem_singleton.mp he]
        exact ht.getting a i hg ha
  | beginBind a =>
      simp only [step, beginBind, Option.ite_none_right_eq_some, Option.bind_eq_bind,
        Option.bind_eq_some_iff, Option.ite_none_left_eq_some, Option.some.injEq] at h
      rcases h with ⟨_, i, _, _, rfl⟩
      exact ⟨ht.getting, ht.created⟩
  | endBind a succ =>
      simp only [step, endBind, Option.ite_none_right_eq_some, Option.bind_eq_bind,
        Option.bind_eq_some_iff, Option.some.injEq] at h
      rcases h with ⟨_, i, ha, rfl⟩
      refine ⟨fun b j hg hj => ?_, ht.created⟩
      by_cases hba : b = a
      · subst hba
        cases succ with
        | true =>
            cases (Function.update_self ..).symm.trans hj
            exact ht.getting b i hg ha
        | false => exact absurd hg (of_decide_eq_true hok)
      · exact ht.getting b j hg ((Function.update_of_ne hba ..).symm.trans hj)
  | destroy p =>
      cases p with
      | none =>
          simp only [step, Option.ite_none_right_eq_some, Option.some.injEq] at h
          rcases h with ⟨_, rfl⟩
          exact ⟨ht.getting, ht.created⟩
      | some a =>
          simp only [step, doneHandle, Option.ite_none_right_eq_some, Option.bind_eq_bind,
            Option.bind_eq_some_iff] at h
          rcases h with ⟨⟨hfree, _⟩, i, _, h⟩
          split at h
          · rcases deleteHandleWo_frame i.m h with ⟨hg, hc⟩
            exact ht.of_free (hg.trans hfree) hc
          · cases h
            exact ht.of_free hfree rfl
  | deleteHandle m =>
      simp only [step, Option.ite_none_right_eq_some] at h
      rcases deleteHandleWo_frame m h.2 with ⟨hg, hc⟩
      exact ht.of_free (hg.trans h.1) hc

/-- In every run the handles are counted: each one points to an `hinfo` that is there, under its own
    name, with the number of its handles, and what is removed has none. In a run in which no bind
    fails at the wrong moment, no handle is created on an `hinfo` that is to be deleted. The wrong
    moment is between the test of `del` and the increment of `refcnt`. -/
theorem handles_sound (s : HandleMgr N) :
    (Trace.Reaches step Trace.Always (new N) s → Counted s) ∧
      (Trace.Reaches step (fun s a => Undisturbed s a = true) (new N) s →
        ∀ e ∈ s.created, e.2 = false) := by
  refine ⟨fun h => (inv_reachable s h).handles_counted, fun h => ?_⟩
  exact (Trace.invariant_of_step Tested ⟨(fun _ _ h => by cases h),
    fun _ he => absurd he List.not_mem_nil⟩ tested_step h).created

/-- Two handles for one destination, the first of which fails to bind while there is only
    that one. -/
theorem handles_sound_two :
    ∃ s : HandleMgr Nat, Counted s ∧ s.created = [(0, false)] ∧ s.handles = [some 0, none] ∧
      ∀ e ∈ s.created, e.2 = false := by
  have h : Trace.Reaches (step : HandleMgr Nat → _) (fun s a => Undisturbed s a = true)
      (new Nat) _ :=
    Trace.reaches_of_run [.construct 1, .beginBind 0, .endBind 0 false, .construct 1] rfl
  exact ⟨_, (handles_sound _).1 (Trace.reaches_weaken (fun _ _ _ => trivial) h), rfl, rfl,
    (handles_sound _).2 h⟩

/-- The first handle fails to bind after the second one has been found to be good. -/
theorem created_on_deleted :
    ∃ s, Trace.Reaches step Trace.Always (new Nat) s ∧ (0, true) ∈ s.created := by
  refine ⟨_, Trace.reaches_always_of_run [.construct 1, .beginBind 0, .construct 1,
    .endBind 0 false, .finishGet] rfl, ?_⟩
  exact List.mem_cons_of_mem _ List.mem_cons_self

end HandleMgr

end Yfs
