import Yfs.Core.ThreadPool
import Yfs.Library.Queue
import Yfs.Library.Trace
import Mathlib.Algebra.Order.BigOperators.Group.Finset

/-!
# Shutdown of the Thread Pool

Every job that was accepted is taken once, in order, and every worker takes one pill.

The queue is followed by its history: what was taken and what is still queued are the
accepted jobs followed by the pills (`Inv.log`). That needs the pills to be last, which
they are because the destructor starts when nobody is in `addObjJob`. A worker ends with
the pill it takes and takes nothing afterwards, so it has taken a pill exactly if it has
ended. When the destructor has joined all workers, all pills have been taken, and with
them everything in front of them.

## Main definitions

* `pills`: How many pills have been added.
* `InRange`, `Inv`: What holds along every run.

## Theorems

* `inv_step`: One action.
* `inv_reachable`: All of them.
* `destructor_goes_on`: The destructor does not get stuck.
* `shutdown_clean`: The pool after the destructor.
-/

namespace Yfs

namespace ThrPool

variable {A : Type} {sz : Nat}

/-- The pills that have been added. -/
def pills (sz : Nat) : Destructor → Nat
  | .notStarted => 0
  | .adding n => n
  | .joining _ => sz

/-- The counters of the destructor's loops. -/
def InRange (sz : Nat) : Destructor → Prop
  | .notStarted => True
  | .adding n => n < sz
  | .joining k => k ≤ sz

/-- The pills that a worker has taken. -/
def swallowed : Worker A → Nat
  | .exited => 1
  | _ => 0

/-- The jobs of all calls. -/
def jobs (s : ThrPool A sz) : List (Job A) :=
  s.accepted ++ (s.refused ++ s.blocked)

/-- What was taken and what is queued are what has been put in, in this order; the pills come behind
    all jobs, as nobody is blocked once the destructor runs; and a worker that has ended has taken
    one pill. -/
structure Inv (s : ThrPool A sz) : Prop where
  log : s.taken.map Prod.snd ++ s.jobq.q =
    s.accepted.map some ++ List.replicate (pills sz s.destructor) none
  unused : s.destructor ≠ .notStarted → s.blocked = []
  range : InRange sz s.destructor
  joined : ∀ k, s.destructor = .joining k → ∀ w : Fin sz, w.val < k → s.workers w = .exited
  one : ∀ w, s.taken.countP (fun e => decide (e.1 = w) && e.2.isNone) =
    swallowed (s.workers w)
  nodup : (s.jobs.map Job.call).Nodup
  fresh : ∀ j ∈ s.jobs, j.call < s.calls

theorem inv_new (blocking : Bool) : Inv (new A sz blocking) where
  log := rfl
  unused := fun h => absurd rfl h
  range := trivial
  joined := fun _ h => by cases h
  one := fun _ => rfl
  nodup := List.nodup_nil
  fresh := fun _ h => absurd h List.not_mem_nil

/-! ## One action -/

/-- An entry goes to the end. -/
theorem enq_q {α : Type} {f f' : Fifo α} {e : α} (h : f.enq e = some f') : f'.q = f.q ++ [e] := by
  unfold Fifo.enq at h
  split at h
  · cases h
    rfl
  · cases h

/-- An entry comes from the front. -/
theorem deq_q {α : Type} {f f' : Fifo α} {e : α} (h : f.deq = some (e, f')) :
    f.q = e :: f'.q := by
  unfold Fifo.deq at h
  split at h
  · cases h
  · rename_i e₀ q hq
    cases h
    exact hq

/-- A job enters the queue while no pill has been added. -/
theorem Inv.enter {s : ThrPool A sz} (hi : Inv s) (hd : s.destructor = .notStarted)
    {jobq : Fifo (Option (Job A))} {j : Job A} (hq : s.jobq.enq (some j) = some jobq) :
    s.taken.map Prod.snd ++ jobq.q =
      (s.accepted ++ [j]).map some ++ List.replicate (pills sz s.destructor) none := by
  have hlog := hi.log
  rw [hd] at hlog ⊢
  rw [show List.replicate (pills sz .notStarted) (none : Option (Job A)) = [] from rfl,
    List.append_nil] at hlog ⊢
  rw [enq_q hq, ← List.append_assoc, hlog, List.map_append]
  rfl

/-- A new call has a new number, wherever its job is put. -/
theorem Inv.numbered {s : ThrPool A sz} (hi : Inv s) (a : A) {l : List (Job A)}
    (hl : l.Perm (⟨s.calls, a⟩ :: s.jobs)) :
    (l.map Job.call).Nodup ∧ ∀ j ∈ l, j.call < s.calls + 1 := by
  constructor
  · rw [(hl.map Job.call).nodup_iff, List.map_cons, List.nodup_cons]
    refine ⟨fun hmem => ?_, hi.nodup⟩
    rcases List.mem_map.mp hmem with ⟨j, hj, hcall⟩
    exact absurd hcall (Nat.ne_of_lt (hi.fresh j hj))
  · intro j hj
    rcases List.mem_cons.mp (hl.mem_iff.mp hj) with rfl | hj
    · exact Nat.lt_succ_self _
    · exact Nat.lt_succ_of_lt (hi.fresh j hj)

/-- A new job is accepted, or blocks, or is refused. -/
theorem inv_addObjJob (s : ThrPool A sz) (hi : Inv s) (hd : s.destructor = .notStarted) (a : A) :
    Inv (s.addObjJob a) := by
  unfold addObjJob
  dsimp only
  cases hq : s.jobq.enq (some (Job.mk s.calls a)) with
  -- There is room in the queue.
  | some jobq =>
      have hperm : (s.accepted ++ [Job.mk s.calls a] ++ (s.refused ++ s.blocked)).Perm
          (Job.mk s.calls a :: s.jobs) := by
        rw [List.append_assoc]
        exact List.perm_middle
      exact ⟨hi.enter hd hq, hi.unused, hi.range, hi.joined, hi.one, (hi.numbered a hperm).1,
        (hi.numbered a hperm).2⟩
  | none =>
      dsimp only
      split
      -- The queue is full: with `blockadd_` the caller waits, otherwise the job is refused.
      · have hperm : (s.accepted ++ (s.refused ++ (s.blocked ++ [Job.mk s.calls a]))).Perm
            (Job.mk s.calls a :: s.jobs) := by
          rw [← List.append_assoc s.refused, ← List.append_assoc]
          exact List.perm_append_singleton _ _
        exact ⟨hi.log, fun h => absurd hd h, hi.range, hi.joined, hi.one,
          (hi.numbered a hperm).1, (hi.numbered a hperm).2⟩
      · have hperm : (s.accepted ++ (s.refused ++ [Job.mk s.calls a] ++ s.blocked)).Perm
            (Job.mk s.calls a :: s.jobs) := by
          rw [List.append_assoc, ← List.append_assoc, List.singleton_append]
          refine List.perm_middle.trans ?_
          rw [List.append_assoc]
          exact List.Perm.refl _
        exact ⟨hi.log, hi.unused, hi.range, hi.joined, hi.one, (hi.numbered a hperm).1,
          (hi.numbered a hperm).2⟩

/-- Nobody is blocked once the destructor has started, so a call that goes on is before it. -/
theorem inv_enterBlocked (s s' : ThrPool A sz) (hi : Inv s) (i : Nat)
    (h : s.enterBlocked i = some s') : Inv s' := by
  simp only [enterBlocked, Option.bind_eq_bind, Option.bind_eq_some_iff] at h
  rcases h with ⟨j, hj, jobq, hq, heq⟩
  cases heq
  have hd : s.destructor = .notStarted := by
    by_contra hne
    rw [hi.unused hne] at hj
    cases hj
  -- The job changes its list, and the jobs of all calls stay the same.
  have hperm : (s.accepted ++ [j] ++ (s.refused ++ s.blocked.eraseIdx i)).Perm s.jobs := by
    rcases List.getElem?_eq_some_iff.mp hj with ⟨hlt, rfl⟩
    rw [List.append_assoc, List.singleton_append]
    refine List.Perm.append_left s.accepted (List.perm_middle.symm.trans ?_)
    exact List.Perm.append_left s.refused (List.getElem_cons_eraseIdx_perm hlt)
  refine ⟨hi.enter hd hq, fun h => absurd hd h, hi.range, hi.joined, hi.one, ?_, ?_⟩
  · exact (hperm.map Job.call).nodup_iff.mpr hi.nodup
  · exact fun j' hj' => hi.fresh j' (hperm.mem_iff.mp hj')

/-- A worker that goes on has not been joined. -/
theorem Inv.joined_update {s : ThrPool A sz} (hi : Inv s) (w : Fin sz)
    (hw : s.workers w ≠ .exited) (x : Worker A) :
    ∀ k, s.destructor = .joining k → ∀ v : Fin sz, v.val < k →
      Function.update s.workers w x v = .exited := by
  intro k hk v hv
  have hexited := hi.joined k hk v hv
  have hne : v ≠ w := by
    rintro rfl
    exact hw hexited
  rw [Function.update_of_ne hne]
  exact hexited

/-- What a worker takes leaves the front of the queue; with a pill it ends. -/
theorem inv_takeJob (s s' : ThrPool A sz) (hi : Inv s) (w : Fin sz)
    (hw : s.workers w = .waiting) (h : s.takeJob w = some s') : Inv s' := by
  simp only [takeJob, Option.bind_eq_bind, Option.bind_eq_some_iff] at h
  rcases h with ⟨⟨e, jobq⟩, hq, heq⟩
  cases heq
  refine ⟨?_, hi.unused, hi.range, ?_, ?_, hi.nodup, hi.fresh⟩
  -- What leaves the front of the queue is what comes next in the log.
  · rw [← hi.log, deq_q hq, List.map_append, List.append_assoc]
    rfl
  · exact hi.joined_update w (by rw [hw]; exact fun h => by cases h) _
  -- A pill is taken by one worker, which ends with it.
  · intro v
    dsimp only
    rw [List.countP_append, hi.one v, List.countP_singleton]
    by_cases hv : v = w
    · subst hv
      rw [hw, Function.update_self, decide_eq_true rfl]
      cases e <;> rfl
    · rw [Function.update_of_ne hv, decide_eq_false (Ne.symm hv)]
      rfl

/-- A worker goes back to the queue. -/
theorem inv_finishJob (s : ThrPool A sz) (hi : Inv s) (w : Fin sz) (j : Job A)
    (hw : s.workers w = .running j) :
    Inv { s with workers := Function.update s.workers w .waiting } := by
  refine ⟨hi.log, hi.unused, hi.range, ?_, ?_, hi.nodup, hi.fresh⟩
  · exact hi.joined_update w (by rw [hw]; exact fun h => by cases h) _
  · intro v
    dsimp only
    rw [hi.one v]
    by_cases hv : v = w
    · subst hv
      rw [hw, Function.update_self]
      rfl
    · rw [Function.update_of_ne hv]

/-- The destructor goes on with adding pills or begins to join. -/
theorem pills_added (n : Nat) (hn : n ≤ sz) : pills sz (added sz n) = n := by
  unfold added
  split
  · rfl
  · rename_i hlt
    exact Nat.le_antisymm (Nat.not_lt.mp hlt) hn

theorem inv_added (s : ThrPool A sz) (hi : Inv s) (n : Nat) (hn : n ≤ sz)
    (hblocked : s.blocked = []) (jobq : Fifo (Option (Job A)))
    (hlog : s.taken.map Prod.snd ++ jobq.q =
      s.accepted.map some ++ List.replicate n none) :
    Inv { s with jobq, destructor := added sz n } := by
  refine ⟨?_, fun _ => hblocked, ?_, ?_, hi.one, hi.nodup, hi.fresh⟩
  · rw [pills_added n hn]
    exact hlog
  · show InRange sz (added sz n)
    unfold added
    split
    · assumption
    · exact Nat.zero_le sz
  · intro k hk w hw
    dsimp only at hk
    unfold added at hk
    split at hk
    · cases hk
    · cases hk
      exact absurd hw (Nat.not_lt_zero _)

/-- The destructor adds one more pill, behind everything that has been accepted. -/
theorem inv_addPill (s s' : ThrPool A sz) (hi : Inv s) (n : Nat) (hd : s.destructor = .adding n)
    (h : s.addPill n = some s') : Inv s' := by
  simp only [addPill, Option.bind_eq_bind, Option.bind_eq_some_iff] at h
  rcases h with ⟨jobq, hq, heq⟩
  cases heq
  have hstarted : s.destructor ≠ .notStarted := by
    rw [hd]
    exact fun h => by cases h
  have hlog := hi.log
  have hrange := hi.range
  rw [hd] at hlog hrange
  refine inv_added s hi (n + 1) hrange (hi.unused hstarted) jobq ?_
  -- The pill goes behind all others, so the log ends in one pill more.
  rw [enq_q hq, ← List.append_assoc, hlog, List.append_assoc, List.replicate_succ']
  rfl

/-- The destructor waits for the workers in their order. -/
theorem inv_join (s : ThrPool A sz) (hi : Inv s) (k : Nat) (hd : s.destructor = .joining k)
    (hk : k < sz) (hw : s.workers ⟨k, hk⟩ = .exited) :
    Inv { s with destructor := .joining (k + 1) } := by
  have hlog := hi.log
  have hstarted : s.destructor ≠ .notStarted := by
    rw [hd]
    exact fun h => by cases h
  rw [hd] at hlog
  refine ⟨hlog, fun _ => hi.unused hstarted, hk, ?_, hi.one, hi.nodup, hi.fresh⟩
  intro k' hk' w hlt
  cases hk'
  -- The workers before this one have been joined already.
  rcases Nat.lt_succ_iff_lt_or_eq.mp hlt with hlt | heq
  · exact hi.joined k hd w hlt
  · rw [show w = ⟨k, hk⟩ from Fin.ext heq]
    exact hw

/-- Every action keeps the invariant. -/
theorem inv_step (s : ThrPool A sz) (a : PoolAction A sz) (s' : ThrPool A sz) (hi : Inv s)
    (h : s.step a = some s') : Inv s' := by
  cases a with
  | addObjJob a =>
      simp only [step, Option.ite_none_right_eq_some, Option.some.injEq] at h
      rcases h with ⟨hd, rfl⟩
      exact inv_addObjJob s hi hd a
  | enterBlocked i => exact inv_enterBlocked s s' hi i h
  | takeJob w =>
      cases hw : s.workers w with
      | waiting =>
          simp only [step, hw] at h
          exact inv_takeJob s s' hi w hw h
      | _ => simp only [step, hw, reduceCtorEq] at h
  | finishJob w =>
      cases hw : s.workers w with
      | running j =>
          simp only [step, hw, Option.some.injEq] at h
          subst h
          exact inv_finishJob s hi w j hw
      | _ => simp only [step, hw, reduceCtorEq] at h
  | destroy =>
      simp only [step, Option.ite_none_right_eq_some, Option.some.injEq] at h
      rcases h with ⟨⟨hd, hb⟩, rfl⟩
      have hlog := hi.log
      rw [hd] at hlog
      exact inv_added s hi 0 (Nat.zero_le sz) (List.isEmpty_iff.mp hb) s.jobq hlog
  | addPill =>
      cases hd : s.destructor with
      | adding n =>
          simp only [step, hd] at h
          exact inv_addPill s s' hi n hd h
      | _ => simp only [step, hd, reduceCtorEq] at h
  | join =>
      cases hd : s.destructor with
      | joining k =>
          simp only [step, hd] at h
          split at h
          · rename_i hk
            split at h
            · rename_i hw
              cases h
              exact inv_join s hi k hd hk hw
            · cases h
          · cases h
      | _ => simp only [step, hd, reduceCtorEq] at h

/-- So it holds in every run. -/
theorem inv_reachable (blocking : Bool) (s : ThrPool A sz)
    (h : Trace.Reaches step Trace.Always (new A sz blocking) s) : Inv s :=
  Trace.invariant_of_step Inv (inv_new blocking) (fun s a s' hi _ hs => inv_step s a s' hi hs) h

/-! ## Pills -/

/-- The pills that were taken, worker by worker. -/
theorem Inv.pills_taken {s : ThrPool A sz} (hi : Inv s) :
    (s.taken.map Prod.snd).countP Option.isNone = ∑ w, swallowed (s.workers w) := by
  rw [List.countP_map]
  refine (Queue.countP_eq_sum Option.isNone s.taken).trans ?_
  exact Finset.sum_congr rfl fun w _ => hi.one w

/-- When all have ended, one pill each has been taken. -/
theorem sum_swallowed {s : ThrPool A sz} (h : ∀ w, s.workers w = .exited) :
    ∑ w, swallowed (s.workers w) = sz := by
  rw [Finset.sum_congr rfl fun w _ => show swallowed (s.workers w) = 1 by rw [h w]; rfl,
    ← Finset.card_eq_sum_ones, Finset.card_univ, Fintype.card_fin]

/-- With a worker that has not ended there are fewer pills taken than workers. -/
theorem sum_swallowed_lt (s : ThrPool A sz) (w : Fin sz) (hw : s.workers w ≠ .exited) :
    ∑ v, swallowed (s.workers v) < sz := by
  have hle : ∀ v, swallowed (s.workers v) ≤ 1 := by
    intro v
    cases s.workers v <;> simp only [swallowed, Nat.zero_le, Nat.le_refl]
  have hzero : swallowed (s.workers w) = 0 := by
    cases hx : s.workers w with
    | exited => exact absurd hx hw
    | _ => rfl
  calc ∑ v, swallowed (s.workers v) < ∑ _v : Fin sz, 1 :=
        Finset.sum_lt_sum (fun v _ => hle v)
          ⟨w, Finset.mem_univ w, by rw [hzero]; exact Nat.one_pos⟩
    _ = sz := by rw [← Finset.card_eq_sum_ones, Finset.card_univ, Fintype.card_fin]

/-- The pills that were taken and those that are queued are all pills. -/
theorem Inv.pills_eq {s : ThrPool A sz} (hi : Inv s) :
    ∑ w, swallowed (s.workers w) + s.jobq.q.countP Option.isNone = pills sz s.destructor := by
  have hcount := congrArg (List.countP Option.isNone) hi.log
  -- No job is a pill, so that all pills of the log are those of the destructor.
  have hitems : (s.accepted.map some).countP Option.isNone = 0 := by
    rw [List.countP_map, List.countP_eq_zero]
    exact fun j _ => Bool.false_ne_true
  rw [List.countP_append, List.countP_append, hi.pills_taken, hitems, List.countP_replicate,
    Nat.zero_add] at hcount
  exact hcount

/-- A worker that has not ended can go on if there is something in the queue. -/
theorem live_enabled (s : ThrPool A sz) (w : Fin sz) (hw : s.workers w ≠ .exited)
    (hq : s.jobq.q ≠ []) : ∃ a, (s.step a).isSome = true := by
  cases hworker : s.workers w with
  | waiting =>
      refine ⟨.takeJob w, ?_⟩
      cases hcons : s.jobq.q with
      | nil => exact absurd hcons hq
      | cons e q => simp only [step, hworker, takeJob, Fifo.deq, hcons, Option.bind_eq_bind,
          Option.bind_some, Option.isSome_some]
  | running j => exact ⟨.finishJob w, by simp only [step, hworker, Option.isSome_some]⟩
  | exited => exact absurd hworker hw

/-- The destructor does not get stuck. While it has not joined all workers, it or one of
    them can go on: there is space for a pill or a worker to make some, and a worker that
    has not ended finds a pill. -/
theorem destructor_goes_on (blocking : Bool) (s : ThrPool A sz)
    (h : Trace.Reaches step Trace.Always (new A sz blocking) s)
    (hstart : s.destructor ≠ .notStarted) (hend : s.destructor ≠ .joining sz) :
    ∃ a, (s.step a).isSome = true := by
  have hi := inv_reachable blocking s h
  have hpills := hi.pills_eq
  have hrange := hi.range
  cases hd : s.destructor with
  | notStarted => exact absurd hd hstart
  -- A full queue is not empty, so whoever has not ended can take from it.
  | adding n =>
      rw [hd] at hpills hrange
      by_cases hspace : s.jobq.max = 0 ∨ s.jobq.q.length < s.jobq.max
      · exact ⟨.addPill, by simp only [step, hd, addPill, Fifo.enq, if_pos hspace,
          Option.bind_eq_bind, Option.bind_some, Option.isSome_some]⟩
      · -- Fewer pills than workers have been added, so one worker has not ended.
        have hlive : ∃ w, s.workers w ≠ .exited := by
          by_contra hall
          have hsum := sum_swallowed fun w => not_not.mp fun hw => hall ⟨w, hw⟩
          simp only [pills, InRange] at hpills hrange
          omega
        rcases hlive with ⟨w, hw⟩
        refine live_enabled s w hw fun hnil => hspace ?_
        rw [hnil, List.length_nil]
        exact Nat.eq_zero_or_pos s.jobq.max
  | joining k =>
      rw [hd] at hpills hrange hend
      have hk : k < sz := Nat.lt_of_le_of_ne hrange fun heq => hend (by rw [heq])
      by_cases hw : s.workers ⟨k, hk⟩ = .exited
      · exact ⟨.join, by simp only [step, hd, hk, hw, dite_true, Option.isSome_some]⟩
      · -- The worker has not taken a pill, so one is left.
        refine live_enabled s ⟨k, hk⟩ hw fun hnil => ?_
        have hlt := sum_swallowed_lt s ⟨k, hk⟩ hw
        rw [hnil] at hpills
        simp only [pills, List.countP_nil] at hpills
        omega

/-! ## After the destructor -/

section Joined

variable {s : ThrPool A sz} (hi : Inv s) (hsz : 1 ≤ sz) (hd : s.destructor = .joining sz)

include hi hd

/-- Every worker has taken one pill. -/
theorem Inv.one_pill (w : Fin sz) :
    s.taken.countP (fun e => decide (e.1 = w) && e.2.isNone) = 1 := by
  rw [hi.one w, hi.joined sz hd w w.isLt]
  rfl

include hsz

/-- All pills have been taken, and so has everything else. -/
theorem Inv.all_taken : s.jobq.q = [] ∧ s.taken.filterMap Prod.snd = s.accepted := by
  have hlog := hi.log
  have hcount := hi.pills_taken.trans (sum_swallowed fun w => hi.joined sz hd w w.isLt)
  rw [hd] at hlog
  rcases Queue.empty_of_sentinels hlog hsz hcount with ⟨hnil, hitems⟩
  rw [List.filterMap_map] at hitems
  exact ⟨hnil, hitems⟩

end Joined

/-- When the destructor has joined all workers, every job that was accepted has been taken once, in
    the order in which the jobs entered, none that was refused has been taken, every worker has
    taken one pill, and the queue is empty. That the destructor gets there is `destructor_goes_on`:
    it never waits for a worker that cannot move. -/
theorem shutdown_clean [DecidableEq A] (blocking : Bool) (s : ThrPool A sz) (hsz : 1 ≤ sz)
    (h : Trace.Reaches step Trace.Always (new A sz blocking) s)
    (hd : s.destructor = .joining sz) :
    (∀ j ∈ s.accepted, ∃ w, s.taken.filter (fun e => decide (e.2 = some j)) = [(w, some j)]) ∧
      s.taken.filterMap Prod.snd = s.accepted ∧
      (∀ j ∈ s.refused, ∀ w, (w, some j) ∉ s.taken) ∧
      (∀ w, s.taken.countP (fun e => decide (e.1 = w) && e.2.isNone) = 1) ∧
      s.jobq.q = [] := by
  have hi := inv_reachable blocking s h
  rcases hi.all_taken hsz hd with ⟨hnil, htaken⟩
  have hnodup : s.jobs.Nodup := List.Nodup.of_map Job.call hi.nodup
  -- The jobs that were accepted are not among those that were refused.
  have hparts := List.nodup_append.mp hnodup
  refine ⟨?_, htaken, ?_, hi.one_pill hd, hnil⟩
  · intro j hj
    rw [← htaken] at hj
    exact Queue.filter_eq_singleton (by rw [htaken]; exact hparts.1) hj
  · intro j hj w hmem
    have hacc : j ∈ s.accepted := by
      rw [← htaken]
      exact List.mem_filterMap.mpr ⟨_, hmem, rfl⟩
    exact hparts.2.2 j hacc j (List.mem_append_left _ hj) rfl

/-- A job that is still running when the destructor starts. -/
theorem shutdown_clean_running : ∃ s : ThrPool Unit 1, s.accepted = [⟨0, ()⟩] ∧
    (∃ w, s.taken.filter (fun e => decide (e.2 = some ⟨0, ()⟩)) = [(w, some ⟨0, ()⟩)]) ∧
    s.jobq.q = [] := by
  have h : Trace.Reaches step Trace.Always (new Unit 1 false) _ :=
    Trace.reaches_always_of_run [.addObjJob (), .takeJob 0, .destroy, .addPill, .finishJob 0,
      .takeJob 0, .join] rfl
  have hclean := shutdown_clean false _ (Nat.le_refl 1) h rfl
  exact ⟨_, rfl, hclean.1 ⟨0, ()⟩ List.mem_cons_self, hclean.2.2.2.2⟩

end ThrPool

end Yfs
