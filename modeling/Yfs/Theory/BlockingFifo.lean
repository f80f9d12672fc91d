import Yfs.Core.BlockingFifo
import Yfs.Library.Trace

/-!
# No Wake-up Is Lost

That a thread in `enq` or `deq` is not left waiting while it could go on.

The queue has two condition variables, and each is a case of `CondVar.Served`. What `deq` waits
for are entries, of which there is one more after every `enq`; what `enq` waits for are free
places, of which there is one more after every `deq`. Both come with a signal, and the
condition that `deq` tests before its signal holds whenever there is a limit. So while a thread
waits for an entry, there are as many threads on their way to one as there are entries, and
the same for places; once those have run, a thread that still waits has nothing to wait for
but what is not there.

The pool in `Core.ThreadPool` has no signals: a thread that waits there can go on as soon as its
condition holds. This is what makes that right.

## Main definitions

* `Kept`: The entries, and the limit.
* `Attended`: Both condition variables have woken enough.

## Theorems

* `attended_enqLoop`, `attended_deqLoop`: One turn of a loop.
* `attended_step`: One step.
* `no_lost_wakeup`: Every run.
-/

namespace Yfs

namespace BlockingFifo

variable {T α : Type} {limit : Nat} {s s' : BlockingFifo T α} {t : T} {e : α}

/-- The queue has what was entered and not taken, within its limit. Without one there is always
    space. -/
structure Kept (limit : Nat) (s : BlockingFifo T α) : Prop where
  max : s.fifo.max = limit
  log : s.taken ++ s.fifo.q = s.entered
  bound : limit ≠ 0 → s.fifo.q.length ≤ limit
  unlimited : limit = 0 → s.hasSpace.waiting = []

structure Attended (limit : Nat) (s : BlockingFifo T α) : Prop where
  kept : Kept limit s
  entries : s.nonEmpty.Served s.fifo.q.length
  space : s.hasSpace.Served (limit - s.fifo.q.length)

theorem attended_new (limit : Nat) : Attended limit (new T α limit) where
  kept := ⟨rfl, rfl, fun _ => Nat.zero_le _, fun _ => rfl⟩
  entries := CondVar.served_new _
  space := CondVar.served_new _

/-- There is no space for an entry. -/
theorem full_of_enq {f : Fifo α} (h : f.enq e = none) : f.max ≠ 0 ∧ f.max ≤ f.q.length := by
  unfold Fifo.enq at h
  split at h
  · cases h
  · omega

variable [DecidableEq T]

/-- A turn of `enq` by a thread that has not been counted, or is not counted any more. -/
theorem attended_enqLoop (hk : Kept limit s) (hentries : s.nonEmpty.Served s.fifo.q.length)
    (hspace : s.hasSpace.Served (limit - (s.fifo.q.length + 1))) {blocking : Bool}
    {next : Option T} (hs : s.enqLoop t e blocking next = some s') : Attended limit s' := by
  have hmax := hk.max
  unfold enqLoop at hs
  cases hf : s.fifo.enq e with
  | some f =>
      rw [hf] at hs
      rcases Option.map_eq_some_iff.mp hs with ⟨c, hc, rfl⟩
      rcases Option.ite_none_right_eq_some.mp hf with ⟨hroom, heq⟩
      cases heq
      refine ⟨⟨hmax, ?_, fun hl => ?_, hk.unlimited⟩, ?_, ?_⟩
      · rw [← List.append_assoc, hk.log]
      · simp only [List.length_append, List.length_singleton]
        omega
      · rw [List.length_append]
        exact hentries.signal hc
      · rw [List.length_append]
        exact hspace
  | none =>
      rw [hf] at hs
      rcases full_of_enq hf with ⟨hlimit, hfull⟩
      have hzero : limit - s.fifo.q.length = 0 := by omega
      dsimp only at hs
      by_cases hb : blocking = true
      -- No place is free, so nobody has to be woken for one.
      · rw [if_pos hb] at hs
        cases hs
        refine ⟨⟨hmax, hk.log, hk.bound, fun hl => ?_⟩, hentries, ?_⟩
        · omega
        · rw [hzero]
          exact CondVar.served_wait _ _
      · rw [if_neg hb] at hs
        cases hs
        refine ⟨hk, hentries, ?_⟩
        rw [hzero]
        exact fun _ => Nat.zero_le _

variable [DecidableEq α]

/-- A turn of `deq` by a thread that has not been counted, or is not counted any more. -/
theorem attended_deqLoop (hk : Kept limit s) (hentries : s.nonEmpty.Served (s.fifo.q.length - 1))
    (hspace : s.hasSpace.Served (limit - s.fifo.q.length)) {next : Option (T × α)}
    (hs : s.deqLoop t next = some s') : Attended limit s' := by
  have hmax := hk.max
  have hlog := hk.log
  unfold deqLoop Fifo.deq at hs
  cases hq : s.fifo.q with
  | nil =>
      rw [hq] at hs
      cases hs
      refine ⟨⟨hk.max, hk.log, hk.bound, hk.unlimited⟩, ?_, hspace⟩
      simp only [hq, List.length_nil]
      exact CondVar.served_wait _ _
  | cons e q =>
      rw [hq] at hs hentries hspace hlog
      have hbound : limit ≠ 0 → q.length + 1 ≤ limit := by
        intro hl
        simpa [hq] using hk.bound hl
      have hnext : (s.taken ++ [e]) ++ q = s.entered := by
        rw [List.append_assoc]
        exact hlog
      dsimp only at hs
      by_cases hroom : s.fifo.max ≠ 0 ∧ q.length < s.fifo.max
      · rw [if_pos hroom] at hs
        rcases Option.map_eq_some_iff.mp hs with ⟨c, hc, rfl⟩
        have hl : limit ≠ 0 := by omega
        have hle := hbound hl
        refine ⟨⟨hmax, hnext, fun _ => ?_, fun hl' => absurd hl' hl⟩, hentries, ?_⟩
        · dsimp only
          omega
        -- One place more is free, and it is announced.
        · have hfree : limit - q.length = limit - (e :: q).length + 1 := by
            rw [List.length_cons]
            omega
          dsimp only
          rw [hfree]
          exact hspace.signal hc
      · rw [if_neg hroom] at hs
        cases hs
        -- Without a limit no one waits for space.
        have hl : limit = 0 := by
          by_contra hl
          have hle := hbound hl
          omega
        refine ⟨⟨hmax, hnext, fun hl' => absurd hl hl', hk.unlimited⟩, hentries, fun hw => ?_⟩
        exact absurd (hk.unlimited hl) hw

theorem attended_step (s : BlockingFifo T α) (a : FifoAction T α) (s' : BlockingFifo T α)
    (h : Attended limit s) (hs : s.step a = some s') : Attended limit s' := by
  have hk := h.kept
  cases a with
  | enq t e blocking next =>
      exact attended_enqLoop hk h.entries (h.space.mono (by omega)) hs
  | deq t next => exact attended_deqLoop hk (h.entries.mono (by omega)) h.space hs
  | enqResumes t e next =>
      rcases Option.ite_none_right_eq_some.mp hs with ⟨hwoken, hs⟩
      have hk' : Kept limit { s with hasSpace := s.hasSpace.resume (t, e) } :=
        ⟨hk.max, hk.log, hk.bound, hk.unlimited⟩
      refine attended_enqLoop hk' h.entries ?_ hs
      -- If there is no place the thread will not be counted on.
      by_cases hfull : limit ≤ s.fifo.q.length
      · rw [Nat.sub_eq_zero_of_le (by dsimp only; omega)]
        exact fun _ => Nat.zero_le _
      · refine CondVar.Served.resume (h.space.mono ?_) hwoken
        dsimp only
        omega
  | deqResumes t next =>
      rcases Option.ite_none_right_eq_some.mp hs with ⟨hwoken, hs⟩
      have hk' : Kept limit { s with nonEmpty := s.nonEmpty.resume t } :=
        ⟨hk.max, hk.log, hk.bound, hk.unlimited⟩
      refine attended_deqLoop hk' ?_ h.space hs
      by_cases hempty : s.fifo.q.length = 0
      · rw [hempty]
        exact fun _ => Nat.zero_le _
      · refine CondVar.Served.resume (h.entries.mono ?_) hwoken
        dsimp only
        omega
  -- A wake-up without a signal adds to those that were woken, which does no harm.
  | enqWakes t e =>
      rcases Option.ite_none_right_eq_some.mp hs with ⟨hwaiting, hs⟩
      cases hs
      refine ⟨⟨hk.max, hk.log, hk.bound, fun hl => ?_⟩, h.entries, ?_⟩
      · rw [hk.unlimited hl] at hwaiting
        exact absurd hwaiting List.not_mem_nil
      · exact (h.space.wake (t, e)).mono (Nat.le_succ _)
  | deqWakes t =>
      rcases Option.ite_none_right_eq_some.mp hs with ⟨-, hs⟩
      cases hs
      exact ⟨⟨hk.max, hk.log, hk.bound, hk.unlimited⟩, (h.entries.wake t).mono (Nat.le_succ _),
        h.space⟩

/-- In every run: what has been taken is what was entered first, in that order; the queue stays
    within its limit; while a thread waits for an entry, at least as many others have been woken
    as there are entries; and while a thread waits for space, there is a limit, and at least as
    many others have been woken as there are free places. -/
theorem no_lost_wakeup (limit : Nat) (s : BlockingFifo T α)
    (h : Trace.Reaches step Trace.Always (new T α limit) s) :
    s.taken ++ s.fifo.q = s.entered ∧ (limit ≠ 0 → s.fifo.q.length ≤ limit) ∧
      (s.nonEmpty.waiting ≠ [] → s.fifo.q.length ≤ s.nonEmpty.woken.length) ∧
      (s.hasSpace.waiting ≠ [] →
        limit ≠ 0 ∧ limit - s.fifo.q.length ≤ s.hasSpace.woken.length) := by
  have hinv : Attended limit s := Trace.invariant_of_step (Attended limit) (attended_new limit)
    (fun s a s' hs _ hstep => attended_step s a s' hs hstep) h
  refine ⟨hinv.kept.log, hinv.kept.bound, hinv.entries, fun hw => ⟨fun hl => ?_, hinv.space hw⟩⟩
  exact hw (hinv.kept.unlimited hl)

/-- Two threads wait for an entry. One is entered, and before the thread that is woken runs, a
    third one takes it and another one is entered, which wakes the second. -/
theorem no_lost_wakeup_overtaken : ∃ s : BlockingFifo Nat Nat,
    Trace.Reaches step Trace.Always (new Nat Nat 1) s ∧ s.fifo.q = [8] ∧ s.taken = [7] ∧
      s.nonEmpty.waiting = [3] ∧ s.fifo.q.length ≤ s.nonEmpty.woken.length := by
  have hrun : (Trace.run step (fun _ _ => true) (new Nat Nat 1)
      [.deq 1 none, .deq 2 none, .deq 3 none, .enq 4 7 true (some 1), .deq 5 none,
        .enq 4 8 false (some 2)]).map
      (fun s => (s.fifo.q, s.taken, s.nonEmpty.waiting)) = some ([8], [7], [3]) := by
    decide +kernel
  rcases Option.map_eq_some_iff.mp hrun with ⟨s, hs, heq⟩
  simp only [Prod.mk.injEq] at heq
  have hreach := Trace.reaches_always_of_run _ hs
  refine ⟨s, hreach, heq.1, heq.2.1, heq.2.2, (no_lost_wakeup 1 s hreach).2.2.1 ?_⟩
  rw [heq.2.2]
  exact List.cons_ne_nil _ _

end BlockingFifo

end Yfs
