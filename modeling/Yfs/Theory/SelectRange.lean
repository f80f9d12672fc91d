import Mathlib.Order.Bounds.Basic
import Yfs.Theory.PollBarrier

/-!
# The Range of `select`

`select` looks at the descriptors below the number that it is given, and `wait_ready` goes
through the same range afterwards. Both are taken from `highfds_`, so a descriptor above it
would be watched and never reported.

`highfds_` is kept by the calls that change the sets: `watch_fd` raises it, and an
`unwatch_fd` that takes the highest descriptor out of both sets looks for the next one. The
search starts from the end of the pipe that is read, and this is why it always has a
result: as long as nobody takes that end out, it is in the set (`Ranged.pipe`). That no
descriptor is above `highfds_` does not depend on this (`Within`), and it is all that the loop
needs.

The sets have no bound here. An `fd_set` has one, `FD_SETSIZE`, and `MAX_POLL_FDS` is below
it, so no descriptor that `PollMgr` accepts is outside.

## Main definitions

* `Watched`: The descriptors in one of the sets.
* `Ranged`: The pipe is watched, and `highfds_` is the largest descriptor that is.
* `Within`: No descriptor that is watched is above `highfds_`.
* `Covered`: The loop has a copy whose range has everything in it.

## Theorems

* `newHigh_isGreatest`: The search finds the largest descriptor.
* `ranged_watchFd`, `ranged_unwatchFd`, `within_watchFd`, `within_unwatchFd`: The two calls.
* `mem_found`: What the scan finds in a range that has everything in it.
* `select_range`: Every sequence of calls.
* `covered_step`, `selected_complete`: Every run of the loop.
-/

namespace Yfs

namespace SelectAio

/-- Some interest in the descriptor is registered. -/
def Watched (a : SelectAio) (fd : Nat) : Prop :=
  a.rfds fd = true ∨ a.wfds fd = true

/-- The end of the pipe is watched, and `highfds_` is the largest descriptor that is. -/
structure Ranged (pipefd : Nat) (a : SelectAio) : Prop where
  pipefd_eq : a.pipefd = pipefd
  pipe : a.rfds pipefd = true
  high : IsGreatest {fd | a.Watched fd} a.highfds

/-- No descriptor that is watched is above `highfds_`, whether the pipe is one of them or not. -/
structure Within (pipefd : Nat) (a : SelectAio) : Prop where
  pipefd_eq : a.pipefd = pipefd
  high : ∀ fd, a.Watched fd → fd ≤ a.highfds

/-! ## The search -/

section

variable {p : Nat → Prop} [DecidablePred p]

/-- The last step of a scan of a range that keeps the last hit. -/
theorem foldl_last_succ (d n : Nat) :
    (List.range (n + 1)).foldl (fun last i => if p i then i else last) d
      = if p n then n else (List.range n).foldl (fun last i => if p i then i else last) d := by
  rw [List.range_succ, List.foldl_append, List.foldl_cons, List.foldl_nil]

/-- A scan of a range that keeps the last hit ends at a hit, if it starts at one. -/
theorem foldl_last_hit {d : Nat} (hd : p d) (n : Nat) :
    p ((List.range n).foldl (fun last i => if p i then i else last) d) := by
  induction n with
  | zero => exact hd
  | succ n ih =>
      rw [foldl_last_succ]
      by_cases hn : p n
      · rw [if_pos hn]
        exact hn
      · rw [if_neg hn]
        exact ih

/-- No hit of the range is above the last one. -/
theorem le_foldl_last (d n : Nat) {i : Nat} (hi : i < n) (hp : p i) :
    i ≤ (List.range n).foldl (fun last i => if p i then i else last) d := by
  induction n with
  | zero => omega
  | succ n ih =>
      rw [foldl_last_succ]
      by_cases hn : p n
      · rw [if_pos hn]
        omega
      · rw [if_neg hn]
        have hne : i ≠ n := fun h => hn (h ▸ hp)
        exact ih (by omega)

end

instance (a : SelectAio) (fd : Nat) : Decidable (a.Watched fd) :=
  inferInstanceAs (Decidable (_ ∨ _))

/-- The loop of `unwatch_fd` that looks for the new `highfds_` is such a scan, from the pipe on. -/
theorem newHigh_eq (a : SelectAio) : a.newHigh =
    (List.range (a.highfds + 1)).foldl (fun last i => if a.Watched i then i else last)
      a.pipefd := by
  have hbody : (fun newh i => if a.rfds i then i else if a.wfds i then i else newh)
      = fun last i => if a.Watched i then i else last := by
    ext newh i
    by_cases hr : a.rfds i = true
    · simp only [Watched, hr, if_true, true_or]
    · simp only [Watched, hr, Bool.false_eq_true, if_false, false_or]
  rw [newHigh, hbody]

/-- The search goes through a range that has everything in it, and passes nothing. -/
theorem le_newHigh {a : SelectAio} (hhigh : ∀ fd, a.Watched fd → fd ≤ a.highfds) {fd : Nat}
    (hfd : a.Watched fd) : fd ≤ a.newHigh := by
  rw [newHigh_eq]
  exact le_foldl_last _ _ (Nat.lt_succ_of_le (hhigh fd hfd)) hfd

/-- If it also has a descriptor to start from, it ends at one. The pipe is that descriptor:
    `SelectAIO` never takes it out. -/
theorem newHigh_isGreatest {a : SelectAio} (hpipe : a.Watched a.pipefd)
    (hhigh : ∀ fd, a.Watched fd → fd ≤ a.highfds) :
    IsGreatest {fd | a.Watched fd} a.newHigh := by
  refine ⟨?_, fun fd hfd => le_newHigh hhigh hfd⟩
  rw [newHigh_eq]
  exact foldl_last_hit hpipe _

/-! ## The calls -/

theorem update_true (f : Nat → Bool) (fd x : Nat) :
    Function.update f fd true x = true ↔ x = fd ∨ f x = true := by
  by_cases hx : x = fd
  · simp only [hx, Function.update_self, true_or]
  · simp only [hx, Function.update_of_ne hx, false_or]

/-- At first the pipe is all that is watched. -/
theorem ranged_new (pipefd : Nat) : Ranged pipefd (SelectAio.new pipefd) where
  pipefd_eq := rfl
  pipe := by
    simp only [SelectAio.new, Function.update_self]
  high := by
    have hset : {fd | (SelectAio.new pipefd).Watched fd} = {pipefd} := by
      ext fd
      simp only [Watched, SelectAio.new, update_true, Bool.false_eq_true, or_false]
      rfl
    rw [hset]
    exact isGreatest_singleton

/-- `watch_fd` adds its descriptor, whatever the flag. -/
theorem watched_watchFd (a : SelectAio) (fd : Nat) (flag : PollFlag) (x : Nat) :
    (a.watchFd fd flag).Watched x ↔ x = fd ∨ a.Watched x := by
  cases flag <;> simp only [watchFd, Watched, update_true] <;> tauto

/-- It raises `highfds_` if need be. -/
theorem watchFd_highfds (a : SelectAio) (fd : Nat) (flag : PollFlag) :
    (a.watchFd fd flag).highfds = max fd a.highfds := by
  have hmax : (if a.highfds ≤ fd then fd else a.highfds) = max fd a.highfds := by
    split <;> omega
  cases flag <;> exact hmax

/-- `watch_fd` touches the bits of its own descriptor. -/
theorem watchFd_rfds_other (a : SelectAio) {fd : Nat} (flag : PollFlag) {x : Nat}
    (hne : x ≠ fd) : (a.watchFd fd flag).rfds x = a.rfds x := by
  cases flag <;> simp only [watchFd, Function.update_of_ne hne]

theorem watchFd_pipefd (a : SelectAio) (fd : Nat) (flag : PollFlag) :
    (a.watchFd fd flag).pipefd = a.pipefd := by
  cases flag <;> rfl

/-- `watch_fd` keeps the range: with one more descriptor the largest is that one or the old one. -/
theorem ranged_watchFd {pipefd : Nat} {a : SelectAio} (h : Ranged pipefd a) {fd : Nat}
    (flag : PollFlag) (hne : fd ≠ pipefd) : Ranged pipefd (a.watchFd fd flag) := by
  refine ⟨?_, ?_, ?_⟩
  · rw [watchFd_pipefd]
    exact h.pipefd_eq
  · rw [watchFd_rfds_other a flag hne.symm]
    exact h.pipe
  · have hset : {x | (a.watchFd fd flag).Watched x} = insert fd {x | a.Watched x} := by
      ext x
      exact watched_watchFd a fd flag x
    rw [hset, watchFd_highfds]
    exact h.high.insert fd

/-- The first part of `unwatch_fd` does too. -/
theorem clear_other {a c : SelectAio} {fd : Nat} {flag : PollFlag}
    (h : a.clear fd flag = some c) {x : Nat} (hne : x ≠ fd) :
    c.rfds x = a.rfds x ∧ c.wfds x = a.wfds x := by
  cases flag <;> cases h <;> simp only [Function.update_of_ne hne, and_self]

/-- The first part of `unwatch_fd` does not touch the range. -/
theorem clear_fields {a c : SelectAio} {fd : Nat} {flag : PollFlag}
    (h : a.clear fd flag = some c) : c.highfds = a.highfds ∧ c.pipefd = a.pipefd := by
  cases flag <;> cases h <;> exact ⟨rfl, rfl⟩

theorem not_unwatched (a : SelectAio) (fd : Nat) : ¬ a.Unwatched fd ↔ a.Watched fd := by
  rw [Unwatched, Watched, not_and_or, Bool.not_eq_false, Bool.not_eq_false]

/-- What is still watched was watched. -/
theorem watched_of_clear {a c : SelectAio} {fd : Nat} {flag : PollFlag}
    (h : a.clear fd flag = some c) {x : Nat} (hx : c.Watched x) : a.Watched x := by
  rw [← not_unwatched] at hx ⊢
  exact fun hun => hx (PollMgr.clear_unwatched h x hun)

/-- `unwatch_fd` keeps the range. It looks for a new `highfds_` only if it has taken out the old one
    altogether. -/
theorem ranged_unwatchFd {pipefd : Nat} {a a' : SelectAio} (h : Ranged pipefd a) {fd : Nat}
    {flag : PollFlag} {gone : Bool} (hne : fd ≠ pipefd)
    (hun : a.unwatchFd fd flag = some (gone, a')) : Ranged pipefd a' := by
  rcases Option.map_eq_some_iff.mp hun with ⟨c, hc, heq⟩
  rcases clear_fields hc with ⟨hhigh, hpipefd⟩
  have hpipe : c.rfds pipefd = true := by
    rw [(clear_other hc hne.symm).1]
    exact h.pipe
  have hbound : ∀ x, c.Watched x → x ≤ c.highfds := by
    intro x hx
    rw [hhigh]
    exact h.high.2 (watched_of_clear hc hx)
  cases heq
  split
  · -- The highest descriptor is gone, and the search goes below it.
    refine ⟨hpipefd.trans h.pipefd_eq, hpipe, newHigh_isGreatest ?_ hbound⟩
    rw [hpipefd, h.pipefd_eq]
    exact Or.inl hpipe
  · rename_i hkept
    refine ⟨hpipefd.trans h.pipefd_eq, hpipe, ?_, fun x hx => hbound x hx⟩
    change c.Watched c.highfds
    -- It is another descriptor, or an interest in it is left.
    by_cases hfd : fd = c.highfds
    · simp only [← hfd, beq_self_eq_true, Bool.and_true, Bool.and_eq_true,
        Bool.not_eq_true'] at hkept
      rw [← hfd, ← not_unwatched]
      exact hkept
    · rcases clear_other hc (Ne.symm hfd) with ⟨hr, hw⟩
      rw [Watched, hr, hw, hhigh]
      exact h.high.1

/-- At first nothing is above the pipe. -/
theorem within_new (pipefd : Nat) : Within pipefd (SelectAio.new pipefd) :=
  ⟨rfl, fun _ hfd => (ranged_new pipefd).high.2 hfd⟩

/-- `watch_fd` raises the bound to its descriptor. -/
theorem within_watchFd {pipefd : Nat} {a : SelectAio} (h : Within pipefd a) (fd : Nat)
    (flag : PollFlag) : Within pipefd (a.watchFd fd flag) := by
  refine ⟨(watchFd_pipefd a fd flag).trans h.pipefd_eq, fun x hx => ?_⟩
  rw [watchFd_highfds]
  rcases (watched_watchFd a fd flag x).mp hx with rfl | hx
  · exact Nat.le_max_left _ _
  · exact (h.high x hx).trans (Nat.le_max_right _ _)

/-- `unwatch_fd` keeps what is left within the bound, also if it is called on the pipe. The search
    may end at the pipe although it is not watched, but never too low. -/
theorem within_unwatchFd {pipefd : Nat} {a a' : SelectAio} (h : Within pipefd a) {fd : Nat}
    {flag : PollFlag} {gone : Bool} (hun : a.unwatchFd fd flag = some (gone, a')) :
    Within pipefd a' := by
  rcases Option.map_eq_some_iff.mp hun with ⟨c, hc, heq⟩
  rcases clear_fields hc with ⟨hhigh, hpipefd⟩
  have hbound : ∀ x, c.Watched x → x ≤ c.highfds := by
    intro x hx
    rw [hhigh]
    exact h.high x (watched_of_clear hc hx)
  cases heq
  split
  · exact ⟨hpipefd.trans h.pipefd_eq, fun x hx => le_newHigh hbound hx⟩
  · exact ⟨hpipefd.trans h.pipefd_eq, hbound⟩

/-- A call on another descriptor than the pipe. -/
theorem ranged_perform {pipefd : Nat} {a a' : SelectAio} {c : AioCall} (h : Ranged pipefd a)
    (hne : c.fd ≠ pipefd) (hc : a.perform c = some a') : Ranged pipefd a' := by
  cases c with
  | watch fd flag =>
      cases hc
      exact ranged_watchFd h flag hne
  | unwatch fd flag =>
      rcases Option.map_eq_some_iff.mp hc with ⟨⟨gone, aio⟩, hun, rfl⟩
      exact ranged_unwatchFd h hne hun

end SelectAio

/-! ## The scan -/

/-- A range that has everything in it is gone through without a loss. The byte in the pipe
    is not reported. -/
theorem PollMgr.mem_found {K : Type} {pipefd high : Nat} {r w : Nat → Bool}
    (hr : ∀ fd, r fd = true → fd ≤ high) (hw : ∀ fd, w fd = true → fd ≤ high) :
    ∃ readable writable, found (K := K) pipefd high r w = .ready readable writable ∧
      ∀ fd, fd ≠ pipefd → (fd ∈ readable ↔ r fd = true) ∧ (fd ∈ writable ↔ w fd = true) := by
  refine ⟨_, _, rfl, fun fd hne => ?_⟩
  have hpipe : (fd == pipefd && r fd) = false := by
    rw [beq_eq_false_iff_ne.mpr hne, Bool.false_and]
  simp only [List.mem_filter, List.mem_range, hpipe, Bool.not_false, Bool.true_and]
  constructor
  · exact ⟨fun h => h.2, fun h => ⟨Nat.lt_succ_of_le (hr fd h), h⟩⟩
  · exact ⟨fun h => h.2, fun h => ⟨Nat.lt_succ_of_le (hw fd h), h⟩⟩

/-- After any calls on other descriptors than the pipe, `highfds_` is the largest descriptor
    in the two sets. So `select` looks at every one of them, and the scan after it finds all
    that `select` reports. -/
theorem select_range {K : Type} {pipefd : Nat} {a : SelectAio}
    (h : Trace.Reaches SelectAio.perform (fun _ c => c.fd ≠ pipefd) (SelectAio.new pipefd) a) :
    a.rfds pipefd = true ∧
      IsGreatest {fd | a.rfds fd = true ∨ a.wfds fd = true} a.highfds ∧
      (∀ fd, a.rfds fd = true ∨ a.wfds fd = true → fd < a.highfds + 1) ∧
      ∀ r w : Nat → Bool, ∃ readable writable,
        PollMgr.found (K := K) a.pipefd a.highfds (fun fd => a.rfds fd && r fd)
          (fun fd => a.wfds fd && w fd) = .ready readable writable ∧
        ∀ fd, fd ≠ pipefd → (fd ∈ readable ↔ (a.rfds fd && r fd) = true) ∧
          (fd ∈ writable ↔ (a.wfds fd && w fd) = true) := by
  have hranged := Trace.invariant_of_step (SelectAio.Ranged pipefd) (SelectAio.ranged_new pipefd)
    (fun a c a' ha hok hc => SelectAio.ranged_perform ha hok hc) h
  refine ⟨hranged.pipe, hranged.high, fun fd hfd => Nat.lt_succ_of_le (hranged.high.2 hfd),
    fun r w => ?_⟩
  rw [hranged.pipefd_eq]
  refine PollMgr.mem_found (fun fd hfd => ?_) fun fd hfd => ?_
  · exact hranged.high.2 (Or.inl (Bool.and_eq_true_iff.mp hfd).1)
  · exact hranged.high.2 (Or.inr (Bool.and_eq_true_iff.mp hfd).1)

/-- Two descriptors above the pipe and one below. The one that is left is below it, and the
    range goes back to the pipe. -/
theorem select_range_run : ∃ a : SelectAio,
    Trace.Reaches SelectAio.perform (fun _ c => c.fd ≠ 3) (SelectAio.new 3) a ∧
      a.highfds = 3 ∧ IsGreatest {fd | a.rfds fd = true ∨ a.wfds fd = true} 3 := by
  have hrun : Trace.Reaches SelectAio.perform (fun _ c => decide (c.fd ≠ 3) = true)
      (SelectAio.new 3) _ :=
    Trace.reaches_of_run [.watch 7 .rdonly, .watch 0 .wronly, .watch 5 .rdwr,
      .unwatch 7 .rdwr, .unwatch 5 .rdonly, .unwatch 5 .wronly] rfl
  have h := Trace.reaches_weaken (fun _ _ hok => of_decide_eq_true hok) hrun
  exact ⟨_, h, rfl, (select_range (K := Unit) h).2.1⟩

/-! ## Every run of the loop -/

namespace PollMgr

variable {K T : Type}

/-- The sets have their range, and so does the copy that the loop has made of them. -/
structure Covered (pipefd : Nat) (s : PollMgr K T) : Prop where
  aio : s.aio.Within pipefd
  copy : ∀ trfds twfds high, s.loop = .select trfds twfds high →
    ∀ fd, trfds fd = true ∨ twfds fd = true → fd ≤ high

/-- At first the loop has made no copy. -/
theorem covered_new (pipefd : Nat) : Covered pipefd (PollMgr.new K T pipefd) where
  aio := SelectAio.within_new pipefd
  copy := fun _ _ _ h => by cases h

/-- The loop. Its copy of the sets and of `highfds_` is made under the mutex, so the two fit each
    other. -/
theorem covered_stepLoop {pipefd : Nat} {s s' : PollMgr K T} {a : LoopAction}
    (h : Covered pipefd s) (hs : s.stepLoop a = some s') : Covered pipefd s' := by
  rcases stepLoop_cases hs with rfl | ⟨pc, hpc, rfl⟩
  · rcases s.loopTop_eq with ⟨hloop, -, haio⟩
    refine ⟨haio ▸ h.aio, fun _ _ _ hsel => ?_⟩
    rw [hloop] at hsel
    cases hsel
  · refine ⟨h.aio, fun _ _ _ hsel => ?_⟩
    dsimp only at hsel
    -- The loop is at its `select` only when it has just made the copy.
    cases hpc with
    | copy _ =>
        cases hsel
        exact fun fd hfd => h.aio.high fd hfd
    | test _ =>
        unfold test at hsel
        split at hsel
        · split at hsel <;> cases hsel
        · split at hsel <;> cases hsel
        · cases hsel
    | _ => cases hsel

variable [DecidableEq K] [DecidableEq T]

/-- One action of any thread. The other threads change the sets and the range together, and not the
    copy. -/
theorem covered_step {pipefd : Nat} {s s' : PollMgr K T} {a : PollAction K T}
    (h : Covered pipefd s) (hs : s.step a = some s') : Covered pipefd s' := by
  cases a with
  | addCallback fd flag ch =>
      rw [step_addCallback hs]
      exact ⟨SelectAio.within_watchFd h.aio fd flag, h.copy⟩
  | delCallback fd flag =>
      rcases step_delCallback hs with ⟨gone, aio, haio, rfl⟩
      exact ⟨SelectAio.within_unwatchFd h.aio haio, h.copy⟩
  | blockRemove t fd =>
      rcases step_blockRemove hs with ⟨gone, aio, haio, rfl⟩
      exact ⟨SelectAio.within_unwatchFd h.aio haio, h.copy⟩
  | removed t =>
      rcases step_removed hs with ⟨fd, _, rfl⟩
      exact ⟨h.aio, h.copy⟩
  | loop a => exact covered_stepLoop h hs

/-- Whatever the other threads watch and remove meanwhile, the loop goes on with every descriptor of
    its copy that `select` reports, and with no other. For the scan after `select` goes up to the
    `highfds_` of the copy, and none of the copied descriptors is above that. -/
theorem selected_complete {pipefd high : Nat} {s : PollMgr K T} {trfds twfds : Nat → Bool}
    (h : Trace.Reaches step Trace.Always (PollMgr.new K T pipefd) s)
    (hloop : s.loop = .select trfds twfds high) (r w : Nat → Bool) :
    ∃ readable writable,
      s.step (.loop (.selected r w)) = some { s with loop := .ready readable writable } ∧
      ∀ fd, fd ≠ pipefd → (fd ∈ readable ↔ (trfds fd && r fd) = true) ∧
        (fd ∈ writable ↔ (twfds fd && w fd) = true) := by
  have hcovered := Trace.invariant_of_step (Covered pipefd) (covered_new pipefd)
    (fun s a s' hc _ hs => covered_step hc hs) h
  have hcopy := hcovered.copy _ _ _ hloop
  -- What is reported was in the copy.
  have hr : ∀ fd, (trfds fd && r fd) = true → fd ≤ high :=
    fun fd hfd => hcopy fd (Or.inl (Bool.and_eq_true_iff.mp hfd).1)
  have hw : ∀ fd, (twfds fd && w fd) = true → fd ≤ high :=
    fun fd hfd => hcopy fd (Or.inr (Bool.and_eq_true_iff.mp hfd).1)
  rcases mem_found (K := K) hr hw with ⟨readable, writable, hready, hmem⟩
  refine ⟨readable, writable, ?_, hmem⟩
  simp only [step, stepLoop, hloop, hcovered.aio.pipefd_eq, hready]

/-- The loop has copied a set with descriptor 7 in it; another thread then removes that one
    and adds 9. The loop goes on with what it has copied. -/
theorem selected_complete_meanwhile : ∃ s : PollMgr Nat Unit,
    Trace.Reaches step Trace.Always (PollMgr.new Nat Unit 3) s ∧
      s.aio.rfds 7 = false ∧ s.aio.wfds 9 = true ∧
      ∃ readable writable, s.step (.loop (.selected (fun _ => true) fun _ => true))
          = some { s with loop := .ready readable writable } ∧
        7 ∈ readable ∧ 9 ∉ writable := by
  have hrun : Trace.Reaches step Trace.Always (PollMgr.new Nat Unit 3) _ :=
    Trace.reaches_always_of_run [.addCallback 7 .rdonly 1, .loop .top, .loop .copy,
      .delCallback 7 .rdonly, .addCallback 9 .wronly 2] rfl
  rcases selected_complete hrun rfl (fun _ => true) (fun _ => true) with
    ⟨readable, writable, hstep, hmem⟩
  exact ⟨_, hrun, rfl, rfl, readable, writable, hstep, (hmem 7 (by decide)).1.mpr rfl,
    fun h => absurd ((hmem 9 (by decide)).2.mp h) (by decide)⟩

end PollMgr

end Yfs
