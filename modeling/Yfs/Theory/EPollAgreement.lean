import Yfs.Core.EPoll

/-!
# The Two Ways to Wait

Whether `PollMgr` could be given `EPollAIO` in the place of `SelectAIO`.

As long as the calls are accepted, yes: the kernel has the descriptors that the two sets have,
and `unwatch_fd` returns the same. `fdstatus_` is zero exactly for a descriptor that is in
neither set, so the operation that is chosen fits what the kernel has, with one exception. A
descriptor that is not watched may be taken out of the sets once more, and nothing happens;
`EPollAIO` asks the kernel to delete it, which fails. `RemovesWatched` says that this does not come
about, and it is what decides.

What is used of the kernel is `Kernel.Lawful`: a new instance has nothing, a descriptor that is
there is changed or deleted and one that is not is added, and one that is not there is not
deleted. It promises this for some descriptors only, those that are open and of a kind that
`epoll` takes, and there the calls have to stay. Errors for want of memory are excluded with
it, and so is a descriptor that is closed while it is watched, of which the kernel forgets
without being told.

`is_watched` is another matter. It masks `fdstatus_` with the complement of the flags, so
nothing is left of it, and the answer is no for every flag that calls are made with.

## Main definitions

* `PollFlag.Real`: The flags that calls are made with.
* `statusOf`: The union of the flags of a descriptor.
* `Kernel.Lawful`: What is used of the kernel.
* `table`: A kernel that is lawful, and can be run.
* `Agree`: The same descriptors are watched.
* `RemovesWatched`: What is taken out is in.

## Theorems

* `statusOf_watch`, `statusOf_unwatch`: The operations on flags.
* `Kernel.Lawful.ctl_watch`, `Kernel.Lawful.ctl_unwatch`: The operation that is chosen fits.
* `agree_watch`, `agree_unwatch`, `refused`: One call.
* `agree_answer`: Any call.
* `epoll_agrees`: Any number of calls.
-/

namespace Yfs

namespace PollFlag

/-- The flags that calls are made with. -/
def Real : PollFlag → Prop
  | .rdonly | .wronly | .rdwr => True
  | _ => False

def reads : PollFlag → Bool
  | .rdonly | .rdwr => true
  | _ => false

def writes : PollFlag → Bool
  | .wronly | .rdwr => true
  | _ => false

end PollFlag

namespace EPoll

/-! ## Flags -/

/-- The flags of a descriptor that is watched for reading or for writing. -/
def statusOf (r w : Bool) : UInt32 :=
  (if r then PollFlag.rdonly.bits else 0) ||| (if w then PollFlag.wronly.bits else 0)

/-- The zero that `watch_fd` and `unwatch_fd` test for says that the descriptor is not watched. -/
theorem statusOf_eq_zero (r w : Bool) : statusOf r w = 0 ↔ r = false ∧ w = false := by
  cases r <;> cases w <;> decide

/-- The union of the flags is the flags of the union. The values of `poll_flag` are apart, so that
    this holds bit by bit. -/
theorem statusOf_watch (r w : Bool) {flag : PollFlag} (h : flag.Real) :
    statusOf r w ||| flag.bits = statusOf (r || flag.reads) (w || flag.writes) := by
  cases flag with
  | rdonly => cases r <;> cases w <;> decide
  | wronly => cases r <;> cases w <;> decide
  | rdwr => cases r <;> cases w <;> decide
  | none => exact h.elim
  | mask => exact h.elim

/-- To take a flag out of the union is to take it out of both sets. -/
theorem statusOf_unwatch (r w : Bool) {flag : PollFlag} (h : flag.Real) :
    statusOf r w &&& ~~~flag.bits = statusOf (r && !flag.reads) (w && !flag.writes) := by
  cases flag with
  | rdonly => cases r <;> cases w <;> decide
  | wronly => cases r <;> cases w <;> decide
  | rdwr => cases r <;> cases w <;> decide
  | none => exact h.elim
  | mask => exact h.elim

/-- What the kernel has for a descriptor with these flags. -/
def interestOf (r w : Bool) : Option UInt32 :=
  if r = false ∧ w = false then none else some (events (statusOf r w))

/-- After a `watch_fd` the kernel has the descriptor. -/
theorem interestOf_watch (r w : Bool) {flag : PollFlag} (h : flag.Real) :
    interestOf (r || flag.reads) (w || flag.writes)
      = some (events (statusOf (r || flag.reads) (w || flag.writes))) := by
  refine if_neg fun hnone => ?_
  cases flag with
  | rdonly => simp [PollFlag.reads] at hnone
  | wronly => simp [PollFlag.writes] at hnone
  | rdwr => simp [PollFlag.reads] at hnone
  | none => exact h
  | mask => exact h

/-! ## The kernel -/

/-- What is used of the kernel, for the descriptors that it takes. -/
structure Kernel.Lawful {K : Type} (k : Kernel K) (pollable : Nat → Prop) : Prop where
  /-- A new instance has no descriptor. -/
  create : ∀ i, k.create = some i → ∀ fd, k.interest i fd = none
  /-- A descriptor that is not there can be added. -/
  add : ∀ i fd ev, pollable fd → k.interest i fd = none →
    ∃ i', k.ctl i .add fd ev = some i' ∧
      k.interest i' = Function.update (k.interest i) fd (some ev)
  /-- One that is there can be changed. -/
  mod : ∀ i fd ev, pollable fd → k.interest i fd ≠ none →
    ∃ i', k.ctl i .mod fd ev = some i' ∧
      k.interest i' = Function.update (k.interest i) fd (some ev)
  /-- One that is there can be deleted. -/
  del : ∀ i fd ev, pollable fd → k.interest i fd ≠ none →
    ∃ i', k.ctl i .del fd ev = some i' ∧
      k.interest i' = Function.update (k.interest i) fd none
  /-- One that is not there cannot. -/
  del_absent : ∀ i fd ev, k.interest i fd = none → k.ctl i .del fd ev = none

/-- The kernel as a table of the descriptors that were added. -/
def table : Kernel (Nat → Option UInt32) where
  create := some fun _ => none
  ctl i op fd ev :=
    match op, i fd with
    | .add, none => some (Function.update i fd (some ev))
    | .mod, some _ => some (Function.update i fd (some ev))
    | .del, some _ => some (Function.update i fd none)
    | _, _ => none
  interest i := i

/-- The table satisfies what is used of the kernel, for every choice of the descriptors it takes. -/
theorem table_lawful (pollable : Nat → Prop) : table.Lawful pollable where
  create := by
    intro i hi fd
    cases hi
    rfl
  add := by
    intro i fd ev _ hnone
    refine ⟨Function.update i fd (some ev), ?_, rfl⟩
    simp only [table] at hnone ⊢
    rw [hnone]
  mod := by
    intro i fd ev _ hsome
    rcases Option.ne_none_iff_exists'.mp hsome with ⟨old, hold⟩
    refine ⟨Function.update i fd (some ev), ?_, rfl⟩
    simp only [table] at hold ⊢
    rw [hold]
  del := by
    intro i fd ev _ hsome
    rcases Option.ne_none_iff_exists'.mp hsome with ⟨old, hold⟩
    refine ⟨Function.update i fd none, ?_, rfl⟩
    simp only [table] at hold ⊢
    rw [hold]
  del_absent := by
    intro i fd ev hnone
    simp only [table] at hnone ⊢
    rw [hnone]

section

variable {K : Type} {k : Kernel K} {pollable : Nat → Prop} {i : K} {fd : Nat} {r w : Bool}

/-- A descriptor is added if it is not there, and changed if it is. -/
theorem Kernel.Lawful.ctl_watch (hk : k.Lawful pollable) (hfd : pollable fd)
    (h : k.interest i fd = interestOf r w) (ev : UInt32) :
    ∃ i', k.ctl i (if statusOf r w ≠ 0 then .mod else .add) fd ev = some i' ∧
      k.interest i' = Function.update (k.interest i) fd (some ev) := by
  by_cases hnone : r = false ∧ w = false
  · rw [if_neg (not_not.mpr ((statusOf_eq_zero r w).mpr hnone))]
    refine hk.add i fd ev hfd ?_
    rw [h, interestOf, if_pos hnone]
  · rw [if_pos fun hzero => hnone ((statusOf_eq_zero r w).mp hzero)]
    refine hk.mod i fd ev hfd ?_
    rw [h, interestOf, if_neg hnone]
    exact Option.some_ne_none _

/-- A descriptor that is there is changed, or deleted if nothing is left. -/
theorem Kernel.Lawful.ctl_unwatch (hk : k.Lawful pollable) (hfd : pollable fd)
    (hsome : k.interest i fd ≠ none) (r w : Bool) :
    ∃ i', k.ctl i (if statusOf r w ≠ 0 then .mod else .del) fd (events (statusOf r w)) = some i' ∧
      k.interest i' = Function.update (k.interest i) fd (interestOf r w) := by
  by_cases hnone : r = false ∧ w = false
  · rw [if_neg (not_not.mpr ((statusOf_eq_zero r w).mpr hnone)), interestOf, if_pos hnone]
    exact hk.del i fd _ hfd hsome
  · rw [if_pos fun hzero => hnone ((statusOf_eq_zero r w).mp hzero), interestOf, if_neg hnone]
    exact hk.mod i fd _ hfd hsome

end

end EPoll

open EPoll

/-- Descriptors other than the pipe are watched for the same. -/
def Agree {K : Type} (k : Kernel K) (pipefd : Nat) (a : SelectAio) (e : EPollAio K) : Prop :=
  ∀ fd, fd ≠ pipefd → e.fdstatus fd = statusOf (a.rfds fd) (a.wfds fd) ∧
    k.interest e.pollfd fd = interestOf (a.rfds fd) (a.wfds fd)

/-- What is taken out is watched, along the calls. -/
def RemovesWatched : List AioCall → SelectAio → Prop
  | [], _ => True
  | c :: rest, a =>
      (∀ fd flag, c = .unwatch fd flag → a.rfds fd = true ∨ a.wfds fd = true) ∧
        ∀ r, a.answer c = some r → RemovesWatched rest r.2

/-- A call by `PollMgr`: on a descriptor that the kernel takes, not the pipe and within range,
    with one of the flags. -/
def AioCall.Regular (pollable : Nat → Prop) (pipefd : Nat) : AioCall → Prop
  | .watch fd flag | .unwatch fd flag =>
      pollable fd ∧ fd ≠ pipefd ∧ fd < maxPollFds ∧ flag.Real

namespace SelectAio

/-- `watch_fd` of the other implementation, as a change of two sets. -/
theorem watchFd_sets (a : SelectAio) (fd : Nat) {flag : PollFlag} (h : flag.Real) :
    (a.watchFd fd flag).rfds = Function.update a.rfds fd (a.rfds fd || flag.reads) ∧
      (a.watchFd fd flag).wfds = Function.update a.wfds fd (a.wfds fd || flag.writes) := by
  cases flag with
  | rdonly => simp [watchFd, PollFlag.reads, PollFlag.writes]
  | wronly => simp [watchFd, PollFlag.reads, PollFlag.writes]
  | rdwr => simp [watchFd, PollFlag.reads, PollFlag.writes]
  | none => exact h.elim
  | mask => exact h.elim

/-- `FD_CLR` for the flag, as a change of two sets. -/
theorem clear_sets (a : SelectAio) (fd : Nat) {flag : PollFlag} (h : flag.Real) :
    ∃ a', a.clear fd flag = some a' ∧
      a'.rfds = Function.update a.rfds fd (a.rfds fd && !flag.reads) ∧
      a'.wfds = Function.update a.wfds fd (a.wfds fd && !flag.writes) := by
  cases flag with
  | rdonly => exact ⟨_, rfl, by simp [PollFlag.reads], by simp [PollFlag.writes]⟩
  | wronly => exact ⟨_, rfl, by simp [PollFlag.reads], by simp [PollFlag.writes]⟩
  | rdwr => exact ⟨_, rfl, by simp [PollFlag.reads], by simp [PollFlag.writes]⟩
  | none => exact h.elim
  | mask => exact h.elim

/-- `unwatch_fd` of the other implementation: it returns that the descriptor is in neither set any
    more. The range of `select`, which it may lower, is no matter here. -/
theorem unwatchFd_sets (a : SelectAio) (fd : Nat) {flag : PollFlag} (h : flag.Real) :
    ∃ a', a.unwatchFd fd flag
        = some (!(a.rfds fd && !flag.reads) && !(a.wfds fd && !flag.writes), a') ∧
      a'.rfds = Function.update a.rfds fd (a.rfds fd && !flag.reads) ∧
      a'.wfds = Function.update a.wfds fd (a.wfds fd && !flag.writes) := by
  rcases clear_sets a fd h with ⟨c, hc, hr, hw⟩
  simp only [unwatchFd, hc, Option.map_some, Option.some.injEq, Prod.mk.injEq]
  refine ⟨_, ⟨by rw [hr, hw, Function.update_self, Function.update_self], rfl⟩, ?_, ?_⟩
  · split <;> exact hr
  · split <;> exact hw

end SelectAio

section

variable {K : Type} {k : Kernel K} {pollable : Nat → Prop} {pipefd fd : Nat} {a : SelectAio}
  {e : EPollAio K} {flag : PollFlag}

/-- The two start with nothing but the pipe of `SelectAIO`. -/
theorem agree_new (hk : k.Lawful pollable) (pipefd : Nat) (he : EPollAio.new k = some e) :
    Agree k pipefd (SelectAio.new pipefd) e := by
  rcases Option.map_eq_some_iff.mp he with ⟨i, hi, rfl⟩
  intro fd hfd
  refine ⟨?_, ?_⟩
  · simp [SelectAio.new, hfd, statusOf]
  · rw [hk.create i hi fd]
    simp [SelectAio.new, hfd, interestOf]

/-- The same change at one descriptor. -/
theorem Agree.update (h : Agree k pipefd a e) {a' : SelectAio} {e' : EPollAio K} {r w : Bool}
    (hr : a'.rfds = Function.update a.rfds fd r) (hw : a'.wfds = Function.update a.wfds fd w)
    (hstatus : e'.fdstatus = Function.update e.fdstatus fd (statusOf r w))
    (hinterest : k.interest e'.pollfd
      = Function.update (k.interest e.pollfd) fd (interestOf r w)) :
    Agree k pipefd a' e' := by
  intro x hx
  rw [hr, hw, hstatus, hinterest]
  by_cases hxfd : x = fd
  · subst hxfd
    simp only [Function.update_self, and_self]
  · simp only [Function.update_of_ne hxfd]
    exact h x hx

/-- `watch_fd` adds a descriptor or changes it, as the kernel has it. Of the three tests of `VERIFY`
    the first is on the range and the second can fail for no flag, and the third is the kernel's
    answer. -/
theorem agree_watch (hk : k.Lawful pollable) (h : Agree k pipefd a e) (hpoll : pollable fd)
    (hfd : fd ≠ pipefd) (hlt : fd < maxPollFds) (hflag : flag.Real) :
    ∃ e', e.watchFd k fd flag = some e' ∧ Agree k pipefd (a.watchFd fd flag) e' := by
  rcases h fd hfd with ⟨hstatus, hinterest⟩
  rcases a.watchFd_sets fd hflag with ⟨hr, hw⟩
  -- With `CB_RDWR` both bits are set, so the events are all three.
  have hverify : ¬ (flag = .rdwr ∧ events (statusOf (a.rfds fd || flag.reads)
      (a.wfds fd || flag.writes)) ≠ epollet ||| epollin ||| epollout) := by
    rintro ⟨rfl, hne⟩
    refine hne ?_
    simp only [PollFlag.reads, PollFlag.writes, Bool.or_true]
    decide
  -- The flags so far decide the operation, and it is the one the kernel accepts.
  rcases hk.ctl_watch hpoll hinterest (events (statusOf (a.rfds fd || flag.reads)
    (a.wfds fd || flag.writes))) with ⟨i', hctl, hi'⟩
  have hwatch : e.watchFd k fd flag = some ⟨Function.update e.fdstatus fd (statusOf
      (a.rfds fd || flag.reads) (a.wfds fd || flag.writes)), i'⟩ := by
    rw [EPollAio.watchFd, if_neg (by omega)]
    dsimp only
    rw [hstatus, statusOf_watch _ _ hflag, if_neg hverify, hctl]
    rfl
  refine ⟨_, hwatch, h.update hr hw rfl ?_⟩
  rw [interestOf_watch _ _ hflag]
  exact hi'

/-- `unwatch_fd` on a descriptor that is watched: it is changed while a flag is left, and deleted
    with the last one. The two implementations return the same. -/
theorem agree_unwatch (hk : k.Lawful pollable) (h : Agree k pipefd a e) (hpoll : pollable fd)
    (hfd : fd ≠ pipefd) (hlt : fd < maxPollFds) (hflag : flag.Real)
    (hin : a.rfds fd = true ∨ a.wfds fd = true) :
    ∃ gone a' e', a.unwatchFd fd flag = some (gone, a') ∧
      e.unwatchFd k fd flag = some (gone, e') ∧ Agree k pipefd a' e' := by
  rcases h fd hfd with ⟨hstatus, hinterest⟩
  rcases a.unwatchFd_sets fd hflag with ⟨a', ha', hr, hw⟩
  -- The kernel has the descriptor, so it may be changed or deleted.
  have hsome : k.interest e.pollfd fd ≠ none := by
    rw [hinterest, interestOf, if_neg]
    · exact Option.some_ne_none _
    · rintro ⟨hr, hw⟩
      rw [hr, hw] at hin
      simp at hin
  generalize hr' : (a.rfds fd && !flag.reads) = r at ha' hr
  generalize hw' : (a.wfds fd && !flag.writes) = w at ha' hw
  have hverify : ¬ (flag = .rdwr ∧ (if statusOf r w ≠ 0 then CtlOp.mod else CtlOp.del) ≠ .del) := by
    rintro ⟨rfl, hne⟩
    simp only [PollFlag.reads, PollFlag.writes, Bool.not_true, Bool.and_false] at hr' hw'
    rw [← hr', ← hw'] at hne
    exact hne rfl
  -- The result is whether the operation was the deletion; on the other side, whether both sets are
  -- without the descriptor.
  have hgone : ((if statusOf r w ≠ 0 then CtlOp.mod else CtlOp.del) == .del) = (!r && !w) := by
    cases r <;> cases w <;> decide
  rcases hk.ctl_unwatch hpoll hsome r w with ⟨i', hctl, hi'⟩
  have hunwatch : e.unwatchFd k fd flag = some (!r && !w, ⟨Function.update e.fdstatus fd
      (statusOf r w), i'⟩) := by
    rw [EPollAio.unwatchFd, if_neg (by omega)]
    dsimp only
    rw [hstatus, statusOf_unwatch _ _ hflag, hr', hw', if_neg hverify, hctl, hgone]
    rfl
  exact ⟨_, a', _, ha', hunwatch, h.update hr hw rfl hi'⟩

/-- On one that is not watched, the kernel has nothing to delete. The call fails in `VERIFY`, where
    `SelectAIO` would only clear what is clear. -/
theorem refused (hk : k.Lawful pollable) (h : Agree k pipefd a e) (hfd : fd ≠ pipefd)
    (hflag : flag.Real) (hout : ¬ (a.rfds fd = true ∨ a.wfds fd = true)) :
    e.unwatchFd k fd flag = none := by
  rcases h fd hfd with ⟨hstatus, hinterest⟩
  have hr : a.rfds fd = false := Bool.eq_false_iff.mpr fun hr => hout (Or.inl hr)
  have hw : a.wfds fd = false := Bool.eq_false_iff.mpr fun hw => hout (Or.inr hw)
  rw [hr, hw] at hstatus hinterest
  -- No flag is left after the call, whatever it takes out, so the operation is the deletion.
  have hzero : statusOf false false &&& ~~~flag.bits = 0 := by
    rw [statusOf_unwatch _ _ hflag, Bool.false_and, Bool.false_and]
    rfl
  rw [EPollAio.unwatchFd]
  split
  · rfl
  · dsimp only
    rw [hstatus, hzero, if_neg (not_not.mpr rfl), hk.del_absent _ _ _ hinterest]
    split <;> rfl

/-! ## Calls -/

/-- A call is accepted if and only if it takes out what is in, and then both answer the same. -/
theorem agree_answer (hk : k.Lawful pollable) (h : Agree k pipefd a e) {c : AioCall}
    (hc : c.Regular pollable pipefd) :
    ((∀ fd flag, c = .unwatch fd flag → a.rfds fd = true ∨ a.wfds fd = true) ∧
        ∃ res a' e', a.answer c = some (res, a') ∧ e.perform k c = some (res, e') ∧
          Agree k pipefd a' e') ∨
      (¬ (∀ fd flag, c = .unwatch fd flag → a.rfds fd = true ∨ a.wfds fd = true) ∧
        e.perform k c = none) := by
  cases c with
  | watch fd flag =>
      rcases hc with ⟨hpoll, hfd, hlt, hflag⟩
      rcases agree_watch hk h hpoll hfd hlt hflag with ⟨e', he', hagree⟩
      refine Or.inl ⟨nofun, none, _, e', rfl, ?_, hagree⟩
      rw [EPollAio.perform, he']
      rfl
  | unwatch fd flag =>
      rcases hc with ⟨hpoll, hfd, hlt, hflag⟩
      by_cases hin : a.rfds fd = true ∨ a.wfds fd = true
      · rcases agree_unwatch hk h hpoll hfd hlt hflag hin with ⟨gone, a', e', ha', he', hagree⟩
        refine Or.inl ⟨?_, some gone, a', e', ?_, ?_, hagree⟩
        · intro fd' flag' heq
          cases heq
          exact hin
        · rw [SelectAio.answer, ha']
          rfl
        · rw [EPollAio.perform, he']
          rfl
      · refine Or.inr ⟨fun hall => hin (hall fd flag rfl), ?_⟩
        rw [EPollAio.perform, refused hk h hfd hflag hin]
        rfl

/-- The same of calls one after another: the first that takes out what is not in ends it. The
    induction is over the calls, with both states free. -/
theorem agree_answerAll (hk : k.Lawful pollable) (h : Agree k pipefd a e) {calls : List AioCall}
    (hcalls : ∀ c ∈ calls, c.Regular pollable pipefd) :
    (RemovesWatched calls a ∧ ∃ res a' e', answerAll SelectAio.answer calls a = some (res, a') ∧
        answerAll (EPollAio.perform k) calls e = some (res, e') ∧ Agree k pipefd a' e') ∨
      (¬ RemovesWatched calls a ∧ answerAll (EPollAio.perform k) calls e = none) := by
  induction calls generalizing a e with
  | nil => exact Or.inl ⟨trivial, [], a, e, rfl, rfl, h⟩
  | cons c rest ih =>
      rcases agree_answer hk h (hcalls c List.mem_cons_self) with
        ⟨hin, res, a', e', ha', he', hagree⟩ | ⟨hout, he'⟩
      · rcases ih hagree fun c hc => hcalls c (List.mem_cons_of_mem _ hc) with
          ⟨hrest, rs, a'', e'', ha'', he'', hagree'⟩ | ⟨hrest, he''⟩
        · refine Or.inl ⟨⟨hin, ?_⟩, res :: rs, a'', e'', ?_, ?_, hagree'⟩
          · intro r hr
            rw [ha', Option.some.injEq] at hr
            rw [← hr]
            exact hrest
          · simp [answerAll, ha', ha'']
          · simp [answerAll, he', he'']
        · refine Or.inr ⟨fun hwatched => hrest (hwatched.2 _ ha'), ?_⟩
          simp [answerAll, he', he'']
      · refine Or.inr ⟨fun hwatched => hout hwatched.1, ?_⟩
        simp [answerAll, he']

end

/-- `CB_MASK` is the complement of the two flags, so under it nothing is left of them, and the
    comparison with a flag that is not zero fails. -/
theorem isWatched_eq_false {K : Type} (e : EPollAio K) {fd : Nat} {r w : Bool} {flag : PollFlag}
    (hstatus : e.fdstatus fd = statusOf r w) (hfd : fd < maxPollFds) (hflag : flag.Real) :
    e.isWatched fd flag = some false := by
  rw [EPollAio.isWatched, if_neg (by omega), hstatus]
  cases flag with
  | rdonly => cases r <;> cases w <;> decide
  | wronly => cases r <;> cases w <;> decide
  | rdwr => cases r <;> cases w <;> decide
  | none => exact hflag.elim
  | mask => exact hflag.elim

/-- The calls of a `PollMgr` on `EPollAIO`, over a lawful kernel: all are accepted if and only if
    no descriptor is taken out that is not watched. They then return what they return on
    `SelectAIO`, and the same descriptors are watched; but `is_watched` says of none that it
    is. -/
theorem epoll_agrees {K : Type} {k : Kernel K} {pollable : Nat → Prop}
    (hk : k.Lawful pollable) (pipefd : Nat) {e₀ : EPollAio K} (he₀ : EPollAio.new k = some e₀)
    (calls : List AioCall) (hcalls : ∀ c ∈ calls, c.Regular pollable pipefd) :
    ((answerAll (EPollAio.perform k) calls e₀).isSome = true ↔
        RemovesWatched calls (SelectAio.new pipefd)) ∧
      ∀ res e, answerAll (EPollAio.perform k) calls e₀ = some (res, e) →
        ∃ a, answerAll SelectAio.answer calls (SelectAio.new pipefd) = some (res, a) ∧
          ∀ fd, fd ≠ pipefd →
            k.interest e.pollfd fd = interestOf (a.rfds fd) (a.wfds fd) ∧
              ∀ flag, flag.Real → fd < maxPollFds → e.isWatched fd flag = some false := by
  rcases agree_answerAll hk (agree_new hk pipefd he₀) hcalls with
    ⟨hwatched, res, a, e, ha, he, hagree⟩ | ⟨hwatched, he⟩
  · refine ⟨iff_of_true (by rw [he]; rfl) hwatched, fun res' e' he' => ?_⟩
    rw [he, Option.some.injEq, Prod.mk.injEq] at he'
    rcases he' with ⟨rfl, rfl⟩
    refine ⟨a, ha, fun fd hfd => ⟨(hagree fd hfd).2, fun flag hflag hlt => ?_⟩⟩
    exact isWatched_eq_false e (hagree fd hfd).1 hlt hflag
  · refine ⟨iff_of_false (by rw [he]; simp) hwatched, fun res e' he' => ?_⟩
    rw [he] at he'
    cases he'

/-- A connection that is watched for reading, and for a while for writing as well: one of the
    two says at the end that it is. -/
theorem epoll_agrees_connection :
    ∃ e₀ e a, EPollAio.new table = some e₀ ∧
      answerAll (EPollAio.perform table)
        [.watch 5 .rdonly, .watch 5 .wronly, .unwatch 5 .wronly] e₀
          = some ([none, none, some false], e) ∧
      answerAll SelectAio.answer [.watch 5 .rdonly, .watch 5 .wronly, .unwatch 5 .wronly]
          (SelectAio.new 3) = some ([none, none, some false], a) ∧
      a.isWatched 5 .rdonly = true ∧ e.isWatched 5 .rdonly = some false := by
  have hcalls : ∀ c ∈ [AioCall.watch 5 .rdonly, .watch 5 .wronly, .unwatch 5 .wronly],
      c.Regular (fun fd => fd = 5) 3 := by
    intro c hc
    simp only [List.mem_cons, List.not_mem_nil, or_false] at hc
    rcases hc with rfl | rfl | rfl
    all_goals exact ⟨rfl, by decide, by decide, trivial⟩
  have hrun : (answerAll (EPollAio.perform table) [.watch 5 .rdonly, .watch 5 .wronly,
      .unwatch 5 .wronly] ⟨fun _ => 0, fun _ => none⟩).map Prod.fst
        = some [none, none, some false] := by
    decide +kernel
  have hwatched : (answerAll SelectAio.answer [.watch 5 .rdonly, .watch 5 .wronly,
      .unwatch 5 .wronly] (SelectAio.new 3)).map (fun r => r.2.isWatched 5 .rdonly)
        = some true := by
    decide +kernel
  rcases Option.map_eq_some_iff.mp hrun with ⟨⟨res, e⟩, he, rfl⟩
  rcases (epoll_agrees (table_lawful _) 3 rfl _ hcalls).2 _ e he with ⟨a, ha, hsame⟩
  rw [ha, Option.map_some, Option.some.injEq] at hwatched
  exact ⟨_, e, a, rfl, he, ha, hwatched, (hsame 5 (by decide)).2 .rdonly trivial (by decide)⟩

end Yfs
