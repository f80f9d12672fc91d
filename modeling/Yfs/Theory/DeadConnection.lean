import Yfs.Core.PolledConnection
import Yfs.Theory.PollBarrier

/-!
# No Write Callback on a Dead Connection

`write_cb` starts with `VERIFY(!dead_)`, where `read_cb` returns on a dead connection. So
the process goes down when the loop calls `write_cb` after the connection has died.

Four activities set `dead_`. The two callbacks run in the thread of the loop and remove the
object before they return, so the loop cannot find it again; what it has left from its last
`select` fails the test of `callbacks_`. `closeconn` and a `send` whose first attempt to
write fails set `dead_` in another thread, and only then enter `block_remove_fd`. If there
is interest in writing at that moment, or the loop still has the descriptor among those
that can be written, the loop may call `write_cb` before the removal
(`write_callback_on_dead`). The interest is there while a `send` waits for the rest of its
PDU, and after that until the next call of `write_cb`.

What a run has to avoid is a death of this kind at such a moment (`Polled.calm`). Then the
poll manager is `Silent` from the death on, which no action but a registration ends, and
only a `send` on a connection that is alive registers.

## Main definitions

* `LoopPc.writes`, `LoopPc.calling`: What the loop has left to write to.
* `Polled.writePending`, `Polled.kills`, `Polled.calm`: When another thread may set `dead_`.
* `PollMgr.Silent`: No call of `write_cb` is to come.

## Theorems

* `silent_step`: The poll manager stays silent.
* `sendLoop_cases`: What `send` does to `dead_`.
* `inv_step`: One action.
* `no_write_cb_on_dead`: Every calm run.
* `write_callback_on_dead`: A run that is not.
-/

namespace Yfs

namespace LoopPc

variable {K : Type}

/-- The loop has the descriptor among those that can be written, or is about to call
    some `write_cb`. -/
def writes : LoopPc K → Nat → Bool
  | .top, _ | .copy, _ => false
  | .select _ twfds _, fd => twfds fd
  | .ready _ writable, fd => decide (fd ∈ writable)
  | .tested write _ _ writable, fd => write || decide (fd ∈ writable)
  | .loaded write _ _ _ writable, fd => write || decide (fd ∈ writable)

/-- The next action of the loop is a call of `write_cb`. -/
def calling : LoopPc K → Bool
  | .loaded true _ _ _ _ => true
  | _ => false

/-- A loop that is about to call some `write_cb` counts as one that has every descriptor to write
    to. -/
theorem writes_of_calling {pc : LoopPc K} (h : pc.calling = true) (fd : Nat) :
    pc.writes fd = true := by
  unfold calling at h
  split at h
  · rfl
  · cases h

end LoopPc

/-! ## The poll manager -/

namespace PollMgr

variable {K T : Type}

/-- Nothing but the descriptor is registered. -/
def Only (s : PollMgr K T) (fd : Nat) : Prop :=
  ∀ x, x ≠ fd → s.callbacks x = none

/-- `write_cb` is not about to be called for the descriptor, and will not be. -/
structure Silent (s : PollMgr K T) (fd : Nat) : Prop where
  unwatched : s.aio.wfds fd = false
  notCalling : s.loop.calling = false
  unheld : s.callbacks fd = none ∨ s.loop.writes fd = false

/-- With no interest and nothing in the loop. -/
theorem Silent.of_idle {s : PollMgr K T} {fd : Nat} (hw : s.aio.wfds fd = false)
    (hl : s.loop.writes fd = false) : s.Silent fd := by
  refine ⟨hw, ?_, Or.inr hl⟩
  by_contra hcalling
  rw [LoopPc.writes_of_calling (Bool.not_eq_false _ ▸ hcalling)] at hl
  cases hl

/-- No `unwatch_fd` adds interest in writing. -/
theorem wfds_unwatchFd {a a' : SelectAio} {fd : Nat} {flag : PollFlag} {gone : Bool}
    (h : a.unwatchFd fd flag = some (gone, a')) {x : Nat} (hx : a.wfds x = false) :
    a'.wfds x = false := by
  rcases unwatchFd_sets h with ⟨c, hc, _, hw⟩
  rw [hw]
  cases flag with
  -- Only the set of those to be read is touched.
  | rdonly =>
      cases hc
      exact hx
  | wronly =>
      cases hc
      exact update_false hx
  | rdwr =>
      cases hc
      exact update_false hx
  | _ => cases hc

/-- With `CB_RDWR` no interest is left, so the descriptor is reported as gone. -/
theorem unwatchFd_gone {a a' : SelectAio} {fd : Nat} {gone : Bool}
    (h : a.unwatchFd fd .rdwr = some (gone, a')) : gone = true := by
  rcases Option.map_eq_some_iff.mp h with ⟨c, hc, heq⟩
  cases hc
  cases heq
  simp only [Function.update_self, Bool.not_false, Bool.and_self]

/-- Removing a callback registers none. -/
theorem update_none {f : Nat → Option K} {fd x : Nat} (h : f x = none) :
    Function.update f fd none x = none := by
  by_cases hx : x = fd
  · rw [hx, Function.update_self]
  · rw [Function.update_of_ne hx]
    exact h

/-- The descriptors to write that are found were in the copy: `select` only clears bits. -/
theorem writes_found {pipefd high : Nat} {r tw w : Nat → Bool} {fd : Nat} (h : tw fd = false) :
    (found (K := K) pipefd high r (fun fd => tw fd && w fd)).writes fd = false := by
  have hnot : fd ∉ (List.range (high + 1)).filter
      fun x => !(x == pipefd && r x) && (tw x && w x) := by
    intro hmem
    have htrue := (List.mem_filter.mp hmem).2
    rw [h, Bool.false_and, Bool.and_false] at htrue
    cases htrue
  exact decide_eq_false hnot

/-- A descriptor other than the one that is registered fails the test. -/
theorem Only.eq_of_isSome {s : PollMgr K T} {fd x : Nat} (h : s.Only fd)
    (hx : (s.callbacks x).isSome = true) : x = fd := by
  by_contra hne
  rw [h x hne] at hx
  cases hx

/-- The test at a descriptor of the loop. The loop comes to call `write_cb` only for a descriptor
    that is registered, and nothing but the object's own is. -/
theorem unheld_test {s : PollMgr K T} {fd : Nat} (honly : s.Only fd)
    {readable writable : List Nat} (h : s.callbacks fd = none ∨ fd ∉ writable) :
    s.callbacks fd = none ∨ (s.test readable writable).writes fd = false := by
  unfold test
  split
  -- A descriptor to be read: those to be written stay as they are.
  · rename_i x rest
    have hwritable := h.imp_right decide_eq_false
    split <;> exact hwritable
  · rename_i x rest
    split
    · -- Only the object's own descriptor passes the test.
      rename_i hsome
      have hx := honly.eq_of_isSome hsome
      rcases h with hnone | hnot
      · exact Or.inl hnone
      · exact absurd (hx ▸ List.mem_cons_self) hnot
    · refine h.imp_right fun hnot => decide_eq_false fun hmem => hnot ?_
      exact List.mem_cons_of_mem x hmem
  · exact Or.inr rfl

/-- After the test the callback has yet to be loaded. -/
theorem calling_test (s : PollMgr K T) (readable writable : List Nat) :
    (s.test readable writable).calling = false := by
  unfold test
  split
  · split <;> rfl
  · split <;> rfl
  · rfl

/-- The loop alone does not come to write. It takes its descriptors from the sets, and the one of
    the object is not in them; what it had taken before is tested against the callbacks once
    more. -/
theorem silent_stepLoop {s s' : PollMgr K T} {a : LoopAction} {fd : Nat} (honly : s.Only fd)
    (hs : s.Silent fd) (h : s.stepLoop a = some s') : s'.Silent fd := by
  have hunheld := hs.unheld
  rcases stepLoop_cases h with rfl | ⟨pc, hpc, rfl⟩
  · rcases s.loopTop_eq with ⟨hloop, _, haio⟩
    refine ⟨?_, ?_, Or.inr ?_⟩
    · rw [haio]
      exact hs.unwatched
    · rw [hloop]
      rfl
    · rw [hloop]
      rfl
  -- What the loop has in its hands is copied from the sets, then thinned out, then used up.
  · cases hpc with
    | copy hloop => exact ⟨hs.unwatched, rfl, Or.inr hs.unwatched⟩
    | selected r w hloop =>
        rw [hloop] at hunheld
        exact ⟨hs.unwatched, rfl, hunheld.imp_right writes_found⟩
    | test hloop =>
        rw [hloop] at hunheld
        exact ⟨hs.unwatched, calling_test s _ _,
          unheld_test honly (hunheld.imp_right of_decide_eq_false)⟩
    | @load write x ch readable writable hloop hch =>
        have hx := honly.eq_of_isSome (Option.isSome_iff_exists.mpr ⟨ch, hch⟩)
        rw [hx] at hch
        rw [hloop, hch] at hunheld
        -- The object is registered, so the loop holds nothing to write.
        have hwrites := hunheld.resolve_left (Option.some_ne_none ch)
        have hwrite : write = false := (Bool.or_eq_false_iff.mp hwrites).1
        refine ⟨hs.unwatched, ?_, Or.inr hwrites⟩
        rw [hwrite]
        rfl
    | invoke hloop =>
        rw [hloop] at hunheld
        exact ⟨hs.unwatched, rfl, hunheld.imp_right fun h => (Bool.or_eq_false_iff.mp h).2⟩

/-- The loop calls the objects, and registers and removes none. -/
theorem callbacks_stepLoop {s s' : PollMgr K T} {a : LoopAction} (h : s.stepLoop a = some s') :
    s'.callbacks = s.callbacks := by
  rcases stepLoop_cases h with rfl | ⟨pc, _, rfl⟩
  · exact s.loopTop_eq.2.1
  · rfl

variable [DecidableEq K] [DecidableEq T]

/-- Every action but a registration of another descriptor leaves nothing else registered. -/
theorem only_step {s s' : PollMgr K T} {a : PollAction K T} {fd : Nat} (ho : s.Only fd)
    (h : s.step a = some s') (hne : ∀ x flag ch, a = .addCallback x flag ch → x = fd) :
    s'.Only fd := by
  intro x hx
  have hold := ho x hx
  cases a with
  | addCallback y flag ch =>
      rw [step_addCallback h, hne y flag ch rfl]
      dsimp only
      rw [Function.update_of_ne hx]
      exact hold
  | delCallback y flag =>
      rcases step_delCallback h with ⟨gone, aio, _, rfl⟩
      cases gone with
      | true => exact update_none hold
      | false => exact hold
  | blockRemove t y =>
      rcases step_blockRemove h with ⟨gone, aio, _, rfl⟩
      exact hold
  | removed t =>
      rcases step_removed h with ⟨y, _, rfl⟩
      exact update_none hold
  | loop a =>
      rw [callbacks_stepLoop h]
      exact hold

/-- Every action but a registration keeps the poll manager silent. -/
theorem silent_step {s s' : PollMgr K T} {a : PollAction K T} {fd : Nat} (ho : s.Only fd)
    (hs : s.Silent fd) (h : s.step a = some s') (hne : ∀ x flag ch, a ≠ .addCallback x flag ch) :
    s'.Silent fd := by
  cases a with
  | addCallback y flag ch => exact absurd rfl (hne y flag ch)
  | delCallback y flag =>
      rcases step_delCallback h with ⟨gone, aio, haio, rfl⟩
      refine ⟨wfds_unwatchFd haio hs.unwatched, hs.notCalling, hs.unheld.imp_left fun hnone => ?_⟩
      cases gone with
      | true => exact update_none hnone
      | false => exact hnone
  | blockRemove t y =>
      rcases step_blockRemove h with ⟨gone, aio, haio, rfl⟩
      exact ⟨wfds_unwatchFd haio hs.unwatched, hs.notCalling, hs.unheld⟩
  | removed t =>
      rcases step_removed h with ⟨y, _, rfl⟩
      exact ⟨hs.unwatched, hs.notCalling, hs.unheld.imp_left update_none⟩
  | loop a => exact silent_stepLoop ho hs h

/-- A callback that removes its object for both leaves the poll manager silent. -/
theorem silent_delCallback {s s' : PollMgr K T} {fd : Nat} (hloop : s.loop.calling = false)
    (h : s.step (.delCallback fd .rdwr) = some s') : s'.Silent fd := by
  rcases step_delCallback h with ⟨gone, aio, haio, rfl⟩
  have hun := unwatchFd_rdwr haio
  -- Both interests are gone, so that `del_callback` has cleared the callback as well.
  refine ⟨hun.2, hloop, Or.inl ?_⟩
  rw [unwatchFd_gone haio]
  exact Function.update_self ..

end PollMgr

/-! ## The connection -/

namespace Connection

variable {T : Type} [DecidableEq T]

omit [DecidableEq T] in
/-- An attempt to write leaves `dead_` alone and fails when `write` does. -/
theorem writepdu_dead {c c' : Connection T} {w : WriteResult} {ok : Bool}
    (h : c.writepdu w = some (ok, c')) : c'.dead = c.dead ∧ (ok = false → w = .failed) := by
  unfold writepdu at h
  split at h
  · cases h
  · split at h
    · cases h
      exact ⟨rfl, fun h => by cases h⟩
    · split at h
      · cases h
      · cases w with
        | wrote n =>
            dsimp only at h
            split at h
            · cases h
              exact ⟨rfl, fun h => by cases h⟩
            · cases h
        | eagain =>
            cases h
            exact ⟨rfl, fun h => by cases h⟩
        | failed =>
            cases h
            exact ⟨rfl, fun _ => rfl⟩

/-- What `send` finds or does: a dead connection, and it returns; a connection that stays alive; or
    the death of it, because the first `write` fails. Only in the last case does a thread other than
    that of the loop set `dead_`. -/
theorem sendLoop_cases {c c' : Connection T} {t : T} {b : Bytes} {w : WriteResult}
    (h : c.sendLoop t b w = some c') :
    (c.dead = true ∧ c'.thread t = .idle) ∨ (c.dead = false ∧ c'.dead = false) ∨
      (c.dead = false ∧ c.wpdu.buf.isSome = false ∧ w = .failed ∧
        ∃ k, c'.thread t = .removing k) := by
  unfold sendLoop at h
  split at h
  · rename_i hdead
    cases h
    exact Or.inl ⟨hdead, Function.update_self ..⟩
  · rename_i hlive
    rw [Bool.not_eq_true] at hlive
    split at h
    · cases h
      exact Or.inr (Or.inl ⟨hlive, hlive⟩)
    -- No other thread is sending, so this one makes the first `write` itself.
    · rename_i hfree
      rw [Bool.not_eq_true] at hfree
      unfold obtain at h
      rcases Option.bind_eq_some_iff.mp h with ⟨⟨ok, c₁⟩, hwrite, h⟩
      rcases writepdu_dead hwrite with ⟨hsame, hfailed⟩
      cases ok with
      | false =>
          cases h
          exact Or.inr (Or.inr ⟨hlive, hfree, hfailed rfl, _, Function.update_self ..⟩)
      | true =>
          have hdead₁ : c₁.dead = false := hsame.trans hlive
          simp only [Bool.true_eq_false, if_false] at h
          split at h
          · cases h
            exact Or.inr (Or.inl ⟨hlive, hdead₁⟩)
          · cases h
            exact Or.inr (Or.inl ⟨hlive, hdead₁⟩)

end Connection

namespace Polled

variable {T : Type} [DecidableEq T]

/-- There is interest in writing, or the loop has the descriptor to write to. -/
def writePending (s : Polled T) : Bool :=
  s.poll.aio.wfds s.fd || s.poll.loop.writes s.fd

/-- A thread other than that of the loop sets `dead_`. -/
def kills (s : Polled T) : PolledAction T → Bool
  | .closeconn => !s.conn.dead
  | .send _ _ w | .sendWait _ w => !s.conn.dead && !s.conn.wpdu.buf.isSome && w == .failed
  | _ => false

/-- It does so only when no call of `write_cb` can be on the way. -/
def calm (s : Polled T) (a : PolledAction T) : Bool :=
  !(s.kills a && s.writePending)

/-- The object is the only one, and its death has silenced the poll manager. -/
structure Inv (s : Polled T) : Prop where
  running : s.aborted = false
  only : s.poll.Only s.fd
  silent : s.conn.dead = true → s.poll.Silent s.fd

omit [DecidableEq T] in
/-- What `calm` asks of an action that ends the connection. -/
theorem silent_of_calm {s : Polled T} {a : PolledAction T} (hcalm : s.calm a = true)
    (hkills : s.kills a = true) : s.poll.Silent s.fd := by
  unfold calm writePending at hcalm
  rw [hkills, Bool.true_and, Bool.not_eq_true', Bool.or_eq_false_iff] at hcalm
  exact PollMgr.Silent.of_idle hcalm.1 hcalm.2

/-- A step of the poll manager that is not a registration, on a connection that is as
    before. -/
theorem Inv.of_poll {s : Polled T} (hi : Inv s) {a : PollAction Unit (Option T)}
    {poll : PollMgr Unit (Option T)} (h : s.poll.step a = some poll)
    (hne : ∀ x flag ch, a ≠ .addCallback x flag ch) (due : Option T → Bool) :
    Inv { s with poll, due } where
  running := hi.running
  only := PollMgr.only_step hi.only h fun x flag ch heq => absurd heq (hne x flag ch)
  silent := fun hdead => PollMgr.silent_step hi.only (hi.silent hdead) h hne

omit [DecidableEq T] in
/-- A step of the connection that does not end it. -/
theorem Inv.of_conn {s : Polled T} (hi : Inv s) {conn : Connection T} (due : Option T → Bool)
    (hdead : conn.dead = true → s.conn.dead = true) : Inv { s with conn, due } where
  running := hi.running
  only := hi.only
  silent := fun h => hi.silent (hdead h)

/-- A `send`, with what it does at the poll manager afterwards: it registers interest in writing if
    a part of its PDU is left, and removes the object if its `write` has failed. -/
theorem inv_afterSend {s s' : Polled T} {t : T} {b : Bytes} {w : WriteResult} {c : Connection T}
    (hi : Inv s)
    (hcalm : (!s.conn.dead && !s.conn.wpdu.buf.isSome && w == .failed) = true →
      s.poll.Silent s.fd)
    (hsend : s.conn.sendLoop t b w = some c) (h : s.afterSend t c = some s') : Inv s' := by
  rcases Connection.sendLoop_cases hsend with ⟨hdead, hpc⟩ | ⟨hlive, hlive'⟩ |
      ⟨hlive, hfree, rfl, k, hpc⟩
  · -- The connection was dead before, and the sender registers nothing.
    rw [afterSend, hpc] at h
    cases h
    exact hi.of_conn s.due fun _ => hdead
  · have hnot : ∀ {P : Prop}, c.dead = true → P := by
      intro P hdead
      rw [hlive'] at hdead
      cases hdead
    unfold afterSend at h
    split at h
    -- A part of the PDU is left, and the connection is alive.
    · rcases Option.map_eq_some_iff.mp h with ⟨poll, hadd, rfl⟩
      refine ⟨hi.running, ?_, hnot⟩
      exact PollMgr.only_step (a := .addCallback s.fd .wronly ()) hi.only hadd
        fun x flag ch heq => by cases heq; rfl
    · cases h
      exact hi.of_conn _ hnot
    · cases h
      exact hi.of_conn _ hnot
  · -- The sender has yet to remove the object, but nothing is to be written.
    rw [afterSend, hpc] at h
    cases h
    refine ⟨hi.running, hi.only, fun _ => hcalm ?_⟩
    rw [hlive, hfree]
    rfl

omit [DecidableEq T] in
/-- The call of the callback is behind the loop. -/
theorem calling_invoke {p p' : PollMgr Unit (Option T)} (h : p.stepLoop .invoke = some p') :
    p'.loop.calling = false := by
  simp only [PollMgr.stepLoop] at h
  split at h
  · cases h
    rfl
  · cases h

/-- A callback registers nothing. -/
theorem only_callback {s : Polled T} (hi : Inv s) {p₁ p₂ : PollMgr Unit (Option T)}
    (hinvoke : s.poll.stepLoop .invoke = some p₁)
    (hdel : p₂ = p₁ ∨ ∃ flag, p₁.delCallback s.fd flag = some p₂) : p₂.Only s.fd := by
  have honly : p₁.Only s.fd :=
    PollMgr.only_step (a := .loop .invoke) hi.only hinvoke fun x flag ch heq => by cases heq
  rcases hdel with rfl | ⟨flag, hdel⟩
  · exact honly
  · exact PollMgr.only_step (a := .delCallback s.fd flag) honly hdel
      fun x flag ch heq => by cases heq

/-- A call of `write_cb`. If nothing is to be written it takes the interest back, and if `write`
    fails it removes the object itself, in the thread of the loop. -/
theorem inv_writeCb {s s' : Polled T} {w : WriteResult} (hi : Inv s)
    (hcalling : s.poll.loop.calling = true) (h : s.writeCb w = some s') : Inv s' := by
  unfold writeCb at h
  split at h
  · -- The call that would fail: a silent loop is not about to make it.
    rename_i hdead
    rw [(hi.silent hdead).notCalling] at hcalling
    cases hcalling
  · rename_i hlive
    simp only [Option.bind_eq_bind, Option.bind_eq_some_iff, Option.map_eq_some_iff] at h
    rcases h with ⟨c, hc, p₁, hinvoke, p₂, hdel, rfl⟩
    split at hdel
    · -- Nothing is to be written: the interest goes and the connection stays alive.
      rename_i hsz
      refine ⟨hi.running, only_callback hi hinvoke (Or.inr ⟨_, hdel⟩), fun hdead => ?_⟩
      rw [Connection.writeCb, if_neg hlive, if_pos hsz] at hc
      cases hc
      exact absurd hdead hlive
    · split at hdel
      -- The `write` has failed, and the callback has removed its own object.
      · exact ⟨hi.running, only_callback hi hinvoke (Or.inr ⟨_, hdel⟩),
          fun _ => PollMgr.silent_delCallback (calling_invoke hinvoke) hdel⟩
      · rename_i hlive'
        cases hdel
        exact ⟨hi.running, only_callback hi hinvoke (Or.inl rfl), fun h => absurd h hlive'⟩

/-- A call of `read_cb`. When it ends the connection it removes the object itself, in the thread of
    the loop, which is therefore about to call nothing. -/
theorem inv_readCb {s s' : Polled T} {stream : Bytes} {r₁ r₂ : ReadResult} {consumes : Bool}
    (hi : Inv s) (h : s.readCb stream r₁ r₂ consumes = some s') : Inv s' := by
  unfold readCb at h
  simp only [Option.bind_eq_bind, Option.bind_eq_some_iff, Option.map_eq_some_iff] at h
  rcases h with ⟨c, hc, p₁, hinvoke, p₂, hdel, rfl⟩
  split at hdel
  · exact ⟨hi.running, only_callback hi hinvoke (Or.inr ⟨_, hdel⟩),
      fun _ => PollMgr.silent_delCallback (calling_invoke hinvoke) hdel⟩
  -- The connection was dead before, or is not dead now.
  · rename_i hsame
    cases hdel
    refine ⟨hi.running, only_callback hi hinvoke (Or.inl rfl), fun hdead => ?_⟩
    have hold : s.conn.dead = true := by
      by_contra hlive
      exact hsame ⟨Bool.not_eq_true _ ▸ hlive, hdead⟩
    exact PollMgr.silent_stepLoop hi.only (hi.silent hold) hinvoke

/-- One action. The death of a connection silences the poll manager at once if it comes from a
    callback, and if it comes from another thread `calm` says that there was nothing to silence. -/
theorem inv_step (s : Polled T) (a : PolledAction T) (s' : Polled T) (hi : Inv s)
    (hcalm : s.calm a = true) (h : s.step a = some s') : Inv s' := by
  unfold step at h
  split at h
  · cases h
  · cases a with
    | send t b w =>
        rcases Option.bind_eq_some_iff.mp h with ⟨c, hact, h⟩
        simp only [Connection.act, Option.ite_none_right_eq_some] at hact
        exact inv_afterSend hi (silent_of_calm hcalm) hact.2 h
    | sendWait t w =>
        rcases Option.bind_eq_some_iff.mp h with ⟨c, hact, h⟩
        simp only [Connection.act] at hact
        split at hact
        · exact inv_afterSend hi (silent_of_calm hcalm) hact h
        · cases hact
    | sendComplete t =>
        rcases Option.map_eq_some_iff.mp h with ⟨c, hact, rfl⟩
        refine hi.of_conn s.due ?_
        simp only [Connection.act] at hact
        split at hact
        · split at hact
          · cases hact
          · cases hact
            exact id
        · cases hact
    -- `closeconn` sets `dead_` and removes the object in a second step.
    | closeconn =>
        cases h
        unfold closeconn
        split
        · exact hi
        · rename_i hlive
          rw [Bool.not_eq_true] at hlive
          have hkills : s.kills .closeconn = true := by
            rw [kills, hlive, Bool.not_false]
          have hsilent := silent_of_calm hcalm hkills
          exact ⟨hi.running, hi.only, fun _ => hsilent⟩
    | blockRemove r =>
        simp only [act, Option.ite_none_right_eq_some] at h
        rcases Option.map_eq_some_iff.mp h.2 with ⟨poll, hpoll, rfl⟩
        exact hi.of_poll hpoll (fun _ _ _ heq => by cases heq) _
    | removed r =>
        rcases Option.map_eq_some_iff.mp h with ⟨poll, hpoll, rfl⟩
        exact hi.of_poll hpoll (fun _ _ _ heq => by cases heq) _
    | sendRemoved t =>
        simp only [act, Option.ite_none_right_eq_some] at h
        rcases Option.map_eq_some_iff.mp h.2 with ⟨c, hact, rfl⟩
        refine hi.of_conn s.due ?_
        simp only [Connection.act] at hact
        split at hact
        · cases hact
          exact id
        · cases hact
    | loop a =>
        -- The calls of the callbacks are actions of their own.
        have hpoll : ∃ poll, s.poll.step (.loop a) = some poll ∧ { s with poll } = s' := by
          cases a with
          | invoke => cases h
          | _ => exact Option.map_eq_some_iff.mp h
        rcases hpoll with ⟨poll, hpoll, rfl⟩
        exact hi.of_poll hpoll (fun _ _ _ heq => by cases heq) _
    | writeCb w =>
        simp only [act] at h
        split at h
        · rename_i hloop
          refine inv_writeCb hi ?_ h
          rw [hloop]
          rfl
        · cases h
    | readCb stream r₁ r₂ consumes =>
        simp only [act] at h
        split at h
        · exact inv_readCb hi h
        · cases h

omit [DecidableEq T] in
/-- At first the object is the only one and alive. -/
theorem inv_new (fd pipefd : Nat) : Inv (new T fd pipefd) := by
  refine ⟨rfl, fun x hx => ?_, fun h => by cases h⟩
  change Function.update (fun _ => none) fd (some ()) x = none
  exact Function.update_of_ne hx ..

/-- In every run in which `closeconn` and a failing `send` end the connection only while nothing is
    to be written, `write_cb` is not entered on a dead connection. Both set `dead_` first and remove
    the object from the poll manager later, and `write_cb` begins with a `VERIFY` that the
    connection is not dead; so the condition is on what the loop has at that moment. -/
theorem no_write_cb_on_dead (fd pipefd : Nat) (s : Polled T)
    (h : Trace.Reaches step (fun s a => s.calm a = true) (new T fd pipefd) s) :
    s.aborted = false :=
  (Trace.invariant_of_step Inv (inv_new fd pipefd)
    (fun s a s' hi hcalm hs => inv_step s a s' hi hcalm hs) h).running

/-- A `send` that writes its PDU in two parts. -/
def twoParts : List (PolledAction Unit) :=
  [.send () (List.replicate 24 0) (.wrote 10), .loop .top, .loop .copy,
    .loop (.selected (fun _ => false) fun _ => true), .loop .test, .loop .load]

/-- After it and after `write_cb` has taken the interest in writing back, `closeconn` does
    no harm. -/
theorem no_write_cb_on_dead_closed :
    ∃ s : Polled Unit,
      Trace.Reaches step (fun s a => s.calm a = true) (new Unit 3 5) s ∧
      s.conn.dead = true ∧ s.conn.returned = [(some 0, true)] ∧ s.aborted = false := by
  have h : Trace.Reaches step (fun s a => s.calm a = true) (new Unit 3 5) _ :=
    Trace.reaches_of_run (twoParts ++
      [.writeCb (.wrote 14), .sendComplete (), .loop .test, .loop .top, .loop .copy,
        .loop (.selected (fun _ => false) fun _ => true), .loop .test, .loop .load,
        .writeCb .eagain, .closeconn]) rfl
  exact ⟨_, h, rfl, rfl, no_write_cb_on_dead 3 5 _ h⟩

/-- `closeconn` while the loop is about to write the second part. -/
theorem write_callback_on_dead :
    ∃ s : Polled Unit, Trace.Reaches step Trace.Always (new Unit 3 5) s ∧ s.aborted = true := by
  have h : Trace.Reaches step Trace.Always (new Unit 3 5) _ :=
    Trace.reaches_always_of_run (twoParts ++ [.closeconn, .writeCb .eagain]) rfl
  exact ⟨_, h, rfl⟩

end Polled

end Yfs
