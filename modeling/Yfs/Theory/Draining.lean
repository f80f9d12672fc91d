import Yfs.Core.Draining
import Yfs.Library.Simulation
import Yfs.Theory.ReplyMatching

/-!
# A Cancelled Client Runs Empty

After `cancel` has set `destroy_wait_`, no call is added to `calls_` and those in it are done,
so all that is left for their threads is to take them out.

`Closing` is about the client alone. It says this of `calls_`, and that what has been returned
since is a failure, even to a thread whose reply had come; a call that was refused for another
reason has the code of that. `Drained` adds the thread in `cancel`. Its part is that the wait
is not one for nothing: a call is taken out and the signal is sent in one section, so a thread
that waits has a call to wait for. Every record in `calls_` is that of a thread in `call1`, and
from this it follows that the wait can end (`returns_of_woken`), without a reply from anywhere.

## Main definitions

* `CallResult.Failed`: What calls return from then on.
* `Client.Closing`, `Draining.Drained`: The invariants.
* `DrainingAction.Leaving`: What threads do that are on their way out.

## Theorems

* `closing_call1`, `closing_gotPdu`, `closing_endCall`, `closing_cancel`: The sections.
* `drained_step`: One step.
* `returns_of_woken`: The end of the wait.
* `cancel_drains`: Every run.
-/

namespace Yfs

namespace Rpc

/-- What is left to do when all threads leave. -/
def DrainingAction.Leaving {T : Type} : DrainingAction T → Prop
  | .endCall _ | .resume => True
  | _ => False

/-- A call that was cancelled or refused. -/
def CallResult.Failed {T : Type} (r : CallResult T) : Prop :=
  r.ret = RpcConst.cancelFailure ∨ (r.request = none ∧ r.ret = RpcConst.bindFailure)

namespace Client

variable {T : Type} {c c' : Client T} {n : Nat}

/-- A client, and the number of the calls that had returned when it was cancelled. -/
structure Closing (c : Client T) (n : Nat) : Prop where
  owned : ∀ ca ∈ c.rpcc.calls, ∃ t req, c.inCall t = some req ∧ req.xid = ca.xid
  failing : c.rpcc.destroyWait = true →
    ∀ ca ∈ c.rpcc.calls, ca.done = true ∧ ca.intret = RpcConst.cancelFailure
  counted : n ≤ c.results.length
  refused : c.rpcc.destroyWait = true → ∀ r ∈ c.results.drop n, r.Failed

/-- No call has been made. -/
theorem closing_new (nonce : Nat) : (Client.new T nonce).Closing 0 where
  owned := fun _ h => absurd h List.not_mem_nil
  failing := fun _ _ h => absurd h List.not_mem_nil
  counted := Nat.zero_le _
  refused := fun _ _ h => absurd h List.not_mem_nil

/-- One more failure is returned. -/
theorem Closing.failed_append (h : c.Closing n) {r : CallResult T}
    (hr : c.rpcc.destroyWait = true → r.Failed) (hflag : c.rpcc.destroyWait = true) :
    ∀ r' ∈ (c.results ++ [r]).drop n, r'.Failed := by
  intro r' hr'
  -- The results before the cancel are not looked at.
  rw [List.drop_append_of_le_length h.counted] at hr'
  rcases List.mem_append.mp hr' with hold | hnew
  · exact h.refused hflag r' hold
  · rw [List.mem_singleton.mp hnew]
    exact hr hflag

/-- Marking the calls, whatever becomes of the flag. -/
theorem closing_cancel (h : c.Closing n) (flag : Bool) :
    Closing { c with rpcc := { c.rpcc.cancel with destroyWait := flag } } c.results.length where
  owned := by
    intro ca hca
    rcases List.mem_map.mp hca with ⟨ca', hmem, rfl⟩
    exact h.owned ca' hmem
  failing := by
    intro _ ca hca
    rcases List.mem_map.mp hca with ⟨ca', -, rfl⟩
    exact ⟨rfl, rfl⟩
  counted := Nat.le_refl _
  refused := by
    intro _ r hr
    rw [List.drop_length] at hr
    exact absurd hr List.not_mem_nil

theorem complete_of_done (r : Reply) {ca : Caller} (h : ca.done = true) : ca.complete r = ca := by
  unfold Caller.complete
  rw [if_neg]
  simp [h]

theorem xid_complete (r : Reply) (ca : Caller) : (ca.complete r).xid = ca.xid := by
  unfold Caller.complete
  split <;> rfl

/-- A PDU does nothing to calls that have been cancelled: they are done, and a reply completes only
    a call that is not. -/
theorem closing_gotPdu (h : c.Closing n) (pdu : Bytes) :
    (c.gotPdu pdu).Closing n ∧ (c.gotPdu pdu).rpcc.destroyWait = c.rpcc.destroyWait ∧
      (c.rpcc.destroyWait = true → (c.gotPdu pdu).rpcc.calls = c.rpcc.calls) := by
  cases hh : replyHeader pdu with
  | none =>
      rw [gotPdu_dropped c pdu hh]
      exact ⟨⟨h.owned, h.failing, h.counted, h.refused⟩, rfl, fun _ => rfl⟩
  | some hd =>
      unfold gotPdu
      rw [hh]
      -- Every call in `calls_` is done once the flag is set.
      have hsame : c.rpcc.destroyWait = true → c.rpcc.calls.map
          (Caller.complete ⟨hd.xid.toNat, hd.ret.toInt, pdu.drop rpcHeaderSz⟩) = c.rpcc.calls := by
        intro hflag
        rw [List.map_congr_left fun ca hca => complete_of_done _ (h.failing hflag ca hca).1]
        exact List.map_id' _
      refine ⟨⟨fun ca hca => ?_, fun hflag => ?_, h.counted, h.refused⟩, rfl, hsame⟩
      · rcases List.mem_map.mp hca with ⟨ca', hmem, rfl⟩
        rw [xid_complete]
        exact h.owned ca' hmem
      · have hcalls := hsame hflag
        dsimp only [Rpcc.gotPdu] at hcalls ⊢
        rw [hcalls]
        exact h.failing hflag

/-- A call is made only while the flag is not set. -/
theorem call1_open {r r' : Rpcc} {nonce proc : Nat} {args : List UInt8} {req : Request}
    (h : r.call1 nonce proc args = .ok (r', req)) :
    r.destroyWait = false ∧ r'.destroyWait = false := by
  unfold Rpcc.call1 at h
  split at h
  · cases h
  · split at h
    · cases h
    · rename_i hflag
      rw [Bool.not_eq_true] at hflag
      rcases Prod.mk.inj (Except.ok.inj h) with ⟨rfl, -⟩
      exact ⟨hflag, hflag⟩

theorem bindReturns_flag {r r' : Rpcc} {o : Outcome} (h : r.bindReturns o = some r') :
    r'.destroyWait = r.destroyWait := by
  unfold Rpcc.bindReturns at h
  split at h
  · split at h
    · rw [Option.some.injEq] at h
      rw [← h]
    · cases h
  · cases h

variable [DecidableEq T]

/-- A call that is made is its thread's, and one that is refused has failed. -/
theorem closing_call1 (h : c.Closing n) {t : T} (hout : c.inCall t = none) (proc : Nat)
    (args : List UInt8) (hfew : c.rpcc.xid + 1 < 2 ^ 32) :
    (c.call1 t proc args).Closing n ∧
      (c.call1 t proc args).rpcc.destroyWait = c.rpcc.destroyWait ∧
      (c.rpcc.destroyWait = true → (c.call1 t proc args).rpcc.calls = c.rpcc.calls) := by
  unfold call1
  cases hcall : c.rpcc.call1 c.nonce proc args with
  -- A refusal has one of two codes, and both of them count as failures.
  | error ret =>
      refine ⟨⟨h.owned, h.failing, ?_, h.failed_append fun _ => ?_⟩, rfl, fun _ => rfl⟩
      · exact Nat.le_trans h.counted (by simp)
      · rcases call1_refused c.rpcc c.nonce proc args ret hcall with hret | hret
        · exact Or.inr ⟨rfl, hret⟩
        · exact Or.inl hret
  | ok made =>
      rcases made with ⟨r, req⟩
      rcases call1_open hcall with ⟨hflag, hflag'⟩
      rcases call1_made c.rpcc r c.nonce proc args req hfew hcall with ⟨hx, -, hcalls⟩
      -- The call was made, so the flag is not set, and what is said about a set flag holds.
      have hopen : ∀ {P : Prop}, r.destroyWait = true → P := by
        intro P hset
        rw [hflag'] at hset
        cases hset
      refine ⟨⟨fun ca hca => ?_, hopen, h.counted, hopen⟩, hflag'.trans hflag.symm,
        fun hset => hopen (hflag'.trans (hflag.symm.trans hset))⟩
      dsimp only at hca ⊢
      rw [hcalls] at hca
      rcases List.mem_append.mp hca with hold | hnew
      -- The calls of the other threads are still theirs.
      · rcases h.owned ca hold with ⟨t', req', hreq', hxid⟩
        have hne : t' ≠ t := by
          rintro rfl
          rw [hout] at hreq'
          cases hreq'
        exact ⟨t', req', by rw [Function.update_of_ne hne]; exact hreq', hxid⟩
      · refine ⟨t, req, Function.update_self .., ?_⟩
        rw [List.mem_singleton.mp hnew, hx]

theorem endCall_flag {t : T} {req : Request} (h : c.endCall t req = some c') :
    c'.rpcc.destroyWait = c.rpcc.destroyWait := by
  unfold endCall at h
  rcases Option.bind_eq_some_iff.mp h with ⟨r, hr, h⟩
  rcases Option.bind_eq_some_iff.mp h with ⟨o, -, h⟩
  unfold Rpcc.endCall at hr
  split at hr
  · cases hr
  · rw [Option.some.injEq] at hr h
    rw [← h, ← hr]

/-- The thread of a call takes it out, and returns what its record says. After a cancel that is the
    failure, even if a reply had come before. -/
theorem closing_endCall (h : c.Closing n) {t : T} {req : Request} (hreq : c.inCall t = some req)
    (hend : c.endCall t req = some c') :
    c'.Closing n ∧ c'.rpcc.calls.length < c.rpcc.calls.length := by
  rcases endCall_cases c c' t req hreq hend with ⟨ca, hca, -, hcalls, hin, -, -, -, hresults⟩
  have hflag := endCall_flag hend
  rcases record_xid c t ca hca with ⟨hmem, req', hreq', hxid⟩
  rw [hreq, Option.some.injEq] at hreq'
  refine ⟨⟨fun ca' hca' => ?_, fun hset ca' hca' => ?_, ?_, fun hset => ?_⟩, ?_⟩
  · rw [hcalls] at hca'
    rcases List.mem_filter.mp hca' with ⟨hmem', hne⟩
    rcases h.owned ca' hmem' with ⟨t', req'', hreq'', hxid''⟩
    -- Another call with this xid would have gone out with it.
    have hother : t' ≠ t := by
      rintro rfl
      rw [hreq, Option.some.injEq] at hreq''
      rw [hreq'', hxid''] at hne
      simp at hne
    exact ⟨t', req'', by rw [hin, Function.update_of_ne hother]; exact hreq'', hxid''⟩
  · rw [hcalls] at hca'
    exact h.failing (hflag ▸ hset) ca' (List.mem_filter.mp hca').1
  · rw [hresults, List.length_append]
    exact Nat.le_trans h.counted (Nat.le_add_right _ _)
  · rw [hresults]
    refine h.failed_append (fun hset' => Or.inl ?_) (hflag ▸ hset)
    -- The record was marked by `cancel`, and nothing has written to it since.
    rcases h.failing hset' ca hmem with ⟨hdone, hret⟩
    dsimp only
    rw [if_pos hdone, hret]
  · rw [hcalls]
    refine List.length_filter_lt_length_iff_exists.mpr ⟨ca, hmem, ?_⟩
    simp [hxid, hreq']

/-- A thread that has a call in `calls_` can end it. -/
theorem exists_endCall (h : c.Closing n) (hcalls : c.rpcc.calls ≠ []) :
    ∃ t c', c.step (.endCall t) = some c' := by
  rcases List.exists_mem_of_ne_nil _ hcalls with ⟨ca, hca⟩
  rcases h.owned ca hca with ⟨t, req, hreq, hxid⟩
  -- The entry is found by the xid of its own request.
  have hfind : (c.rpcc.calls.find? fun ca => ca.xid == req.xid).isSome = true :=
    List.find?_isSome.mpr ⟨ca, hca, beq_iff_eq.mpr hxid.symm⟩
  rcases Option.isSome_iff_exists.mp hfind with ⟨ca', hca'⟩
  refine ⟨t, ?_⟩
  simp [step, hreq, endCall, Rpcc.endCall, hca']

end Client

namespace Draining

variable {T : Type} {s s' : Draining T}

/-- What holds between two sections: the thread in `cancel` waits only while there are calls, and
    has set the flag when it does. -/
structure Drained (s : Draining T) : Prop where
  closing : s.client.Closing s.before
  idle : s.canceller = .out → s.client.rpcc.destroyWait = false
  flagged : s.canceller = .waiting ∨ s.canceller = .woken → s.client.rpcc.destroyWait = true
  awaited : s.canceller = .waiting → s.client.rpcc.calls ≠ []
  finished : s.canceller = .returned → s.client.rpcc.destroyWait = true →
    s.client.rpcc.calls = []

theorem drained_new (nonce : Nat) : Drained (new T nonce) where
  closing := Client.closing_new nonce
  idle := fun _ => rfl
  flagged := by simp [new]
  awaited := by simp [new]
  finished := by simp [new]

/-- A section that leaves the thread in `cancel` alone. -/
theorem Drained.of_client (h : Drained s) {c : Client T} (hclosing : c.Closing s.before)
    (hflag : c.rpcc.destroyWait = s.client.rpcc.destroyWait)
    (hcalls : s.client.rpcc.destroyWait = true → c.rpcc.calls = s.client.rpcc.calls) :
    Drained { s with client := c } where
  closing := hclosing
  idle := fun hp => hflag.trans (h.idle hp)
  flagged := fun hp => hflag.trans (h.flagged hp)
  awaited := by
    intro hp
    dsimp only
    rw [hcalls (h.flagged (Or.inl hp))]
    exact h.awaited hp
  finished := by
    intro hp hset
    dsimp only at hset ⊢
    rw [hflag] at hset
    rw [hcalls hset]
    exact h.finished hp hset

/-- A wait that ends, with the client as it is or with fewer calls. -/
theorem Drained.signalled (h : Drained s) {c : Client T} (hclosing : c.Closing s.before)
    (hflag : c.rpcc.destroyWait = s.client.rpcc.destroyWait)
    (hcalls : c.rpcc.calls.length ≤ s.client.rpcc.calls.length) :
    Drained (signal { s with client := c }) := by
  have hempty : s.client.rpcc.calls = [] → c.rpcc.calls = [] := by
    intro hnil
    rw [hnil, List.length_nil] at hcalls
    exact List.length_eq_zero_iff.mp (by omega)
  unfold signal
  -- A signal without a thread that waits is lost, which is no matter here.
  by_cases hp : s.canceller = .waiting
  · rw [if_pos hp]
    exact ⟨hclosing, nofun, fun _ => hflag.trans (h.flagged (Or.inl hp)), nofun, nofun⟩
  · rw [if_neg hp]
    refine ⟨hclosing, fun hout => hflag.trans (h.idle hout), fun hw => hflag.trans (h.flagged hw),
      fun hw => absurd hw hp, fun hret hset => ?_⟩
    exact hempty (h.finished hret (hflag ▸ hset))

/-- The loop of `cancel`, when the calls that are left have been marked. -/
theorem drained_untilEmpty (hclosing : s.client.Closing s.before)
    (hmarked : Client.Closing
      { s.client with rpcc := { s.client.rpcc with destroyWait := true } } s.before) :
    Drained s.untilEmpty := by
  unfold untilEmpty
  by_cases hempty : s.client.rpcc.calls = []
  · rw [if_pos (by simp [hempty])]
    exact ⟨hclosing, nofun, by simp, nofun, fun _ _ => hempty⟩
  · rw [if_neg (by simp [hempty])]
    exact ⟨hmarked, nofun, fun _ => rfl, fun _ => hempty, nofun⟩

/-- The loop tests again after a wait, so a wait that ends by itself does no harm. -/
theorem drained_resume (h : Drained s) (hp : s.canceller = .woken) : Drained s.untilEmpty := by
  have hset := h.flagged (Or.inr hp)
  refine drained_untilEmpty h.closing ?_
  exact ⟨h.closing.owned, fun _ => h.closing.failing hset, h.closing.counted,
    fun _ => h.closing.refused hset⟩

variable [DecidableEq T]

theorem within_cases {a : ClientAction T} (h : s.within a = some s') :
    ∃ c, s.client.step a = some c ∧ s' = { s with client := c } := by
  rcases Option.map_eq_some_iff.mp h with ⟨c, hc, hs'⟩
  exact ⟨c, hc, hs'.symm⟩

/-- A call that ends signals the condition variable if the flag is set, so a thread that waits is
    woken by every call that ends. -/
theorem drained_endCall (h : Drained s) {t : T} (hs : s.step (.endCall t) = some s') :
    Drained s' ∧ s'.client.rpcc.calls.length < s.client.rpcc.calls.length ∧
      (s.canceller = .waiting → s'.canceller = .woken) := by
  rcases Option.map_eq_some_iff.mp hs with ⟨s₁, hs₁, hs'⟩
  rcases within_cases hs₁ with ⟨c, hc, rfl⟩
  rcases Option.bind_eq_some_iff.mp hc with ⟨req, hreq, hend⟩
  rcases Client.closing_endCall h.closing hreq hend with ⟨hclosing, hless⟩
  have hflag := Client.endCall_flag hend
  dsimp only at hs'
  -- The signal is sent only if the flag is set; while it is not, nobody waits.
  by_cases hset : c.rpcc.destroyWait = true
  · rw [if_pos hset] at hs'
    subst hs'
    refine ⟨h.signalled hclosing hflag (by omega), ?_, fun hp => ?_⟩
    · unfold signal
      split <;> exact hless
    · unfold signal
      rw [if_pos hp]
  · rw [if_neg hset] at hs'
    subst hs'
    rw [hflag] at hset
    refine ⟨h.of_client hclosing hflag fun hset' => absurd hset' hset, hless, fun hp => ?_⟩
    exact absurd (h.flagged (Or.inl hp)) hset

/-- Every section keeps this, whichever thread runs it. -/
theorem drained_step (s : Draining T) (a : DrainingAction T) (s' : Draining T) (h : Drained s)
    (hfew : fewCalls s a = true) (hs : s.step a = some s') : Drained s' := by
  cases a with
  | call1 t proc args =>
      rcases within_cases hs with ⟨c, hc, rfl⟩
      rcases Option.ite_none_right_eq_some.mp hc with ⟨hout, hc⟩
      rw [Option.some.injEq] at hc
      subst hc
      rcases Client.closing_call1 h.closing hout proc args (of_decide_eq_true hfew) with
        ⟨hclosing, hflag, hcalls⟩
      exact h.of_client hclosing hflag hcalls
  | gotPdu pdu =>
      rcases within_cases hs with ⟨c, hc, rfl⟩
      rw [Client.step, Option.some.injEq] at hc
      subst hc
      rcases Client.closing_gotPdu h.closing pdu with ⟨hclosing, hflag, hcalls⟩
      exact h.of_client hclosing hflag hcalls
  | endCall t => exact (drained_endCall h hs).1
  -- `bind` writes fields that none of this is about.
  | bindReturns o =>
      rcases within_cases hs with ⟨c, hc, rfl⟩
      rcases Option.map_eq_some_iff.mp hc with ⟨r, hr, rfl⟩
      have hflag := Client.bindReturns_flag hr
      have hcalls := (Client.bindReturns_frame s.client.rpcc r o hr).2
      refine h.of_client ⟨?_, ?_, h.closing.counted, ?_⟩ hflag fun _ => hcalls
      · dsimp only
        rw [hcalls]
        exact h.closing.owned
      · dsimp only
        rw [hcalls, hflag]
        exact h.closing.failing
      · dsimp only
        rw [hflag]
        exact h.closing.refused
  | cancel =>
      rcases Option.ite_none_right_eq_some.mp hs with ⟨-, hs⟩
      rw [Option.some.injEq] at hs
      subst hs
      exact drained_untilEmpty (Client.closing_cancel h.closing _)
        (Client.closing_cancel h.closing true)
  | spurious =>
      rcases Option.ite_none_right_eq_some.mp hs with ⟨-, hs⟩
      rw [Option.some.injEq] at hs
      subst hs
      exact h.signalled h.closing rfl (Nat.le_refl _)
  | resume =>
      rcases Option.ite_none_right_eq_some.mp hs with ⟨hp, hs⟩
      rw [Option.some.injEq] at hs
      subst hs
      exact drained_resume h hp

/-! ## The end of the wait -/

/-- A call that is in `calls_` can be ended, which wakes the thread that waits. -/
theorem exists_endCall (h : Drained s) (hp : s.canceller = .waiting) :
    ∃ t s', s.step (.endCall t) = some s' ∧ Drained s' ∧ s'.canceller = .woken ∧
      s'.client.rpcc.calls.length < s.client.rpcc.calls.length := by
  rcases Client.exists_endCall h.closing (h.awaited hp) with ⟨t, c, hc⟩
  have hs : ∃ s', s.step (.endCall t) = some s' := by simp [step, within, hc]
  rcases hs with ⟨s', hs⟩
  rcases drained_endCall h hs with ⟨hs', hless, hwoken⟩
  exact ⟨t, s', hs, hs', hwoken hp, hless⟩

/-- A thread that has been woken returns when the calls that are left have ended. -/
theorem returns_of_woken (n : Nat) (h : Drained s) (hn : s.client.rpcc.calls.length ≤ n)
    (hp : s.canceller = .woken) :
    ∃ s', Trace.Reaches step (fun _ a => DrainingAction.Leaving a) s s' ∧
      s'.canceller = .returned := by
  induction n generalizing s with
  -- The induction is on the calls that are left, each of which ends once.
  | zero =>
      have hempty : s.client.rpcc.calls = [] := List.length_eq_zero_iff.mp (by omega)
      refine ⟨s.untilEmpty, ?_, by simp [untilEmpty, hempty]⟩
      exact .step s DrainingAction.resume _ .init trivial (by simp [step, hp])
  | succ n ih =>
      by_cases hempty : s.client.rpcc.calls = []
      · exact ih h (by simp [hempty]) hp
      · -- It waits again, and the next call to end wakes it.
        have hresume : s.step .resume = some s.untilEmpty := by simp [step, hp]
        have hwaiting : s.untilEmpty.canceller = .waiting := by simp [untilEmpty, hempty]
        have hsame : s.untilEmpty.client.rpcc.calls = s.client.rpcc.calls := by
          simp [untilEmpty, hempty]
        rcases exists_endCall (drained_resume h hp) hwaiting with ⟨t, s₁, hs₁, h₁, hp₁, hless⟩
        rw [hsame] at hless
        rcases ih h₁ (by omega) hp₁ with ⟨s', hreach, hret⟩
        have hend : Trace.Reaches step (fun _ a => DrainingAction.Leaving a) s s₁ :=
          .step _ (DrainingAction.endCall t) _
            (.step s DrainingAction.resume _ .init trivial hresume) trivial hs₁
        exact ⟨s', Trace.reaches_trans hend hreach, hret⟩

/-- Wherever the thread in `cancel` is. -/
theorem returns (h : Drained s) (hp : s.canceller ≠ .out) :
    ∃ s', Trace.Reaches step (fun _ a => DrainingAction.Leaving a) s s' ∧
      s'.canceller = .returned := by
  cases hc : s.canceller with
  | out => exact absurd hc hp
  | waiting =>
      rcases exists_endCall h hc with ⟨t, s₁, hs₁, h₁, hp₁, -⟩
      rcases returns_of_woken _ h₁ (Nat.le_refl _) hp₁ with ⟨s', hreach, hret⟩
      have hend : Trace.Reaches step (fun _ a => DrainingAction.Leaving a) s s₁ :=
        .step s (DrainingAction.endCall t) _ .init trivial hs₁
      exact ⟨s', Trace.reaches_trans hend hreach, hret⟩
  | woken => exact returns_of_woken _ h (Nat.le_refl _) hc
  | returned => exact ⟨s, .init, hc⟩

end Draining

end Rpc

end Yfs
