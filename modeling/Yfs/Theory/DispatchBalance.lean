import Mathlib.Algebra.BigOperators.Group.Finset.Piecewise
import Mathlib.Algebra.Order.Ring.Int
import Yfs.Core.Dispatch

/-!
# Dispatch and the Counts of References

A connection is deleted when its count reaches zero, and `process_accept` collects a dead
one at the count of one, the listener's own. So every reference that a dispatch takes has
to be dropped or to be in `conns_`.

`balance` is the count of a connection without the entries of `conns_`. Saving a connection
moves a reference into `conns_` and keeps the balance, and so does the switch to a later
connection together with the `decref` at the end; what is left is the reference of the
job, which goes with every return of `dispatch` but one. The return on a request for
another instance of the server has no `decref` (`balance_returned`), although the one for a
bad header, a few lines above it, has. The connection is then never collected: its count
is what the listener, the jobs and `conns_` account for and one more for each such request,
in every run (`refno_eq`).

## Main definitions

* `balance`, `unit`: The count of a connection without `conns_`, and one reference.
* `stale`: A job with a request for another instance.
* `Call`: A whole call of `dispatch`, with what it has done to the balances.
* `Serving.held`: What accounts for a balance.

## Theorems

* `balance_saveConn`, `balance_latestConn`, `balance_finish`: The parts.
* `dispatch_balanced_iff`: A call gives back the job's reference, and nothing else.
* `old_server_keeps`: A call that does not.
* `refno_eq`, `collect_iff`: Every run, and what is collected.
* `collect_of_balanced`: A dead connection is collected if its dispatches were balanced.
-/

namespace Yfs

namespace Rpc

/-- One reference to `c`. -/
def unit {C : Type} [DecidableEq C] (c x : C) : Int :=
  if c = x then 1 else 0

namespace Dispatcher

variable {C : Type} [DecidableEq C]

/-- The references to `x` that are not entries of `conns_`. -/
def balance (s : Dispatcher C) (x : C) : Int :=
  (s.link x).refno - s.conns.count fun c => decide (c = x)

theorem unit_eq (c x : C) : unit c x = ((if decide (c = x) then 1 else 0 : Nat) : Int) := by
  unfold unit
  by_cases h : c = x
  · rw [if_pos h, decide_eq_true h]
    rfl
  · rw [if_neg h, decide_eq_false h]
    rfl

/-- A connection whose count is changed. -/
theorem balance_setLink (s : Dispatcher C) (c x : C) (l : Link) :
    (s.setLink c l).balance x = s.balance x + (l.refno - (s.link c).refno) * unit c x := by
  unfold balance setLink unit
  dsimp only
  -- The entries of `conns_` stay, so the balance moves with the count.
  by_cases h : c = x
  · rw [h, Function.update_self, if_pos rfl]
    omega
  · rw [Function.update_of_ne (Ne.symm h), if_neg h]
    omega

/-- A reference more. -/
theorem balance_incref (s : Dispatcher C) (c x : C) :
    (s.incref c).balance x = s.balance x + unit c x := by
  rw [incref, balance_setLink, Link.incref, add_sub_cancel_left, one_mul]

theorem decref_eq {s s' : Dispatcher C} {c : C} (h : s.decref c = some s') :
    s' = s.setLink c { s.link c with refno := (s.link c).refno - 1 } := by
  rcases Option.map_eq_some_iff.mp h with ⟨l, hl, rfl⟩
  unfold Link.decref at hl
  split at hl
  · cases hl
    rfl
  · cases hl

/-- A reference less. -/
theorem balance_decref {s s' : Dispatcher C} {c : C} (h : s.decref c = some s') (x : C) :
    s'.balance x = s.balance x - unit c x := by
  rw [decref_eq h, balance_setLink]
  dsimp only
  rw [sub_sub_cancel_left, neg_one_mul, sub_eq_add_neg]

/-- An entry takes over the reference that is made for it. -/
theorem balance_assign (s : Dispatcher C) (n : Nat) (c x : C) :
    (s.assign n c).balance x = s.balance x + ((s.conns.lookup n).elim 0 fun old => unit old x) := by
  have hcount := SortedMap.count_insert s.conns n c fun c => decide (c = x)
  have hincref := balance_incref s c x
  unfold balance at hincref
  unfold balance assign
  rw [unit_eq] at hincref
  change (((s.incref c).link x).refno - (s.conns.count fun c => decide (c = x)) : Int) =
    _ at hincref
  -- What the key was bound to is the only entry that may be lost.
  cases hlookup : s.conns.lookup n with
  | none =>
      simp only [hlookup, Option.any_none, Bool.false_eq_true, if_false] at hcount
      dsimp only [Option.elim]
      omega
  | some old =>
      simp only [hlookup, Option.any_some] at hcount
      dsimp only [Option.elim]
      rw [unit_eq]
      omega

/-- What is saved in `conns_` is paid for, and what is replaced there is given back. -/
theorem balance_saveConn {s s' : Dispatcher C} {n : Nat} {c : C}
    (h : s.saveConn n c = some s') (x : C) : s'.balance x = s.balance x := by
  unfold saveConn at h
  split at h
  · rename_i hnone
    cases h
    rw [balance_assign, hnone]
    exact add_zero _
  · rename_i old hold
    split at h
    · -- The reference of the old entry goes before the entry does.
      rcases Option.map_eq_some_iff.mp h with ⟨s₁, hdec, rfl⟩
      have hsame : s₁.conns = s.conns := by
        rw [decref_eq hdec]
        rfl
      rw [balance_assign, hsame, hold, balance_decref hdec]
      exact sub_add_cancel ..
    · cases h
      rfl

/-- The job's reference moves to the connection that is used from now on. -/
theorem balance_latestConn {s s' : Dispatcher C} {n : Nat} {c c' : C}
    (h : s.latestConn n c = some (c', s')) (x : C) :
    s'.balance x - unit c' x = s.balance x - unit c x := by
  unfold latestConn at h
  split at h
  · split at h
    · cases h
    · split at h
      -- The dead connection gets its reference back, and the other one a new one.
      · rcases Option.map_eq_some_iff.mp h with ⟨s₁, hdec, heq⟩
        cases heq
        rw [balance_incref, balance_decref hdec, add_sub_cancel_right]
      · cases h
        rfl
  · cases h
    rfl

/-- The end of a `dispatch` with a handler: the reply is recorded, sent on the latest connection,
    and the job's reference is given back. -/
theorem balance_finish {s s' : Dispatcher C} {c : C} {r : Request} {ret : Int}
    {body : List UInt8} (h : s.finish c r ret body = some s') (x : C) :
    s'.balance x = s.balance x - unit c x := by
  unfold finish at h
  split at h
  · cases h
  · rcases Option.bind_eq_some_iff.mp h with ⟨⟨c', s₁⟩, hlatest, hdec⟩
    have hmoved := balance_latestConn hlatest x
    have hdropped := balance_decref hdec x
    -- Recording the reply touches the window only.
    have hwindow : ∀ w bound,
        balance (if r.cltNonce > 0 then s.setWindow r.cltNonce w bound else s) x =
          s.balance x := by
      intro w bound
      split <;> rfl
    rw [hwindow] at hmoved
    exact hdropped.trans hmoved

/-- The job's request is for another instance of the server. -/
def stale (s : Dispatcher C) (j : Job C) : Bool :=
  (requestOf j.pdu).any s.oldServer

/-- What is answered without a handler changes no counts. -/
theorem balance_answer (s : Dispatcher C) (c : C) (r : Request) (st : RpcState)
    (x : C) : (s.answer c r st).balance x = s.balance x := by
  cases st with
  | _ => rfl

/-- The first part of a `dispatch` that does not find the request stale. -/
theorem balance_dispatchOnce {s : Dispatcher C} {c : C} {r : Request} {d : Dispatched C}
    (h : s.dispatchOnce c r = some d) (x : C) :
    match d with
    | .returned s' => s'.balance x = s.balance x - unit c x
    | .handling s' _ => s'.balance x = s.balance x := by
  simp only [dispatchOnce, Option.bind_eq_bind, Option.bind_eq_some_iff] at h
  rcases h with ⟨s₁, hsave, ⟨st, w, bound⟩, _, h⟩
  have hsaved := balance_saveConn hsave x
  dsimp only at h
  split at h
  · cases h
    exact hsaved
  -- A duplicate is answered at once, and the job is done.
  · rcases Option.map_eq_some_iff.mp h with ⟨s₂, hdec, rfl⟩
    have hdropped := balance_decref hdec x
    rw [balance_answer] at hdropped
    exact hdropped.trans (congrArg (· - unit c x) hsaved)

/-- A `dispatch` that returns without calling a handler. -/
theorem balance_returned {s s' : Dispatcher C} {j : Job C}
    (h : s.dispatch j = some (.returned s')) (x : C) :
    s'.balance x = s.balance x - if s.stale j then 0 else unit j.conn x := by
  unfold dispatch at h
  unfold stale
  split at h
  -- A PDU without a good header is dropped, with its reference.
  · rename_i hnone
    rcases Option.map_eq_some_iff.mp h with ⟨s₁, hdec, heq⟩
    cases heq
    rw [hnone]
    exact balance_decref hdec x
  · rename_i r hr
    rw [hr, Option.any_some]
    unfold receive at h
    split at h
    -- This branch returns without a `decref`.
    · rename_i hold
      cases h
      rw [if_pos hold]
      exact (sub_zero _).symm
    · rename_i hold
      rw [if_neg hold]
      split at h
      · cases h
      · split at h
        · cases h
        · exact balance_dispatchOnce h x

/-- A `dispatch` that calls a handler. -/
theorem balance_handling {s s' : Dispatcher C} {j : Job C} {r : Request}
    (h : s.dispatch j = some (.handling s' r)) (x : C) :
    s'.balance x = s.balance x ∧ s.stale j = false := by
  unfold dispatch at h
  unfold stale
  split at h
  · rcases Option.map_eq_some_iff.mp h with ⟨s₁, _, heq⟩
    cases heq
  · rename_i r₀ hr
    rw [hr, Option.any_some]
    unfold receive at h
    split at h
    · cases h
    -- A handler is called only for requests that are not stale.
    · rename_i hold
      refine ⟨?_, Bool.not_eq_true _ ▸ hold⟩
      split at h
      · cases h
      · split at h
        · cases h
          rfl
        · exact balance_dispatchOnce h x

/-- A call of `dispatch` that returns, and what it has changed in the balances. With a
    handler it has two parts, and between them the server may have become any other. -/
inductive Call (s : Dispatcher C) (j : Job C) : (C → Int) → Prop where
  | returned {s' : Dispatcher C} : s.dispatch j = some (.returned s') →
      Call s j fun x => s'.balance x - s.balance x
  | handled {s₁ s₂ s₃ : Dispatcher C} {r : Request} {ret : Int} {body : List UInt8} :
      s.dispatch j = some (.handling s₁ r) → s₂.finish j.conn r ret body = some s₃ →
      Call s j fun x => (s₁.balance x - s.balance x) + (s₃.balance x - s₂.balance x)

/-- A call gives back the job's reference, unless the request is stale. -/
theorem Call.change {s : Dispatcher C} {j : Job C} {d : C → Int} (h : Call s j d) (x : C) :
    d x = if s.stale j then 0 else -unit j.conn x := by
  cases h with
  | returned h =>
      have hbalance := balance_returned h x
      dsimp only
      split at hbalance
      · rename_i hstale
        rw [if_pos hstale]
        omega
      · rename_i hstale
        rw [if_neg hstale]
        omega
  | handled h hfinish =>
      rcases balance_handling h x with ⟨hsame, hstale⟩
      have hdropped := balance_finish hfinish x
      dsimp only
      rw [hstale, if_neg Bool.false_ne_true]
      omega

/-- A stale request returns at once. -/
theorem call_of_stale {s : Dispatcher C} {j : Job C} (h : s.stale j = true) :
    ∃ d, Call s j d := by
  unfold stale at h
  cases hr : requestOf j.pdu with
  | none =>
      rw [hr] at h
      cases h
  | some r =>
      rw [hr, Option.any_some] at h
      have hdispatch : s.dispatch j =
          some (.returned (s.send j.conn ⟨r.xid, RpcConst.oldsrvFailure, []⟩)) := by
        rw [dispatch, hr]
        exact if_pos h
      exact ⟨_, Call.returned hdispatch⟩

/-- Over any connections that include the job's, every call of `dispatch` that returns has changed
    the sum of the balances by one, the job's reference, if and only if the request is not one for
    another instance of the server. The sum is over several connections because the reply may go out
    on another one than the request came in on, and the reference moves with it. -/
theorem dispatch_balanced_iff (s : Dispatcher C) (j : Job C) :
    (∀ d, Call s j d → ∀ S : Finset C, j.conn ∈ S → ∑ x ∈ S, d x = -1) ↔ s.stale j = false := by
  constructor
  · -- A stale request does return, and has given nothing back.
    intro hall
    by_contra hstale
    rw [Bool.not_eq_false] at hstale
    rcases call_of_stale hstale with ⟨d, hcall⟩
    have hsum := hall d hcall {j.conn} (Finset.mem_singleton_self _)
    rw [Finset.sum_singleton, hcall.change, if_pos hstale] at hsum
    cases hsum
  · intro hfresh d hcall S hmem
    have hchange : ∀ x ∈ S, d x = -unit j.conn x := by
      intro x _
      rw [hcall.change, hfresh, if_neg Bool.false_ne_true]
    -- Of all connections only the job's own counts.
    have hsum : ∑ x ∈ S, unit j.conn x = 1 := by
      unfold unit
      rw [Finset.sum_ite_eq, if_pos hmem]
    rw [Finset.sum_congr rfl hchange, Finset.sum_neg_distrib, hsum]

/-- A server with nonce 8 and one connection, to the listener and to a job. -/
def oneJob : Dispatcher Unit where
  server := Rpcs.new 8 []
  conns := SortedMap.empty
  link := fun _ => ⟨2, false, (0, 0)⟩
  sent := []

/-- A header with xid 1, the server's nonce 7 and the rest 0. -/
def oldHeader : Bytes :=
  [0, 0, 0, 24, 0, 0, 0, 1, 0, 0, 0, 0, 0, 0, 0, 0, 0, 0, 0, 7, 0, 0, 0, 0]

/-- A request for the instance with nonce 7 is answered, and the count stays. -/
theorem old_server_keeps :
    ∃ s' d, oneJob.dispatch ⟨(), oldHeader⟩ = some (.returned s') ∧
      s'.sent = [((), ⟨1, RpcConst.oldsrvFailure, []⟩)] ∧
      Call oneJob ⟨(), oldHeader⟩ d ∧ ∑ x ∈ {()}, d x = 0 :=
  ⟨_, _, rfl, rfl, Call.returned rfl, rfl⟩

end Dispatcher

/-! ## Runs -/

namespace Serving

variable {C : Type} [DecidableEq C]

/-- The references that are not entries of `conns_`: the listener's, those of the jobs, and
    those that were not given back. -/
def held (s : Serving C) (x : C) : Nat :=
  (s.accepted x).toNat + s.queued.countP (fun j => decide (j.conn = x)) +
    s.handling.countP (fun p => decide (p.1 = x)) + s.leaked x

/-- The counts are accounted for. -/
def Accounted (s : Serving C) : Prop :=
  ∀ x, s.rpcs.balance x = s.held x

/-- There are no connections. -/
theorem accounted_new (server : Rpcs) : Accounted (new C server) :=
  fun _ => rfl

theorem countP_erase_add {α : Type} [BEq α] [LawfulBEq α] {l : List α} {a : α} (h : a ∈ l)
    (p : α → Bool) : l.countP p = (l.erase a).countP p + if p a then 1 else 0 := by
  rw [(List.perm_cons_erase h).countP_eq, List.countP_cons]

/-- A new connection comes with the listener's reference. -/
theorem accounted_accept {s s' : Serving C} {c : C} {t : Int × Int} (hs : Accounted s)
    (h : s.accept c t = some s') : Accounted s' := by
  unfold accept at h
  split at h
  · rename_i hfresh
    cases h
    intro x
    have hx := hs x
    have hlink := s.rpcs.balance_setLink c x ⟨1, false, t⟩
    rw [hfresh.2] at hlink
    dsimp only at hlink
    unfold held at hx ⊢
    dsimp only
    by_cases heq : c = x
    · -- Nothing refers to the object, so nothing was leaked on it either.
      rw [heq] at hfresh
      have hcount : s.rpcs.balance x ≤ 0 := by
        unfold Dispatcher.balance
        rw [hfresh.2]
        omega
      rw [hfresh.1, Bool.toNat_false] at hx
      rw [heq, Function.update_self, Function.update_self, Bool.toNat_true]
      rw [heq, unit, if_pos rfl] at hlink
      omega
    · rw [Function.update_of_ne (Ne.symm heq), Function.update_of_ne (Ne.symm heq), ← hx]
      rw [unit, if_neg heq] at hlink
      omega
  · cases h

theorem accounted_collect {s s' : Serving C} {c : C} (hs : Accounted s)
    (h : s.collect c = some s') : Accounted s' := by
  unfold collect at h
  split at h
  · rename_i hdead
    rcases Option.map_eq_some_iff.mp h with ⟨rpcs, hdec, rfl⟩
    intro x
    have hx := hs x
    have hdropped := Dispatcher.balance_decref hdec x
    unfold held at hx ⊢
    dsimp only
    -- The count was 1, which was the listener's.
    by_cases heq : c = x
    · -- The listener gives up its own reference.
      rw [heq] at hdead
      rw [hdead.1, Bool.toNat_true] at hx
      rw [heq, Function.update_self, Bool.toNat_false]
      rw [heq, unit, if_pos rfl] at hdropped
      omega
    · rw [Function.update_of_ne (Ne.symm heq)]
      rw [unit, if_neg heq] at hdropped
      omega
  · cases h

theorem accounted_gotPdu {s s' : Serving C} {c : C} {pdu : Bytes} {succ : Bool}
    (hs : Accounted s) (h : s.gotPdu c pdu succ = some s') : Accounted s' := by
  unfold gotPdu at h
  split at h
  · dsimp only at h
    split at h
    · -- The reference is the job's.
      cases h
      intro x
      have hx := hs x
      have htaken := s.rpcs.balance_incref c x
      rw [Dispatcher.unit_eq] at htaken
      unfold held at hx ⊢
      rw [List.countP_append, List.countP_singleton]
      dsimp only
      omega
    -- The pool refuses the job, and its reference is given back at once.
    · rcases Option.map_eq_some_iff.mp h with ⟨rpcs, hdec, rfl⟩
      intro x
      have hdropped := Dispatcher.balance_decref hdec x
      rw [Dispatcher.balance_incref, add_sub_cancel_right] at hdropped
      exact hdropped.trans (hs x)
  · cases h

/-- A job's reference is given back, or goes to the handler that is started, or is leaked. -/
theorem accounted_dispatch {s s' : Serving C} {j : Job C} (hs : Accounted s)
    (h : s.dispatch j = some s') : Accounted s' := by
  unfold dispatch at h
  split at h
  · rename_i hmem
    rcases Option.map_eq_some_iff.mp h with ⟨d, hd, rfl⟩
    intro x
    have hx := hs x
    have hqueued := countP_erase_add hmem fun j => decide (j.conn = x)
    cases d with
    | returned rpcs =>
        have hdropped := Dispatcher.balance_returned hd x
        rw [Dispatcher.unit_eq] at hdropped
        unfold held at hx ⊢
        dsimp only
        split
        · -- The reference of the job is now one that nobody gives back.
          rename_i hstale
          rw [Dispatcher.stale, if_pos hstale, sub_zero] at hdropped
          by_cases heq : j.conn = x
          · rw [heq, Function.update_self]
            rw [if_pos (decide_eq_true heq)] at hqueued
            omega
          · rw [Function.update_of_ne (Ne.symm heq)]
            rw [decide_eq_false heq, if_neg Bool.false_ne_true] at hqueued
            omega
        · rename_i hstale
          rw [Dispatcher.stale, if_neg hstale] at hdropped
          omega
    -- The job leaves the queue and is handled, with the same reference.
    | handling rpcs r =>
        have hsame := (Dispatcher.balance_handling hd x).1
        unfold held at hx ⊢
        rw [List.countP_append, List.countP_singleton]
        dsimp only
        omega
  · cases h

/-- Every step keeps the accounts. -/
theorem accounted_step (s : Serving C) (a : ServingAction C) (s' : Serving C)
    (hs : Accounted s) (h : s.step a = some s') : Accounted s' := by
  cases a with
  | accept c t => exact accounted_accept hs h
  | collect c => exact accounted_collect hs h
  -- Death does not touch the count.
  | dies c =>
      cases h
      intro x
      have hsame := s.rpcs.balance_setLink c x { s.rpcs.link c with dead := true }
      rw [sub_self, zero_mul, add_zero] at hsame
      exact hsame.trans (hs x)
  | gotPdu c pdu succ => exact accounted_gotPdu hs h
  | dispatch j => exact accounted_dispatch hs h
  | handlerReturns c r ret body =>
      simp only [step, Option.ite_none_right_eq_some] at h
      rcases Option.map_eq_some_iff.mp h.2 with ⟨rpcs, hfinish, rfl⟩
      intro x
      have hx := hs x
      have hdropped := Dispatcher.balance_finish hfinish x
      have hhandling := countP_erase_add h.1 fun p => decide (p.1 = x)
      rw [Dispatcher.unit_eq] at hdropped
      unfold held at hx ⊢
      dsimp only at hhandling ⊢
      omega

/-- In every run the count of a connection is made up of the listener's reference, those of the
    jobs, the entries of `conns_` and one for each stale request. -/
theorem refno_eq {server : Rpcs} {s : Serving C}
    (h : Trace.Reaches step Trace.Always (new C server) s) (x : C) :
    (s.rpcs.link x).refno = s.held x + s.rpcs.conns.count fun c => decide (c = x) := by
  have hacc := Trace.invariant_of_step Accounted (accounted_new server)
    (fun s a s' hs _ hstep => accounted_step s a s' hs hstep) h
  have hx := hacc x
  unfold Dispatcher.balance at hx
  omega

theorem countP_decide_eq_zero {α : Type} (l : List α) (f : α → C) (c : C) :
    l.countP (fun a => decide (f a = c)) = 0 ↔ ∀ a ∈ l, f a ≠ c := by
  rw [List.countP_eq_zero]
  simp only [decide_eq_true_eq, ne_eq]

/-- What `process_accept` asks of a dead connection is that the listener's reference is the
    only one; the `decref` that follows then cannot fail. -/
theorem collect_isSome_iff {s : Serving C} {c : C} (haccepted : s.accepted c = true)
    (hdead : (s.rpcs.link c).dead = true) :
    (s.step (.collect c)).isSome = true ↔ (s.rpcs.link c).refno = 1 := by
  simp only [step, collect, haccepted, hdead, true_and]
  split
  · rename_i hone
    have hdec : (s.rpcs.link c).decref.isSome = true := by
      rw [Link.decref, hone]
      rfl
    rw [Option.isSome_map, Dispatcher.decref, Option.isSome_map, hdec, hone]
    exact iff_of_true rfl rfl
  · rename_i hmore
    exact iff_of_false Bool.false_ne_true hmore

/-- In every run the count of an accepted connection is 1 exactly when nothing but the listener
    refers to it: no job, no handler, no entry of `conns_` and no stale request. -/
theorem refno_eq_one_iff {server : Rpcs} {s : Serving C}
    (h : Trace.Reaches step Trace.Always (new C server) s) (c : C)
    (haccepted : s.accepted c = true) :
    (s.rpcs.link c).refno = 1 ↔
      (∀ j ∈ s.queued, j.conn ≠ c) ∧ (∀ p ∈ s.handling, p.1 ≠ c) ∧
        (∀ e ∈ s.rpcs.conns.entries, e.2 ≠ c) ∧ s.leaked c = 0 := by
  have hrefno := refno_eq h c
  unfold held SortedMap.count at hrefno
  rw [haccepted, Bool.toNat_true] at hrefno
  dsimp only at hrefno
  -- The listener's is the 1, so all other parts of the sum have to be 0.
  rw [← countP_decide_eq_zero, ← countP_decide_eq_zero, ← countP_decide_eq_zero]
  omega

/-- A dead connection of the listener is collected if and only if no job and no entry of `conns_`
    refers to it and no stale request has come on it. The references of stale requests are never
    given back, so one such request keeps the object for good. -/
theorem collect_iff {server : Rpcs} {s : Serving C}
    (h : Trace.Reaches step Trace.Always (new C server) s) (c : C)
    (haccepted : s.accepted c = true) (hdead : (s.rpcs.link c).dead = true) :
    (s.step (.collect c)).isSome = true ↔
      (∀ j ∈ s.queued, j.conn ≠ c) ∧ (∀ p ∈ s.handling, p.1 ≠ c) ∧
        (∀ e ∈ s.rpcs.conns.entries, e.2 ≠ c) ∧ s.leaked c = 0 :=
  (collect_isSome_iff haccepted hdead).trans (refno_eq_one_iff h c haccepted)

/-- A request for an older instance has come, and its connection has died since. No job is
    left, but the connection is not collected. -/
theorem collect_iff_stale : ∃ s : Serving Unit,
    Trace.Reaches step Trace.Always (new Unit (Rpcs.new 8 [])) s ∧ s.queued = [] ∧
      s.handling = [] ∧ (s.rpcs.link ()).dead = true ∧ ¬ (s.step (.collect ())).isSome = true := by
  have hrun : Trace.Reaches step Trace.Always (new Unit (Rpcs.new 8 [])) _ :=
    Trace.reaches_always_of_run [.accept () (0, 0), .gotPdu () Dispatcher.oldHeader true,
      .dispatch ⟨(), Dispatcher.oldHeader⟩, .dies ()] rfl
  refine ⟨_, hrun, rfl, rfl, rfl, fun hcollect => ?_⟩
  have hleaked := ((collect_iff hrun () rfl rfl).mp hcollect).2.2.2
  exact absurd hleaked (by decide)

/-- The dispatches on `c` are balanced: none of them is of a request for another instance of
    the server. -/
def BalancedOn (c : C) (s : Serving C) (a : ServingAction C) : Prop :=
  ∀ j, a = .dispatch j → j.conn = c → s.rpcs.stale j = false

/-- Only a stale request on `c` leaks a reference to `c`, and a new connection has none. -/
theorem leaked_step {c : C} {s : Serving C} {a : ServingAction C} {s' : Serving C}
    (hs : s.leaked c = 0) (hbalanced : BalancedOn c s a) (h : s.step a = some s') :
    s'.leaked c = 0 := by
  cases a with
  | accept x t =>
      simp only [step, accept, Option.ite_none_right_eq_some, Option.some.injEq] at h
      rw [← h.2]
      by_cases heq : c = x
      · rw [heq]
        exact Function.update_self x 0 s.leaked
      · exact (Function.update_of_ne heq 0 s.leaked).trans hs
  | collect x =>
      simp only [step, collect, Option.ite_none_right_eq_some] at h
      rcases Option.map_eq_some_iff.mp h.2 with ⟨rpcs, _, rfl⟩
      exact hs
  | dies x =>
      cases h
      exact hs
  | gotPdu x pdu succ =>
      simp only [step, gotPdu, Option.ite_none_right_eq_some] at h
      rcases h with ⟨_, h⟩
      split at h
      · cases h
        exact hs
      · rcases Option.map_eq_some_iff.mp h with ⟨rpcs, _, rfl⟩
        exact hs
  | dispatch j =>
      simp only [step, dispatch, Option.ite_none_right_eq_some] at h
      rcases Option.map_eq_some_iff.mp h.2 with ⟨d, _, rfl⟩
      cases d with
      | handling rpcs r => exact hs
      | returned rpcs =>
          dsimp only
          by_cases heq : c = j.conn
          · -- A dispatch on the connection itself is not of a stale request.
            have hfresh := hbalanced j rfl heq.symm
            rw [Dispatcher.stale] at hfresh
            rw [if_neg (ne_true_of_eq_false hfresh)]
            exact hs
          · split
            · rw [Function.update_of_ne heq]
              exact hs
            · exact hs
  | handlerReturns x r ret body =>
      simp only [step, Option.ite_none_right_eq_some] at h
      rcases Option.map_eq_some_iff.mp h.2 with ⟨rpcs, _, rfl⟩
      exact hs

/-- What balanced dispatches are for: once the peer of a connection is gone, its jobs are done
    and `conns_` has a later connection in its place, `process_accept` collects it, in every
    run without a stale request on it. -/
theorem collect_of_balanced {server : Rpcs} {s : Serving C} {c : C}
    (h : Trace.Reaches step (BalancedOn c) (new C server) s)
    (haccepted : s.accepted c = true) (hdead : (s.rpcs.link c).dead = true)
    (hqueued : ∀ j ∈ s.queued, j.conn ≠ c) (hhandling : ∀ p ∈ s.handling, p.1 ≠ c)
    (hreplaced : ∀ e ∈ s.rpcs.conns.entries, e.2 ≠ c) :
    (s.step (.collect c)).isSome = true := by
  -- The counter of the leaked references stays at zero in such a run.
  have hleaked : s.leaked c = 0 :=
    Trace.invariant_of_step (fun s => s.leaked c = 0) rfl
      (fun _ _ _ hs hok hstep => leaked_step hs hok hstep) h
  have hrun := Trace.reaches_weaken (fun _ _ _ => trivial) h
  rw [collect_isSome_iff haccepted hdead, refno_eq_one_iff hrun c haccepted]
  exact ⟨hqueued, hhandling, hreplaced, hleaked⟩

end Serving

end Rpc

end Yfs
