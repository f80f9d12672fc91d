import Yfs.Core.RpcClient

/-!
# Calls Get Their Own Replies

Every call that is answered returns the first reply to its own request, whatever
the other threads of the client do and whatever else arrives.

A thread's call is found by the xid in its request, so the argument is about
numbers first: no two threads and no thread and a finished call share one
(`Numbered`). `record` is then the one record that a reply can complete, and each
critical section has an equation for it. What the record says about the PDUs
handled so far is `Matched`: while it is not done there has been no reply to the
request, and once it is done it was cancelled or holds the first of them.

A PDU may carry an xid that no request has yet. Such a PDU is not a reply to
anything, and `unsolicited` keeps it apart; if there are none, the first reply is
the first PDU with that xid at all.

## Main definitions

* `Unanswered`, `Answered`: What the handled PDUs say about a request.
* `Numbered`, `Matched`: The invariants.
* `Stepped`: What each action does, for the case analysis of both.

## Theorems

* `record_gotPdu`, `record_call1`, `record_endCall`, `record_cancel`: The records.
* `numbered_step`, `matched_step`: One step.
* `result_of_first_reply`: Every run.
-/

namespace Yfs

namespace Rpc

namespace Client

variable {T : Type}

/-- No reply to the request with this xid has been handled. -/
def Unanswered (s : Client T) (xid : Nat) : Prop :=
  ∀ p ∈ s.handled, Carries p xid → p ∈ s.unsolicited

/-- `ret` and the buffer of `un` are those of the first reply to the request with
    this xid. -/
def Answered (s : Client T) (xid : Nat) (ret : Int) (un : Unmarshall) : Prop :=
  ∃ pre pdu post h, s.handled = pre ++ pdu :: post ∧ replyHeader pdu = some h ∧
    h.xid.toNat = xid ∧ (∀ p ∈ pre, Carries p xid → p ∈ s.unsolicited) ∧
    ret = h.ret.toInt ∧ un = Unmarshall.takeIn pdu

/-- Requests have different xids, all of them handed out before. -/
structure Numbered (s : Client T) : Prop where
  calls : ∀ ca ∈ s.rpcc.calls, ca.xid < s.rpcc.xid
  threads : ∀ t req, s.inCall t = some req → req.xid < s.rpcc.xid
  alone : ∀ t t' req req', s.inCall t = some req → s.inCall t' = some req' →
    req.xid = req'.xid → t = t'
  ended : ∀ r ∈ s.results, ∀ req', r.request = some req' →
    req'.xid < s.rpcc.xid ∧ ∀ t req, s.inCall t = some req → req.xid ≠ req'.xid

/-- The records and the returns agree with the PDUs that have been handled. -/
structure Matched (s : Client T) : Prop where
  known : ∀ p ∈ s.handled, ∀ xid, Carries p xid → xid < s.rpcc.xid ∨ p ∈ s.unsolicited
  waiting : ∀ t ca, s.record t = some ca → ca.done = false → s.Unanswered ca.xid
  done : ∀ t ca, s.record t = some ca → ca.done = true →
    ca.intret = RpcConst.cancelFailure ∨ s.Answered ca.xid ca.intret (s.un t)
  returned : ∀ r ∈ s.results, r.ret ≠ RpcConst.timeoutFailure → r.ret ≠ RpcConst.bindFailure →
    r.ret ≠ RpcConst.cancelFailure →
    ∃ req, r.request = some req ∧ s.Answered req.xid r.ret r.un

/-- A reply stays the first one while more PDUs are handled. -/
theorem answered_mono (s s' : Client T) (xid : Nat) (ret : Int) (un : Unmarshall)
    (hh : s.handled <+: s'.handled) (hu : s.unsolicited ⊆ s'.unsolicited)
    (h : s.Answered xid ret un) : s'.Answered xid ret un := by
  rcases h with ⟨pre, pdu, post, hd, heq, hhd, hx, hpre, hret, hun⟩
  rcases hh with ⟨more, hmore⟩
  refine ⟨pre, pdu, post ++ more, hd, ?_, hhd, hx, fun p hp hc => hu (hpre p hp hc), hret, hun⟩
  rw [← hmore, heq, List.append_assoc, List.cons_append]

/-! ## The records -/

/-- The record of a thread is that of its request. -/
theorem record_xid (s : Client T) (t : T) (ca : Caller) (h : s.record t = some ca) :
    ca ∈ s.rpcc.calls ∧ ∃ req, s.inCall t = some req ∧ ca.xid = req.xid := by
  rcases Option.bind_eq_some_iff.mp h with ⟨req, hreq, hfind⟩
  have hx := List.find?_some hfind
  exact ⟨List.mem_of_find?_eq_some hfind, req, hreq, beq_iff_eq.mp hx⟩

/-- A change of the records that keeps their xids. -/
theorem record_map (s s' : Client T) (f : Caller → Caller) (hf : ∀ ca, (f ca).xid = ca.xid)
    (hi : s'.inCall = s.inCall) (hc : s'.rpcc.calls = s.rpcc.calls.map f) (t : T) :
    s'.record t = (s.record t).map f := by
  unfold record
  rw [hi, hc]
  -- The record is looked up by its xid, which the change keeps.
  cases s.inCall t with
  | none => rfl
  | some req =>
      simp only [Option.bind_some, List.find?_map, Function.comp_def, hf]

/-- A reply completes the record with its number, and no other. -/
theorem record_gotPdu (s : Client T) (pdu : Bytes) (h : ReplyHeader)
    (hh : replyHeader pdu = some h) (t : T) :
    (s.gotPdu pdu).record t =
      (s.record t).map (Caller.complete ⟨h.xid.toNat, h.ret.toInt, pdu.drop rpcHeaderSz⟩) := by
  refine record_map s _ _ ?_ ?_ ?_ t
  · intro ca
    unfold Caller.complete
    split <;> rfl
  · unfold gotPdu
    rw [hh]
  · unfold gotPdu
    rw [hh]
    rfl

theorem record_cancel (s : Client T) (t : T) :
    Client.record { s with rpcc := s.rpcc.cancel } t =
      (s.record t).map fun ca => { ca with done := true, intret := RpcConst.cancelFailure } :=
  record_map s { s with rpcc := s.rpcc.cancel }
    (fun ca => { ca with done := true, intret := RpcConst.cancelFailure }) (fun _ => rfl) rfl rfl t

/-- A PDU without a reply header changes nothing but the list of PDUs. -/
theorem gotPdu_dropped (s : Client T) (pdu : Bytes) (hh : replyHeader pdu = none) :
    s.gotPdu pdu = { s with handled := s.handled ++ [pdu] } := by
  unfold gotPdu
  rw [hh]

/-- The PDUs are recorded whatever they hold. -/
theorem handled_gotPdu (s : Client T) (pdu : Bytes) :
    (s.gotPdu pdu).handled = s.handled ++ [pdu] := by
  unfold gotPdu
  split <;> rfl

theorem unsolicited_gotPdu (s : Client T) (pdu : Bytes) :
    s.unsolicited ⊆ (s.gotPdu pdu).unsolicited := by
  unfold gotPdu
  split
  · exact List.Subset.refl _
  · dsimp only
    split
    · exact List.Subset.refl _
    · exact List.subset_append_left _ _

/-- `got_pdu` touches neither the threads nor what has been returned. -/
theorem frame_gotPdu (s : Client T) (pdu : Bytes) :
    (s.gotPdu pdu).inCall = s.inCall ∧ (s.gotPdu pdu).results = s.results ∧
      (s.gotPdu pdu).rpcc.xid = s.rpcc.xid := by
  unfold gotPdu
  split <;> exact ⟨rfl, rfl, rfl⟩

/-- The thread whose call is completed gets the PDU, in the object that it has waited with. -/
theorem un_gotPdu (s : Client T) (pdu : Bytes) (h : ReplyHeader)
    (hh : replyHeader pdu = some h) (t : T) :
    (s.gotPdu pdu).un t =
      if s.awaits t h.xid.toNat then Unmarshall.takeIn pdu else s.un t := by
  unfold gotPdu
  rw [hh]

/-- A PDU carries the number in its header. -/
theorem carries_of_header (pdu : Bytes) (h : ReplyHeader) (hh : replyHeader pdu = some h)
    (xid : Nat) : Carries pdu xid ↔ h.xid.toNat = xid := by
  unfold Carries
  rw [hh, Option.map_some, Option.some.injEq]

/-- What a PDU does to the call of a thread: nothing, or it completes it. -/
theorem gotPdu_call (s : Client T) (pdu : Bytes) (t : T) (ca : Caller)
    (hr : s.record t = some ca) :
    ((s.gotPdu pdu).record t = some ca ∧ (s.gotPdu pdu).un t = s.un t ∧
      (ca.done = true ∨ ¬ Carries pdu ca.xid)) ∨
    ∃ h, replyHeader pdu = some h ∧ h.xid.toNat = ca.xid ∧ ca.done = false ∧
      (s.gotPdu pdu).record t =
        some { ca with un := some (pdu.drop rpcHeaderSz), intret := h.ret.toInt, done := true } ∧
      (s.gotPdu pdu).un t = Unmarshall.takeIn pdu := by
  cases hh : replyHeader pdu with
  | none =>
      refine Or.inl ⟨?_, ?_, Or.inr ?_⟩
      · rw [gotPdu_dropped s pdu hh]
        exact hr
      · rw [gotPdu_dropped s pdu hh]
      · unfold Carries
        rw [hh]
        exact fun hc => by cases hc
  | some h =>
      rw [record_gotPdu s pdu h hh, un_gotPdu s pdu h hh, hr, Option.map_some]
      have haw : s.awaits t h.xid.toNat = (ca.xid == h.xid.toNat && !ca.done) := by
        unfold awaits
        rw [hr, Option.any_some]
      unfold Caller.complete
      dsimp only
      -- The reply completes the call if it has the xid and the call is not done.
      by_cases hc : ca.xid = h.xid.toNat ∧ ca.done = false
      · refine Or.inr ⟨h, rfl, hc.1.symm, hc.2, ?_, ?_⟩
        · rw [if_pos hc]
        · rw [haw, if_pos (by simp only [hc.1, hc.2, BEq.rfl, Bool.not_false, Bool.and_self])]
      · have hnot : ¬ (ca.xid == h.xid.toNat && !ca.done) = true := by
          intro hb
          simp only [Bool.and_eq_true, beq_iff_eq, Bool.not_eq_true'] at hb
          exact hc hb
        refine Or.inl ⟨by rw [if_neg hc], by rw [haw, if_neg hnot], ?_⟩
        by_cases hd : ca.done = true
        · exact Or.inl hd
        · refine Or.inr fun hcar => hc ⟨?_, Bool.eq_false_iff.mpr hd⟩
          exact ((carries_of_header pdu h hh ca.xid).mp hcar).symm

/-! ## Numbers -/

/-- No number has been handed out. -/
theorem numbered_new (nonce : Nat) : (Client.new T nonce).Numbered where
  calls := fun _ h => absurd h List.not_mem_nil
  threads := fun _ _ h => by cases h
  alone := fun _ _ _ _ h => by cases h
  ended := fun _ h => absurd h List.not_mem_nil

/-- A change that keeps the numbers. -/
theorem numbered_congr (s s' : Client T) (hn : s.Numbered) (hx : s'.rpcc.xid = s.rpcc.xid)
    (hc : ∀ ca ∈ s'.rpcc.calls, ∃ ca' ∈ s.rpcc.calls, ca'.xid = ca.xid)
    (hi : s'.inCall = s.inCall) (hr : s'.results = s.results) : s'.Numbered where
  calls := by
    intro ca hca
    rcases hc ca hca with ⟨ca', hmem, heq⟩
    rw [hx, ← heq]
    exact hn.calls ca' hmem
  threads := by
    rw [hx, hi]
    exact hn.threads
  alone := by
    rw [hi]
    exact hn.alone
  ended := by
    rw [hx, hi, hr]
    exact hn.ended

/-- A PDU changes no numbers. -/
theorem numbered_gotPdu (s : Client T) (hn : s.Numbered) (pdu : Bytes) :
    (s.gotPdu pdu).Numbered := by
  rcases frame_gotPdu s pdu with ⟨hi, hr, hx⟩
  refine numbered_congr s _ hn hx (fun ca hca => ?_) hi hr
  unfold gotPdu at hca
  split at hca
  · exact ⟨ca, hca, rfl⟩
  -- A record may be completed, and has its number still.
  · rcases List.mem_map.mp hca with ⟨ca', hmem, rfl⟩
    refine ⟨ca', hmem, ?_⟩
    unfold Caller.complete
    split <;> rfl

/-! ## Replies -/

/-- A reply header is recorded as unsolicited unless its xid has been handed out. -/
theorem known_gotPdu (s : Client T) (pdu : Bytes) (xid : Nat) (hc : Carries pdu xid) :
    xid < s.rpcc.xid ∨ pdu ∈ (s.gotPdu pdu).unsolicited := by
  cases hhd : replyHeader pdu with
  | none =>
      unfold Carries at hc
      rw [hhd] at hc
      cases hc
  | some h =>
      rw [carries_of_header pdu h hhd] at hc
      unfold gotPdu
      rw [hhd, ← hc]
      dsimp only
      by_cases hlt : h.xid.toNat < s.rpcc.xid
      · exact Or.inl hlt
      · rw [if_neg hlt]
        exact Or.inr (List.mem_append_right _ (List.mem_singleton.mpr rfl))

/-- No PDU has been handled, and no call has returned. -/
theorem matched_new (nonce : Nat) : (Client.new T nonce).Matched where
  known := fun _ h => absurd h List.not_mem_nil
  waiting := fun _ _ h => by cases h
  done := fun _ _ h => by cases h
  returned := fun _ h => absurd h List.not_mem_nil

/-- A PDU keeps the records right. If it completes a call then this call was waiting, so there was
    no reply to it before. -/
theorem matched_gotPdu (s : Client T) (hm : s.Matched) (pdu : Bytes) : (s.gotPdu pdu).Matched := by
  rcases frame_gotPdu s pdu with ⟨-, hr, hx⟩
  have hh := handled_gotPdu s pdu
  have hu := unsolicited_gotPdu s pdu
  have hmono : ∀ xid ret un, s.Answered xid ret un → (s.gotPdu pdu).Answered xid ret un :=
    fun xid ret un => answered_mono s _ xid ret un (by rw [hh]; exact List.prefix_append _ _) hu
  -- A PDU only changes records that are there.
  have hcall : ∀ t ca', (s.gotPdu pdu).record t = some ca' → ∃ ca, s.record t = some ca := by
    intro t ca' h
    cases hhd : replyHeader pdu with
    | none =>
        rw [gotPdu_dropped s pdu hhd] at h
        exact ⟨ca', h⟩
    | some hd =>
        rw [record_gotPdu s pdu hd hhd] at h
        rcases Option.map_eq_some_iff.mp h with ⟨ca, hca, -⟩
        exact ⟨ca, hca⟩
  refine ⟨?_, ?_, ?_, ?_⟩
  · intro p hp xid hc
    rw [hx]
    rw [hh] at hp
    rcases List.mem_append.mp hp with hp | hp
    · exact (hm.known p hp xid hc).imp_right fun h => hu h
    · rw [List.mem_singleton.mp hp] at hc ⊢
      exact known_gotPdu s pdu xid hc
  -- A call that still waits has not been answered by this PDU either.
  · intro t ca' h hd p hp hc
    rcases hcall t ca' h with ⟨ca, hca⟩
    rcases gotPdu_call s pdu t ca hca with ⟨hsame, -, hor⟩ | ⟨hd', -, -, -, hdone, -⟩
    · rw [hsame, Option.some.injEq] at h
      subst h
      rw [hh] at hp
      rcases List.mem_append.mp hp with hp | hp
      · exact hu (hm.waiting t ca hca hd p hp hc)
      · rw [List.mem_singleton.mp hp] at hc
        rcases hor with htrue | hnot
        · rw [hd] at htrue
          cases htrue
        · exact absurd hc hnot
    · rw [hdone, Option.some.injEq] at h
      subst h
      cases hd
  · intro t ca' h hd
    rcases hcall t ca' h with ⟨ca, hca⟩
    rcases gotPdu_call s pdu t ca hca with ⟨hsame, hun, -⟩ | ⟨hd', hhd, hxid, hwait, hdone, hun⟩
    · rw [hsame, Option.some.injEq] at h
      subst h
      rw [hun]
      exact (hm.done t ca hca hd).imp_right (hmono _ _ _)
    · -- The call was waiting, so this is the first reply to it.
      rw [hdone, Option.some.injEq] at h
      subst h
      refine Or.inr ⟨s.handled, pdu, [], hd', hh, hhd, hxid, fun p hp hc => ?_, rfl, hun⟩
      exact hu (hm.waiting t ca hca hwait p hp hc)
  · intro r hmem ht hb hc
    rw [hr] at hmem
    rcases hm.returned r hmem ht hb hc with ⟨req, hreq, ha⟩
    exact ⟨req, hreq, hmono _ _ _ ha⟩

/-- A change of the records alone, the handled PDUs and the returns kept. -/
theorem matched_congr (s s' : Client T) (hm : s.Matched) (hx : s.rpcc.xid ≤ s'.rpcc.xid)
    (hh : s'.handled = s.handled) (hu : s'.unsolicited = s.unsolicited)
    (hw : ∀ t ca, s'.record t = some ca → ca.done = false → s.Unanswered ca.xid)
    (hd : ∀ t ca, s'.record t = some ca → ca.done = true →
      ca.intret = RpcConst.cancelFailure ∨ s.Answered ca.xid ca.intret (s'.un t))
    (hr : ∀ r ∈ s'.results, r.ret ≠ RpcConst.timeoutFailure → r.ret ≠ RpcConst.bindFailure →
      r.ret ≠ RpcConst.cancelFailure →
      ∃ req, r.request = some req ∧ s.Answered req.xid r.ret r.un) : s'.Matched := by
  -- The PDUs are the same, so an answer stays the first one.
  have hmono : ∀ xid ret un, s.Answered xid ret un → s'.Answered xid ret un :=
    fun xid ret un => answered_mono s s' xid ret un (by rw [hh]) (by rw [hu]; exact fun _ h => h)
  refine ⟨?_, ?_, ?_, ?_⟩
  · intro p hp xid hc
    rw [hh] at hp
    rw [hu]
    exact (hm.known p hp xid hc).imp_left fun h => Nat.lt_of_lt_of_le h hx
  · intro t ca h hf p hp hc
    rw [hh] at hp
    rw [hu]
    exact hw t ca h hf p hp hc
  · exact fun t ca h ht => (hd t ca h ht).imp_right (hmono _ _ _)
  · intro r hmem ht hb hc
    rcases hr r hmem ht hb hc with ⟨req, hreq, ha⟩
    exact ⟨req, hreq, hmono _ _ _ ha⟩

/-- A PDU that is not the first reply to a thread's request leaves its call. -/
theorem gotPdu_frame (s : Client T) (hm : s.Matched) (pdu : Bytes) (t : T) (req : Request)
    (hreq : s.inCall t = some req) :
    ((s.gotPdu pdu).record t = s.record t ∧ (s.gotPdu pdu).un t = s.un t) ∨
      (Carries pdu req.xid ∧ s.Unanswered req.xid) := by
  cases hrec : s.record t with
  | none =>
      -- Without a record there is nothing that `got_pdu` could write to.
      cases hhd : replyHeader pdu with
      | none =>
          rw [gotPdu_dropped s pdu hhd]
          exact Or.inl ⟨hrec, rfl⟩
      | some h =>
          refine Or.inl ⟨by rw [record_gotPdu s pdu h hhd, hrec, Option.map_none], ?_⟩
          rw [un_gotPdu s pdu h hhd, awaits, hrec]
          rfl
  | some ca =>
      rcases gotPdu_call s pdu t ca hrec with ⟨hsame, hun, -⟩ | ⟨h, hhd, hx, hwait, -, -⟩
      · exact Or.inl ⟨hsame, hun⟩
      · rcases record_xid s t ca hrec with ⟨-, req', hreq', hxid⟩
        rw [hreq, Option.some.injEq] at hreq'
        subst hreq'
        rw [← hxid]
        exact Or.inr ⟨(carries_of_header pdu h hhd _).mpr hx, hm.waiting t ca hrec hwait⟩

/-! ## The sections of `call1` -/

variable [DecidableEq T]

/-- A call that is refused has one of the two codes for it. -/
theorem call1_refused (c : Rpcc) (n proc : Nat) (args : List UInt8) (ret : Int)
    (h : c.call1 n proc args = .error ret) :
    ret = RpcConst.bindFailure ∨ ret = RpcConst.cancelFailure := by
  unfold Rpcc.call1 at h
  split at h
  · exact Or.inl (Except.error.inj h).symm
  · split at h
    · exact Or.inr (Except.error.inj h).symm
    · cases h

/-- `bind` changes neither the numbers nor the records. -/
theorem bindReturns_frame (c c' : Rpcc) (o : Outcome) (h : c.bindReturns o = some c') :
    c'.xid = c.xid ∧ c'.calls = c.calls := by
  unfold Rpcc.bindReturns at h
  split at h
  · split at h
    · rw [Option.some.injEq] at h
      subst h
      exact ⟨rfl, rfl⟩
    · cases h
  · cases h

/-- A call that is made takes the next xid and adds its record. The number does not wrap, as there
    have been fewer calls. -/
theorem call1_made (c c' : Rpcc) (n proc : Nat) (args : List UInt8) (req : Request)
    (hlt : c.xid + 1 < 2 ^ 32) (h : c.call1 n proc args = .ok (c', req)) :
    req.xid = c.xid ∧ c'.xid = c.xid + 1 ∧
      c'.calls = c.calls ++ [⟨c.xid, proc, none, 0, false⟩] := by
  unfold Rpcc.call1 at h
  split at h
  · cases h
  · split at h
    · cases h
    · rcases Prod.mk.inj (Except.ok.inj h) with ⟨rfl, rfl⟩
      exact ⟨rfl, Nat.mod_eq_of_lt hlt, rfl⟩

/-- The caller of a new call has a fresh record, and the others keep theirs. -/
theorem record_call1 (s s' : Client T) (hn : s.Numbered) (t : T) (req : Request) (proc : Nat)
    (hi : s'.inCall = Function.update s.inCall t (some req)) (hx : req.xid = s.rpcc.xid)
    (hc : s'.rpcc.calls = s.rpcc.calls ++ [⟨s.rpcc.xid, proc, none, 0, false⟩]) (t' : T) :
    s'.record t' = if t' = t then some ⟨s.rpcc.xid, proc, none, 0, false⟩ else s.record t' := by
  unfold record
  rw [hi, hc]
  by_cases htt : t' = t
  · subst htt
    rw [if_pos rfl, Function.update_self, Option.bind_some, List.find?_append, hx]
    -- No earlier call has the new number.
    have hnone : s.rpcc.calls.find? (fun ca => ca.xid == s.rpcc.xid) = none := by
      refine List.find?_eq_none.mpr fun ca hca hb => ?_
      have := hn.calls ca hca
      have := beq_iff_eq.mp hb
      omega
    rw [hnone, Option.none_or, List.find?_singleton]
    simp only [BEq.rfl, if_true]
  · rw [if_neg htt, Function.update_of_ne htt]
    cases hreq : s.inCall t' with
    | none => rfl
    | some req' =>
        have hne : ¬ s.rpcc.xid = req'.xid := by
          have := hn.threads t' req' hreq
          omega
        simp only [Option.bind_some, List.find?_append, List.find?_singleton, beq_iff_eq, hne,
          if_false, Option.or_none]

/-- Ending one call leaves the records of the other threads. -/
theorem record_endCall (s s' : Client T) (hn : s.Numbered) (t : T) (req : Request)
    (hreq : s.inCall t = some req) (hi : s'.inCall = Function.update s.inCall t none)
    (hc : s'.rpcc.calls = s.rpcc.calls.filter fun ca => ca.xid != req.xid) (t' : T) :
    s'.record t' = if t' = t then none else s.record t' := by
  unfold record
  rw [hi, hc]
  by_cases htt : t' = t
  · rw [if_pos htt, htt, Function.update_self, Option.bind_none]
  · rw [if_neg htt, Function.update_of_ne htt]
    cases hreq' : s.inCall t' with
    | none => rfl
    | some req' =>
        have hne : req'.xid ≠ req.xid := fun he => htt (hn.alone t' t req' req hreq' hreq he)
        rw [Option.bind_some, Option.bind_some, List.find?_filter]
        congr 1
        funext ca
        by_cases hca : ca.xid = req'.xid
        · simp only [hca, bne_iff_ne, ne_eq, hne, not_false_eq_true, BEq.rfl, and_self,
            decide_true]
        · simp only [beq_eq_false_iff_ne.mpr hca, Bool.false_eq_true, and_false, decide_false]

/-- What the last section of `call1` does and returns. -/
theorem endCall_cases (s s' : Client T) (t : T) (req : Request) (hreq : s.inCall t = some req)
    (h : s.endCall t req = some s') :
    ∃ ca, s.record t = some ca ∧ s'.rpcc.xid = s.rpcc.xid ∧
      s'.rpcc.calls = s.rpcc.calls.filter (fun ca => ca.xid != req.xid) ∧
      s'.inCall = Function.update s.inCall t none ∧ s'.un = s.un ∧ s'.handled = s.handled ∧
      s'.unsolicited = s.unsolicited ∧ s'.results = s.results ++
        [⟨t, some req, if ca.done then ca.intret else RpcConst.timeoutFailure, s.un t⟩] := by
  unfold endCall at h
  rcases Option.bind_eq_some_iff.mp h with ⟨c, hc, h⟩
  unfold Rpcc.endCall at hc
  split at hc
  · cases hc
  · rename_i ca hfind
    rw [Option.some.injEq] at hc
    subst hc
    rcases Option.bind_eq_some_iff.mp h with ⟨o, ho, h⟩
    rw [List.getLast?_concat, Option.some.injEq] at ho
    rw [Option.some.injEq] at h
    subst ho
    subst h
    refine ⟨ca, ?_, rfl, rfl, rfl, rfl, rfl, rfl, rfl⟩
    unfold record
    rw [hreq, Option.bind_some]
    exact hfind

/-- A new call has a number that no other call has, under way or ended. -/
theorem numbered_call1 (s : Client T) (hn : s.Numbered) (t : T) (proc : Nat) (args : List UInt8)
    (hlt : s.rpcc.xid + 1 < 2 ^ 32) : (s.call1 t proc args).Numbered := by
  unfold call1
  cases hc : s.rpcc.call1 s.nonce proc args with
  | error ret =>
      refine ⟨hn.calls, hn.threads, hn.alone, ?_⟩
      intro r hr req' hreq'
      rcases List.mem_append.mp hr with hr | hr
      · exact hn.ended r hr req' hreq'
      · rw [List.mem_singleton.mp hr] at hreq'
        cases hreq'
  | ok made =>
      rcases made with ⟨c, req⟩
      rcases call1_made s.rpcc c s.nonce proc args req hlt hc with ⟨hx, hcx, hcalls⟩
      -- A thread is the caller, with the next number, or has an older number.
      have hthread : ∀ t' req', Function.update s.inCall t (some req) t' = some req' →
          t' = t ∧ req' = req ∨ s.inCall t' = some req' ∧ req'.xid < s.rpcc.xid := by
        intro t' req' h
        by_cases htt : t' = t
        · rw [htt, Function.update_self, Option.some.injEq] at h
          exact Or.inl ⟨htt, h.symm⟩
        · rw [Function.update_of_ne htt] at h
          exact Or.inr ⟨h, hn.threads t' req' h⟩
      refine ⟨?_, ?_, ?_, ?_⟩
      · intro ca hca
        dsimp only at hca ⊢
        rw [hcalls] at hca
        rw [hcx]
        rcases List.mem_append.mp hca with hca | hca
        · exact Nat.lt_succ_of_lt (hn.calls ca hca)
        · rw [List.mem_singleton.mp hca]
          exact Nat.lt_succ_self _
      · intro t' req' h
        dsimp only
        rw [hcx]
        rcases hthread t' req' h with ⟨-, rfl⟩ | ⟨-, hold⟩
        · omega
        · omega
      · intro t₁ t₂ req₁ req₂ h₁ h₂ heq
        rcases hthread t₁ req₁ h₁ with ⟨rfl, rfl⟩ | ⟨hold₁, hlt₁⟩
        · rcases hthread t₂ req₂ h₂ with ⟨rfl, -⟩ | ⟨-, hlt₂⟩
          · rfl
          · omega
        · rcases hthread t₂ req₂ h₂ with ⟨-, rfl⟩ | ⟨hold₂, -⟩
          · omega
          · exact hn.alone t₁ t₂ req₁ req₂ hold₁ hold₂ heq
      · intro r hr req' hreq'
        rcases hn.ended r hr req' hreq' with ⟨hlt', hne⟩
        dsimp only
        rw [hcx]
        refine ⟨by omega, fun t' req'' h => ?_⟩
        rcases hthread t' req'' h with ⟨-, rfl⟩ | ⟨hold, -⟩
        · omega
        · exact hne t' req'' hold

/-- A call that ends leaves its number to nobody. -/
theorem numbered_endCall (s s' : Client T) (hn : s.Numbered) (t : T) (req : Request)
    (hreq : s.inCall t = some req) (h : s.endCall t req = some s') : s'.Numbered := by
  rcases endCall_cases s s' t req hreq h with ⟨ca, -, hx, hc, hi, -, -, -, hr⟩
  have hthread : ∀ t' req', s'.inCall t' = some req' → t' ≠ t ∧ s.inCall t' = some req' := by
    intro t' req' h'
    rw [hi] at h'
    by_cases htt : t' = t
    · rw [htt, Function.update_self] at h'
      cases h'
    · rw [Function.update_of_ne htt] at h'
      exact ⟨htt, h'⟩
  refine ⟨?_, ?_, ?_, ?_⟩
  · intro ca' hca'
    rw [hc] at hca'
    rw [hx]
    exact hn.calls ca' (List.mem_filter.mp hca').1
  · intro t' req' h'
    rw [hx]
    exact hn.threads t' req' (hthread t' req' h').2
  · intro t₁ t₂ req₁ req₂ h₁ h₂ heq
    exact hn.alone t₁ t₂ req₁ req₂ (hthread t₁ req₁ h₁).2 (hthread t₂ req₂ h₂).2 heq
  · intro r hmem req' hreq'
    rw [hx]
    rw [hr] at hmem
    rcases List.mem_append.mp hmem with hold | hnew
    · rcases hn.ended r hold req' hreq' with ⟨hlt, hne⟩
      exact ⟨hlt, fun t' req'' h' => hne t' req'' (hthread t' req'' h').2⟩
    · -- The call that ends had its number to itself.
      rw [List.mem_singleton.mp hnew, Option.some.injEq] at hreq'
      subst hreq'
      refine ⟨hn.threads t req hreq, fun t' req'' h' heq => ?_⟩
      rcases hthread t' req'' h' with ⟨htt, hold⟩
      exact htt (hn.alone t' t req'' req hold hreq heq)

/-- A new call keeps the records right: no PDU can have answered it yet, but for those that carried
    a number nobody had. -/
theorem matched_call1 (s : Client T) (hn : s.Numbered) (hm : s.Matched) (t : T) (proc : Nat)
    (args : List UInt8) (hlt : s.rpcc.xid + 1 < 2 ^ 32) : (s.call1 t proc args).Matched := by
  unfold call1
  cases hc : s.rpcc.call1 s.nonce proc args with
  | error ret =>
      refine matched_congr s _ hm (Nat.le_refl _) rfl rfl hm.waiting hm.done ?_
      intro r hr ht hb hca
      rcases List.mem_append.mp hr with hr | hr
      · exact hm.returned r hr ht hb hca
      · -- A refusal is one of the excepted codes.
        rw [List.mem_singleton.mp hr] at hb hca
        rcases call1_refused s.rpcc s.nonce proc args ret hc with h | h
        · exact absurd h hb
        · exact absurd h hca
  | ok made =>
      rcases made with ⟨c, req⟩
      rcases call1_made s.rpcc c s.nonce proc args req hlt hc with ⟨hx, hcx, hcalls⟩
      have hrec := record_call1 s
        { s with
          rpcc := c
          inCall := Function.update s.inCall t (some req)
          un := Function.update s.un t emptyUn } hn t req proc rfl hx hcalls
      dsimp only
      refine matched_congr s _ hm ?_ rfl rfl ?_ ?_ hm.returned
      · dsimp only
        omega
      · intro t' ca h hd
        rw [hrec] at h
        split at h
        · -- Nothing that was handled can have been a reply to the new request.
          rw [Option.some.injEq] at h
          subst h
          intro p hp hcar
          rcases hm.known p hp _ hcar with hlt' | hun
          · exact absurd hlt' (Nat.lt_irrefl _)
          · exact hun
        · exact hm.waiting t' ca h hd
      · intro t' ca h hd
        rw [hrec] at h
        split at h
        · rw [Option.some.injEq] at h
          subst h
          cases hd
        · rename_i htt
          dsimp only
          rw [Function.update_of_ne htt]
          exact hm.done t' ca h hd

/-- What a call returns is what its record says. Without a reply the record is not done, and the
    call returns a timeout. -/
theorem matched_endCall (s s' : Client T) (hn : s.Numbered) (hm : s.Matched) (t : T)
    (req : Request) (hreq : s.inCall t = some req) (h : s.endCall t req = some s') :
    s'.Matched := by
  rcases endCall_cases s s' t req hreq h with ⟨ca, hca, hx, hc, hi, hun, hh, hu, hr⟩
  have hrec := record_endCall s s' hn t req hreq hi hc
  -- A record that is left is another thread's.
  have hold : ∀ t' ca', s'.record t' = some ca' → s.record t' = some ca' := by
    intro t' ca' h'
    rw [hrec] at h'
    split at h'
    · cases h'
    · exact h'
  refine matched_congr s s' hm (Nat.le_of_eq hx.symm) hh hu ?_ ?_ ?_
  · exact fun t' ca' h' => hm.waiting t' ca' (hold t' ca' h')
  · rw [hun]
    exact fun t' ca' h' => hm.done t' ca' (hold t' ca' h')
  · intro r hmem ht hb hcan
    rw [hr] at hmem
    rcases List.mem_append.mp hmem with hmem | hmem
    · exact hm.returned r hmem ht hb hcan
    · rw [List.mem_singleton.mp hmem] at ht hcan ⊢
      rcases record_xid s t ca hca with ⟨-, req', hreq', hxid⟩
      rw [hreq, Option.some.injEq] at hreq'
      subst hreq'
      refine ⟨req, rfl, ?_⟩
      -- The call was done, and not by a cancel.
      by_cases hd : ca.done = true
      · simp only [hd, if_true] at hcan ⊢
        rw [← hxid]
        exact (hm.done t ca hca hd).resolve_left hcan
      · simp only [hd, Bool.false_eq_true, if_false, ne_eq, not_true_eq_false] at ht

/-! ## Every run -/

/-- What a step does. -/
inductive Stepped (s : Client T) : ClientAction T → Client T → Prop where
  | call1 (t : T) (proc : Nat) (args : List UInt8) :
      Stepped s (.call1 t proc args) (s.call1 t proc args)
  | gotPdu (pdu : Bytes) : Stepped s (.gotPdu pdu) (s.gotPdu pdu)
  | endCall (t : T) (req : Request) (s' : Client T) (hreq : s.inCall t = some req)
      (hend : s.endCall t req = some s') : Stepped s (.endCall t) s'
  | bindReturns (o : Outcome) (c : Rpcc) (hx : c.xid = s.rpcc.xid)
      (hcalls : c.calls = s.rpcc.calls) : Stepped s (.bindReturns o) { s with rpcc := c }
  | cancel : Stepped s .cancel { s with rpcc := s.rpcc.cancel }

/-- A step is one of these. -/
theorem stepped_of_step (s : Client T) (a : ClientAction T) (s' : Client T)
    (h : s.step a = some s') : s.Stepped a s' := by
  cases a with
  | call1 t proc args =>
      simp only [step] at h
      split at h
      · rw [Option.some.injEq] at h
        subst h
        exact Stepped.call1 t proc args
      · cases h
  | gotPdu pdu =>
      rw [step, Option.some.injEq] at h
      subst h
      exact Stepped.gotPdu pdu
  | endCall t =>
      rcases Option.bind_eq_some_iff.mp h with ⟨req, hreq, hend⟩
      exact Stepped.endCall t req s' hreq hend
  | bindReturns o =>
      rcases Option.map_eq_some_iff.mp h with ⟨c, hc, rfl⟩
      rcases bindReturns_frame s.rpcc c o hc with ⟨hx, hcalls⟩
      exact Stepped.bindReturns o c hx hcalls
  | cancel =>
      rw [step, Option.some.injEq] at h
      subst h
      exact Stepped.cancel

/-- Every step keeps the numbers apart, as long as they do not run out. -/
theorem numbered_step (s : Client T) (a : ClientAction T) (s' : Client T) (hn : s.Numbered)
    (hok : fewCalls s a = true) (h : s.Stepped a s') : s'.Numbered := by
  cases h with
  | call1 t proc args => exact numbered_call1 s hn t proc args (of_decide_eq_true hok)
  | gotPdu pdu => exact numbered_gotPdu s hn pdu
  | endCall t req s' hreq hend => exact numbered_endCall s s' hn t req hreq hend
  | bindReturns o c hx hcalls =>
      refine numbered_congr s _ hn hx (fun ca hca => ?_) rfl rfl
      rw [hcalls] at hca
      exact ⟨ca, hca, rfl⟩
  | cancel =>
      refine numbered_congr s _ hn rfl (fun ca hca => ?_) rfl rfl
      rcases List.mem_map.mp hca with ⟨ca', hmem, rfl⟩
      exact ⟨ca', hmem, rfl⟩

theorem matched_step (s : Client T) (a : ClientAction T) (s' : Client T) (hn : s.Numbered)
    (hm : s.Matched) (hok : fewCalls s a = true) (h : s.Stepped a s') : s'.Matched := by
  cases h with
  | call1 t proc args => exact matched_call1 s hn hm t proc args (of_decide_eq_true hok)
  | gotPdu pdu => exact matched_gotPdu s hm pdu
  | endCall t req s' hreq hend => exact matched_endCall s s' hn hm t req hreq hend
  | bindReturns o c hx hcalls =>
      -- The records are looked up in `calls_`, which `bind` does not touch.
      have hrec : ∀ t, Client.record { s with rpcc := c } t = s.record t := by
        intro t
        unfold record
        dsimp only
        rw [hcalls]
      refine matched_congr s _ hm (Nat.le_of_eq hx.symm) rfl rfl ?_ ?_ hm.returned
      · intro t ca hca
        rw [hrec] at hca
        exact hm.waiting t ca hca
      · intro t ca hca
        rw [hrec] at hca
        exact hm.done t ca hca
  | cancel =>
      refine matched_congr s _ hm (Nat.le_refl _) rfl rfl ?_ ?_ hm.returned
      · intro t ca hca hd
        rw [record_cancel] at hca
        rcases Option.map_eq_some_iff.mp hca with ⟨ca', -, rfl⟩
        cases hd
      · intro t ca hca hd
        rw [record_cancel] at hca
        rcases Option.map_eq_some_iff.mp hca with ⟨ca', -, rfl⟩
        exact Or.inl rfl

theorem numbered_matched_of_reaches (nonce : Nat) (s : Client T)
    (h : Trace.Reaches step (fun s a => fewCalls s a = true) (Client.new T nonce) s) :
    s.Numbered ∧ s.Matched :=
  Trace.invariant_of_step (fun s => s.Numbered ∧ s.Matched)
    ⟨numbered_new nonce, matched_new nonce⟩
    (fun s a s' hi hok hs =>
      ⟨numbered_step s a s' hi.1 hok (stepped_of_step s a s' hs),
        matched_step s a s' hi.1 hi.2 hok (stepped_of_step s a s' hs)⟩) h

/-- In every run of a client, a call that returns something else than one of the
    three local failures returns the first reply to its request. A PDU completes
    at most the one call whose xid it carries, and only if no reply to it has been
    handled; it changes nothing that has been returned, and no thread is in a call
    with the xid of another call. -/
theorem result_of_first_reply (nonce : Nat) (s : Client T)
    (h : Trace.Reaches step (fun s a => fewCalls s a = true) (Client.new T nonce) s) :
    (∀ r ∈ s.results, r.ret ≠ RpcConst.timeoutFailure → r.ret ≠ RpcConst.bindFailure →
      r.ret ≠ RpcConst.cancelFailure →
      ∃ req, r.request = some req ∧ s.Answered req.xid r.ret r.un) ∧
    (∀ pdu s', s.step (.gotPdu pdu) = some s' →
      s'.results = s.results ∧ s'.inCall = s.inCall ∧
      ∀ t req, s.inCall t = some req →
        (s'.record t = s.record t ∧ s'.un t = s.un t) ∨
        (Carries pdu req.xid ∧ s.Unanswered req.xid)) ∧
    (∀ t req, s.inCall t = some req →
      (∀ t' req', s.inCall t' = some req' → req.xid = req'.xid → t = t') ∧
      ∀ r ∈ s.results, ∀ req', r.request = some req' → req.xid ≠ req'.xid) := by
  rcases numbered_matched_of_reaches nonce s h with ⟨hn, hm⟩
  refine ⟨hm.returned, ?_, ?_⟩
  · intro pdu s' hs
    -- `got_pdu` can run in any state, so the step is the function.
    rw [step, Option.some.injEq] at hs
    subst hs
    rcases frame_gotPdu s pdu with ⟨hi, hr, -⟩
    refine ⟨hr, hi, fun t req hreq => ?_⟩
    exact gotPdu_frame s hm pdu t req hreq
  · intro t req hreq
    refine ⟨fun t' req' hreq' heq => hn.alone t t' req req' hreq hreq' heq, ?_⟩
    exact fun r hr req' hreq' => (hn.ended r hr req' hreq').2 t req hreq

/-- A reply PDU with the given last bytes of its xid and result, and a body. -/
def replyPdu (xid ret : UInt8) (body : Bytes) : Bytes :=
  [0, 0, 0, 24, 0, 0, 0, xid, 0, 0, 0, ret] ++ List.replicate 12 0 ++ body

/-- A bind, and then two calls at once whose replies arrive out of order, the one
    of the second call twice. -/
def crossedCalls : List (ClientAction Bool) :=
  [.call1 true 1 [], .gotPdu (replyPdu 1 0 [0, 0, 0, 9]), .endCall true,
    .bindReturns ⟨1, 1, 0, some [0, 0, 0, 9]⟩,
    .call1 true 0x7001 [], .call1 false 0x7002 [], .gotPdu (replyPdu 3 5 [7]),
    .gotPdu (replyPdu 3 6 [8]), .gotPdu (replyPdu 2 4 []), .endCall false, .endCall true]

theorem result_of_first_reply_crossed :
    ∃ s, Trace.Reaches step (fun s a => fewCalls s a = true) (Client.new Bool 5) s ∧
      s.results.map (fun r => (r.ret, r.un.buf)) =
        [(0, replyPdu 1 0 [0, 0, 0, 9]), (5, replyPdu 3 5 [7]), (4, replyPdu 2 4 [])] ∧
      ∀ r ∈ s.results, r.ret ≠ RpcConst.timeoutFailure → r.ret ≠ RpcConst.bindFailure →
        r.ret ≠ RpcConst.cancelFailure →
        ∃ req, r.request = some req ∧ s.Answered req.xid r.ret r.un := by
  have hrun : Trace.Reaches step (fun s a => fewCalls s a = true) (Client.new Bool 5) _ :=
    Trace.reaches_of_run crossedCalls rfl
  exact ⟨_, hrun, rfl, (result_of_first_reply 5 _ hrun).1⟩

end Client

end Rpc

end Yfs
