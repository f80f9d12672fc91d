import Yfs.Core.Restart
import Yfs.Theory.ReplyWindow

/-!
# Where Replies Come From

What an instance of the server sends on a connection: a failure, or a reply to a request
that the client at the other end has packed, with the xid of that request.

There are two ways to go astray. A reply that is remembered is kept by client nonce and xid
and sent on the connection of the duplicate, and a reply to a request whose connection is
dead is sent on the connection that `conns_` has for the nonce. In both cases the client is
the one that has packed the request only if it is the only one with its nonce
(`Wiring.Distinct`); a client with nonce 0 is never remembered.

## Main definitions

* `Wiring.Distinct`: No two clients share a nonce other than 0.
* `Justified`: A reply comes from a request of the client that it is sent to.
* `Dispatcher.Sound`, `Instance.Sound`: All replies that are sent or remembered do.

## Theorems

* `sound_receive`, `sound_finish`: The two parts of `dispatch`.
* `sound_dispatch`, `sound_handlerReturns`: The same for an instance.
* `dispatch_foreign`: A request for another instance changes nothing.
-/

namespace Yfs

namespace Rpc

variable {C K : Type}

/-- No two clients have the same nonce, except those with 0. -/
def Wiring.Distinct (w : Wiring C K) : Prop :=
  ∀ c c', w.nonce c ≠ 0 → w.nonce c = w.nonce c' → c = c'

/-- The reply is a failure, or it is for a request of the client with its xid; for a bind
    it has the nonce. -/
def Justified (requests : List (C × Request)) (nonce : Nat) (c : C) (rep : Reply) : Prop :=
  rep.ret < 0 ∨ ∃ r, (c, r) ∈ requests ∧ r.xid = rep.xid ∧
    (r.proc = RpcConst.bind → rep.body = Word.be32 (UInt32.ofNat nonce))

/-- With more requests it stays justified. -/
theorem Justified.mono {requests requests' : List (C × Request)} {nonce : Nat} {c : C}
    {rep : Reply} (h : Justified requests nonce c rep) (hsub : requests ⊆ requests') :
    Justified requests' nonce c rep :=
  h.imp_right fun ⟨r, hr, hxid, hbind⟩ => ⟨r, hsub hr, hxid, hbind⟩

/-! ## Dispatch -/

/-- The server at the end of the first part of `dispatch`. -/
def Dispatched.srv : Dispatched K → Dispatcher K
  | .returned s | .handling s _ => s

namespace Dispatcher

/-- Replies that are remembered are for the clients with that nonce, a saved connection is
    to one of them, and what was sent was for the client it was sent to. -/
structure Sound (w : Wiring C K) (requests : List (C × Request)) (s : Dispatcher K) : Prop where
  windows : ∀ n, ∀ e ∈ s.server.replyWindow n, ∀ rep, e.cb = some rep →
    ∀ c, w.nonce c = n → Justified requests s.server.nonce c rep
  conns : ∀ e ∈ s.conns.entries, ∀ c, w.nonce c = e.1 → w.owner e.2 = c
  sent : ∀ p ∈ s.sent, Justified requests s.server.nonce (w.owner p.1) p.2

variable {w : Wiring C K} {requests : List (C × Request)}

/-- With more requests the server stays sound. -/
theorem Sound.mono {s : Dispatcher K} (h : s.Sound w requests)
    {requests' : List (C × Request)} (hsub : requests ⊆ requests') : s.Sound w requests' where
  windows := fun n e he rep hrep c hc => (h.windows n e he rep hrep c hc).mono hsub
  conns := h.conns
  sent := fun p hp => (h.sent p hp).mono hsub

/-- The references are not part of it. -/
theorem Sound.of_link {s s' : Dispatcher K} (h : s.Sound w requests)
    (hserver : s'.server = s.server) (hconns : s'.conns = s.conns) (hsent : s'.sent = s.sent) :
    s'.Sound w requests := by
  refine ⟨?_, ?_, ?_⟩
  · rw [hserver]
    exact h.windows
  · rw [hconns]
    exact h.conns
  · rw [hserver, hsent]
    exact h.sent

/-- A reply is sent to the client that it is for. -/
theorem Sound.send {s : Dispatcher K} (h : s.Sound w requests) {k : K} {rep : Reply}
    (hrep : Justified requests s.server.nonce (w.owner k) rep) :
    (s.send k rep).Sound w requests := by
  refine ⟨h.windows, h.conns, fun p hp => ?_⟩
  rcases List.mem_append.mp hp with hp | hp
  · exact h.sent p hp
  · rw [List.mem_singleton.mp hp]
    exact hrep

/-- A window whose replies were there before or are for the clients with that nonce. -/
theorem Sound.setWindow {s : Dispatcher K} (h : s.Sound w requests) {n : Nat}
    {win : List ReplyT} {bound : Nat}
    (hwin : ∀ e ∈ win, ∀ rep, e.cb = some rep → e ∈ s.server.replyWindow n ∨
      ∀ c, w.nonce c = n → Justified requests s.server.nonce c rep) :
    (s.setWindow n win bound).Sound w requests := by
  refine ⟨fun m e he rep hrep c hc => ?_, h.conns, h.sent⟩
  dsimp only [Dispatcher.setWindow] at he
  -- The windows of the other nonces are left alone.
  by_cases hm : m = n
  · subst hm
    rw [Function.update_self] at he
    rcases hwin e he rep hrep with hold | hnew
    · exact h.windows m e hold rep hrep c hc
    · exact hnew c hc
  · rw [Function.update_of_ne hm] at he
    exact h.windows m e he rep hrep c hc

variable [DecidableEq K]

/-- The state of a connection is not part of it. -/
theorem Sound.setLink {s : Dispatcher K} (h : s.Sound w requests) (k : K) (l : Link) :
    (s.setLink k l).Sound w requests :=
  h.of_link rfl rfl rfl

/-- To drop a reference changes neither the windows nor the saved connections. -/
theorem Sound.decref {s s' : Dispatcher K} (h : s.Sound w requests) {k : K}
    (hdec : s.decref k = some s') : s'.Sound w requests ∧ s'.server = s.server ∧
      s'.conns = s.conns := by
  rcases Option.map_eq_some_iff.mp hdec with ⟨l, _, rfl⟩
  exact ⟨h.setLink k l, rfl, rfl⟩

section Request

variable (hw : w.Distinct) {k : K}

include hw

/-- The connection that is saved under a nonce is to the only client with that nonce. -/
theorem Sound.assign {s : Dispatcher K} (h : s.Sound w requests)
    (hn : w.nonce (w.owner k) ≠ 0) :
    (s.assign (w.nonce (w.owner k)) k).Sound w requests := by
  refine ⟨h.windows, fun e he c hc => ?_, h.sent⟩
  -- Two clients with one nonce would share the entry; that is what `Distinct` excludes.
  rcases SortedMap.mem_insert he with rfl | ⟨hold, _⟩
  · exact hw _ _ hn hc.symm
  · exact h.conns e hold c hc

/-- `dispatch` saves the connection of a request under the nonce of its client, if it is the first
    one or a later one than that which is saved. -/
theorem Sound.saveConn {s s' : Dispatcher K} (h : s.Sound w requests)
    (hn : w.nonce (w.owner k) ≠ 0) (hsave : s.saveConn (w.nonce (w.owner k)) k = some s') :
    s'.Sound w requests ∧ s'.server = s.server := by
  unfold Dispatcher.saveConn at hsave
  split at hsave
  · cases hsave
    exact ⟨h.assign hw hn, rfl⟩
  · split at hsave
    · rcases Option.map_eq_some_iff.mp hsave with ⟨s₁, hdec, rfl⟩
      rcases h.decref hdec with ⟨h₁, hserver, _⟩
      exact ⟨h₁.assign hw hn, hserver⟩
    · cases hsave
      exact ⟨h, rfl⟩

omit hw in
/-- A reply goes out on the connection of the request, or on the one that is saved for the nonce.
    The switch is to a connection of the same client. -/
theorem Sound.latestConn {s s' : Dispatcher K} (h : s.Sound w requests) {k' : K}
    (hlatest : s.latestConn (w.nonce (w.owner k)) k = some (k', s')) :
    s'.Sound w requests ∧ s'.server = s.server ∧ w.owner k' = w.owner k := by
  unfold Dispatcher.latestConn at hlatest
  split at hlatest
  · split at hlatest
    · cases hlatest
    -- The saved connection is under the nonce of the request, so it is to the same client.
    · rename_i latest hlookup
      have howner := h.conns _ (SortedMap.mem_of_lookup hlookup) (w.owner k) rfl
      split at hlatest
      · rcases Option.map_eq_some_iff.mp hlatest with ⟨s₁, hdec, heq⟩
        cases heq
        rcases h.decref hdec with ⟨h₁, hserver, _⟩
        exact ⟨h₁.setLink _ _, hserver, howner⟩
      · cases hlatest
        exact ⟨h, rfl, rfl⟩
  · cases hlatest
    exact ⟨h, rfl, rfl⟩

omit hw [DecidableEq K] in
/-- A request is checked against the window. What it leaves has the replies that were there, since a
    new entry of a window has no reply yet. -/
theorem Sound.check {s : Dispatcher K} (h : s.Sound w requests) {n xid xidRep : Nat}
    {st : RpcState} {win : List ReplyT} {bound : Nat}
    (hcheck : checkduplicateAndUpdate (s.server.replyWindow n) (s.server.windowBound n) xid
      xidRep = some (st, win, bound)) : (s.setWindow n win bound).Sound w requests := by
  refine h.setWindow fun e he rep hrep => Or.inl ?_
  rcases checkduplicate_cases _ _ _ _ _ _ _ hcheck with ⟨_, ⟨_, hprune, _⟩ | ⟨_, hsame, _⟩⟩
  · rcases prune_suffix _ _ _ hprune with ⟨_, dropped, heq, _⟩
    have hmem : e ∈ insertReply xid (s.server.replyWindow n) := by
      rw [heq]
      exact List.mem_append_right dropped he
    rcases (mem_insertReply xid e _).mp hmem with rfl | hold
    · -- The request itself has no reply yet.
      cases hrep
    · exact hold
  · rw [hsame] at he
    exact he

variable {r : Request} (hr : (w.owner k, r) ∈ requests) (hn : r.cltNonce = w.nonce (w.owner k))

include hn

omit hw [DecidableEq K] in
/-- A duplicate is answered. A reply that was remembered goes to the client it was made for, since
    the nonce is the client's; a request that is forgotten gets a failure. -/
theorem Sound.answer {s : Dispatcher K} (h : s.Sound w requests) {st : RpcState}
    (hst : st = classify (s.server.replyWindow r.cltNonce) (s.server.windowBound r.cltNonce)
      r.xid) {s' : Dispatcher K} (hs' : s'.Sound w requests)
    (hnonce : s'.server.nonce = s.server.nonce) : (s'.answer k r st).Sound w requests := by
  cases st with
  -- The reply was made under this nonce, and the client is the one that has it.
  | done rep =>
      rcases classify_done _ _ _ _ hst.symm with ⟨e, he, _, hcb⟩
      refine hs'.send ?_
      rw [hnonce]
      exact h.windows _ e he rep hcb (w.owner k) hn.symm
  | forgotten => exact hs'.send (Or.inl (show RpcConst.atmostonceFailure < 0 by decide))
  | _ => exact hs'

/-- The first part of `dispatch`, for a client with a nonce: the connection is saved, and the
    request is checked. A new one is handed to its handler, and any other is answered. -/
theorem sound_dispatchOnce {s : Dispatcher K} (h : s.Sound w requests) (h0 : r.cltNonce ≠ 0)
    {d : Dispatched K} (hd : s.dispatchOnce k r = some d) :
    d.srv.Sound w requests ∧ d.srv.server.nonce = s.server.nonce := by
  simp only [dispatchOnce, Option.bind_eq_bind, Option.bind_eq_some_iff] at hd
  rcases hd with ⟨s₁, hsave, ⟨st, win, bound⟩, hcheck, hd⟩
  rw [hn] at hsave h0
  rcases h.saveConn hw h0 hsave with ⟨h₁, hserver⟩
  have hnonce : s₁.server.nonce = s.server.nonce := congrArg Rpcs.nonce hserver
  have h₂ := h₁.check hcheck
  have hst := (checkduplicate_cases _ _ _ _ _ _ _ hcheck).1
  dsimp only at hd
  split at hd
  · cases hd
    exact ⟨h₂, hnonce⟩
  -- An answer is sent and a reference is dropped; neither touches the nonce of the server.
  · rcases Option.map_eq_some_iff.mp hd with ⟨s₃, hdec, rfl⟩
    rcases (h₁.answer hn hst h₂ rfl).decref hdec with ⟨h₃, hserver₃, _⟩
    refine ⟨h₃, ?_⟩
    rw [Dispatched.srv, hserver₃]
    cases st with
    | _ => exact hnonce

/-- The first part of `dispatch`. A request for another instance gets a failure, and a client
    without a nonce has no window. -/
theorem sound_receive {s : Dispatcher K} (h : s.Sound w requests) {d : Dispatched K}
    (hd : s.receive k r = some d) :
    d.srv.Sound w requests ∧ d.srv.server.nonce = s.server.nonce := by
  unfold receive at hd
  split at hd
  · cases hd
    exact ⟨h.send (Or.inl (show RpcConst.oldsrvFailure < 0 by decide)), rfl⟩
  · split at hd
    · cases hd
    · split at hd
      · cases hd
        exact ⟨h, rfl⟩
      · rename_i h0
        exact sound_dispatchOnce hw hn h h0 hd

include hr

/-- The second part: the reply is remembered for the client and sent to it. Only for a bind is
    something said about the body. -/
theorem sound_finish {s s' : Dispatcher K} (h : s.Sound w requests) {ret : Int}
    {body : List UInt8}
    (hbind : r.proc = RpcConst.bind → body = Word.be32 (UInt32.ofNat s.server.nonce))
    (hfinish : s.finish k r ret body = some s') :
    s'.Sound w requests ∧ s'.server.nonce = s.server.nonce := by
  have hrep : Justified requests s.server.nonce (w.owner k) ⟨r.xid, ret, body⟩ :=
    Or.inr ⟨r, hr, rfl, hbind⟩
  unfold finish at hfinish
  split at hfinish
  · cases hfinish
  · rcases Option.bind_eq_some_iff.mp hfinish with ⟨⟨k', s₂⟩, hlatest, hdec⟩
    have hrecorded : ∀ s₁ : Dispatcher K,
        s₁ = (if r.cltNonce > 0 then s.setWindow r.cltNonce (addReply r.xid ⟨r.xid, ret, body⟩
          (s.server.replyWindow r.cltNonce)) (s.server.windowBound r.cltNonce) else s) →
        s₁.Sound w requests ∧ s₁.server.nonce = s.server.nonce := by
      rintro s₁ rfl
      split
      · rename_i hpos
        refine ⟨h.setWindow fun e he rep hcb => ?_, rfl⟩
        rcases mem_addReply _ _ e _ he with hold | hnew
        · exact Or.inl hold
        · -- The reply is for the only client with the nonce.
          refine Or.inr fun c hc => ?_
          rw [hnew, Option.some.injEq] at hcb
          have hsame : w.owner k = c := hw _ _ (by omega) (hn.symm.trans hc.symm)
          rw [← hsame, ← hcb]
          exact hrep
      · exact ⟨h, rfl⟩
    rcases hrecorded _ rfl with ⟨h₁, hnonce₁⟩
    rw [hn] at hlatest
    rw [hn] at h₁ hnonce₁
    -- The connection may be another one, but its client is the same.
    rcases h₁.latestConn hlatest with ⟨h₂, hserver₂, howner⟩
    have hnonce₂ : s₂.server.nonce = s.server.nonce := by
      rw [hserver₂]
      exact hnonce₁
    have hsend : Justified requests s₂.server.nonce (w.owner k') ⟨r.xid, ret, body⟩ := by
      rw [hnonce₂, howner]
      exact hrep
    rcases (h₂.send hsend).decref hdec with ⟨h₃, hserver₃, _⟩
    refine ⟨h₃, ?_⟩
    rw [hserver₃]
    exact hnonce₂

end Request

end Dispatcher

/-! ## Instances -/

namespace Instance

/-- The server is sound, and what it executes are requests of the clients that are not for
    another instance. -/
structure Sound (w : Wiring C K) (requests : List (C × Request)) (inst : Instance K) : Prop where
  srv : inst.srv.Sound w requests
  handling : ∀ p ∈ inst.handling, (w.owner p.1, p.2) ∈ requests
  executed : ∀ p ∈ inst.executed,
    (w.owner p.1, p.2) ∈ requests ∧ (p.2.srvNonce = 0 ∨ p.2.srvNonce = inst.nonce)

variable {w : Wiring C K} {requests : List (C × Request)}

/-- With more requests the instance stays sound. -/
theorem Sound.mono {inst : Instance K} (h : inst.Sound w requests)
    {requests' : List (C × Request)} (hsub : requests ⊆ requests') :
    inst.Sound w requests' where
  srv := h.srv.mono hsub
  handling := fun p hp => hsub (h.handling p hp)
  executed := fun p hp => ⟨hsub (h.executed p hp).1, (h.executed p hp).2⟩

/-- A new instance has nothing to send. -/
theorem sound_new (nonce : Nat) (procs : List Nat) : (new K nonce procs).Sound w requests := by
  refine ⟨⟨?_, ?_, ?_⟩, ?_, ?_⟩
  · exact fun n e he => absurd he List.not_mem_nil
  · exact fun e he => absurd he List.not_mem_nil
  · exact fun p hp => absurd hp List.not_mem_nil
  · exact fun p hp => absurd hp List.not_mem_nil
  · exact fun p hp => absurd hp List.not_mem_nil

variable [DecidableEq K]

/-- A handler is called for the request that was received, and not if that is for another
    instance. -/
theorem receive_handling {s s' : Dispatcher K} {k : K} {r r' : Request}
    (h : s.receive k r = some (.handling s' r')) :
    r' = r ∧ (r.srvNonce = 0 ∨ r.srvNonce = s.server.nonce) := by
  unfold Dispatcher.receive at h
  split at h
  · cases h
  · rename_i hold
    -- The first test of `dispatch` lets a request pass with no nonce of a server or with this one.
    have hmine : r.srvNonce = 0 ∨ r.srvNonce = s.server.nonce := by
      by_contra hforeign
      rw [not_or] at hforeign
      refine hold ?_
      rw [Dispatcher.oldServer, Bool.and_eq_true, bne_iff_ne, bne_iff_ne]
      exact hforeign
    split at h
    · cases h
    · split at h
      · cases h
        exact ⟨rfl, hmine⟩
      · simp only [Dispatcher.dispatchOnce, Option.bind_eq_bind, Option.bind_eq_some_iff] at h
        rcases h with ⟨s₁, _, ⟨st, win, bound⟩, _, h⟩
        dsimp only at h
        split at h
        · cases h
          exact ⟨rfl, hmine⟩
        · rcases Option.map_eq_some_iff.mp h with ⟨s₂, _, heq⟩
          cases heq

section Step

variable (hw : w.Distinct) {inst inst' : Instance K} (h : inst.Sound w requests)

include hw h

/-- An instance gets a request of a client, with the nonce of that client. -/
theorem sound_dispatch {k : K} {r : Request} (hr : (w.owner k, r) ∈ requests)
    (hn : r.cltNonce = w.nonce (w.owner k)) (hd : inst.dispatch k r = some inst') :
    inst'.Sound w requests ∧ inst'.nonce = inst.nonce := by
  rcases Option.map_eq_some_iff.mp hd with ⟨d, hreceive, rfl⟩
  rcases Dispatcher.sound_receive hw hn h.srv hreceive with ⟨hsrv, hnonce⟩
  cases d with
  | returned srv =>
      refine ⟨⟨hsrv, h.handling, fun p hp => ⟨(h.executed p hp).1, ?_⟩⟩, hnonce⟩
      rw [nonce, show srv.server.nonce = inst.nonce from hnonce]
      exact (h.executed p hp).2
  | handling srv r' =>
      rcases receive_handling hreceive with ⟨rfl, hmine⟩
      have hsame : srv.server.nonce = inst.nonce := hnonce
      -- One more request is being handled, and it is counted as executed at the same time.
      refine ⟨⟨hsrv, fun p hp => ?_, fun p hp => ?_⟩, hnonce⟩
      · rcases List.mem_append.mp hp with hp | hp
        · exact h.handling p hp
        · rw [List.mem_singleton.mp hp]
          exact hr
      · rw [nonce, hsame]
        rcases List.mem_append.mp hp with hp | hp
        · exact h.executed p hp
        · rw [List.mem_singleton.mp hp]
          exact ⟨hr, hmine⟩

/-- A handler of an instance returns. The request is one of those being handled, so it came from the
    client of the connection. -/
theorem sound_handlerReturns {k : K} {r : Request} {ret : Int} {body : List UInt8}
    (hn : ∀ p ∈ requests, p.2.cltNonce = w.nonce p.1)
    (hd : inst.handlerReturns k r ret body = some inst') :
    inst'.Sound w requests ∧ inst'.nonce = inst.nonce := by
  simp only [handlerReturns, Option.ite_none_right_eq_some, List.contains_iff_mem] at hd
  rcases hd with ⟨⟨hmem, hbind⟩, hd⟩
  rcases Option.map_eq_some_iff.mp hd with ⟨srv, hfinish, rfl⟩
  -- What is being handled came from the client of its connection.
  have hr := h.handling _ hmem
  rcases Dispatcher.sound_finish hw hr (hn _ hr) h.srv (fun hp => (hbind hp).2) hfinish with
    ⟨hsrv, hnonce⟩
  refine ⟨⟨hsrv, fun p hp => h.handling p (List.mem_of_mem_erase hp), fun p hp => ?_⟩, hnonce⟩
  rw [nonce, show srv.server.nonce = inst.nonce from hnonce]
  exact h.executed p hp

end Step

/-- A request for another instance is refused, and nothing else happens. -/
theorem dispatch_foreign {inst : Instance K} {r : Request} (h0 : r.srvNonce ≠ 0)
    (hne : inst.nonce ≠ r.srvNonce) (k : K) :
    inst.dispatch k r =
      some { inst with srv := inst.srv.send k ⟨r.xid, RpcConst.oldsrvFailure, []⟩ } := by
  have hold : inst.srv.oldServer r = true := by
    rw [Dispatcher.oldServer, Bool.and_eq_true, bne_iff_ne, bne_iff_ne]
    exact ⟨h0, hne.symm⟩
  rw [dispatch, Dispatcher.receive, if_pos hold]
  rfl

end Instance

end Rpc

end Yfs
