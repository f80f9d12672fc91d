import Yfs.Theory.ForeignInstance

/-!
# Where the Result of a Call Comes From

A call that does not fail returns what a handler has returned for that call, as long as what an
instance of the server sends is what reaches the client.

Between the two lie a window of remembered replies that is filed under the nonce of a
client, a connection that may be another one than that of the request, any number of
duplicates of requests and replies, restarts of the server, and a client that finds the
caller by the xid in a reply. `Origin` follows the bytes of a result on this way: what is in
a window, what was sent, and what a thread has received were returned by a handler, for a
request with the same xid of the same client.

The xid says which request this was as long as the client has not made more than `2 ^ 32` of
them (`numbered_nodup`). So the handler had the procedure and the arguments of the caller.

## Main definitions

* `Return`, `Recorded`: A run with what the handlers have returned.
* `Origin`: Replies are what handlers have returned.
* `Restarts.xids`, `Restarts.Numbered`: The xids of a client.

## Theorems

* `Dispatcher.receive_replies`, `Dispatcher.finish_replies`: Which replies `dispatch` sends
  and remembers.
* `origin_step`, `numbered_step`: One action.
* `returned_of_done`: A result is that of a handler for the call.
-/

namespace Yfs

namespace Rpc

variable {C K T : Type}

/-- A handler has returned: the index of the instance, the connection and the request. -/
structure Return (K : Type) where
  i : Nat
  conn : K
  request : Request
  ret : Int
  body : List UInt8
  deriving DecidableEq

def Return.reply (x : Return K) : Reply :=
  ⟨x.request.xid, x.ret, x.body⟩

/-- A system and what its handlers have returned, oldest first. -/
structure Recorded (C K T : Type) where
  sys : Restarts C K T
  returned : List (Return K)

namespace Recorded

def new (C K T : Type) : Recorded C K T where
  sys := Restarts.new C K T
  returned := []

def record : RestartAction C K T → List (Return K)
  | .handlerReturns i k r ret body => [⟨i, k, r, ret, body⟩]
  | _ => []

def step [DecidableEq C] [DecidableEq K] [DecidableEq T] (w : Wiring C K) (s : Recorded C K T)
    (a : RestartAction C K T) : Option (Recorded C K T) :=
  (s.sys.step w a).map fun sys => ⟨sys, s.returned ++ record a⟩

end Recorded

/-! ## Dispatch -/

namespace Dispatcher

variable [DecidableEq K] {s s' : Dispatcher K} {k : K}

/-- To drop a reference is no matter of the windows, the saved connections or what was sent. -/
theorem decref_frame (h : s.decref k = some s') :
    s'.server = s.server ∧ s'.conns = s.conns ∧ s'.sent = s.sent := by
  rcases Option.map_eq_some_iff.mp h with ⟨l, _, rfl⟩
  exact ⟨rfl, rfl, rfl⟩

/-- Nor is it to save a connection. -/
theorem saveConn_frame {n : Nat} (h : s.saveConn n k = some s') :
    s'.server = s.server ∧ s'.sent = s.sent := by
  unfold saveConn at h
  split at h
  · cases h
    exact ⟨rfl, rfl⟩
  · split at h
    · rcases Option.map_eq_some_iff.mp h with ⟨s₁, hdec, rfl⟩
      rcases decref_frame hdec with ⟨hserver, _, hsent⟩
      exact ⟨hserver, hsent⟩
    · cases h
      exact ⟨rfl, rfl⟩

/-- Nor to look for the latest one, which is the connection of the request or the one that is
    saved. -/
theorem latestConn_frame {n : Nat} {k' : K} (h : s.latestConn n k = some (k', s')) :
    s'.server = s.server ∧ s'.sent = s.sent ∧ (k' = k ∨ s.conns.lookup n = some k') := by
  unfold latestConn at h
  split at h
  · split at h
    · cases h
    · rename_i latest hlookup
      split at h
      · rcases Option.map_eq_some_iff.mp h with ⟨s₁, hdec, heq⟩
        cases heq
        rcases decref_frame hdec with ⟨hserver, _, hsent⟩
        exact ⟨hserver, hsent, Or.inr hlookup⟩
      · cases h
        exact ⟨rfl, rfl, Or.inl rfl⟩
  · cases h
    exact ⟨rfl, rfl, Or.inl rfl⟩

/-- Before the handler, no reply is remembered, and what is sent is a failure or was remembered for
    the client's nonce. -/
theorem receive_replies {r : Request} {d : Dispatched K} (h : s.receive k r = some d) :
    (∀ n, ∀ e ∈ d.srv.server.replyWindow n, ∀ rep, e.cb = some rep →
      e ∈ s.server.replyWindow n) ∧
    ∀ p ∈ d.srv.sent, p ∈ s.sent ∨ p.1 = k ∧ (p.2.ret < 0 ∨ r.cltNonce ≠ 0 ∧
      ∃ e ∈ s.server.replyWindow r.cltNonce, e.cb = some p.2) := by
  have hsend : ∀ rep : Reply, (rep.ret < 0 ∨ r.cltNonce ≠ 0 ∧
      ∃ e ∈ s.server.replyWindow r.cltNonce, e.cb = some rep) →
      ∀ p ∈ s.sent ++ [(k, rep)], p ∈ s.sent ∨ p.1 = k ∧ (p.2.ret < 0 ∨ r.cltNonce ≠ 0 ∧
        ∃ e ∈ s.server.replyWindow r.cltNonce, e.cb = some p.2) := by
    intro rep hrep p hp
    rcases List.mem_append.mp hp with hp | hp
    · exact Or.inl hp
    · rw [List.mem_singleton.mp hp]
      exact Or.inr ⟨rfl, hrep⟩
  -- The branches of the first part of `dispatch`: another instance, an unknown procedure, a client
  -- without a nonce, and the check.
  unfold receive at h
  split at h
  · cases h
    exact ⟨fun n e he _ _ => he,
      hsend _ (Or.inl (show RpcConst.oldsrvFailure < 0 by decide))⟩
  · split at h
    · cases h
    · split at h
      · cases h
        exact ⟨fun n e he _ _ => he, fun p hp => Or.inl hp⟩
      · rename_i h0
        simp only [dispatchOnce, Option.bind_eq_bind, Option.bind_eq_some_iff] at h
        rcases h with ⟨s₁, hsave, ⟨st, win, bound⟩, hcheck, h⟩
        rcases saveConn_frame hsave with ⟨hserver, hsent⟩
        rw [hserver] at hcheck
        rcases checkduplicate_cases _ _ _ _ _ _ _ hcheck with ⟨hst, hwin⟩
        -- A new entry of the window has no reply.
        have hwindow : ∀ n, ∀ e ∈ (s₁.setWindow r.cltNonce win bound).server.replyWindow n,
            ∀ rep, e.cb = some rep → e ∈ s.server.replyWindow n := by
          intro n e he rep hrep
          dsimp only [Dispatcher.setWindow] at he
          rw [hserver] at he
          by_cases hn : n = r.cltNonce
          · rw [hn, Function.update_self] at he
            rw [hn]
            rcases hwin with ⟨_, hprune, _⟩ | ⟨_, hsame, _⟩
            · rcases prune_suffix _ _ _ hprune with ⟨_, dropped, heq, _⟩
              have hmem : e ∈ insertReply r.xid (s.server.replyWindow r.cltNonce) := by
                rw [heq]
                exact List.mem_append_right dropped he
              rcases (mem_insertReply r.xid e _).mp hmem with rfl | hold
              · cases hrep
              · exact hold
            · rw [← hsame]
              exact he
          · rw [Function.update_of_ne hn] at he
            exact he
        dsimp only at h
        split at h
        · cases h
          exact ⟨hwindow, fun p hp => Or.inl (hsent ▸ hp)⟩
        · rcases Option.map_eq_some_iff.mp h with ⟨s₃, hdec, rfl⟩
          rcases decref_frame hdec with ⟨hserver₃, _, hsent₃⟩
          simp only [Dispatched.srv]
          rw [hserver₃, hsent₃]
          cases st with
          | new => contradiction
          | inprogress => exact ⟨hwindow, fun p hp => Or.inl (hsent ▸ hp)⟩
          | done rep =>
              rcases classify_done _ _ _ _ hst.symm with ⟨e, he, _, hcb⟩
              refine ⟨hwindow, ?_⟩
              dsimp only [answer, send, Dispatcher.setWindow]
              rw [hsent]
              exact hsend rep (Or.inr ⟨h0, e, he, hcb⟩)
          | forgotten =>
              refine ⟨hwindow, ?_⟩
              dsimp only [answer, send, Dispatcher.setWindow]
              rw [hsent]
              exact hsend _ (Or.inl (show RpcConst.atmostonceFailure < 0 by decide))

/-- After the handler, its reply is remembered for the client's nonce, and sent on the
    connection of the request or on the one that is saved for the nonce. -/
theorem finish_replies {r : Request} {ret : Int} {body : List UInt8}
    (h : s.finish k r ret body = some s') :
    (∀ n, ∀ e ∈ s'.server.replyWindow n, e ∈ s.server.replyWindow n ∨
      n = r.cltNonce ∧ e.cb = some ⟨r.xid, ret, body⟩) ∧
    ∀ p ∈ s'.sent, p ∈ s.sent ∨ p.2 = ⟨r.xid, ret, body⟩ ∧
      (p.1 = k ∨ s.conns.lookup r.cltNonce = some p.1) := by
  unfold finish at h
  split at h
  · cases h
  · rcases Option.bind_eq_some_iff.mp h with ⟨⟨k', s₂⟩, hlatest, hdec⟩
    rcases latestConn_frame hlatest with ⟨hserver₂, hsent₂, hk'⟩
    rcases decref_frame hdec with ⟨hserver₃, _, hsent₃⟩
    constructor
    -- The reply is put into one window, and only into an entry that is there.
    · intro n e he
      rw [hserver₃] at he
      dsimp only [send] at he
      rw [hserver₂] at he
      split at he
      · dsimp only [Dispatcher.setWindow] at he
        by_cases hn : n = r.cltNonce
        · rw [hn, Function.update_self] at he
          rcases mem_addReply _ _ e _ he with hold | hnew
          · exact Or.inl (hn ▸ hold)
          · exact Or.inr ⟨hn, hnew⟩
        · rw [Function.update_of_ne hn] at he
          exact Or.inl he
      · exact Or.inl he
    · intro p hp
      have hsent : s₂.sent = s.sent := by
        rw [hsent₂]
        split <;> rfl
      have hconns : k' = k ∨ s.conns.lookup r.cltNonce = some k' := by
        split at hk' <;> exact hk'
      rw [hsent₃] at hp
      dsimp only [send] at hp
      rw [hsent] at hp
      rcases List.mem_append.mp hp with hp | hp
      · exact Or.inl hp
      · rw [List.mem_singleton.mp hp]
        exact Or.inr ⟨rfl, hconns⟩

end Dispatcher

/-! ## Clients -/

namespace Peer

/-- A client goes on with the calls it has, and gets no result. -/
structure Quiet (p p' : Peer T) : Prop where
  xid : p'.xid = p.xid
  request : ∀ t r, (p'.thread t).request = some r → (p.thread t).request = some r
  done : ∀ t r ret body, p'.thread t = .done r ret body → 0 ≤ ret →
    p.thread t = .done r ret body

variable [DecidableEq T] {p p' : Peer T} {t : T}

/-- A thread that is no longer in a call. -/
theorem quiet_setThread (pc : PeerPc) (hpc : pc.request = none) (hxid : p'.xid = p.xid)
    (hthread : p'.thread = (p.setThread t pc).thread) : Quiet p p' := by
  refine ⟨hxid, fun t' r hr => ?_, fun t' r ret body hdone _ => ?_⟩
  · rw [hthread, thread_setThread] at hr
    split at hr
    · rw [hpc] at hr
      cases hr
    · exact hr
  · rw [hthread, thread_setThread] at hdone
    split at hdone
    · rw [hdone] at hpc
      cases hpc
    · exact hdone

/-- The end of a call leaves the client without it. -/
theorem quiet_endCall (h : p.endCall t = some p') : Quiet p p' := by
  unfold endCall at h
  split at h
  · cases h
    exact quiet_setThread .idle rfl rfl rfl
  · split at h
    · cases h
      exact quiet_setThread .idle rfl rfl rfl
    · rcases Option.map_eq_some_iff.mp h with ⟨v, _, rfl⟩
      refine quiet_setThread _ ?_ rfl rfl
      split <;> rfl
  · cases h

/-- So does the end of a bind. -/
theorem quiet_bindReturns (h : p.bindReturns t = some p') : Quiet p p' := by
  unfold bindReturns at h
  split at h
  · cases h
    exact quiet_setThread .idle rfl rfl rfl
  · cases h

/-- `cancel` ends calls with a failure. A result that is not a failure was there before. -/
theorem quiet_cancel (p : Peer T) : Quiet p p.cancel := by
  refine ⟨rfl, fun t r hr => ?_, fun t r ret body hdone hret => ?_⟩
  · rw [← request_cancelled p t]
    exact hr
  -- The calls that are cancelled get a negative result.
  · have hfails : ¬ 0 ≤ RpcConst.cancelFailure := by decide
    change p.cancelled t = .done r ret body at hdone
    unfold cancelled at hdone
    split at hdone
    · split at hdone
      · cases hdone
        exact absurd hret hfails
      · cases hdone
    · rename_i hpc
      split at hdone
      · cases hdone
        exact absurd hret hfails
      · rw [hpc]
        exact hdone
    · exact hdone

/-- A reply changes the thread that is found by its xid, if that thread still waits. -/
theorem gotPdu_threads (p : Peer T) (rep : Reply) :
    (p.gotPdu rep).xid = p.xid ∧
      ∀ t', (p.gotPdu rep).thread t' = p.thread t' ∨ ∃ r, p.calls.lookup rep.xid = some t' ∧
        p.thread t' = .waiting r ∧ (p.gotPdu rep).thread t' = .done r rep.ret rep.body := by
  unfold gotPdu
  dsimp only
  split
  · exact ⟨rfl, fun _ => Or.inl rfl⟩
  -- Only the thread under the xid of the reply can get it, and only while it waits.
  · rename_i t hlookup
    split
    · rename_i r hpc
      refine ⟨rfl, fun t' => ?_⟩
      rw [thread_setThread]
      by_cases ht : t' = t
      · rw [if_pos ht, ht]
        exact Or.inr ⟨r, hlookup, hpc, rfl⟩
      · rw [if_neg ht]
        exact Or.inl rfl
    · exact ⟨rfl, fun _ => Or.inl rfl⟩

end Peer

/-! ## Runs -/

variable {w : Wiring C K}

/-- Replies on their way and results are what handlers have returned, for requests of the
    client that they are for. -/
structure Origin (w : Wiring C K) (s : Recorded C K T) : Prop where
  handling : ∀ inst ∈ s.sys.instances, inst.handling ⊆ inst.executed
  returned : ∀ x ∈ s.returned, ∃ inst, s.sys.instances[x.i]? = some inst ∧
    (x.conn, x.request) ∈ inst.executed
  windows : ∀ (i : Nat) inst, s.sys.instances[i]? = some inst →
    ∀ n, ∀ e ∈ inst.srv.server.replyWindow n, ∀ rep, e.cb = some rep →
      ∃ x ∈ s.returned, x.i = i ∧ x.reply = rep ∧ x.request.cltNonce = n
  sent : ∀ (i : Nat) inst, s.sys.instances[i]? = some inst →
    ∀ p ∈ inst.srv.sent, 0 ≤ p.2.ret →
      ∃ x ∈ s.returned, x.i = i ∧ x.reply = p.2 ∧ w.owner x.conn = w.owner p.1
  waiting : ∀ c t r, ((s.sys.peers c).thread t).request = some r → (c, r) ∈ s.sys.requests
  done : ∀ c t r ret body, (s.sys.peers c).thread t = .done r ret body → 0 ≤ ret →
    ∃ x ∈ s.returned, x.reply = ⟨r.xid, ret, body⟩ ∧ w.owner x.conn = c

/-- At first nothing is on its way. -/
theorem origin_new : Origin w (Recorded.new C K T) where
  handling := fun _ hinst => absurd hinst List.not_mem_nil
  returned := fun _ hx => absurd hx List.not_mem_nil
  windows := fun i inst hinst => by cases hinst
  sent := fun i inst hinst => by cases hinst
  waiting := fun _ _ _ hr => by cases hr
  done := fun _ _ _ _ _ hdone => by cases hdone

/-- An action of one instance leaves the others and the clients alone. -/
theorem Restarts.atInstance_some {s s' : Restarts C K T} {i : Nat}
    {f : Instance K → Option (Instance K)} (h : s.atInstance i f = some s') :
    ∃ inst inst', s.instances[i]? = some inst ∧ f inst = some inst' ∧
      s' = { s with instances := s.instances.set i inst' } := by
  simp only [Restarts.atInstance, Option.bind_eq_bind, Option.bind_eq_some_iff,
    Option.some.injEq] at h
  rcases h with ⟨inst, hget, inst', hstep, rfl⟩
  exact ⟨inst, inst', hget, hstep, rfl⟩

section Step

variable [DecidableEq C] [DecidableEq K] [DecidableEq T] {s : Recorded C K T}

omit [DecidableEq K] [DecidableEq T] in
/-- An action of a client that brings no result. -/
theorem origin_setPeer (h : Origin w s) {c : C} {p : Peer T}
    (hp : (s.sys.peers c).Quiet p) : Origin w ⟨s.sys.setPeer c p, s.returned⟩ := by
  refine ⟨h.handling, h.returned, h.windows, h.sent, fun c' t r hr => ?_,
    fun c' t r ret body hdone hret => ?_⟩
  · dsimp only [Restarts.setPeer] at hr
    by_cases hc : c' = c
    · rw [hc, Function.update_self] at hr
      rw [hc]
      exact h.waiting c t r (hp.request t r hr)
    · rw [Function.update_of_ne hc] at hr
      exact h.waiting c' t r hr
  -- A result that the client has was there before.
  · dsimp only [Restarts.setPeer] at hdone
    by_cases hc : c' = c
    · rw [hc, Function.update_self] at hdone
      rw [hc]
      exact h.done c t r ret body (hp.done t r ret body hdone hret) hret
    · rw [Function.update_of_ne hc] at hdone
      exact h.done c' t r ret body hdone hret

omit [DecidableEq C] [DecidableEq T] [DecidableEq K] in
/-- An action of an instance, in which `new` is returned. What it remembers and sends has to come
    from handlers that have returned, and what the others have is as before. -/
theorem origin_atInstance (h : Origin w s) {i : Nat} {inst inst' : Instance K}
    {new : List (Return K)} (hget : s.sys.instances[i]? = some inst)
    (hexecuted : inst.executed ⊆ inst'.executed) (hhandling : inst'.handling ⊆ inst'.executed)
    (hnew : ∀ x ∈ new, x.i = i ∧ (x.conn, x.request) ∈ inst'.executed)
    (hwindows : ∀ n, ∀ e ∈ inst'.srv.server.replyWindow n, ∀ rep, e.cb = some rep →
      e ∈ inst.srv.server.replyWindow n ∨ ∃ x ∈ new, x.reply = rep ∧ x.request.cltNonce = n)
    (hsent : ∀ p ∈ inst'.srv.sent, p ∈ inst.srv.sent ∨ (0 ≤ p.2.ret →
      ∃ x ∈ s.returned ++ new, x.i = i ∧ x.reply = p.2 ∧ w.owner x.conn = w.owner p.1)) :
    Origin w ⟨{ s.sys with instances := s.sys.instances.set i inst' }, s.returned ++ new⟩ := by
  have hlt : i < s.sys.instances.length := (List.getElem?_eq_some_iff.mp hget).1
  -- An instance afterwards is the one that has acted or one of the others.
  have hcases : ∀ (j : Nat) inst₀, (s.sys.instances.set i inst')[j]? = some inst₀ →
      j = i ∧ inst₀ = inst' ∨ s.sys.instances[j]? = some inst₀ := by
    intro j inst₀ hj
    rw [List.getElem?_set] at hj
    by_cases hij : i = j
    · rw [if_pos hij, if_pos hlt, Option.some.injEq] at hj
      exact Or.inl ⟨hij.symm, hj.symm⟩
    · rw [if_neg hij] at hj
      exact Or.inr hj
  have hmore : ∀ {P : Return K → Prop}, (∃ x ∈ s.returned, P x) →
      ∃ x ∈ s.returned ++ new, P x :=
    fun ⟨x, hx, hP⟩ => ⟨x, List.mem_append_left _ hx, hP⟩
  refine ⟨fun inst₀ hinst₀ => ?_, fun x hx => ?_, fun j inst₀ hj n e he rep hrep => ?_,
    fun j inst₀ hj p hp hret => ?_, h.waiting,
    fun c t r ret body hdone hret => hmore (h.done c t r ret body hdone hret)⟩
  · rcases List.mem_or_eq_of_mem_set hinst₀ with hold | rfl
    · exact h.handling inst₀ hold
    · exact hhandling
  · rcases List.mem_append.mp hx with hx | hx
    · rcases h.returned x hx with ⟨inst₀, hinst₀, hmem⟩
      by_cases hi : i = x.i
      · rw [hi] at hget
        rw [hget, Option.some.injEq] at hinst₀
        refine ⟨inst', ?_, hexecuted (hinst₀ ▸ hmem)⟩
        dsimp only
        rw [hi, List.getElem?_set_self (hi ▸ hlt)]
      · refine ⟨inst₀, ?_, hmem⟩
        dsimp only
        rw [List.getElem?_set_ne hi]
        exact hinst₀
    -- What is returned now is returned by this instance, which has executed the request.
    · rcases hnew x hx with ⟨hi, hmem⟩
      refine ⟨inst', ?_, hmem⟩
      dsimp only
      rw [hi, List.getElem?_set_self hlt]
  · rcases hcases j inst₀ hj with ⟨rfl, rfl⟩ | hold
    · rcases hwindows n e he rep hrep with hold | ⟨x, hx, hreply, hn⟩
      · exact hmore (h.windows j inst hget n e hold rep hrep)
      · exact ⟨x, List.mem_append_right _ hx, (hnew x hx).1, hreply, hn⟩
    · exact hmore (h.windows j inst₀ hold n e he rep hrep)
  · rcases hcases j inst₀ hj with ⟨rfl, rfl⟩ | hold
    · rcases hsent p hp with hold | hx
      · exact hmore (h.sent j inst hget p hold hret)
      · exact hx hret
    · exact hmore (h.sent j inst₀ hold p hp hret)

omit [DecidableEq C] [DecidableEq T] in
/-- A request is dispatched. A remembered reply goes to the only client with the nonce. -/
theorem origin_dispatch (hw : w.Distinct) (h : Origin w s) (hi : Restarts.Inv w s.sys) {i : Nat}
    {inst inst' : Instance K} {k : K} {r : Request} (hget : s.sys.instances[i]? = some inst)
    (hr : (w.owner k, r) ∈ s.sys.requests) (hd : inst.dispatch k r = some inst') :
    Origin w ⟨{ s.sys with instances := s.sys.instances.set i inst' }, s.returned ++ []⟩ := by
  have hmem := List.mem_of_getElem? hget
  rcases Option.map_eq_some_iff.mp hd with ⟨d, hreceive, hinst'⟩
  rcases Dispatcher.receive_replies hreceive with ⟨hwindows, hsent⟩
  have hsrv : inst'.srv = d.srv := by
    rw [← hinst']
    cases d <;> rfl
  -- A request that is handed to a handler is counted as executed at once.
  have hexecuted : inst.executed ⊆ inst'.executed ∧ inst'.handling ⊆ inst'.executed := by
    rw [← hinst']
    cases d with
    | returned srv => exact ⟨List.Subset.refl _, h.handling inst hmem⟩
    | handling srv r' =>
        refine ⟨List.subset_append_left _ _, fun x hx => ?_⟩
        rcases List.mem_append.mp hx with hx | hx
        · exact List.mem_append_left _ (h.handling inst hmem hx)
        · exact List.mem_append_right _ hx
  refine origin_atInstance h hget hexecuted.1 hexecuted.2 (fun x hx => absurd hx List.not_mem_nil)
    (fun n e he rep hrep => Or.inl (hwindows n e (hsrv ▸ he) rep hrep)) fun p hp => ?_
  rcases hsent p (hsrv ▸ hp) with hold | ⟨hk, hneg | ⟨h0, e, he, hcb⟩⟩
  · exact Or.inl hold
  · exact Or.inr fun hret => absurd hneg (Int.not_lt.mpr hret)
  · right
    intro _
    rcases h.windows i inst hget _ e he p.2 hcb with ⟨x, hx, hxi, hreply, hn⟩
    refine ⟨x, List.mem_append_left _ hx, hxi, hreply, ?_⟩
    -- The request that was answered then has the nonce of its client, as this one has.
    rcases h.returned x hx with ⟨inst₀, hinst₀, hexec⟩
    rw [hxi, hget, Option.some.injEq] at hinst₀
    subst hinst₀
    have hx' := (hi.requests _ ((hi.instances inst hmem).executed _ hexec).1).1
    have hr' := (hi.requests _ hr).1
    dsimp only at hx' hr'
    rw [hk]
    refine hw _ _ ?_ ?_
    · rw [← hx', hn]
      exact h0
    · rw [← hx', hn, hr']

omit [DecidableEq C] [DecidableEq T] in
/-- A handler returns. What it has returned is remembered for the client and sent to it, on the
    connection of the request or on another one of the same client. -/
theorem origin_handlerReturns (h : Origin w s) (hi : Restarts.Inv w s.sys) {i : Nat}
    {inst inst' : Instance K} {k : K} {r : Request} {ret : Int} {body : List UInt8}
    (hget : s.sys.instances[i]? = some inst)
    (hd : inst.handlerReturns k r ret body = some inst') :
    Origin w ⟨{ s.sys with instances := s.sys.instances.set i inst' },
      s.returned ++ [⟨i, k, r, ret, body⟩]⟩ := by
  have hmem := List.mem_of_getElem? hget
  simp only [Instance.handlerReturns, Option.ite_none_right_eq_some, List.contains_iff_mem] at hd
  rcases hd with ⟨⟨hhandling, _⟩, hd⟩
  rcases Option.map_eq_some_iff.mp hd with ⟨srv, hfinish, rfl⟩
  rcases Dispatcher.finish_replies hfinish with ⟨hwindows, hsent⟩
  have hsound := hi.instances inst hmem
  have hexec := h.handling inst hmem hhandling
  -- The request has the nonce of the client that it came from.
  have hnonce := (hi.requests _ (hsound.executed _ hexec).1).1
  dsimp only at hnonce
  refine origin_atInstance h hget (List.Subset.refl _)
    (fun x hx => h.handling inst hmem (List.mem_of_mem_erase hx)) (fun x hx => ?_)
    (fun n e he rep hrep => ?_) fun p hp => ?_
  · rw [List.mem_singleton.mp hx]
    exact ⟨rfl, hexec⟩
  · rcases hwindows n e he with hold | ⟨hn, hcb⟩
    · exact Or.inl hold
    · rw [hcb, Option.some.injEq] at hrep
      exact Or.inr ⟨_, List.mem_singleton_self _, hrep, hn.symm⟩
  · rcases hsent p hp with hold | ⟨hreply, hconn⟩
    · exact Or.inl hold
    · refine Or.inr fun _ => ⟨_, List.mem_append_right _ (List.mem_singleton_self _), rfl,
        hreply.symm, ?_⟩
      dsimp only
      rcases hconn with hk | hlookup
      · rw [hk]
      · exact (hsound.srv.conns _ (SortedMap.mem_of_lookup hlookup) _ hnonce.symm).symm

omit [DecidableEq K] in
/-- A reply arrives. The thread that gets it is in the call whose request has its xid. -/
theorem origin_gotPdu (h : Origin w s) (hi : Restarts.Inv w s.sys) {i : Nat}
    {inst : Instance K} {k : K} {rep : Reply} (hget : s.sys.instances[i]? = some inst)
    (hsent : (k, rep) ∈ inst.srv.sent) :
    Origin w ⟨s.sys.setPeer (w.owner k) ((s.sys.peers (w.owner k)).gotPdu rep), s.returned⟩ := by
  rcases Peer.gotPdu_threads (s.sys.peers (w.owner k)) rep with ⟨_, hthreads⟩
  refine ⟨h.handling, h.returned, h.windows, h.sent, fun c t r hr => ?_,
    fun c t r ret body hdone hret => ?_⟩
  · dsimp only [Restarts.setPeer] at hr
    by_cases hc : c = w.owner k
    · rw [hc, Function.update_self] at hr
      rw [hc]
      rcases hthreads t with hsame | ⟨r', _, hwait, hdone⟩
      · exact h.waiting _ t r (hsame ▸ hr)
      · rw [hdone] at hr
        exact h.waiting _ t r (by rw [hwait]; exact hr)
    · rw [Function.update_of_ne hc] at hr
      exact h.waiting c t r hr
  · dsimp only [Restarts.setPeer] at hdone
    by_cases hc : c = w.owner k
    · rw [hc, Function.update_self] at hdone
      rw [hc]
      rcases hthreads t with hsame | ⟨r', hlookup, hwait, hnew⟩
      · exact h.done _ t r ret body (hsame ▸ hdone) hret
      · rw [hnew] at hdone
        cases hdone
        rcases h.sent i inst hget _ hsent hret with ⟨x, hx, _, hreply, howner⟩
        -- The caller is found under its xid.
        rcases (hi.peers (w.owner k)).calls _ (SortedMap.mem_of_lookup hlookup) with
          ⟨r₀, hr₀, hxid, _⟩
        rw [hwait, PeerPc.request, Option.some.injEq] at hr₀
        subst hr₀
        refine ⟨x, hx, ?_, howner⟩
        rw [hreply, hxid]
    · rw [Function.update_of_ne hc] at hdone
      exact h.done c t r ret body hdone hret

omit [DecidableEq K] in
/-- A call is made, and waits for its reply. -/
theorem origin_call1 (h : Origin w s) {c : C} {t : T} {proc : Nat} {args : List UInt8}
    {p : Peer T} {r : Request}
    (hcall : (s.sys.peers c).call1 (w.nonce c) t proc args = .ok (p, r)) :
    Origin w ⟨{ s.sys.setPeer c p with requests := s.sys.requests ++ [(c, r)] },
      s.returned⟩ := by
  rcases Peer.call1_ok hcall with ⟨_, _, _, _, hp⟩
  have hthread : ∀ t', p.thread t' = if t' = t then .waiting r else (s.sys.peers c).thread t' := by
    intro t'
    rw [hp]
    exact Peer.thread_setThread _ t t' _
  refine ⟨h.handling, h.returned, h.windows, h.sent, fun c' t' r' hr' => ?_,
    fun c' t' r' ret body hdone hret => ?_⟩
  · dsimp only [Restarts.setPeer] at hr'
    by_cases hc : c' = c
    · rw [hc, Function.update_self, hthread] at hr'
      -- The caller waits with the new request, and the others with theirs.
      split at hr'
      · cases hr'
        rw [hc]
        exact List.mem_append_right _ (List.mem_singleton_self _)
      · exact List.mem_append_left _ (hc ▸ h.waiting c t' r' hr')
    · rw [Function.update_of_ne hc] at hr'
      exact List.mem_append_left _ (h.waiting c' t' r' hr')
  · dsimp only [Restarts.setPeer] at hdone
    by_cases hc : c' = c
    · rw [hc, Function.update_self, hthread] at hdone
      rw [hc]
      split at hdone
      · cases hdone
      · exact h.done c t' r' ret body hdone hret
    · rw [Function.update_of_ne hc] at hdone
      exact h.done c' t' r' ret body hdone hret

omit [DecidableEq C] [DecidableEq K] [DecidableEq T] in
/-- A new instance has nothing to send, and the old ones are not gone: what they have sent may still
    arrive. -/
theorem origin_restart (h : Origin w s) (nonce : Nat) (procs : List Nat) :
    Origin w ⟨{ s.sys with instances := s.sys.instances ++ [Instance.new K nonce procs] },
      s.returned⟩ := by
  -- An instance is one of the old ones or the new one.
  have hcases : ∀ (j : Nat) inst,
      (s.sys.instances ++ [Instance.new K nonce procs])[j]? = some inst →
      s.sys.instances[j]? = some inst ∨ inst = Instance.new K nonce procs := by
    intro j inst hj
    rw [List.getElem?_append] at hj
    split at hj
    · exact Or.inl hj
    · exact Or.inr (List.mem_singleton.mp (List.mem_of_getElem? hj))
  refine ⟨fun inst hinst => ?_, fun x hx => ?_, fun j inst hj n e he => ?_,
    fun j inst hj p hp => ?_, h.waiting, h.done⟩
  · rcases List.mem_append.mp hinst with hinst | hinst
    · exact h.handling inst hinst
    · rw [List.mem_singleton.mp hinst]
      exact List.Subset.refl _
  · rcases h.returned x hx with ⟨inst, hinst, hmem⟩
    refine ⟨inst, ?_, hmem⟩
    dsimp only
    rw [List.getElem?_append_left (List.getElem?_eq_some_iff.mp hinst).1]
    exact hinst
  · rcases hcases j inst hj with hold | rfl
    · exact h.windows j inst hold n e he
    · exact absurd he List.not_mem_nil
  · rcases hcases j inst hj with hold | rfl
    · exact h.sent j inst hold p hp
    · exact absurd hp List.not_mem_nil

/-- One action keeps the origin of all that is on its way. -/
theorem origin_step (hw : w.Distinct) {a : RestartAction C K T} {s' : Recorded C K T}
    (h : Origin w s) (hi : Restarts.Inv w s.sys) (hs : s.step w a = some s') : Origin w s' := by
  rcases Option.map_eq_some_iff.mp hs with ⟨sys', hsys, rfl⟩
  cases a with
  | restart nonce procs =>
      simp only [Restarts.step, Option.ite_none_right_eq_some, Option.some.injEq] at hsys
      rcases hsys with ⟨_, rfl⟩
      simpa [Recorded.record] using origin_restart h nonce procs
  | call1 c t proc args =>
      simp only [Restarts.step, Option.ite_none_right_eq_some] at hsys
      rcases hsys with ⟨_, hsys⟩
      split at hsys
      · rename_i p r hcall
        cases hsys
        simpa [Recorded.record] using origin_call1 h hcall
      · cases hsys
        simpa [Recorded.record] using h
  | gotPdu i k rep =>
      simp only [Restarts.step, Option.bind_eq_bind, Option.bind_eq_some_iff,
        Option.ite_none_right_eq_some, Option.some.injEq] at hsys
      rcases hsys with ⟨inst, hget, hsent, rfl⟩
      simpa [Recorded.record] using origin_gotPdu h hi hget hsent
  | endCall c t =>
      rcases Option.map_eq_some_iff.mp hsys with ⟨p, hend, rfl⟩
      simpa [Recorded.record] using origin_setPeer h (Peer.quiet_endCall hend)
  | bindReturns c t =>
      rcases Option.map_eq_some_iff.mp hsys with ⟨p, hbind, rfl⟩
      simpa [Recorded.record] using origin_setPeer h (Peer.quiet_bindReturns hbind)
  | cancel c =>
      cases hsys
      simpa [Recorded.record] using origin_setPeer h (Peer.quiet_cancel (s.sys.peers c))
  | dispatch i k r =>
      simp only [Restarts.step, Option.ite_none_right_eq_some, List.contains_iff_mem] at hsys
      rcases Restarts.atInstance_some hsys.2 with ⟨inst, inst', hget, hd, rfl⟩
      exact origin_dispatch hw h hi hget hsys.1 hd
  | handlerReturns i k r ret body =>
      rcases Restarts.atInstance_some hsys with ⟨inst, inst', hget, hd, rfl⟩
      exact origin_handlerReturns h hi hget hd
  | link i k l =>
      rcases Restarts.atInstance_some hsys with ⟨inst, inst', hget, hd, rfl⟩
      cases hd
      exact origin_atInstance h hget (List.Subset.refl _)
        (h.handling inst (List.mem_of_getElem? hget)) (fun x hx => absurd hx List.not_mem_nil)
        (fun n e he rep _ => Or.inl he) fun p hp => Or.inl hp

end Step

/-! ## The numbers of the calls -/

namespace Restarts

variable [DecidableEq C]

/-- The xids of a client's requests, in the order in which it has packed them. -/
def xids (s : Restarts C K T) (c : C) : List Nat :=
  (s.requests.filter fun p => p.1 = c).map fun p => p.2.xid

/-- They count up from 1, and the next one is in `xid_`. -/
def Numbered (s : Restarts C K T) (c : C) : Prop :=
  s.xids c = (List.range (s.xids c).length).map (fun j => (j + 1) % 2 ^ 32) ∧
    (s.peers c).xid = ((s.xids c).length + 1) % 2 ^ 32

/-- The first xid is 1. -/
theorem numbered_new (c : C) : (new C K T).Numbered c :=
  ⟨rfl, rfl⟩

/-- Different requests have different xids, up to `2 ^ 32` of them: the counter is 32 bits wide. -/
theorem numbered_nodup {s : Restarts C K T} {c : C} (h : s.Numbered c)
    (hlen : (s.xids c).length ≤ 2 ^ 32) : (s.xids c).Nodup := by
  rw [h.1]
  refine List.Nodup.map_on (fun j hj j' hj' heq => ?_) List.nodup_range
  rw [List.mem_range] at hj hj'
  omega

/-- Only the requests and the counter matter. -/
theorem Numbered.congr {s s' : Restarts C K T} {c : C} (h : s.Numbered c)
    (hrequests : s'.requests = s.requests) (hxid : (s'.peers c).xid = (s.peers c).xid) :
    s'.Numbered c := by
  unfold Numbered xids at h ⊢
  rw [hrequests, hxid]
  exact h

/-- An action of a client that does not touch the counter. -/
theorem Numbered.setPeer {s : Restarts C K T} {c : C} (h : s.Numbered c) {c' : C} {p : Peer T}
    (hxid : p.xid = (s.peers c').xid) : (s.setPeer c' p).Numbered c := by
  refine h.congr rfl ?_
  dsimp only [Restarts.setPeer]
  by_cases hc : c = c'
  · rw [hc, Function.update_self, hxid]
  · rw [Function.update_of_ne hc]

variable [DecidableEq T]

/-- The next number is given out. -/
theorem numbered_call1 {s : Restarts C K T} {c c' : C} (h : s.Numbered c) {n : Nat} {t : T}
    {proc : Nat} {args : List UInt8} {p : Peer T} {r : Request}
    (hcall : (s.peers c').call1 n t proc args = .ok (p, r)) :
    Numbered { s.setPeer c' p with requests := s.requests ++ [(c', r)] } c := by
  rcases Peer.call1_ok hcall with ⟨_, hxid, _, _, hp⟩
  by_cases hc : c' = c
  · subst hc
    have hxids : xids { s.setPeer c' p with requests := s.requests ++ [(c', r)] } c'
        = s.xids c' ++ [r.xid] := by
      simp [xids, List.filter_append]
    have hnext : p.xid = ((s.peers c').xid + 1) % 2 ^ 32 := by rw [hp]
    refine ⟨?_, ?_⟩
    · rw [hxids, List.length_append, List.length_singleton, List.range_succ, List.map_append,
        ← h.1, hxid, h.2, List.map_singleton]
    · rw [hxids, List.length_append, List.length_singleton]
      dsimp only [Restarts.setPeer]
      rw [Function.update_self, hnext, h.2, Nat.mod_add_mod]
  · have hxids : xids { s.setPeer c' p with requests := s.requests ++ [(c', r)] } c
        = s.xids c := by
      simp [xids, List.filter_append, hc]
    unfold Numbered
    rw [hxids]
    refine ⟨h.1, ?_⟩
    dsimp only [Restarts.setPeer]
    rw [Function.update_of_ne (Ne.symm hc)]
    exact h.2

variable [DecidableEq K] {w : Wiring C K}

/-- One action. Only `call1` takes a number. -/
theorem numbered_step {s s' : Restarts C K T} {a : RestartAction C K T} {c : C}
    (h : s.Numbered c) (hs : s.step w a = some s') : s'.Numbered c := by
  cases a with
  | restart nonce procs =>
      simp only [step, Option.ite_none_right_eq_some, Option.some.injEq] at hs
      rcases hs with ⟨_, rfl⟩
      exact h.congr rfl rfl
  | call1 c' t proc args =>
      simp only [step, Option.ite_none_right_eq_some] at hs
      rcases hs with ⟨_, hs⟩
      split at hs
      · rename_i p r hcall
        cases hs
        exact numbered_call1 h hcall
      · cases hs
        exact h
  | gotPdu i k rep =>
      simp only [step, Option.bind_eq_bind, Option.bind_eq_some_iff,
        Option.ite_none_right_eq_some, Option.some.injEq] at hs
      rcases hs with ⟨inst, _, _, rfl⟩
      exact h.setPeer (Peer.gotPdu_threads _ rep).1
  | endCall c' t =>
      rcases Option.map_eq_some_iff.mp hs with ⟨p, hend, rfl⟩
      exact h.setPeer (Peer.quiet_endCall hend).xid
  | bindReturns c' t =>
      rcases Option.map_eq_some_iff.mp hs with ⟨p, hbind, rfl⟩
      exact h.setPeer (Peer.quiet_bindReturns hbind).xid
  | cancel c' =>
      cases hs
      exact h.setPeer rfl
  | dispatch i k r =>
      simp only [step, Option.ite_none_right_eq_some] at hs
      rcases atInstance_some hs.2 with ⟨inst, inst', _, _, rfl⟩
      exact h.congr rfl rfl
  | handlerReturns i k r ret body =>
      rcases atInstance_some hs with ⟨inst, inst', _, _, rfl⟩
      exact h.congr rfl rfl
  | link i k l =>
      rcases atInstance_some hs with ⟨inst, inst', _, _, rfl⟩
      exact h.congr rfl rfl

end Restarts

namespace Recorded

variable [DecidableEq C] [DecidableEq K] [DecidableEq T]

/-- A call that has got a result which is not a failure, in a run with clients whose nonces are
    different or 0: one of the instances has called the handler for this very request, which came
    from the client, and the handler has returned that result. The instance is the one that the
    client was bound to, if it was bound. Replies are matched by their xid alone, so the number of
    requests is limited by what 32 bits can tell apart. -/
theorem returned_of_done (w : Wiring C K) (hw : w.Distinct) (s : Recorded C K T)
    (h : Trace.Reaches (step w) Trace.Always (new C K T) s) (c : C) (t : T) (r : Request)
    (ret : Int) (body : List UInt8) (hdone : (s.sys.peers c).thread t = .done r ret body)
    (hret : 0 ≤ ret) (hlen : (s.sys.xids c).length ≤ 2 ^ 32) :
    ∃ (i : Nat) (inst : Instance K) (k : K), s.sys.instances[i]? = some inst ∧
      w.owner k = c ∧ (k, r) ∈ inst.executed ∧ ⟨i, k, r, ret, body⟩ ∈ s.returned ∧
      (r.srvNonce = 0 ∨ r.srvNonce = inst.nonce) := by
  have hinv : Restarts.Inv w s.sys ∧ Origin w s ∧ s.sys.Numbered c := by
    refine Trace.invariant_of_step
      (fun s => Restarts.Inv w s.sys ∧ Origin w s ∧ s.sys.Numbered c)
      ⟨Restarts.inv_new, origin_new, Restarts.numbered_new c⟩ ?_ h
    intro s a s' ⟨hi, ho, hn⟩ _ hs
    rcases Option.map_eq_some_iff.mp hs with ⟨sys', hsys, heq⟩
    have hs' : s'.sys = sys' := by rw [← heq]
    rw [hs']
    exact ⟨Restarts.inv_step hw s.sys a sys' hi hsys, origin_step hw ho hi hs,
      Restarts.numbered_step hn hsys⟩
  rcases hinv with ⟨hi, ho, hn⟩
  rcases ho.done c t r ret body hdone hret with ⟨x, hx, hreply, howner⟩
  rcases ho.returned x hx with ⟨inst, hinst, hexec⟩
  have hexecuted := (hi.instances inst (List.mem_of_getElem? hinst)).executed _ hexec
  -- Both requests are the client's, and they have the same xid.
  have hsame : x.request = r := by
    have hmem : ∀ r', (c, r') ∈ s.sys.requests →
        (c, r') ∈ s.sys.requests.filter fun p => p.1 = c :=
      fun r' hr' => List.mem_filter.mpr ⟨hr', decide_eq_true rfl⟩
    have hxr : (c, x.request) ∈ s.sys.requests := howner ▸ hexecuted.1
    have hr : (c, r) ∈ s.sys.requests := ho.waiting c t r (by rw [hdone]; rfl)
    have heq := List.inj_on_of_nodup_map (Restarts.numbered_nodup hn hlen) (hmem _ hxr)
      (hmem _ hr) (congrArg Reply.xid hreply)
    exact congrArg Prod.snd heq
  subst hsame
  have hrecord : x = ⟨x.i, x.conn, x.request, ret, body⟩ := by
    rcases x with ⟨i, k, q, ret', body'⟩
    cases hreply
    rfl
  exact ⟨x.i, inst, x.conn, hinst, howner, hexec, hrecord ▸ hx, hexecuted.2⟩

end Recorded

end Rpc

end Yfs
