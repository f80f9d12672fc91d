import Yfs.Theory.Marshalling
import Yfs.Theory.ReplyOrigin

/-!
# No Execution by a Foreign Instance

A server that has been restarted has lost its windows of replies, so it must not execute a
request that an earlier instance may have executed. The client puts the nonce that it got
from its bind into every header, and `dispatch` refuses a nonce that is neither its own nor
0, before it looks at anything else. What is left is 0: a header has it when the client is
not bound, and then it is a bind, or when the result of the bind was 0.

So the result of every bind has to be the nonce of an instance. A bind gets the reply that
is found under its xid, which was made for a request of its client with that xid, but not
necessarily for the bind: `xid_` wraps around. This does no harm. Before a client is bound
it makes no calls but binds, and a later call with the xid of a bind that still waits takes
its place in `calls_`; so as long as a bind is in `calls_`, all requests of its client with
that xid are binds (`Peer.Sound`).

All of this is for clients that do not share a nonce. Otherwise a client may get a reply
that was remembered for another, take its first four bytes for a nonce, and go on unbound
(`executed_unbound`).

## Main definitions

* `PeerPc.Fine`, `Peer.Sound`: What holds of a client and its threads.
* `Restarts.Inv`: What holds of all parties.

## Theorems

* `peer_call1`, `peer_gotPdu`: The client keeps its binds apart.
* `inv_step`: One action.
* `no_foreign_execution`: Every run.
* `executed_unbound`: Two clients with one nonce.
-/

namespace Yfs

namespace Rpc

variable {C K T : Type}

/-! ## The clients -/

/-- The request of a thread in `call1`. -/
def PeerPc.request : PeerPc → Option Request
  | .waiting r | .done r _ _ => some r
  | _ => none

/-- The result of a bind that did not fail is the nonce of an instance. -/
def PeerPc.Fine (nonces : List Nat) : PeerPc → Prop
  | .done r ret body => r.proc = RpcConst.bind → 0 ≤ ret →
      ∃ v ∈ nonces, body = Word.be32 (UInt32.ofNat v)
  | .bound v => v ∈ nonces
  | _ => True

/-- A nonce stays one after a restart. -/
theorem PeerPc.Fine.mono {nonces nonces' : List Nat} {pc : PeerPc} (h : pc.Fine nonces)
    (hsub : nonces ⊆ nonces') : pc.Fine nonces' := by
  cases pc with
  | done r ret body =>
      intro hbind hret
      rcases h hbind hret with ⟨v, hv, hbody⟩
      exact ⟨v, hsub hv, hbody⟩
  | bound v => exact hsub h
  | _ => trivial

namespace Peer

/-- A bind in `calls_` shares its xid with binds only, and what the client has obtained and
    puts into its headers are nonces of instances. -/
structure Sound (requests : List (C × Request)) (nonces : List Nat) (c : C) (p : Peer T) :
    Prop where
  calls : ∀ e ∈ p.calls.entries, ∃ r, (p.thread e.2).request = some r ∧ r.xid = e.1 ∧
    (r.proc = RpcConst.bind → ∀ r', (c, r') ∈ requests → r'.xid = e.1 → r'.proc = RpcConst.bind)
  threads : ∀ t, (p.thread t).Fine nonces
  unbound : p.bindDone = false → ∀ r, (c, r) ∈ requests → r.proc = RpcConst.bind
  obtained : ∀ v ∈ p.obtained, v ∈ nonces
  current : p.bindDone = true → p.srvNonce ∈ p.obtained

variable {requests : List (C × Request)} {nonces : List Nat} {c : C}

/-- A client that has not called. -/
theorem sound_new : (new T).Sound [] nonces c where
  calls := fun e he => absurd he List.not_mem_nil
  threads := fun _ => trivial
  unbound := fun _ r hr => absurd hr List.not_mem_nil
  obtained := fun v hv => absurd hv List.not_mem_nil
  current := fun h => by cases h

/-- Restarts, and requests of other clients. -/
theorem Sound.mono {p : Peer T} (h : p.Sound requests nonces c)
    {requests' : List (C × Request)} {nonces' : List Nat} (hnonces : nonces ⊆ nonces')
    (hrequests : ∀ r, (c, r) ∈ requests' → (c, r) ∈ requests) :
    p.Sound requests' nonces' c where
  calls := fun e he => by
    rcases h.calls e he with ⟨r, hr, hxid, hbinds⟩
    exact ⟨r, hr, hxid, fun hbind r' hr' => hbinds hbind r' (hrequests r' hr')⟩
  threads := fun t => (h.threads t).mono hnonces
  unbound := fun hdone r hr => h.unbound hdone r (hrequests r hr)
  obtained := fun v hv => hnonces (h.obtained v hv)
  current := h.current

/-- Threads that go on with the same requests, or whose entry is gone. -/
theorem Sound.of_threads {p p' : Peer T} (h : p.Sound requests nonces c)
    (hcalls : ∀ e ∈ p'.calls.entries,
      e ∈ p.calls.entries ∧ (p'.thread e.2).request = (p.thread e.2).request)
    (hthreads : ∀ t, (p'.thread t).Fine nonces) (hdone : p'.bindDone = p.bindDone)
    (hsrv : p'.srvNonce = p.srvNonce) (hobtained : p'.obtained = p.obtained) :
    p'.Sound requests nonces c where
  calls := fun e he => by
    rcases hcalls e he with ⟨hmem, hsame⟩
    rw [hsame]
    exact h.calls e hmem
  threads := hthreads
  unbound := by
    rw [hdone]
    exact h.unbound
  obtained := by
    rw [hobtained]
    exact h.obtained
  current := by
    rw [hdone, hsrv, hobtained]
    exact h.current

variable [DecidableEq T]

/-- One thread moves. -/
theorem thread_setThread (p : Peer T) (t t' : T) (pc : PeerPc) :
    (p.setThread t pc).thread t' = if t' = t then pc else p.thread t' := by
  unfold setThread
  by_cases ht : t' = t
  · rw [ht, if_pos rfl]
    exact Function.update_self ..
  · rw [if_neg ht]
    exact Function.update_of_ne ht ..

theorem fine_setThread {p : Peer T} (h : ∀ t, (p.thread t).Fine nonces) (t : T)
    {pc : PeerPc} (hpc : pc.Fine nonces) (t' : T) :
    ((p.setThread t pc).thread t').Fine nonces := by
  rw [thread_setThread]
  split
  · exact hpc
  · exact h t'

/-- What the first section of `call1` has checked, and what it packs. -/
theorem call1_ok {p p' : Peer T} {n : Nat} {t : T} {proc : Nat} {args : List UInt8} {r : Request}
    (h : p.call1 n t proc args = .ok (p', r)) :
    (r.proc = RpcConst.bind ↔ p.bindDone = false) ∧ r.xid = p.xid ∧ r.cltNonce = n ∧
      r.srvNonce = p.srvNonce ∧ p' = { p.setThread t (.waiting r) with
        xid := (p.xid + 1) % 2 ^ 32
        calls := p.calls.insert p.xid t } := by
  unfold call1 at h
  split at h
  · cases h
  · rename_i hallowed
    split at h
    · cases h
    · cases h
      refine ⟨?_, rfl, rfl, rfl, rfl⟩
      rw [not_or, not_and_or, not_and_or, not_not] at hallowed
      -- `call1` refuses a bind from a client that is bound, and anything else from one that is not.
      constructor
      · intro hbind
        rcases hallowed.2 with hne | hdone
        · exact absurd hbind hne
        · exact Bool.not_eq_true _ ▸ hdone
      · intro hdone
        rcases hallowed.1 with hbind | hne
        · exact hbind
        · exact absurd hdone hne

/-- A new request. If it is a bind, the client has made none but binds. -/
theorem peer_call1 {p p' : Peer T} {n : Nat} {t : T} {proc : Nat} {args : List UInt8}
    {r : Request} (h : p.Sound requests nonces c) (hidle : p.thread t = .idle)
    (hcall : p.call1 n t proc args = .ok (p', r)) :
    p'.Sound (requests ++ [(c, r)]) nonces c := by
  rcases call1_ok hcall with ⟨hkind, hxid, _, _, rfl⟩
  -- The requests of the client are those before and this one.
  have hrequests : ∀ r', (c, r') ∈ requests ++ [(c, r)] → (c, r') ∈ requests ∨ r' = r := by
    intro r' hr'
    rcases List.mem_append.mp hr' with hr' | hr'
    · exact Or.inl hr'
    · exact Or.inr (congrArg Prod.snd (List.mem_singleton.mp hr'))
  refine ⟨fun e he => ?_, fine_setThread h.threads t trivial, fun hdone r' hr' => ?_,
    h.obtained, h.current⟩
  · rcases SortedMap.mem_insert he with rfl | ⟨hold, hne⟩
    · -- The new entry. Before the client is bound, all its requests are binds.
      refine ⟨r, ?_, hxid, fun hbind r' hr' _ => ?_⟩
      · dsimp only
        rw [thread_setThread, if_pos rfl]
        rfl
      · rcases hrequests r' hr' with hr' | rfl
        · exact h.unbound (hkind.mp hbind) r' hr'
        · exact hbind
    · -- The thread of an older entry is not this one, and its xid is not the new one.
      rcases h.calls e hold with ⟨r₀, hr₀, hxid₀, hbinds⟩
      have hthread : e.2 ≠ t := by
        intro heq
        rw [heq, hidle] at hr₀
        cases hr₀
      refine ⟨r₀, ?_, hxid₀, fun hbind r' hr' hx => ?_⟩
      · dsimp only
        rw [thread_setThread, if_neg hthread]
        exact hr₀
      · rcases hrequests r' hr' with hr' | rfl
        · exact hbinds hbind r' hr' hx
        · exact absurd (hx.symm.trans hxid) hne
  · rcases hrequests r' hr' with hr' | rfl
    · exact h.unbound hdone r' hr'
    · exact hkind.mpr hdone

/-- A reply that is found under the xid of a bind is the reply to a bind. -/
theorem peer_gotPdu {p : Peer T} (h : p.Sound requests nonces c) {nonce : Nat}
    (hnonce : nonce ∈ nonces) {rep : Reply} (hrep : Justified requests nonce c rep) :
    (p.gotPdu rep).Sound requests nonces c := by
  have hwindow : Sound requests nonces c
      { p with xidRepWindow := updateXidRep rep.xid p.xidRepWindow } :=
    h.of_threads (fun e he => ⟨he, rfl⟩) h.threads rfl rfl rfl
  unfold gotPdu
  dsimp only
  split
  · exact hwindow
  -- A reply is looked up by its xid alone.
  · rename_i t hlookup
    split
    · rename_i r hpc
      rcases h.calls _ (SortedMap.mem_of_lookup hlookup) with ⟨r₀, hr₀, _, hbinds⟩
      rw [hpc, PeerPc.request, Option.some.injEq] at hr₀
      subst hr₀
      refine hwindow.of_threads (fun e he => ⟨he, ?_⟩)
        (fine_setThread hwindow.threads t fun hbind hret => ?_) rfl rfl rfl
      · rw [thread_setThread]
        split
        · rename_i ht
          rw [ht]
          dsimp only
          rw [hpc]
          rfl
        · rfl
      · -- The request that the reply was made for has the xid of the bind, so it is one.
        rcases hrep with hneg | ⟨r', hr', hx, hbody⟩
        · exact absurd hneg (Int.not_lt.mpr hret)
        · exact ⟨nonce, hnonce, hbody (hbinds hbind r' hr' hx)⟩
    · exact hwindow

/-- The entry of the call is gone, and no other entry is of this thread. -/
theorem peer_forget {p : Peer T} (h : p.Sound requests nonces c) {t : T} {r : Request}
    (hr : (p.thread t).request = some r) {pc : PeerPc} (hpc : pc.Fine nonces) :
    (p.forget t r pc).Sound requests nonces c := by
  refine h.of_threads (fun e he => ?_) (fine_setThread h.threads t hpc) rfl rfl rfl
  rcases SortedMap.mem_erase he with ⟨hmem, hne⟩
  -- The entry that goes is the one with the xid of the thread's request.
  have hthread : e.2 ≠ t := by
    intro heq
    rcases h.calls e hmem with ⟨r₀, hr₀, hxid, _⟩
    rw [heq, hr, Option.some.injEq] at hr₀
    exact hne (hxid.symm.trans (congrArg Request.xid hr₀.symm))
  refine ⟨hmem, ?_⟩
  dsimp only [forget]
  rw [thread_setThread, if_neg hthread]

omit [DecidableEq T] in
/-- `bind` reads what `rpcbind` has written. -/
theorem bindResult_be32 (v : Nat) (hv : v < 2 ^ 32) :
    bindResult (Word.be32 (UInt32.ofNat v)) = some v := by
  have hread := Unmarshall.getUint_rest ⟨Word.be32 (UInt32.ofNat v), 0, true⟩ (UInt32.ofNat v) []
    (List.append_nil _).symm
  have hend : (Unmarshall.mk (Word.be32 (UInt32.ofNat v)) 0 true |>.skip 4).okdone = true := rfl
  unfold bindResult
  rw [hread]
  dsimp only
  rw [if_pos hend, UInt32.toNat_ofNat', Nat.mod_eq_of_lt hv]

/-- The end of a call. A bind that has not failed reads the nonce from the body of the reply. -/
theorem peer_endCall {p p' : Peer T} (h : p.Sound requests nonces c)
    (hnonces : ∀ v ∈ nonces, v < 2 ^ 32) {t : T} (hend : p.endCall t = some p') :
    p'.Sound requests nonces c ∧ p'.obtained = p.obtained := by
  have hfine := h.threads t
  unfold endCall at hend
  split at hend
  -- The call has timed out, and nothing is read.
  · rename_i r hpc
    cases hend
    refine ⟨peer_forget h ?_ trivial, rfl⟩
    rw [hpc]
    rfl
  · rename_i r ret body hpc
    have hr : (p.thread t).request = some r := by
      rw [hpc]
      rfl
    split at hend
    · cases hend
      exact ⟨peer_forget h hr trivial, rfl⟩
    · -- A bind that did not fail: what it reads is the nonce in the reply.
      rename_i hbind
      rw [not_or, not_not, Int.not_lt] at hbind
      rw [hpc] at hfine
      rcases Option.map_eq_some_iff.mp hend with ⟨v, hv, rfl⟩
      rcases hfine hbind.2 hbind.1 with ⟨v', hv', rfl⟩
      rw [bindResult_be32 v' (hnonces v' hv'), Option.some.injEq] at hv
      subst hv
      refine ⟨peer_forget h hr ?_, rfl⟩
      split
      · exact hv'
      · trivial
  · cases hend

/-- The nonce that a bind has read is from now on in the headers of the client's requests. -/
theorem peer_bindReturns {p p' : Peer T} (h : p.Sound requests nonces c) {t : T}
    (hbind : p.bindReturns t = some p') :
    p'.Sound requests nonces c ∧ p.obtained ⊆ p'.obtained := by
  have hfine := h.threads t
  unfold bindReturns at hbind
  split at hbind
  · rename_i v hpc
    cases hbind
    refine ⟨⟨fun e he => ?_, fine_setThread h.threads t trivial, fun hdone => (by cases hdone),
      fun v' hv' => ?_, fun _ => ?_⟩, List.subset_append_left ..⟩
    -- The thread that returns has no call under way.
    · rcases h.calls e he with ⟨r, hr, hrest⟩
      have hthread : e.2 ≠ t := by
        intro heq
        rw [heq, hpc] at hr
        cases hr
      refine ⟨r, ?_, hrest⟩
      dsimp only
      rw [thread_setThread, if_neg hthread]
      exact hr
    · rcases List.mem_append.mp hv' with hv' | hv'
      · exact h.obtained v' hv'
      · rw [List.mem_singleton.mp hv']
        rw [hpc] at hfine
        exact hfine
    · exact List.mem_append_right _ (List.mem_singleton_self v)
  · cases hbind

/-- A call that is cancelled has failed. -/
theorem fine_cancelled {p : Peer T} {t : T} (h : (p.thread t).Fine nonces) :
    (p.cancelled t).Fine nonces := by
  have hfails : ¬ 0 ≤ RpcConst.cancelFailure := by decide
  unfold cancelled
  split
  · split
    · exact fun _ hret => absurd hret hfails
    · trivial
  -- Only the calls that are still in `calls_` are made to fail.
  · rename_i r ret body hpc
    rw [hpc] at h
    intro hbind hret
    split at hret
    · exact absurd hret hfails
    · exact h hbind hret
  · exact h

theorem request_cancelled (p : Peer T) (t : T) :
    (p.cancelled t).request = (p.thread t).request := by
  unfold cancelled
  split
  · rename_i hpc
    rw [hpc]
    split <;> rfl
  · rename_i hpc
    rw [hpc]
    rfl
  · rfl

/-- A cancel fails the calls and keeps their requests. -/
theorem peer_cancel {p : Peer T} (h : p.Sound requests nonces c) :
    p.cancel.Sound requests nonces c :=
  h.of_threads (fun e he => ⟨he, request_cancelled p e.2⟩) (fun t => fine_cancelled (h.threads t))
    rfl rfl rfl

end Peer

/-! ## Runs -/

namespace Restarts

variable {w : Wiring C K}

/-- Every party is sound, and a request other than a bind has a nonce that its client has
    obtained. -/
structure Inv (w : Wiring C K) (s : Restarts C K T) : Prop where
  nonces : ∀ v ∈ s.nonces, v ≠ 0 ∧ v < 2 ^ 32
  requests : ∀ p ∈ s.requests, p.2.cltNonce = w.nonce p.1 ∧
    (p.2.proc ≠ RpcConst.bind → p.2.srvNonce ∈ (s.peers p.1).obtained)
  instances : ∀ inst ∈ s.instances, inst.Sound w s.requests
  peers : ∀ c, (s.peers c).Sound s.requests s.nonces c

/-- No instance has been started. -/
theorem inv_new : Inv w (new C K T) where
  nonces := fun _ hv => absurd hv List.not_mem_nil
  requests := fun _ hp => absurd hp List.not_mem_nil
  instances := fun _ hinst => absurd hinst List.not_mem_nil
  peers := fun _ => Peer.sound_new

variable [DecidableEq C] [DecidableEq K] [DecidableEq T]

omit [DecidableEq K] [DecidableEq T] in
/-- An action of one client that makes no request. -/
theorem inv_setPeer {s : Restarts C K T} (hi : Inv w s) {c : C} {p : Peer T}
    (hp : p.Sound s.requests s.nonces c) (hobtained : (s.peers c).obtained ⊆ p.obtained) :
    Inv w (s.setPeer c p) := by
  refine ⟨hi.nonces, fun q hq => ⟨(hi.requests q hq).1, fun hbind => ?_⟩, hi.instances,
    fun c' => ?_⟩
  -- A client forgets none of the nonces that it has obtained.
  · have hold := (hi.requests q hq).2 hbind
    dsimp only [setPeer]
    by_cases hc : q.1 = c
    · rw [hc, Function.update_self]
      rw [hc] at hold
      exact hobtained hold
    · rw [Function.update_of_ne hc]
      exact hold
  · dsimp only [setPeer]
    by_cases hc : c' = c
    · rw [hc, Function.update_self]
      exact hp
    · rw [Function.update_of_ne hc]
      exact hi.peers c'

omit [DecidableEq C] [DecidableEq K] [DecidableEq T] in
/-- An instance keeps its nonce. -/
theorem nonces_set {s : Restarts C K T} {i : Nat} {inst inst' : Instance K}
    (hinst : s.instances[i]? = some inst) (hnonce : inst'.nonce = inst.nonce) :
    (s.instances.set i inst').map Instance.nonce = s.instances.map Instance.nonce := by
  rcases List.getElem?_eq_some_iff.mp hinst with ⟨hlt, hget⟩
  have hat : (s.instances.map Instance.nonce)[i]? = some inst'.nonce := by
    rw [List.getElem?_map, hinst, hnonce]
    rfl
  rw [List.map_set]
  -- The list of the nonces is the same at every position.
  refine List.ext_getElem? fun j => ?_
  rw [List.getElem?_set]
  split
  · rename_i hij
    subst hij
    rw [hat, if_pos (by rw [List.length_map]; exact hlt)]
  · rfl

omit [DecidableEq C] [DecidableEq K] [DecidableEq T] in
/-- An action of one instance. -/
theorem inv_atInstance {s s' : Restarts C K T} (hi : Inv w s) {i : Nat}
    {f : Instance K → Option (Instance K)} (h : s.atInstance i f = some s')
    (hf : ∀ inst inst', inst.Sound w s.requests → f inst = some inst' →
      inst'.Sound w s.requests ∧ inst'.nonce = inst.nonce) : Inv w s' := by
  simp only [atInstance, Option.bind_eq_bind, Option.bind_eq_some_iff, Option.some.injEq] at h
  rcases h with ⟨inst, hget, inst', hstep, rfl⟩
  -- The instance changes, but neither its nonce nor the requests do.
  rcases hf inst inst' (hi.instances inst (List.mem_of_getElem? hget)) hstep with
    ⟨hsound, hnonce⟩
  have hsame := nonces_set hget hnonce
  refine ⟨?_, hi.requests, fun inst₀ hinst₀ => ?_, fun c => ?_⟩
  · intro v hv
    rw [nonces, hsame] at hv
    exact hi.nonces v hv
  · rcases List.mem_or_eq_of_mem_set hinst₀ with hold | rfl
    · exact hi.instances inst₀ hold
    · exact hsound
  · rw [nonces, hsame]
    exact hi.peers c

omit [DecidableEq K] in
/-- A request is packed with the nonce that its client has obtained last. -/
theorem inv_call1 {s : Restarts C K T} (hi : Inv w s) {c : C} {t : T} {proc : Nat}
    {args : List UInt8} {p : Peer T} {r : Request} (hidle : (s.peers c).thread t = .idle)
    (hcall : (s.peers c).call1 (w.nonce c) t proc args = .ok (p, r)) :
    Inv w { s.setPeer c p with requests := s.requests ++ [(c, r)] } := by
  rcases Peer.call1_ok hcall with ⟨hkind, _, hclt, hsrv, hp⟩
  have hobtained : p.obtained = (s.peers c).obtained := by
    rw [hp]
    rfl
  have hpeers : ∀ c', (Function.update s.peers c p c').obtained = (s.peers c').obtained := by
    intro c'
    by_cases hc : c' = c
    · rw [hc, Function.update_self]
      exact hobtained
    · rw [Function.update_of_ne hc]
  refine ⟨hi.nonces, fun q hq => ?_,
    fun inst hinst => (hi.instances inst hinst).mono (List.subset_append_left ..), fun c' => ?_⟩
  · dsimp only [setPeer]
    rw [hpeers]
    rcases List.mem_append.mp hq with hq | hq
    · exact hi.requests q hq
    · rw [List.mem_singleton.mp hq]
      -- What is not a bind is packed by a client that is bound.
      refine ⟨hclt, fun hbind => ?_⟩
      rw [hsrv]
      refine (hi.peers c).current ?_
      by_contra hdone
      exact hbind (hkind.mpr (Bool.not_eq_true _ ▸ hdone))
  · dsimp only [setPeer]
    by_cases hc : c' = c
    · rw [hc, Function.update_self]
      exact Peer.peer_call1 (hi.peers c) hidle hcall
    · -- The request is not one of this client.
      rw [Function.update_of_ne hc]
      refine (hi.peers c').mono (List.Subset.refl _) fun r' hr' => ?_
      rcases List.mem_append.mp hr' with hr' | hr'
      · exact hr'
      · exact absurd (congrArg Prod.fst (List.mem_singleton.mp hr')) hc

theorem inv_step (hw : w.Distinct) (s : Restarts C K T) (a : RestartAction C K T)
    (s' : Restarts C K T) (hi : Inv w s) (h : s.step w a = some s') : Inv w s' := by
  cases a with
  -- The new instance is sound, and its nonce joins the others.
  | restart nonce procs =>
      simp only [step, Option.ite_none_right_eq_some, Option.some.injEq] at h
      rcases h with ⟨⟨h0, hlt, _⟩, rfl⟩
      have hnonces : ∀ l : List (Instance K), (l ++ [Instance.new K nonce procs]).map
          Instance.nonce = l.map Instance.nonce ++ [nonce] := by
        intro l
        rw [List.map_append]
        rfl
      refine ⟨fun v hv => ?_, hi.requests, fun inst hinst => ?_, fun c => ?_⟩
      · rw [nonces, hnonces] at hv
        rcases List.mem_append.mp hv with hv | hv
        · exact hi.nonces v hv
        · rw [List.mem_singleton.mp hv]
          exact ⟨h0, hlt⟩
      · rcases List.mem_append.mp hinst with hinst | hinst
        · exact hi.instances inst hinst
        · rw [List.mem_singleton.mp hinst]
          exact Instance.sound_new nonce procs
      · rw [nonces, hnonces]
        exact (hi.peers c).mono (List.subset_append_left ..) fun _ hr => hr
  | call1 c t proc args =>
      simp only [step, Option.ite_none_right_eq_some] at h
      rcases h with ⟨hidle, h⟩
      split at h
      · rename_i p r hcall
        cases h
        exact inv_call1 hi hidle hcall
      · cases h
        exact hi
  -- The reply was sent by this instance to this client, and is justified by a request.
  | gotPdu i k rep =>
      simp only [step, Option.bind_eq_bind, Option.bind_eq_some_iff,
        Option.ite_none_right_eq_some, Option.some.injEq] at h
      rcases h with ⟨inst, hget, hsent, rfl⟩
      have hmem := List.mem_of_getElem? hget
      have hrep := (hi.instances inst hmem).srv.sent _ hsent
      have hnonce : inst.nonce ∈ s.nonces := List.mem_map_of_mem hmem
      refine inv_setPeer hi (Peer.peer_gotPdu (hi.peers _) hnonce hrep) ?_
      unfold Peer.gotPdu
      dsimp only
      split
      · exact List.Subset.refl _
      · split <;> exact List.Subset.refl _
  | endCall c t =>
      rcases Option.map_eq_some_iff.mp h with ⟨p, hend, rfl⟩
      rcases Peer.peer_endCall (hi.peers c) (fun v hv => (hi.nonces v hv).2) hend with
        ⟨hsound, hsame⟩
      exact inv_setPeer hi hsound (by rw [hsame]; exact List.Subset.refl _)
  | bindReturns c t =>
      rcases Option.map_eq_some_iff.mp h with ⟨p, hbind, rfl⟩
      rcases Peer.peer_bindReturns (hi.peers c) hbind with ⟨hsound, hsub⟩
      exact inv_setPeer hi hsound hsub
  | cancel c =>
      cases h
      exact inv_setPeer hi (Peer.peer_cancel (hi.peers c)) (List.Subset.refl _)
  -- Any request that was ever made may arrive now, at any instance.
  | dispatch i k r =>
      simp only [step, Option.ite_none_right_eq_some, List.contains_iff_mem] at h
      refine inv_atInstance hi h.2 fun inst inst' hs hd => ?_
      exact Instance.sound_dispatch hw hs h.1 (hi.requests _ h.1).1 hd
  | handlerReturns i k r ret body =>
      refine inv_atInstance hi h fun inst inst' hs hd => ?_
      exact Instance.sound_handlerReturns hw hs (fun p hp => (hi.requests p hp).1) hd
  | link i k l =>
      refine inv_atInstance hi h fun inst inst' hs hd => ?_
      cases hd
      exact ⟨⟨hs.srv.setLink k l, hs.handling, hs.executed⟩, rfl⟩

/-- In every run with clients whose nonces are different or 0: a request other than a bind that an
    instance has executed was packed by the client that it came from, with the nonce of that
    instance, which the client has got from a bind; and an instance with any other nonce answers
    such a request with `oldsrv_failure` and does nothing else. Requests and replies may be delayed
    over restarts, repeated and reordered. -/
theorem no_foreign_execution (w : Wiring C K) (hw : w.Distinct) (s : Restarts C K T)
    (h : Trace.Reaches (step w) Trace.Always (new C K T) s) :
    ∀ inst ∈ s.instances, ∀ k r, r.proc ≠ RpcConst.bind →
      ((k, r) ∈ inst.executed → (w.owner k, r) ∈ s.requests ∧ r.srvNonce = inst.nonce ∧
        inst.nonce ∈ (s.peers (w.owner k)).obtained) ∧
      ((w.owner k, r) ∈ s.requests → inst.nonce ≠ r.srvNonce → inst.dispatch k r =
        some { inst with srv := inst.srv.send k ⟨r.xid, RpcConst.oldsrvFailure, []⟩ }) := by
  have hi := Trace.invariant_of_step (Inv w) inv_new
    (fun s a s' hi _ hstep => inv_step hw s a s' hi hstep) h
  intro inst hinst k r hbind
  -- Zero is no nonce, so a request that is not a bind names an instance.
  have hobtained : (w.owner k, r) ∈ s.requests →
      r.srvNonce ∈ (s.peers (w.owner k)).obtained ∧ r.srvNonce ≠ 0 := by
    intro hr
    have hmem := (hi.requests _ hr).2 hbind
    exact ⟨hmem, (hi.nonces _ ((hi.peers _).obtained _ hmem)).1⟩
  constructor
  · -- What is executed has the nonce of the instance or 0, and 0 is no nonce.
    intro hexecuted
    rcases (hi.instances inst hinst).executed _ hexecuted with ⟨hr, hmine⟩
    rcases hobtained hr with ⟨hmem, h0⟩
    have hnonce : r.srvNonce = inst.nonce := hmine.resolve_left h0
    exact ⟨hr, hnonce, hnonce ▸ hmem⟩
  · intro hr hne
    exact Instance.dispatch_foreign (hobtained hr).2 hne k

/-- Two clients with one connection each. -/
def pair (n n' : Nat) : Wiring Bool Bool where
  nonce := fun c => if c then n' else n
  owner := id

/-- The server is started with nonce 5; the first client binds and packs a call. -/
def boundCall : List (RestartAction Bool Bool Unit) :=
  [.restart 5 [2], .link 0 false ⟨9, false, (0, 0)⟩, .link 0 true ⟨9, false, (0, 0)⟩,
    .call1 false () RpcConst.bind [0, 0, 0, 0], .dispatch 0 false ⟨1, 1, 7, 0, 0, [0, 0, 0, 0]⟩,
    .handlerReturns 0 false ⟨1, 1, 7, 0, 0, [0, 0, 0, 0]⟩ 0 [0, 0, 0, 5],
    .gotPdu 0 false ⟨1, 0, [0, 0, 0, 5]⟩, .endCall false (), .bindReturns false (),
    .call1 false () 2 []]

/-- After a restart the call is executed by the first instance and refused by the second. -/
theorem no_foreign_execution_restarted :
    ∃ (s : Restarts Bool Bool Unit) (first second : Instance Bool),
      Trace.Reaches (step (pair 7 9)) Trace.Always (new Bool Bool Unit) s ∧
      s.instances = [first, second] ∧
      (⟨2, 2, 7, 5, 1, []⟩ : Request).srvNonce = first.nonce ∧
      second.dispatch false ⟨2, 2, 7, 5, 1, []⟩ = some { second with
        srv := second.srv.send false ⟨2, RpcConst.oldsrvFailure, []⟩ } := by
  have hw : (pair 7 9).Distinct := by
    intro c c' _ heq
    cases c <;> cases c' <;> first | rfl | cases heq
  have h : Trace.Reaches (step (pair 7 9)) Trace.Always (new Bool Bool Unit) _ :=
    Trace.reaches_always_of_run (boundCall ++ [.restart 6 [2],
      .dispatch 0 false ⟨2, 2, 7, 5, 1, []⟩]) rfl
  have hall := no_foreign_execution (pair 7 9) hw _ h
  have hfirst := hall _ List.mem_cons_self false ⟨2, 2, 7, 5, 1, []⟩ (by decide)
  have hsecond := hall _ (List.mem_cons_of_mem _ List.mem_cons_self) false ⟨2, 2, 7, 5, 1, []⟩
    (by decide)
  refine ⟨_, _, _, h, rfl, ?_, ?_⟩
  · exact (hfirst.1 (List.mem_cons_of_mem _ List.mem_cons_self)).2.1
  · exact hsecond.2 (List.mem_cons_of_mem _ List.mem_cons_self) (by decide)

/-- With one nonce for both, the second client takes the reply that was remembered for the
    first one's call for the result of its bind, and its own call is executed after a
    restart by an instance that it has never been bound to. -/
theorem executed_unbound :
    ∃ (s : Restarts Bool Bool Unit) (first second : Instance Bool),
      Trace.Reaches (step (pair 7 7)) Trace.Always (new Bool Bool Unit) s ∧
      s.instances = [first, second] ∧ second.executed = [(true, ⟨3, 2, 7, 0, 2, []⟩)] ∧
      second.nonce = 6 ∧ (s.peers true).obtained = [0] := by
  have h : Trace.Reaches (step (pair 7 7)) Trace.Always (new Bool Bool Unit) _ :=
    Trace.reaches_always_of_run (boundCall ++ [
      .dispatch 0 false ⟨2, 2, 7, 5, 1, []⟩,
      .handlerReturns 0 false ⟨2, 2, 7, 5, 1, []⟩ 0 [0, 0, 0, 0],
      .call1 true () RpcConst.bind [0, 0, 0, 0],
      .dispatch 0 true ⟨1, 1, 7, 0, 0, [0, 0, 0, 0]⟩,
      .gotPdu 0 true ⟨1, RpcConst.atmostonceFailure, []⟩, .endCall true (),
      .call1 true () RpcConst.bind [0, 0, 0, 0],
      .dispatch 0 true ⟨2, 1, 7, 0, 1, [0, 0, 0, 0]⟩,
      .gotPdu 0 true ⟨2, 0, [0, 0, 0, 0]⟩, .endCall true (), .bindReturns true (),
      .restart 6 [2], .call1 true () 2 [],
      .dispatch 1 true ⟨3, 2, 7, 0, 2, []⟩]) rfl
  exact ⟨_, _, _, h, rfl, rfl, rfl, rfl⟩

end Restarts

end Rpc

end Yfs
