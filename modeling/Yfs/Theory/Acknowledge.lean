import Yfs.Theory.AckWindow
import Yfs.Theory.ReplyWindow

/-!
# Live Requests Are Not Forgotten

The joint invariant of a client's acknowledgements and the server's bound. A
client reports a call to its window when a reply for it arrives and again when the
call ends, so everything in the window belongs to a call that is over, and by
`updateXidRep_advanced` so does every number up to its front. A header carries the
front at the time it was packed; the server's bound is the `xid_rep` of some
header; and fronts only grow. The bound therefore never passes the client's front,
and a request at or below it belongs to a call that is over.

## Main definitions

* `Finished`: A call is marked done or gone from `calls_`.
* `ClientInv`, `Progress`: One client, and how it moves.
* `AckInv`: The clients, the network and the server's bounds.

## Theorems

* `clientInv_report`: Reporting a call that is over.
* `ackInv_step`, `ackInv_reachable`: The invariant in every run.
* `forgotten_finished`: `FORGOTTEN` is answered only for calls that are over.
-/

namespace Yfs

namespace Rpc

/-- The call is over: its record is marked done or is no longer in `calls_`. -/
def Finished (c : Rpcc) (xid : Nat) : Prop :=
  ∀ ca ∈ c.calls, ca.xid = xid → ca.done = true

/-- What the client acknowledges in its next header. -/
def Rpcc.front (c : Rpcc) : Nat :=
  c.xidRepWindow.headD 0

/-- A client's window holds only numbers of calls that are over, and so does
    everything up to its front. -/
structure ClientInv (c : Rpcc) : Prop where
  pos : 1 ≤ c.xid
  lt : c.xid < 2 ^ 32
  nonempty : c.xidRepWindow ≠ []
  sorted : c.xidRepWindow.Pairwise (· ≤ ·)
  issued : ∀ x ∈ c.xidRepWindow, x < c.xid
  calls : ∀ ca ∈ c.calls, ca.xid < c.xid
  reported : ∀ x ∈ c.xidRepWindow, x ≠ 0 → Finished c x
  acked : ∀ x, 1 ≤ x → x ≤ c.front → Finished c x

/-- Numbers are handed out and acknowledged upwards. -/
structure Progress (c c' : Rpcc) : Prop where
  xid : c.xid ≤ c'.xid
  front : c.front ≤ c'.front

/-- A client starts with the window `[0]`. Zero is no xid, so nothing has been reported and nothing
    is acknowledged yet. -/
theorem clientInv_new : ClientInv Rpcc.new where
  pos := Nat.le_refl 1
  lt := by decide
  nonempty := List.cons_ne_nil 0 []
  sorted := List.pairwise_singleton _ 0
  issued := by
    intro x hx
    rw [List.mem_singleton.mp hx]
    exact Nat.zero_lt_one
  calls := fun _ hca => absurd hca List.not_mem_nil
  reported := fun x hx h0 => absurd (List.mem_singleton.mp hx) h0
  acked := by
    intro x hx hle
    exact absurd (Nat.le_trans hx hle) (by decide)

/-- The front is an entry of the window, and what holds of the entries holds of it. -/
theorem front_mem (c : Rpcc) (h : c.xidRepWindow ≠ []) : c.front ∈ c.xidRepWindow := by
  unfold Rpcc.front
  cases hw : c.xidRepWindow with
  | nil => exact absurd hw h
  | cons x w => exact List.mem_cons_self

/-- A change of the calls alone, none of them reopened. The window and the counter stay, so what the
    client has acknowledged stays acknowledged; `cancel` and the end of `bind` are of this kind. -/
theorem clientInv_calls (c c' : Rpcc) (hi : ClientInv c) (hx : c'.xid = c.xid)
    (hw : c'.xidRepWindow = c.xidRepWindow) (hc : ∀ ca ∈ c'.calls, ca.xid < c.xid)
    (hf : ∀ x, Finished c x → Finished c' x) : ClientInv c' ∧ Progress c c' := by
  have hfront : c'.front = c.front := by rw [Rpcc.front, hw, Rpcc.front]
  refine ⟨⟨?_, ?_, ?_, ?_, ?_, ?_, ?_, ?_⟩, ⟨Nat.le_of_eq hx.symm, Nat.le_of_eq hfront.symm⟩⟩
  · rw [hx]
    exact hi.pos
  · rw [hx]
    exact hi.lt
  · rw [hw]
    exact hi.nonempty
  · rw [hw]
    exact hi.sorted
  · rw [hw, hx]
    exact hi.issued
  · rw [hx]
    exact hc
  · rw [hw]
    exact fun x hxm h0 => hf x (hi.reported x hxm h0)
  · rw [hfront]
    exact fun x h1 hle => hf x (hi.acked x h1 hle)

/-- The report of a call that is over after the change, as `got_pdu` and the end of `call1` make it.
    The window moves on by `updateXidRep_advanced`: its new front may pass any number of entries,
    and each number that it passes was in the window or is the one being reported. -/
theorem clientInv_report (c c' : Rpcc) (hi : ClientInv c) (xid : Nat) (hlt : xid < c.xid)
    (hx : c'.xid = c.xid) (hw : c'.xidRepWindow = updateXidRep xid c.xidRepWindow)
    (hc : ∀ ca ∈ c'.calls, ca.xid < c.xid) (hf : ∀ x, Finished c x → Finished c' x)
    (hdone : Finished c' xid) : ClientInv c' ∧ Progress c c' := by
  -- All numbers are below `2 ^ 32 - 1`, which is what keeps the sum in `compress` from wrapping.
  have hcl := hi.lt
  have hadv := updateXidRep_advanced xid c.xidRepWindow hi.nonempty hi.sorted (by
    intro y hy
    rcases List.mem_cons.mp hy with rfl | hy
    · omega
    · have := hi.issued y hy
      omega)
  rw [← hw] at hadv
  -- An entry of the new window was one before, or is the number being reported.
  have hmem : ∀ x ∈ c'.xidRepWindow, x ≠ 0 → Finished c' x := by
    intro x hxm h0
    rcases List.mem_cons.mp (hadv.subset x hxm) with rfl | hold
    · exact hdone
    · exact hf x (hi.reported x hold h0)
  refine ⟨⟨by rw [hx]; exact hi.pos, by rw [hx]; exact hi.lt, hadv.nonempty, hadv.sorted, ?_,
    by rw [hx]; exact hc, hmem, ?_⟩, ⟨Nat.le_of_eq hx.symm, hadv.mono⟩⟩
  · intro x hxm
    rw [hx]
    rcases List.mem_cons.mp (hadv.subset x hxm) with rfl | hold
    · exact hlt
    · exact hi.issued x hold
  · intro x h1 hle
    by_cases hold : x ≤ c.front
    · exact hf x (hi.acked x h1 hold)
    · -- The front has passed `x`, so `x` was in the window or is being reported.
      rcases List.mem_cons.mp (hadv.covered x (Nat.not_le.mp hold) hle) with rfl | hin
      · exact hdone
      · exact hf x (hi.reported x hin (by omega))

/-- The first section of `call1`: a fresh number that no call has had, and a header that carries the
    front of the window as it is now. -/
theorem call1_inv (c : Rpcc) (hi : ClientInv c) (hlt : c.xid + 1 < 2 ^ 32) (n proc : Nat)
    (args : List UInt8) (c' : Rpcc) (r : Request) (h : c.call1 n proc args = .ok (c', r)) :
    ClientInv c' ∧ Progress c c' ∧ c.xid < c'.xid ∧ r.xid = c.xid ∧ r.cltNonce = n ∧
      r.xidRep = c.front := by
  simp only [Rpcc.call1] at h
  split at h
  · cases h
  · split at h
    · cases h
    · cases h
      have hmod : (c.xid + 1) % 2 ^ 32 = c.xid + 1 := Nat.mod_eq_of_lt hlt
      -- The new record has a number that no finished call has.
      have hf : ∀ x, x < c.xid → Finished c x → ∀ ca ∈ c.calls ++ [⟨c.xid, proc, none, 0, false⟩],
          ca.xid = x → ca.done = true := by
        intro x hx hfin ca hca hxid
        rcases List.mem_append.mp hca with hca | hca
        · exact hfin ca hca hxid
        · rw [List.mem_singleton.mp hca] at hxid
          simp only at hxid
          omega
      -- What is acknowledged was issued, so a header acknowledges only numbers below its own.
      have hfront : c.front < c.xid := hi.issued _ (front_mem c hi.nonempty)
      refine ⟨⟨?_, ?_, hi.nonempty, hi.sorted, ?_, ?_, ?_, ?_⟩, ⟨?_, Nat.le_refl _⟩, ?_,
        rfl, rfl, rfl⟩
      · simp only [hmod]
        omega
      · simp only [hmod]
        exact hlt
      · intro x hx
        have := hi.issued x hx
        simp only [hmod]
        omega
      · intro ca hca
        simp only [hmod]
        rcases List.mem_append.mp hca with hca | hca
        · exact Nat.lt_succ_of_lt (hi.calls ca hca)
        · rw [List.mem_singleton.mp hca]
          exact Nat.lt_succ_self c.xid
      · exact fun x hx h0 => hf x (hi.issued x hx) (hi.reported x hx h0)
      · intro x h1 hle
        exact hf x (Nat.lt_of_le_of_lt hle hfront) (hi.acked x h1 hle)
      · simp only [hmod]
        omega
      · simp only [hmod]
        omega

/-- A record keeps its number when a reply completes it. -/
theorem complete_xid (r : Reply) (ca : Caller) : (ca.complete r).xid = ca.xid := by
  simp only [Caller.complete]
  split <;> rfl

/-- A reply completes the record under its xid, if that is not complete already. -/
theorem complete_done_iff (r : Reply) (ca : Caller) :
    (ca.complete r).done = true ↔ ca.done = true ∨ ca.xid = r.xid := by
  unfold Caller.complete
  by_cases hd : ca.done = true
  · rw [if_neg (by simp only [hd, Bool.true_eq_false, and_false, not_false_eq_true])]
    exact iff_of_true hd (Or.inl hd)
  · rw [Bool.not_eq_true] at hd
    by_cases hx : ca.xid = r.xid
    · rw [if_pos ⟨hx, hd⟩]
      exact iff_of_true rfl (Or.inr hx)
    · rw [if_neg fun hc => hx hc.1]
      exact ⟨Or.inl, fun hor => hor.resolve_right hx⟩

/-- A reply under a number that was issued. The records under that number are done afterwards,
    whether they were waiting or not, so the number may be reported. -/
theorem gotPdu_inv (c : Rpcc) (hi : ClientInv c) (r : Reply) (hlt : r.xid < c.xid) :
    ClientInv (c.gotPdu r) ∧ Progress c (c.gotPdu r) := by
  refine clientInv_report c (c.gotPdu r) hi r.xid hlt rfl rfl ?_ ?_ ?_
  · intro ca hca
    rcases List.mem_map.mp hca with ⟨ca', hca', rfl⟩
    rw [complete_xid]
    exact hi.calls ca' hca'
  -- No record is reopened.
  · intro x hfin ca hca hxid
    rcases List.mem_map.mp hca with ⟨ca', hca', rfl⟩
    rw [complete_xid] at hxid
    exact (complete_done_iff r ca').mpr (Or.inl (hfin ca' hca' hxid))
  · intro ca hca hxid
    rcases List.mem_map.mp hca with ⟨ca', _, rfl⟩
    rw [complete_xid] at hxid
    exact (complete_done_iff r ca').mpr (Or.inr hxid)

/-- The last section of `call1`. It reports its number whether a reply came or not: the record is
    gone, and so the call is over. -/
theorem endCall_inv (c : Rpcc) (hi : ClientInv c) (xid : Nat) (c' : Rpcc)
    (h : c.endCall xid = some c') : ClientInv c' ∧ Progress c c' := by
  simp only [Rpcc.endCall] at h
  split at h
  · cases h
  · rename_i ca hca
    cases h
    have hmem := List.mem_of_find?_eq_some hca
    have hxid : ca.xid = xid := by
      have := List.find?_some hca
      exact beq_iff_eq.mp this
    refine clientInv_report c _ hi xid (by rw [← hxid]; exact hi.calls ca hmem) rfl rfl
      ?_ ?_ ?_
    · exact fun ca' hca' => hi.calls ca' (List.mem_filter.mp hca').1
    · intro x hfin ca' hca' hx
      exact hfin ca' (List.mem_filter.mp hca').1 hx
    · intro ca' hca' hx
      -- The record of this call is no longer there.
      have := (List.mem_filter.mp hca').2
      rw [hx] at this
      simp only [bne_self_eq_false, Bool.false_eq_true] at this

/-- `cancel` marks every record done and reports nothing. -/
theorem cancel_inv (c : Rpcc) (hi : ClientInv c) :
    ClientInv c.cancel ∧ Progress c c.cancel := by
  refine clientInv_calls c c.cancel hi rfl rfl ?_ ?_
  · intro ca hca
    rcases List.mem_map.mp hca with ⟨ca', hca', rfl⟩
    exact hi.calls ca' hca'
  · intro x _ ca hca _
    rcases List.mem_map.mp hca with ⟨ca', _, rfl⟩
    rfl

/-- The end of `bind` touches neither the calls nor the window. -/
theorem bindReturns_inv (c : Rpcc) (hi : ClientInv c) (o : Outcome) (c' : Rpcc)
    (h : c.bindReturns o = some c') : ClientInv c' ∧ Progress c c' := by
  simp only [Rpcc.bindReturns] at h
  split at h
  · split at h
    · cases h
      exact clientInv_calls c _ hi rfl rfl hi.calls (fun x hx => hx)
    · cases h
  · cases h

/-- Client `n` has given the number to one of its calls. -/
def Issued (s : Sys) (n xid : Nat) : Prop :=
  1 ≤ xid ∧ xid < (s.clients n).xid

/-- What the server and the network know of a client is behind what the client
    itself knows. -/
structure AckInv (s : Sys) : Prop where
  client : ∀ n, ClientInv (s.clients n)
  nonce : ∀ r ∈ s.requests, r.cltNonce ≠ 0
  request : ∀ r ∈ s.requests, Issued s r.cltNonce r.xid
  xidRep : ∀ r ∈ s.requests, r.xidRep < r.xid ∧ r.xidRep ≤ (s.clients r.cltNonce).front
  running : ∀ r ∈ s.running, r ∈ s.requests
  reply : ∀ p ∈ s.replies, Issued s p.1 p.2.xid
  stored : ∀ n, ∀ e ∈ s.server.replyWindow n, ∀ r, e.cb = some r → Issued s n r.xid
  bound : ∀ n, s.server.windowBound n ≤ (s.clients n).front

/-- Nothing has been sent, and all bounds are zero. -/
theorem ackInv_init (nonce : Nat) (procs : List Nat) : AckInv (init nonce procs) where
  client := fun _ => clientInv_new
  nonce := fun _ hr => absurd hr List.not_mem_nil
  request := fun _ hr => absurd hr List.not_mem_nil
  xidRep := fun _ hr => absurd hr List.not_mem_nil
  running := fun _ hr => absurd hr List.not_mem_nil
  reply := fun _ hp => absurd hp List.not_mem_nil
  stored := fun _ _ he => absurd he List.not_mem_nil
  bound := fun _ => Nat.le_refl 0

/-- A client that makes progress. Its counter and its front have grown, so what the network and the
    server know of it is still behind it; the other clients are not concerned. -/
theorem ackInv_setClient (s : Sys) (n : Nat) (c : Rpcc) (hi : AckInv s) (hc : ClientInv c)
    (hp : Progress (s.clients n) c) : AckInv (s.setClient n c) := by
  have hle : ∀ m, Progress (s.clients m) ((s.setClient n c).clients m) := by
    intro m
    by_cases hm : m = n
    · rw [hm]
      simp only [Sys.setClient, Function.update_self]
      exact hp
    · simp only [Sys.setClient, Function.update_of_ne hm]
      exact ⟨Nat.le_refl _, Nat.le_refl _⟩
  -- The counter only grows, so what was issued stays issued.
  have hissued : ∀ m x, Issued s m x → Issued (s.setClient n c) m x :=
    fun m x h => ⟨h.1, Nat.lt_of_lt_of_le h.2 (hle m).xid⟩
  refine ⟨?_, hi.nonce, fun r hr => hissued _ _ (hi.request r hr), ?_, hi.running,
    fun p hp => hissued _ _ (hi.reply p hp),
    fun m e he r hr => hissued _ _ (hi.stored m e he r hr), ?_⟩
  · intro m
    by_cases hm : m = n
    · rw [hm]
      simp only [Sys.setClient, Function.update_self]
      exact hc
    · simp only [Sys.setClient, Function.update_of_ne hm]
      exact hi.client m
  · intro r hr
    exact ⟨(hi.xidRep r hr).1, Nat.le_trans (hi.xidRep r hr).2 (hle _).front⟩
  · intro m
    exact Nat.le_trans (hi.bound m) (hle m).front

/-- A reply in the network under a number that its client has issued. -/
theorem ackInv_send (s : Sys) (n : Nat) (r : Reply) (hi : AckInv s) (hr : Issued s n r.xid) :
    AckInv (s.send n r) := by
  refine ⟨hi.client, hi.nonce, hi.request, hi.xidRep, hi.running, ?_, hi.stored, hi.bound⟩
  intro p hp
  rcases List.mem_append.mp hp with hp | hp
  · exact hi.reply p hp
  · rw [List.mem_singleton.mp hp]
    exact hr

/-- A new window and a new bound for one client. The replies in the window must be under numbers of
    that client, and the bound may not pass its front. -/
theorem ackInv_setWindow (s : Sys) (n : Nat) (w : List ReplyT) (bound : Nat) (hi : AckInv s)
    (hw : ∀ e ∈ w, ∀ r, e.cb = some r → Issued s n r.xid) (hb : bound ≤ (s.clients n).front) :
    AckInv (s.setWindow n w bound) := by
  refine ⟨hi.client, hi.nonce, hi.request, hi.xidRep, hi.running, hi.reply, ?_, ?_⟩
  · intro m
    by_cases hm : m = n
    · rw [hm]
      simp only [Sys.setWindow, Function.update_self]
      exact hw
    · simp only [Sys.setWindow, Function.update_of_ne hm]
      exact hi.stored m
  · intro m
    by_cases hm : m = n
    · rw [hm]
      simp only [Sys.setWindow, Function.update_self]
      exact hb
    · simp only [Sys.setWindow, Function.update_of_ne hm]
      exact hi.bound m

/-- What `dispatch` does with a request once it knows what the request is. It sends replies with the
    request's own number, or one it remembers, and it starts requests from the network only. -/
theorem ackInv_answer (s : Sys) (r : Request) (st : RpcState) (hi : AckInv s)
    (hr : r ∈ s.requests) (hst : ∀ rep, st = .done rep → Issued s r.cltNonce rep.xid) :
    AckInv (s.answer r st) := by
  cases st with
  | new =>
      refine ⟨hi.client, hi.nonce, hi.request, hi.xidRep, ?_, hi.reply, hi.stored, hi.bound⟩
      intro q hq
      rcases List.mem_append.mp hq with hq | hq
      · exact hi.running q hq
      · rw [List.mem_singleton.mp hq]
        exact hr
  | inprogress => exact hi
  | done rep => exact ackInv_send s _ rep hi (hst rep rfl)
  | forgotten => exact ackInv_send s _ _ hi (hi.request r hr)

/-- A request reaches the server. Whatever the answer is, the window afterwards holds entries that
    it held before and the new one, which has no reply yet. -/
theorem ackInv_dispatch (s s' : Sys) (r : Request) (hi : AckInv s) (hr : r ∈ s.requests)
    (h : s.dispatch r = some s') : AckInv s' := by
  simp only [Sys.dispatch] at h
  split at h
  · cases h
    exact ackInv_send s _ _ hi (hi.request r hr)
  · split at h
    · cases h
    · split at h
      · cases h
        exact ackInv_answer s r .new hi hr (fun rep hrep => by cases hrep)
      · split at h
        · cases h
        · rename_i st w bound hcheck
          cases h
          have hc := checkduplicate_cases _ _ _ _ _ _ _ hcheck
          have hold := hi.stored r.cltNonce
          -- A remembered reply comes out of the window.
          have hdone : ∀ rep, st = .done rep → Issued s r.cltNonce rep.xid := by
            intro rep hrep
            rcases classify_done _ _ _ rep (by rw [← hc.1, hrep]) with ⟨e, he, _, hcb⟩
            exact hold e he rep hcb
          refine ackInv_answer _ r st ?_ hr hdone
          -- The bound of a new request is its own `xid_rep`, which is not above the front of
          -- the client.
          rcases hc.2 with ⟨_, hprune, rfl⟩ | ⟨_, rfl, rfl⟩
          · refine ackInv_setWindow s _ _ _ hi ?_ (hi.xidRep r hr).2
            rcases prune_suffix _ _ _ hprune with ⟨_, p, hp, _⟩
            intro e he rep hcb
            have hin : e ∈ insertReply r.xid (s.server.replyWindow r.cltNonce) := by
              rw [hp]
              exact List.mem_append_right p he
            rcases (mem_insertReply _ _ _).mp hin with rfl | hin
            · cases hcb
            · exact hold e hin rep hcb
          · exact ackInv_setWindow s _ _ _ hi hold (hi.bound _)

/-- A handler returns. Its reply has the number of its request and goes into the window and to the
    client. -/
theorem ackInv_handlerReturns (s : Sys) (r : Request) (rep : Reply) (hi : AckInv s)
    (hr : r ∈ s.running) (hx : rep.xid = r.xid) : AckInv (s.handlerReturns r rep) := by
  have hissued : Issued s r.cltNonce rep.xid := by
    rw [hx]
    exact hi.request r (hi.running r hr)
  have hwin : AckInv (if r.cltNonce > 0 then
      s.setWindow r.cltNonce (addReply r.xid rep (s.server.replyWindow r.cltNonce))
        (s.server.windowBound r.cltNonce) else s) := by
    split
    · refine ackInv_setWindow s _ _ _ hi ?_ (hi.bound _)
      intro e he q hq
      rcases mem_addReply _ _ _ _ he with he | he
      · exact hi.stored _ e he q hq
      · rw [he] at hq
        cases hq
        exact hissued
    · exact hi
  -- The rest of the handler does not touch the window.
  have hrest : ∀ t : Sys, AckInv t → Issued t r.cltNonce rep.xid →
      AckInv { t with
        running := t.running.erase r
        replies := t.replies ++ [(r.cltNonce, rep)] } := by
    intro t ht hrep
    have hs := ackInv_send t r.cltNonce rep ht hrep
    exact ⟨hs.client, hs.nonce, hs.request, hs.xidRep,
      fun q hq => hs.running q (List.mem_of_mem_erase hq), hs.reply, hs.stored, hs.bound⟩
  refine hrest _ hwin ?_
  split
  · exact hissued
  · exact hissued

/-- One step of the system. A client's own steps are progress of that client, and the server's steps
    leave all clients alone. -/
theorem ackInv_step (s : Sys) (a : Action) (s' : Sys) (hi : AckInv s) (hok : env s a = true)
    (h : step s a = some s') : AckInv s' := by
  cases a with
  | call1 n proc args =>
      simp only [step] at h
      simp only [env, decide_eq_true_eq] at hok
      split at h
      · rename_i c r hcall
        cases h
        rcases call1_inv _ (hi.client n) hok.2 n proc args c r hcall with
          ⟨hc, hp, hlt, hx, hn, hrep⟩
        -- The client moves first, and then its request is in the network.
        have hset := ackInv_setClient s n c hi hc hp
        have hcl : (s.setClient n c).clients r.cltNonce = c := by
          rw [hn]
          simp only [Sys.setClient, Function.update_self]
        have hfront := (hi.client n).issued _ (front_mem _ (hi.client n).nonempty)
        refine ⟨hset.client, ?_, ?_, ?_, fun q hq => List.mem_append_left _ (hset.running q hq),
          hset.reply, hset.stored, hset.bound⟩
        -- A nonce that is zero would ask for no duplicate detection; `env` excludes it.
        · intro q hq
          rcases List.mem_append.mp hq with hq | hq
          · exact hset.nonce q hq
          · rw [List.mem_singleton.mp hq, hn]
            exact hok.1
        · intro q hq
          rcases List.mem_append.mp hq with hq | hq
          · exact hset.request q hq
          · rw [List.mem_singleton.mp hq, hx]
            refine ⟨(hi.client n).pos, ?_⟩
            simp only [hcl]
            exact hlt
        · intro q hq
          rcases List.mem_append.mp hq with hq | hq
          · exact hset.xidRep q hq
          · rw [List.mem_singleton.mp hq, hrep, hx]
            refine ⟨hfront, ?_⟩
            simp only [hcl]
            exact hp.front
      · cases h
        exact hi
  | gotPdu n r =>
      simp only [step] at h
      split at h
      · rename_i hr
        cases h
        -- A reply in the network is under a number that was issued.
        have hg := gotPdu_inv _ (hi.client n) r (hi.reply (n, r) hr).2
        exact ackInv_setClient s n _ hi hg.1 hg.2
      · cases h
  | strayPdu n r =>
      simp only [step] at h
      split at h
      · rename_i hr
        cases h
        have hg := gotPdu_inv _ (hi.client n) r hr.2
        exact ackInv_setClient s n _ hi hg.1 hg.2
      · cases h
  | endCall n xid =>
      rcases Option.map_eq_some_iff.mp h with ⟨c, hc, rfl⟩
      have hg := endCall_inv _ (hi.client n) xid c hc
      exact ackInv_setClient s n c hi hg.1 hg.2
  | bindReturns n o =>
      rcases Option.map_eq_some_iff.mp h with ⟨c, hc, rfl⟩
      have hg := bindReturns_inv _ (hi.client n) o c hc
      exact ackInv_setClient s n c hi hg.1 hg.2
  | cancel n =>
      cases h
      have hg := cancel_inv _ (hi.client n)
      exact ackInv_setClient s n _ hi hg.1 hg.2
  | dispatch r =>
      simp only [step] at h
      split at h
      · rename_i hr
        exact ackInv_dispatch s s' r hi hr h
      · cases h
  | handlerReturns r ret body =>
      simp only [step] at h
      split at h
      · rename_i hr
        cases h
        exact ackInv_handlerReturns s r _ hi hr.1 rfl
      · cases h

/-- The invariant in every state of every run. -/
theorem ackInv_reachable (nonce : Nat) (procs : List Nat) (s : Sys)
    (h : Trace.Reaches step (fun s a => env s a = true) (init nonce procs) s) : AckInv s :=
  Trace.invariant_of_step AckInv (ackInv_init nonce procs)
    (fun s a s' hi hok hs => ackInv_step s a s' hi hok hs) h

/-- Whenever the server answers `FORGOTTEN`, the client's call is over: its number was issued, and
    its record is marked done or gone. No call that still waits is refused in this way, in any
    interleaving and whatever the network does to requests and replies. -/
theorem forgotten_finished (nonce : Nat) (procs : List Nat) (s : Sys)
    (h : Trace.Reaches step (fun s a => env s a = true) (init nonce procs) s) (r : Request)
    (hr : r ∈ s.requests) (w : List ReplyT) (bound : Nat)
    (hf : checkduplicateAndUpdate (s.server.replyWindow r.cltNonce)
      (s.server.windowBound r.cltNonce) r.xid r.xidRep = some (.forgotten, w, bound)) :
    r.xid < (s.clients r.cltNonce).xid ∧ Finished (s.clients r.cltNonce) r.xid := by
  have hi := ackInv_reachable nonce procs s h
  -- `FORGOTTEN` means at or below the bound, and the bound is behind the front.
  have hle := classify_forgotten _ _ _ (checkduplicate_cases _ _ _ _ _ _ _ hf).1.symm
  refine ⟨(hi.request r hr).2, (hi.client _).acked r.xid (hi.request r hr).1 ?_⟩
  exact Nat.le_trans hle (hi.bound _)

/-- The request of a client's bind, and its next one. -/
def bindRequest : Request := ⟨1, 1, 5, 0, 0, [0, 0, 0, 0]⟩

def nextRequest : Request := ⟨2, 0x7001, 5, 9, 1, []⟩

/-- A client binds and makes its first call, which acknowledges the bind. -/
def boundRun : List Action :=
  [.call1 5 1 [0, 0, 0, 0], .dispatch bindRequest, .handlerReturns bindRequest 0 [0, 0, 0, 9],
   .gotPdu 5 ⟨1, 0, [0, 0, 0, 9]⟩, .endCall 5 1, .bindReturns 5 ⟨1, 1, 0, some [0, 0, 0, 9]⟩,
   .call1 5 0x7001 [], .dispatch nextRequest]

/-- The run in which the bind is acknowledged by the next call. A late duplicate of the bind is then
    `FORGOTTEN`, and the bind is over. -/
theorem forgotten_finished_bind :
    ∃ s, Trace.Reaches step (fun s a => env s a = true) (init 9 [0x7001]) s ∧
      bindRequest ∈ s.requests ∧
      checkduplicateAndUpdate (s.server.replyWindow 5) (s.server.windowBound 5) 1 0
        = some (.forgotten, [⟨2, none⟩], 1) ∧
      1 < (s.clients 5).xid ∧ Finished (s.clients 5) 1 := by
  have hrun : ∃ s, Trace.run step env (init 9 [0x7001]) boundRun = some s ∧
      s.requests = [bindRequest, nextRequest] ∧ s.server.replyWindow 5 = [⟨2, none⟩] ∧
      s.server.windowBound 5 = 1 := ⟨_, rfl, rfl, rfl, rfl⟩
  rcases hrun with ⟨s, hs, hreq, hw, hb⟩
  have hr := Trace.reaches_of_run boundRun hs
  have hmem : bindRequest ∈ s.requests := by
    rw [hreq]
    exact List.mem_cons_self
  have hcheck : checkduplicateAndUpdate (s.server.replyWindow 5) (s.server.windowBound 5) 1 0
      = some (.forgotten, [⟨2, none⟩], 1) := by
    rw [hw, hb]
    rfl
  exact ⟨s, hr, hmem, hcheck, forgotten_finished 9 [0x7001] s hr bindRequest hmem _ _ hcheck⟩

end Rpc

end Yfs
