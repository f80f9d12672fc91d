import Yfs.Theory.Acknowledge

/-!
# At-Most-Once Execution

A request whose handler has been started is recognised later if its number is
still in the client's window, or is at or below the client's bound. Pruning moves
numbers from the first place to the second one, and that is sound as long as the
bound does not go down.

It can. A new request overwrites the bound with its own `xid_rep`, and requests
that a client issued together can arrive late: one that was packed before an
acknowledgement and is processed after it takes the bound back to the older value,
and the numbers in between are in neither place any more. `executed_twice` is such
a run, and `boundKept` the condition that rules it out: a request that is about to
be answered `NEW` does not acknowledge less than the server has already been told.

## Main definitions

* `boundKept`: The condition on a dispatched request.
* `OnceInv`: Every started request is still recognised.

## Theorems

* `checkduplicate_defined`: Pruning does not run out of entries.
* `onceInv_reachable`: The invariant along every run under the condition.
* `executed_nodup`: No handler is started twice along such a run.
* `executed_twice`: A handler started twice without the condition.
-/

namespace Yfs

namespace Rpc

/-- A request above the bound that is not in the window acknowledges at least the
    bound. -/
def boundKept (s : Sys) : Action → Bool
  | .dispatch r =>
      decide (r.xid ≤ s.server.windowBound r.cltNonce ∨
        r.xid ∈ (s.server.replyWindow r.cltNonce).map ReplyT.xid ∨
        s.server.windowBound r.cltNonce ≤ r.xidRep)
  | _ => true

/-- A request that is not acknowledged by its own header survives the pruning. -/
theorem prune_insertReply (xid xidRep : Nat) (hlt : xidRep < xid) (w : List ReplyT) :
    ∃ w', prune xidRep (insertReply xid w) = some w' := by
  apply Option.isSome_iff_exists.mp
  rw [prune_isSome_iff]
  exact ⟨⟨xid, none⟩, (mem_insertReply xid _ w).mpr (Or.inl rfl), hlt⟩

/-- In every run, `checkduplicate_and_update` is defined on every request. -/
theorem checkduplicate_defined (s : Sys) (hi : AckInv s) (r : Request) (hr : r ∈ s.requests) :
    ∃ res, checkduplicateAndUpdate (s.server.replyWindow r.cltNonce)
      (s.server.windowBound r.cltNonce) r.xid r.xidRep = some res := by
  rcases prune_insertReply r.xid r.xidRep (hi.xidRep r hr).1 (s.server.replyWindow r.cltNonce)
    with ⟨w', hw'⟩
  simp only [checkduplicateAndUpdate]
  split
  · rw [hw']
    exact ⟨_, rfl⟩
  · exact ⟨_, rfl⟩

/-- Every request whose handler was started is still recognised. -/
structure OnceInv (s : Sys) : Prop where
  seen : ∀ n x, (n, x) ∈ s.executed →
    x ∈ (s.server.replyWindow n).map ReplyT.xid ∨ x ≤ s.server.windowBound n
  nonempty : ∀ n x, (n, x) ∈ s.executed → s.server.replyWindow n ≠ []
  nodup : s.executed.Nodup

theorem onceInv_init (nonce : Nat) (procs : List Nat) : OnceInv (init nonce procs) where
  seen := fun _ _ h => absurd h List.not_mem_nil
  nonempty := fun _ _ h => absurd h List.not_mem_nil
  nodup := List.nodup_nil

/-- The invariant is about the started requests and the server's windows only. -/
theorem onceInv_congr (s s' : Sys) (hi : OnceInv s) (he : s'.executed = s.executed)
    (hw : ∀ n, (s'.server.replyWindow n).map ReplyT.xid
      = (s.server.replyWindow n).map ReplyT.xid)
    (hb : s'.server.windowBound = s.server.windowBound) : OnceInv s' := by
  refine ⟨?_, ?_, by rw [he]; exact hi.nodup⟩
  · rw [he, hb]
    intro n x h
    rw [hw]
    exact hi.seen n x h
  · rw [he]
    intro n x h hnil
    have hmap := hw n
    rw [hnil, List.map_nil] at hmap
    exact hi.nonempty n x h (List.map_eq_nil_iff.mp hmap.symm)

theorem not_executed_of_new (s : Sys) (hi : OnceInv s) (n xid : Nat)
    (h : classify (s.server.replyWindow n) (s.server.windowBound n) xid = .new) :
    (n, xid) ∉ s.executed := by
  intro hex
  rcases (classify_new_iff _ _ _).mp h with hempty | ⟨hgt, hnot⟩
  · exact hi.nonempty n xid hex hempty
  · -- What was started is in the window or at or below the bound.
    rcases hi.seen n xid hex with hin | hle
    · exact hnot hin
    · exact Nat.not_lt.mpr hle hgt

/-- Starting a new request: the window and the bound that were written recognise everything the old
    ones did, and the request itself. What the window loses is at or below the new bound; that this
    is not below the old one is what `boundKept` asks for. -/
theorem onceInv_new (s : Sys) (hi : OnceInv s) (r : Request) (w : List ReplyT)
    (hnew : classify (s.server.replyWindow r.cltNonce) (s.server.windowBound r.cltNonce) r.xid
      = .new)
    (hw : prune r.xidRep (insertReply r.xid (s.server.replyWindow r.cltNonce)) = some w)
    (hok : boundKept s (.dispatch r) = true) :
    OnceInv ((s.setWindow r.cltNonce w r.xidRep).start r) := by
  have hfresh := not_executed_of_new s hi r.cltNonce r.xid hnew
  rcases prune_suffix _ _ _ hw with ⟨hne, p, hp, hall⟩
  -- What was inserted or in the window is in `w`, or was dropped below the bound.
  have hkept : ∀ e, e = ⟨r.xid, none⟩ ∨ e ∈ s.server.replyWindow r.cltNonce →
      e.xid ∈ w.map ReplyT.xid ∨ e.xid ≤ r.xidRep := by
    intro e he
    have hin := (mem_insertReply r.xid e _).mpr he
    rw [hp] at hin
    rcases List.mem_append.mp hin with hin | hin
    · exact Or.inr (hall e hin)
    · exact Or.inl (List.mem_map_of_mem hin)
  -- The condition on the step: the bound does not go back.
  have hbound : s.server.replyWindow r.cltNonce ≠ [] →
      s.server.windowBound r.cltNonce ≤ r.xidRep := by
    intro hnil
    rcases ((classify_new_iff _ _ _).mp hnew).resolve_left hnil with ⟨hgt, hnot⟩
    simp only [boundKept, decide_eq_true_eq] at hok
    rcases hok with hle | hin | hge
    · exact absurd hgt (Nat.not_lt.mpr hle)
    · exact absurd hin hnot
    · exact hge
  refine ⟨?_, ?_, ?_⟩
  · intro n x hex
    by_cases hn : n = r.cltNonce
    · subst hn
      simp only [Sys.start, Sys.setWindow, Function.update_self]
      rcases List.mem_append.mp hex with hex | hex
      · rcases hi.seen _ x hex with hin | hle
        · rcases List.mem_map.mp hin with ⟨e, he, rfl⟩
          exact hkept e (Or.inr he)
        · exact Or.inr (Nat.le_trans hle (hbound (hi.nonempty _ x hex)))
      · cases List.mem_singleton.mp hex
        exact hkept ⟨r.xid, none⟩ (Or.inl rfl)
    · simp only [Sys.start, Sys.setWindow, Function.update_of_ne hn]
      rcases List.mem_append.mp hex with hex | hex
      · exact hi.seen n x hex
      · exact absurd (congrArg Prod.fst (List.mem_singleton.mp hex)) hn
  · intro n x hex
    by_cases hn : n = r.cltNonce
    · subst hn
      simp only [Sys.start, Sys.setWindow, Function.update_self]
      exact hne
    · simp only [Sys.start, Sys.setWindow, Function.update_of_ne hn]
      rcases List.mem_append.mp hex with hex | hex
      · exact hi.nonempty n x hex
      · exact absurd (congrArg Prod.fst (List.mem_singleton.mp hex)) hn
  · simp only [Sys.start, Sys.setWindow]
    refine List.nodup_append.mpr ⟨hi.nodup, List.nodup_singleton _, ?_⟩
    intro a ha b hb hab
    rw [List.mem_singleton.mp hb] at hab
    rw [hab] at ha
    exact hfresh ha

theorem onceInv_dispatch (s s' : Sys) (r : Request) (hi : OnceInv s) (hn : r.cltNonce ≠ 0)
    (hok : boundKept s (.dispatch r) = true) (h : s.dispatch r = some s') : OnceInv s' := by
  simp only [Sys.dispatch, if_neg hn] at h
  split at h
  · cases h
    exact onceInv_congr s _ hi rfl (fun _ => rfl) rfl
  · split at h
    · cases h
    · split at h
      · cases h
      · rename_i st w bound hcheck
        cases h
        -- The window after the check, and why it is what it is.
        have hc := checkduplicate_cases _ _ _ _ _ _ _ hcheck
        rcases hc.2 with ⟨rfl, hprune, rfl⟩ | ⟨hne, rfl, rfl⟩
        · exact onceInv_new s hi r w hc.1.symm hprune hok
        · -- The other answers write the window and the bound back as they were.
          have hsame : s.setWindow r.cltNonce (s.server.replyWindow r.cltNonce)
              (s.server.windowBound r.cltNonce) = s := by
            simp only [Sys.setWindow, Function.update_eq_self]
          rw [hsame]
          cases st with
          | new => exact absurd rfl hne
          | inprogress => exact hi
          | done rep => exact onceInv_congr s _ hi rfl (fun _ => rfl) rfl
          | forgotten => exact onceInv_congr s _ hi rfl (fun _ => rfl) rfl

theorem onceInv_handlerReturns (s : Sys) (r : Request) (rep : Reply) (hi : OnceInv s) :
    OnceInv (s.handlerReturns r rep) := by
  simp only [Sys.handlerReturns]
  split
  -- Recording a reply fills an entry and keeps its xid.
  · refine onceInv_congr s _ hi rfl ?_ ?_
    · intro n
      simp only [Sys.setWindow]
      by_cases hn : n = r.cltNonce
      · rw [hn, Function.update_self, map_xid_addReply]
      · rw [Function.update_of_ne hn]
    · simp only [Sys.setWindow, Function.update_eq_self]
  · exact onceInv_congr s _ hi rfl (fun _ => rfl) rfl

theorem onceInv_step (s : Sys) (a : Action) (s' : Sys) (ha : AckInv s) (hi : OnceInv s)
    (hok : boundKept s a = true) (h : step s a = some s') : OnceInv s' := by
  -- What happens at a client is no matter of the server's windows.
  have hclient : ∀ n c, OnceInv (s.setClient n c) :=
    fun n c => onceInv_congr s _ hi rfl (fun _ => rfl) rfl
  cases a with
  | call1 n proc args =>
      simp only [step] at h
      split at h
      · cases h
        exact onceInv_congr s _ hi rfl (fun _ => rfl) rfl
      · cases h
        exact hi
  | gotPdu n r =>
      simp only [step] at h
      split at h <;> cases h
      exact hclient n _
  | strayPdu n r =>
      simp only [step] at h
      split at h <;> cases h
      exact hclient n _
  | endCall n xid =>
      rcases Option.map_eq_some_iff.mp h with ⟨c, _, rfl⟩
      exact hclient n c
  | bindReturns n o =>
      rcases Option.map_eq_some_iff.mp h with ⟨c, _, rfl⟩
      exact hclient n c
  | cancel n =>
      cases h
      exact hclient n _
  | dispatch r =>
      simp only [step] at h
      split at h
      · rename_i hr
        exact onceInv_dispatch s s' r hi (ha.nonce r hr) hok h
      · cases h
  | handlerReturns r ret body =>
      simp only [step] at h
      split at h <;> cases h
      exact onceInv_handlerReturns s r _ hi

/-- The runs that are considered: well-behaved clients, and no late request that
    acknowledges less than the bound. -/
def orderly (s : Sys) (a : Action) : Bool :=
  env s a && boundKept s a

theorem onceInv_reachable (nonce : Nat) (procs : List Nat) (s : Sys)
    (h : Trace.Reaches step (fun s a => orderly s a = true) (init nonce procs) s) : OnceInv s := by
  refine (Trace.invariant_of_step (fun s => AckInv s ∧ OnceInv s)
    ⟨ackInv_init nonce procs, onceInv_init nonce procs⟩ ?_ h).2
  rintro s a s' ⟨ha, hi⟩ hok hs
  have hok' := Bool.and_eq_true_iff.mp hok
  exact ⟨ackInv_step s a s' ha hok'.1 hs, onceInv_step s a s' ha hi hok'.2 hs⟩

/-- No handler is started twice for the same request, in runs with well-behaved clients in which no
    late request sets the bound back. The bound is whatever the last new request acknowledges, so
    requests that are processed out of order can make it smaller, and what lies between is forgotten
    as seen and taken for new. -/
theorem executed_nodup (nonce : Nat) (procs : List Nat) (s : Sys)
    (h : Trace.Reaches step (fun s a => orderly s a = true) (init nonce procs) s) :
    s.executed.Nodup :=
  (onceInv_reachable nonce procs s h).nodup

/-- Three calls of a bound client, the first two issued together. -/
def firstCall : Request := ⟨2, 0x7001, 5, 9, 1, []⟩

def lateCall : Request := ⟨3, 0x7001, 5, 9, 1, []⟩

def thirdCall : Request := ⟨4, 0x7001, 5, 9, 2, []⟩

/-- Two calls are issued together; the first one is answered, and the reply
    arrives; a third call acknowledges it. -/
def answeredRun : List Action :=
  [.call1 5 1 [0, 0, 0, 0], .dispatch bindRequest, .handlerReturns bindRequest 0 [0, 0, 0, 9],
   .gotPdu 5 ⟨1, 0, [0, 0, 0, 9]⟩, .endCall 5 1, .bindReturns 5 ⟨1, 1, 0, some [0, 0, 0, 9]⟩,
   .call1 5 0x7001 [], .call1 5 0x7001 [],
   .dispatch firstCall, .handlerReturns firstCall 0 [], .gotPdu 5 ⟨2, 0, []⟩,
   .call1 5 0x7001 []]

/-- In order: the late call comes before the third one, and a duplicate of the
    first one after both. -/
theorem executed_nodup_in_order :
    ∃ s, Trace.Reaches step (fun s a => orderly s a = true) (init 9 [0x7001]) s ∧
      s.executed = [(5, 1), (5, 2), (5, 3), (5, 4)] ∧ s.executed.Nodup := by
  have hrun : ∃ s, Trace.run step orderly (init 9 [0x7001])
      (answeredRun ++ [.dispatch lateCall, .dispatch thirdCall, .dispatch firstCall]) = some s ∧
      s.executed = [(5, 1), (5, 2), (5, 3), (5, 4)] := ⟨_, rfl, rfl⟩
  rcases hrun with ⟨s, hs, hex⟩
  have hr := Trace.reaches_of_run _ hs
  exact ⟨s, hr, hex, executed_nodup 9 [0x7001] s hr⟩

/-- The third call is processed first and the late one after it: the bound goes
    back, and the duplicate of the first call is new again. -/
theorem executed_twice :
    ∃ s, Trace.Reaches step (fun s a => env s a = true) (init 9 [0x7001]) s ∧
      s.executed = [(5, 1), (5, 2), (5, 4), (5, 3), (5, 2)] ∧ ¬ s.executed.Nodup := by
  have hrun : ∃ s, Trace.run step env (init 9 [0x7001])
      (answeredRun ++ [.dispatch thirdCall, .dispatch lateCall, .dispatch firstCall]) = some s ∧
      s.executed = [(5, 1), (5, 2), (5, 4), (5, 3), (5, 2)] := ⟨_, rfl, rfl⟩
  rcases hrun with ⟨s, hs, hex⟩
  refine ⟨s, Trace.reaches_of_run _ hs, hex, ?_⟩
  rw [hex]
  decide

end Rpc

end Yfs
