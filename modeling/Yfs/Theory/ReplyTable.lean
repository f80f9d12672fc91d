import Yfs.Theory.ReplyWindow

/-!
# The Reply Window as a Table

What the server's windows hold after any calls of `checkduplicate_and_update` and
`add_reply`, for any clients. A window is a table from xids to replies: its entries are
sorted, so the loop that prunes from the front removes exactly the acknowledged ones, and
the loop that looks for a duplicate, which does not stop at a match, finds one entry at
most.

An entry is filled by an `add_reply` that comes later, if it comes at all, and a reply
for an entry that has been pruned is dropped. `latestReply` reads from the calls of the
past what an entry has to hold: the last reply since its xid was inserted. That, and
that every xid is above the bound, is the invariant.

The window of a client is not empty once a request of the client has been checked. An
`add_reply` does not make it so: without an entry there is nothing to fill.

## Main definitions

* `latestReply`: The reply that the past leaves for an xid.
* `Represents`: The window of one client after the calls of the past.
* `Checked`: What a `checkduplicate_and_update` answers and leaves.

## Theorems

* `prune_eq_filter`, `mem_addReply_iff`, `classify_of_mem`: The loops on a sorted window.
* `represents_check`, `represents_add`: The invariant after one call.
* `reply_window_table`: The windows after any calls.
-/

namespace Yfs

namespace Rpc

/-! ## Sorted windows -/

/-- A window in the order in which `insertReply` keeps it. -/
def Increasing (w : List ReplyT) : Prop :=
  w.Pairwise fun d e => d.xid < e.xid

/-- A new entry goes before the first one with a larger xid, so a sorted window stays sorted.
    Without `hx` there could be two entries with one xid. -/
theorem increasing_insertReply (xid : Nat) (w : List ReplyT) (hw : Increasing w)
    (hx : xid ∉ w.map ReplyT.xid) : Increasing (insertReply xid w) := by
  induction w with
  | nil => exact List.pairwise_singleton _ _
  | cons d w ih =>
      rcases List.pairwise_cons.mp hw with ⟨hd, hw'⟩
      rw [List.map_cons, List.mem_cons, not_or] at hx
      simp only [insertReply]
      -- The entry is put here, or somewhere in the rest.
      by_cases hlt : xid < d.xid
      · rw [if_pos hlt]
        refine List.pairwise_cons.mpr ⟨fun e he => ?_, hw⟩
        rcases List.mem_cons.mp he with rfl | he
        · exact hlt
        · exact Nat.lt_trans hlt (hd e he)
      · rw [if_neg hlt]
        refine List.pairwise_cons.mpr ⟨fun e he => ?_, ih hw' hx.2⟩
        rcases (mem_insertReply xid e w).mp he with rfl | he
        · have hne := hx.1
          dsimp only
          omega
        · exact hd e he

/-- From the front of a sorted window exactly the acknowledged entries go. The loop of the source
    stops at the first entry above `xid_rep` and needs one to be there; in a sorted window what
    follows that entry is above it as well, so to drop from the front is to filter. -/
theorem prune_eq_filter (xidRep : Nat) (w : List ReplyT) (hw : Increasing w)
    (hex : ∃ e ∈ w, xidRep < e.xid) :
    prune xidRep w = some (w.filter fun e => decide (xidRep < e.xid)) := by
  induction w with
  | nil =>
      rcases hex with ⟨e, he, _⟩
      exact absurd he List.not_mem_nil
  | cons d w ih =>
      rcases List.pairwise_cons.mp hw with ⟨hd, hw'⟩
      simp only [prune]
      by_cases hle : d.xid ≤ xidRep
      · rw [if_pos hle, List.filter_cons_of_neg (by rw [decide_eq_true_eq]; omega)]
        refine ih hw' ?_
        rcases hex with ⟨e, he, hlt⟩
        rcases List.mem_cons.mp he with rfl | he
        · omega
        · exact ⟨e, he, hlt⟩
      · -- The rest of the window is above its first entry.
        have hall : ∀ e ∈ d :: w, decide (xidRep < e.xid) = true := by
          intro e he
          rw [decide_eq_true_eq]
          rcases List.mem_cons.mp he with rfl | he
          · omega
          · have hlt := hd e he
            omega
        rw [if_neg hle, List.filter_eq_self.mpr hall]

/-- The entries after a reply has been recorded. The entry of the xid gets the reply; if there is
    none, as when the request has been acknowledged meanwhile, nothing happens. -/
theorem mem_addReply_iff (xid : Nat) (r : Reply) (w : List ReplyT) (hw : Increasing w)
    (e : ReplyT) : e ∈ addReply xid r w ↔
      e ∈ w ∧ e.xid ≠ xid ∨ e = ⟨xid, some r⟩ ∧ xid ∈ w.map ReplyT.xid := by
  induction w with
  | nil => simp only [addReply, List.not_mem_nil, List.map_nil, false_and, and_false, or_false]
  | cons d w ih =>
      rcases List.pairwise_cons.mp hw with ⟨hd, hw'⟩
      simp only [addReply, List.map_cons]
      by_cases hx : xid = d.xid
      · rw [if_pos hx, List.mem_cons, ← hx]
        constructor
        · rintro (he | he)
          · exact Or.inr ⟨he, List.mem_cons_self⟩
          · -- The rest of the window has larger xids.
            have hlt := hd e he
            exact Or.inl ⟨List.mem_cons_of_mem d he, by omega⟩
        · rintro (⟨he, hne⟩ | ⟨he, _⟩)
          · rcases List.mem_cons.mp he with rfl | he
            · exact absurd hx.symm hne
            · exact Or.inr he
          · exact Or.inl he
      · rw [if_neg hx, List.mem_cons, ih hw', List.mem_cons, List.mem_cons]
        constructor
        · rintro (rfl | ⟨he, hne⟩ | ⟨he, hin⟩)
          · exact Or.inl ⟨Or.inl rfl, fun h => hx h.symm⟩
          · exact Or.inl ⟨Or.inr he, hne⟩
          · exact Or.inr ⟨he, Or.inr hin⟩
        · rintro (⟨rfl | he, hne⟩ | ⟨he, hin⟩)
          · exact Or.inl rfl
          · exact Or.inr (Or.inl ⟨he, hne⟩)
          · exact Or.inr (Or.inr ⟨he, hin.resolve_left hx⟩)

/-- The search for an xid that is not in the window keeps the verdict it has started with. -/
theorem scan_of_notMem (xid : Nat) (w : List ReplyT) (ret : RpcState)
    (hx : xid ∉ w.map ReplyT.xid) : scan xid w ret = ret := by
  induction w generalizing ret with
  | nil => rfl
  | cons d w ih =>
      rw [List.map_cons, List.mem_cons, not_or] at hx
      rw [scan, if_neg hx.1, ih ret hx.2]

/-- What the entry of a duplicate says. -/
def ReplyT.verdict (e : ReplyT) : RpcState :=
  match e.cb with
  | some r => .done r
  | none => .inprogress

/-- The search for an xid that is in the window ends with the verdict of its entry. -/
theorem scan_of_mem (w : List ReplyT) (hw : Increasing w) (e : ReplyT) (he : e ∈ w)
    (ret : RpcState) : scan e.xid w ret = e.verdict := by
  induction w generalizing ret with
  | nil => exact absurd he List.not_mem_nil
  | cons d w ih =>
      rcases List.pairwise_cons.mp hw with ⟨hd, hw'⟩
      rcases List.mem_cons.mp he with rfl | he
      · -- After the match the loop finds no other entry with this xid.
        have hx : e.xid ∉ w.map ReplyT.xid := by
          intro hin
          rcases List.mem_map.mp hin with ⟨e', he', hx'⟩
          have hlt := hd e' he'
          omega
        rw [scan, if_pos rfl, scan_of_notMem e.xid w _ hx]
        rfl
      -- The entry is further behind, and whatever is found on the way to it is overwritten.
      · rw [scan]
        exact ih hw' he _

/-- The same of the whole test: an entry above the bound is found, since the window is not empty. -/
theorem classify_of_mem (w : List ReplyT) (bound : Nat) (hw : Increasing w) (e : ReplyT)
    (he : e ∈ w) (hb : bound < e.xid) : classify w bound e.xid = e.verdict := by
  have hne : w.isEmpty = false := by
    cases w with
    | nil => exact absurd he List.not_mem_nil
    | cons d w => rfl
  unfold classify
  rw [hne, if_neg Bool.false_ne_true, if_neg (Nat.not_le.mpr hb), scan_of_mem w hw e he]

/-- A request that is not in the window is new or forgotten. -/
theorem classify_of_notMem (w : List ReplyT) (bound xid : Nat) (hx : xid ∉ w.map ReplyT.xid) :
    classify w bound xid = .new ∨ classify w bound xid = .forgotten := by
  unfold classify
  by_cases hne : w.isEmpty = true
  · rw [if_pos hne]
    exact Or.inl rfl
  · rw [if_neg hne]
    by_cases hle : xid ≤ bound
    · rw [if_pos hle]
      exact Or.inr rfl
    · rw [if_neg hle, scan_of_notMem xid w .new hx]
      exact Or.inl rfl

/-- A new request is not in the window. -/
theorem notMem_of_new (w : List ReplyT) (bound xid : Nat) (h : classify w bound xid = .new) :
    xid ∉ w.map ReplyT.xid := by
  rcases (classify_new_iff w bound xid).mp h with rfl | ⟨_, hnot⟩
  · exact List.not_mem_nil
  · exact hnot

/-! ## Calls -/

/-- The last reply for `xid` of client `n` since the xid was last inserted. -/
def latestReply (n xid : Nat) : List (WindowCall × Option RpcState) → Option Reply
  | [] => none
  | (.addReply n' xid' r, _) :: past =>
      if n' = n ∧ xid' = xid then some r else latestReply n xid past
  | (.checkduplicateAndUpdate n' xid' _, ans) :: past =>
      if n' = n ∧ xid' = xid ∧ ans = some .new then none else latestReply n xid past

/-- Client `n` has had a request checked. -/
def HasChecked (n : Nat) (past : List (WindowCall × Option RpcState)) : Prop :=
  ∃ xid xidRep ans, (WindowCall.checkduplicateAndUpdate n xid xidRep, ans) ∈ past

/-- A request does not acknowledge itself. -/
def ordered (_ : WindowLog) : WindowCall → Bool
  | .checkduplicateAndUpdate _ xid xidRep => decide (xidRep < xid)
  | .addReply _ _ _ => true

/-- The window of client `n` after the calls of the past. -/
structure Represents (s : WindowLog) (n : Nat) : Prop where
  increasing : Increasing (s.server.replyWindow n)
  above : ∀ e ∈ s.server.replyWindow n, s.server.windowBound n < e.xid
  filled : ∀ e ∈ s.server.replyWindow n, e.cb = latestReply n e.xid s.past
  nonempty : HasChecked n s.past → s.server.replyWindow n ≠ []

/-- The answer `st` to a request of client `n`, and the server `srv` it leaves. -/
structure Checked (s : WindowLog) (n xid xidRep : Nat) (st : RpcState) (srv : Rpcs) : Prop where
  /-- A new request gets a fresh entry, and the acknowledged entries go. -/
  fresh : st = .new → xid ∉ (s.server.replyWindow n).map ReplyT.xid ∧
    ∀ e, e ∈ srv.replyWindow n ↔
      e ∈ s.server.replyWindow n ∧ xidRep < e.xid ∨ e = ⟨xid, none⟩
  unchanged : st ≠ .new → srv.replyWindow n = s.server.replyWindow n
  done : ∀ r, st = .done r ↔ xid ∈ (s.server.replyWindow n).map ReplyT.xid ∧
    latestReply n xid s.past = some r
  inprogress : st = .inprogress ↔ xid ∈ (s.server.replyWindow n).map ReplyT.xid ∧
    latestReply n xid s.past = none
  others : ∀ m, m ≠ n → srv.replyWindow m = s.server.replyWindow m ∧
    srv.windowBound m = s.server.windowBound m

theorem represents_new (nonce : Nat) (procs : List Nat) (n : Nat) :
    Represents ⟨Rpcs.new nonce procs, []⟩ n where
  increasing := List.Pairwise.nil
  above := fun e he => absurd he List.not_mem_nil
  filled := fun e he => absurd he List.not_mem_nil
  nonempty := by
    rintro ⟨xid, xidRep, ans, h⟩
    exact absurd h List.not_mem_nil

/-- A window that did not change represents a past that says nothing new about it. -/
theorem Represents.congr {s s' : WindowLog} {m : Nat} (h : Represents s m)
    (hw : s'.server.replyWindow m = s.server.replyWindow m)
    (hb : s'.server.windowBound m = s.server.windowBound m)
    (hl : ∀ xid ∈ (s.server.replyWindow m).map ReplyT.xid,
      latestReply m xid s'.past = latestReply m xid s.past)
    (hc : HasChecked m s'.past → s.server.replyWindow m ≠ []) : Represents s' m where
  increasing := hw ▸ h.increasing
  above := by
    rw [hw, hb]
    exact h.above
  filled := by
    rw [hw]
    intro e he
    rw [h.filled e he, hl e.xid (List.mem_map_of_mem he)]
  nonempty := hw ▸ hc

section Check

variable {s : WindowLog} {n : Nat} (h : Represents s n) (xid : Nat)
include h

/-- Where the search for a duplicate stops is decided by the past. -/
theorem Represents.classify_of_mem (hx : xid ∈ (s.server.replyWindow n).map ReplyT.xid) :
    classify (s.server.replyWindow n) (s.server.windowBound n) xid =
      ReplyT.verdict ⟨xid, latestReply n xid s.past⟩ := by
  rcases List.mem_map.mp hx with ⟨e, he, rfl⟩
  rw [Rpc.classify_of_mem _ _ h.increasing e he (h.above e he), ← h.filled e he]

/-- The two verdicts about a request that is in the window. -/
theorem Represents.classify_eq_iff {v : RpcState} (hnew : v ≠ .new) (hforgotten : v ≠ .forgotten) :
    classify (s.server.replyWindow n) (s.server.windowBound n) xid = v ↔
      xid ∈ (s.server.replyWindow n).map ReplyT.xid ∧
        ReplyT.verdict ⟨xid, latestReply n xid s.past⟩ = v := by
  by_cases hx : xid ∈ (s.server.replyWindow n).map ReplyT.xid
  · rw [h.classify_of_mem xid hx]
    exact ⟨fun hv => ⟨hx, hv⟩, fun hv => hv.2⟩
  -- Without an entry the verdict is one of the two that are excluded.
  · refine iff_of_false (fun hv => ?_) fun hv => hx hv.1
    rcases classify_of_notMem _ (s.server.windowBound n) xid hx with hc | hc
    · exact hnew (hv ▸ hc)
    · exact hforgotten (hv ▸ hc)

theorem Represents.classify_done_iff (r : Reply) :
    classify (s.server.replyWindow n) (s.server.windowBound n) xid = .done r ↔
      xid ∈ (s.server.replyWindow n).map ReplyT.xid ∧ latestReply n xid s.past = some r := by
  rw [h.classify_eq_iff xid RpcState.noConfusion RpcState.noConfusion]
  cases latestReply n xid s.past <;> simp [ReplyT.verdict]

theorem Represents.classify_inprogress_iff :
    classify (s.server.replyWindow n) (s.server.windowBound n) xid = .inprogress ↔
      xid ∈ (s.server.replyWindow n).map ReplyT.xid ∧ latestReply n xid s.past = none := by
  rw [h.classify_eq_iff xid RpcState.noConfusion RpcState.noConfusion]
  cases latestReply n xid s.past <;> simp [ReplyT.verdict]

/-- The loops of `checkduplicate_and_update` on a window of the table, in closed form: a new request
    is inserted and what it acknowledges is filtered out, and nothing happens for any other. -/
theorem Represents.check_eq (xidRep : Nat) (hlt : xidRep < xid) :
    checkduplicateAndUpdate (s.server.replyWindow n) (s.server.windowBound n) xid xidRep =
      if classify (s.server.replyWindow n) (s.server.windowBound n) xid = .new then
        some (.new, (insertReply xid (s.server.replyWindow n)).filter
          (fun e => decide (xidRep < e.xid)), xidRep)
      else some (classify (s.server.replyWindow n) (s.server.windowBound n) xid,
        s.server.replyWindow n, s.server.windowBound n) := by
  by_cases hnew : classify (s.server.replyWindow n) (s.server.windowBound n) xid = .new
  · have hsorted := increasing_insertReply xid _ h.increasing (notMem_of_new _ _ xid hnew)
    -- The new entry itself is above `xid_rep`, so the pruning loop ends in the list.
    have hex : ∃ e ∈ insertReply xid (s.server.replyWindow n), xidRep < e.xid :=
      ⟨⟨xid, none⟩, (mem_insertReply xid _ _).mpr (Or.inl rfl), hlt⟩
    rw [if_pos hnew]
    simp only [checkduplicateAndUpdate, hnew, prune_eq_filter xidRep _ hsorted hex,
      Option.map_some]
  · rw [if_neg hnew]
    unfold checkduplicateAndUpdate
    cases hc : classify (s.server.replyWindow n) (s.server.windowBound n) xid <;>
      first | exact absurd hc hnew | rfl

/-- What the call answers and leaves. Only a new request moves the bound, and a request
    is new if the window is empty. -/
theorem Represents.checked (xidRep : Nat) (hlt : xidRep < xid) : ∃ st srv,
    s.server.perform (.checkduplicateAndUpdate n xid xidRep) = some (some st, srv) ∧
    Checked s n xid xidRep st srv ∧ Increasing (srv.replyWindow n) ∧
    srv.windowBound n = (if st = .new then xidRep else s.server.windowBound n) ∧
    (s.server.replyWindow n = [] → st = .new) := by
  have hcheck := h.check_eq xid xidRep hlt
  have hdone := h.classify_done_iff xid
  have hin := h.classify_inprogress_iff xid
  -- The closed form of the call is used on both sides of its test.
  by_cases hnew : classify (s.server.replyWindow n) (s.server.windowBound n) xid = .new
  · have hsorted := increasing_insertReply xid _ h.increasing (notMem_of_new _ _ xid hnew)
    rw [if_pos hnew] at hcheck
    rw [hnew] at hdone hin
    refine ⟨.new, _, by simp only [Rpcs.perform, hcheck, Option.map_some]; rfl,
      ⟨fun _ => ⟨notMem_of_new _ _ xid hnew, fun e => ?_⟩, fun hne => absurd rfl hne, hdone, hin,
        fun m hm => ⟨Function.update_of_ne hm _ _, Function.update_of_ne hm _ _⟩⟩, ?_, ?_,
      fun _ => rfl⟩
    · dsimp only
      rw [Function.update_self, List.mem_filter, mem_insertReply, decide_eq_true_eq]
      constructor
      · rintro ⟨rfl | he, hx⟩
        · exact Or.inr rfl
        · exact Or.inl ⟨he, hx⟩
      · rintro (⟨he, hx⟩ | rfl)
        · exact ⟨Or.inr he, hx⟩
        · exact ⟨Or.inl rfl, hlt⟩
    · dsimp only
      rw [Function.update_self]
      exact hsorted.filter _
    · dsimp only
      rw [Function.update_self, if_pos rfl]
  · rw [if_neg hnew] at hcheck
    refine ⟨_, _, by simp only [Rpcs.perform, hcheck, Option.map_some]; rfl,
      ⟨fun h => absurd h hnew, fun _ => Function.update_self _ _ _, hdone, hin,
        fun m hm => ⟨Function.update_of_ne hm _ _, Function.update_of_ne hm _ _⟩⟩, ?_, ?_, ?_⟩
    · dsimp only
      rw [Function.update_self]
      exact h.increasing
    · dsimp only
      rw [Function.update_self, if_neg hnew]
    · intro hempty
      rw [hempty]
      rfl

end Check

/-- A request of client `n` is checked. The window of `n` changes only for a new request, and those
    of the others not at all. -/
theorem represents_check (s s' : WindowLog) (n xid xidRep : Nat) (h : ∀ m, Represents s m)
    (hlt : xidRep < xid) (hs : s.step (.checkduplicateAndUpdate n xid xidRep) = some s')
    (m : Nat) : Represents s' m := by
  rcases (h n).checked xid xidRep hlt with ⟨st, srv, hperf, hc, hsorted, hbound, hempty⟩
  simp only [WindowLog.step, hperf, Option.map_some, Option.some.injEq] at hs
  subst hs
  by_cases hm : m = n
  · subst hm
    -- The call itself says something new only about the xid that it inserts.
    have hlatest : ∀ x, (x = xid → st ≠ .new) →
        latestReply m x ((.checkduplicateAndUpdate m xid xidRep, some st) :: s.past) =
          latestReply m x s.past := by
      intro x hx
      rw [latestReply, if_neg]
      rintro ⟨_, heq, hst⟩
      exact hx heq.symm (Option.some.inj hst)
    -- A new request: the entries that stay are above the new bound, and the new one has no reply.
    by_cases hnew : st = .new
    · rcases hc.fresh hnew with ⟨hnot, hmem⟩
      rw [if_pos hnew] at hbound
      refine ⟨hsorted, fun e he => ?_, fun e he => ?_, fun _ hnil => ?_⟩
      · dsimp only at he ⊢
        rw [hbound]
        rcases (hmem e).mp he with ⟨_, hx⟩ | rfl
        · exact hx
        · exact hlt
      · dsimp only at he ⊢
        rcases (hmem e).mp he with ⟨he', _⟩ | rfl
        · rw [hlatest e.xid fun heq => absurd (heq ▸ List.mem_map_of_mem he') hnot]
          exact (h m).filled e he'
        · rw [latestReply, if_pos ⟨rfl, rfl, congrArg some hnew⟩]
      · dsimp only at hnil
        have hfresh := (hmem ⟨xid, none⟩).mpr (Or.inr rfl)
        rw [hnil] at hfresh
        exact List.not_mem_nil hfresh
    · rw [if_neg hnew] at hbound
      exact (h m).congr (hc.unchanged hnew) hbound (fun x _ => hlatest x fun _ => hnew)
        (fun _ hnil => hnew (hempty hnil))
  -- The window of another client is the same, and the call is not in its past.
  · rcases hc.others m hm with ⟨hw, hb⟩
    refine (h m).congr hw hb (fun x _ => ?_) (fun hchecked => (h m).nonempty ?_)
    · rw [latestReply, if_neg]
      exact fun heq => hm heq.1.symm
    · rcases hchecked with ⟨x, xr, ans, hin⟩
      rcases List.mem_cons.mp hin with heq | hin
      · cases heq
        exact absurd rfl hm
      · exact ⟨x, xr, ans, hin⟩

/-- A reply of client `n` is recorded. It fills an entry and moves none, and the past now says that
    this is the latest reply for the xid. -/
theorem represents_add (s s' : WindowLog) (n xid : Nat) (r : Reply) (h : ∀ m, Represents s m)
    (hs : s.step (.addReply n xid r) = some s') (m : Nat) : Represents s' m := by
  simp only [WindowLog.step, Rpcs.perform, Option.map_some, Option.some.injEq] at hs
  subst hs
  have hchecked : ∀ m, HasChecked m ((.addReply n xid r, none) :: s.past) →
      s.server.replyWindow m ≠ [] := by
    rintro m ⟨x, xr, ans, hin⟩
    rcases List.mem_cons.mp hin with heq | hin
    · cases heq
    · exact (h m).nonempty ⟨x, xr, ans, hin⟩
  by_cases hm : m = n
  · subst hm
    have hxids := map_xid_addReply xid r (s.server.replyWindow m)
    refine ⟨?_, fun e he => ?_, fun e he => ?_, fun hc hnil => ?_⟩ <;>
      dsimp only at * <;> rw [Function.update_self] at *
    · -- The order is a matter of the xids alone.
      have hpair := List.pairwise_map.mpr (h m).increasing
      rw [← hxids] at hpair
      exact List.pairwise_map.mp hpair
    · have hin : e.xid ∈ (s.server.replyWindow m).map ReplyT.xid :=
        hxids ▸ List.mem_map_of_mem he
      rcases List.mem_map.mp hin with ⟨d, hd, hx⟩
      rw [← hx]
      exact (h m).above d hd
    · rcases (mem_addReply_iff xid r _ (h m).increasing e).mp he with ⟨he', hne⟩ | ⟨rfl, _⟩
      · rw [latestReply, if_neg fun heq => hne heq.2.symm]
        exact (h m).filled e he'
      · rw [latestReply, if_pos ⟨rfl, rfl⟩]
    · rw [hnil, List.map_nil] at hxids
      exact hchecked m hc (List.map_eq_nil_iff.mp hxids.symm)
  · refine (h m).congr (Function.update_of_ne hm _ _) rfl (fun x _ => ?_) (hchecked m)
    rw [latestReply, if_neg]
    exact fun heq => hm heq.1.symm

/-- Along every run in which no request acknowledges itself, the windows of all clients represent
    the past. -/
theorem represents_reachable (nonce : Nat) (procs : List Nat) (s : WindowLog)
    (h : Trace.Reaches WindowLog.step (fun s call => ordered s call = true)
      ⟨Rpcs.new nonce procs, []⟩ s) (n : Nat) : Represents s n := by
  refine Trace.invariant_of_step (fun s => ∀ n, Represents s n) (represents_new nonce procs)
    ?_ h n
  intro s call s' hi hok hs
  cases call with
  | checkduplicateAndUpdate n xid xidRep =>
      exact represents_check s s' n xid xidRep hi (of_decide_eq_true hok) hs
  | addReply n xid r => exact represents_add s s' n xid r hi hs

/-- The windows after any calls for any clients, and what the next call does to them. A window is
    sorted, it is not empty once a request has been checked, and its entries are above the bound. A
    check always returns: the answer is read off the window and the replies recorded so far, and
    only a new request changes the window. No call touches the window of another client. -/
theorem reply_window_table (nonce : Nat) (procs : List Nat) (s : WindowLog)
    (h : Trace.Reaches WindowLog.step (fun s call => ordered s call = true)
      ⟨Rpcs.new nonce procs, []⟩ s) :
    (∀ n, Increasing (s.server.replyWindow n) ∧
      (HasChecked n s.past → s.server.replyWindow n ≠ []) ∧
      ∀ e ∈ s.server.replyWindow n, s.server.windowBound n < e.xid) ∧
    (∀ n xid xidRep, xidRep < xid → ∃ st srv,
      s.server.perform (.checkduplicateAndUpdate n xid xidRep) = some (some st, srv) ∧
      Checked s n xid xidRep st srv) ∧
    ∀ n xid r, ∃ srv, s.server.perform (.addReply n xid r) = some (none, srv) ∧
      ∀ m, m ≠ n → srv.replyWindow m = s.server.replyWindow m ∧
        srv.windowBound m = s.server.windowBound m := by
  have hrep := represents_reachable nonce procs s h
  refine ⟨fun n => ⟨(hrep n).increasing, (hrep n).nonempty, (hrep n).above⟩, ?_, ?_⟩
  · intro n xid xidRep hlt
    rcases (hrep n).checked xid xidRep hlt with ⟨st, srv, hperf, hc, _⟩
    exact ⟨st, srv, hperf, hc⟩
  · intro n xid r
    exact ⟨_, rfl, fun m hm => ⟨Function.update_of_ne hm _ _, rfl⟩⟩

/-- A window with a reply, an entry that waits for one, and a reply that came too late. -/
def tableRun : List WindowCall :=
  [.checkduplicateAndUpdate 5 1 0, .checkduplicateAndUpdate 5 3 0,
    .addReply 5 3 ⟨3, 0, [7]⟩, .checkduplicateAndUpdate 5 2 1, .addReply 5 1 ⟨1, 0, []⟩]

theorem reply_window_table_run :
    ∃ s, Trace.Reaches WindowLog.step (fun s call => ordered s call = true) ⟨Rpcs.new 9 [], []⟩ s ∧
      s.server.replyWindow 5 = [⟨2, none⟩, ⟨3, some ⟨3, 0, [7]⟩⟩] ∧
      Increasing (s.server.replyWindow 5) := by
  have hrun : Trace.Reaches WindowLog.step (fun s call => ordered s call = true)
      ⟨Rpcs.new 9 [], []⟩ _ := Trace.reaches_of_run tableRun rfl
  exact ⟨_, hrun, rfl, ((reply_window_table 9 [] _ hrun).1 5).1⟩

/-- A first call that is an `add_reply` leaves the window empty. -/
theorem window_empty_after_add :
    ∃ s, Trace.Reaches WindowLog.step (fun s call => ordered s call = true) ⟨Rpcs.new 9 [], []⟩ s ∧
      s.past = [(.addReply 5 1 ⟨1, 0, []⟩, none)] ∧ s.server.replyWindow 5 = [] :=
  ⟨_, Trace.Reaches.step _ (.addReply 5 1 ⟨1, 0, []⟩) _ Trace.Reaches.init rfl rfl, rfl, rfl⟩

end Rpc

end Yfs
