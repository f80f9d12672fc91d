import Yfs.Core.Rpc

/-!
# The Reply Window

The loops of the server's window of replies, one lemma for what each can return.
`checkduplicate_cases` puts them together: a new request is inserted, the
acknowledged entries are dropped and the bound becomes the request's `xid_rep`;
any other request changes nothing.

The loop that drops entries has no test for the end of the list: it stops at an entry
above `xid_rep` and nowhere else. Both numbers of a header are the peer's, and the entry
that was just inserted stops the loop only if its xid is above `xid_rep`.
`pruning_defined_iff` is when the loop ends, for any window and any header.

## Theorems

* `mem_insertReply`, `mem_addReply`, `prune_suffix`: The entries after each loop.
* `prune_isSome_iff`: When there is an entry to stop at.
* `scan_new_iff`, `scan_done`: What the search for a duplicate says.
* `classify_new_iff`, `classify_done`, `classify_forgotten`: Where an answer comes from.
* `checkduplicate_cases`: The effect of `checkduplicate_and_update`.
* `pruning_defined_iff`: The headers for which the list is not read past its end.
-/

namespace Yfs

namespace Rpc

/-- A new request has an entry without a reply, and the others keep theirs. -/
theorem mem_insertReply (xid : Nat) (e : ReplyT) (w : List ReplyT) :
    e ∈ insertReply xid w ↔ e = ⟨xid, none⟩ ∨ e ∈ w := by
  induction w with
  | nil => simp only [insertReply, List.mem_singleton, List.not_mem_nil, or_false]
  | cons d w ih =>
      simp only [insertReply]
      split
      · exact List.mem_cons
      · simp only [List.mem_cons, ih]
        exact or_left_comm

/-- Recording a reply keeps the xids. -/
theorem map_xid_addReply (xid : Nat) (r : Reply) (w : List ReplyT) :
    (addReply xid r w).map ReplyT.xid = w.map ReplyT.xid := by
  induction w with
  | nil => rfl
  | cons d w ih =>
      simp only [addReply]
      split
      · rfl
      · rw [List.map_cons, List.map_cons, ih]

/-- An entry is as it was, or it has the reply that is recorded. -/
theorem mem_addReply (xid : Nat) (r : Reply) (e : ReplyT) (w : List ReplyT)
    (h : e ∈ addReply xid r w) : e ∈ w ∨ e.cb = some r := by
  induction w with
  | nil => exact absurd h List.not_mem_nil
  | cons d w ih =>
      simp only [addReply] at h
      split at h
      · rcases List.mem_cons.mp h with rfl | h
        · exact Or.inr rfl
        · exact Or.inl (List.mem_cons_of_mem d h)
      · rcases List.mem_cons.mp h with rfl | h
        · exact Or.inl List.mem_cons_self
        · rcases ih h with h | h
          · exact Or.inl (List.mem_cons_of_mem d h)
          · exact Or.inr h

/-- Pruning drops a prefix whose xids are all acknowledged, and leaves something: it stops only at
    an entry. -/
theorem prune_suffix (xidRep : Nat) (w w' : List ReplyT) (h : prune xidRep w = some w') :
    w' ≠ [] ∧ ∃ p, w = p ++ w' ∧ ∀ e ∈ p, e.xid ≤ xidRep := by
  induction w with
  | nil => cases h
  | cons d w ih =>
      simp only [prune] at h
      split at h
      -- The first entry goes, and it is put in front of what the rest loses.
      · rename_i hle
        rcases ih h with ⟨hne, p, hp, hall⟩
        refine ⟨hne, d :: p, by rw [hp, List.cons_append], ?_⟩
        intro e he
        rcases List.mem_cons.mp he with rfl | he
        · exact hle
        · exact hall e he
      · cases h
        exact ⟨List.cons_ne_nil d w, [], rfl, fun e he => absurd he List.not_mem_nil⟩

/-- The loop ends at an entry above `xid_rep`, in whatever order the entries are. -/
theorem prune_isSome_iff (xidRep : Nat) (w : List ReplyT) :
    (prune xidRep w).isSome = true ↔ ∃ e ∈ w, xidRep < e.xid := by
  induction w with
  | nil => simp only [prune, Option.isSome_none, Bool.false_eq_true, List.not_mem_nil,
      false_and, exists_false]
  | cons d w ih =>
      simp only [prune, List.mem_cons, exists_eq_or_imp]
      by_cases hle : d.xid ≤ xidRep
      · rw [if_pos hle, ih, or_iff_right (Nat.not_lt.mpr hle)]
      · rw [if_neg hle, Option.isSome_some]
        exact iff_of_true rfl (Or.inl (Nat.not_le.mp hle))

/-- The search says `NEW` exactly if the xid is not in the window. -/
theorem scan_new_iff (xid : Nat) (w : List ReplyT) :
    scan xid w .new = .new ↔ xid ∉ w.map ReplyT.xid := by
  -- The loop goes on after a match, so the induction is over any verdict so far.
  have hgen : ∀ (w : List ReplyT) (ret : RpcState),
      scan xid w ret = .new ↔ ret = .new ∧ xid ∉ w.map ReplyT.xid := by
    intro w
    induction w with
    | nil =>
        intro ret
        simp only [scan, List.map_nil, List.not_mem_nil, not_false_eq_true, and_true]
    | cons e w ih =>
        intro ret
        simp only [scan, ih, List.map_cons, List.mem_cons, not_or]
        by_cases hx : xid = e.xid
        · rw [if_pos hx]
          cases e.cb <;> simp only [hx, reduceCtorEq, not_true_eq_false, false_and, and_false]
        · rw [if_neg hx]
          exact and_congr_right fun _ => (and_iff_right hx).symm
  rw [hgen]
  exact and_iff_right rfl

/-- A remembered reply comes from an entry with the request's xid. -/
theorem scan_done (xid : Nat) (w : List ReplyT) (r : Reply) (ret : RpcState)
    (h : scan xid w ret = .done r) : ret = .done r ∨ ∃ e ∈ w, e.xid = xid ∧ e.cb = some r := by
  induction w generalizing ret with
  | nil => exact Or.inl h
  | cons e w ih =>
      rcases ih _ h with hret | ⟨e', he', hx, hc⟩
      · by_cases hx : xid = e.xid
        · rw [if_pos hx] at hret
          cases hcb : e.cb with
          | none =>
              rw [hcb] at hret
              cases hret
          | some r' =>
              rw [hcb] at hret
              cases hret
              exact Or.inr ⟨e, List.mem_cons_self, hx.symm, hcb⟩
        · rw [if_neg hx] at hret
          exact Or.inl hret
      · exact Or.inr ⟨e', List.mem_cons_of_mem e he', hx, hc⟩

/-- A request is new exactly if the window is empty, or its xid is above the bound and not in the
    window. A window that is empty does not consult the bound. -/
theorem classify_new_iff (w : List ReplyT) (bound xid : Nat) :
    classify w bound xid = .new ↔ w = [] ∨ bound < xid ∧ xid ∉ w.map ReplyT.xid := by
  unfold classify
  by_cases hnil : w = []
  · rw [if_pos (List.isEmpty_iff.mpr hnil)]
    exact iff_of_true rfl (Or.inl hnil)
  · rw [if_neg fun h => hnil (List.isEmpty_iff.mp h), or_iff_right hnil]
    by_cases hle : xid ≤ bound
    · rw [if_pos hle]
      exact iff_of_false (fun h => by cases h) fun h => Nat.not_lt.mpr hle h.1
    · rw [if_neg hle, scan_new_iff, and_iff_right (Nat.not_le.mp hle)]

/-- A reply that is sent again is the one recorded in an entry of the request. -/
theorem classify_done (w : List ReplyT) (bound xid : Nat) (r : Reply)
    (h : classify w bound xid = .done r) : ∃ e ∈ w, e.xid = xid ∧ e.cb = some r := by
  simp only [classify] at h
  split at h
  · cases h
  · split at h
    · cases h
    · rcases scan_done xid w r .new h with hnew | he
      · cases hnew
      · exact he

/-- A request is `FORGOTTEN` only if it is at or below the bound; the search itself never says
    so. -/
theorem classify_forgotten (w : List ReplyT) (bound xid : Nat)
    (h : classify w bound xid = .forgotten) : xid ≤ bound := by
  have hscan : ∀ (w : List ReplyT) (ret : RpcState), scan xid w ret = .forgotten →
      ret = .forgotten := by
    intro w
    induction w with
    | nil => exact fun ret h => h
    | cons e w ih =>
        intro ret h
        have hret := ih _ h
        split at hret
        · cases hcb : e.cb <;> rw [hcb] at hret <;> cases hret
        · exact hret
  simp only [classify] at h
  split at h
  · cases h
  · split at h
    · assumption
    · exact absurd (hscan w .new h) (by simp only [reduceCtorEq, not_false_eq_true])

/-- The effect of `checkduplicate_and_update`: a new request is inserted and the window is pruned up
    to `xid_rep`, which becomes the bound, and any other leaves both alone. -/
theorem checkduplicate_cases (w : List ReplyT) (bound xid xidRep : Nat) (st : RpcState)
    (w' : List ReplyT) (bound' : Nat)
    (h : checkduplicateAndUpdate w bound xid xidRep = some (st, w', bound')) :
    st = classify w bound xid ∧
      (st = .new ∧ prune xidRep (insertReply xid w) = some w' ∧ bound' = xidRep ∨
        st ≠ .new ∧ w' = w ∧ bound' = bound) := by
  simp only [checkduplicateAndUpdate] at h
  split at h
  · rename_i hc
    rcases Option.map_eq_some_iff.mp h with ⟨w₁, hw₁, heq⟩
    cases heq
    exact ⟨hc.symm, Or.inl ⟨rfl, hw₁, rfl⟩⟩
  · rename_i hne
    cases h
    exact ⟨rfl, Or.inr ⟨fun hnew => hne hnew, rfl, rfl⟩⟩

/-- The list is not read past its end if the request is a duplicate or forgotten, or it is above its
    own `xid_rep`, or an entry of the window is. The loop that frees the acknowledged entries has no
    test for the end of the list: it relies on finding an entry that is not acknowledged. -/
theorem pruning_defined_iff (w : List ReplyT) (bound xid xidRep : Nat) :
    (checkduplicateAndUpdate w bound xid xidRep).isSome = true ↔
      (w ≠ [] ∧ (xid ≤ bound ∨ xid ∈ w.map ReplyT.xid)) ∨
        xidRep < xid ∨ ∃ e ∈ w, xidRep < e.xid := by
  have hnew := classify_new_iff w bound xid
  by_cases hc : classify w bound xid = .new
  · -- A new request is in the list that is pruned.
    have hseen : ¬ (w ≠ [] ∧ (xid ≤ bound ∨ xid ∈ w.map ReplyT.xid)) := by
      rintro ⟨hne, hle | hmem⟩
      · exact Nat.not_lt.mpr hle ((hnew.mp hc).resolve_left hne).1
      · exact ((hnew.mp hc).resolve_left hne).2 hmem
    simp only [checkduplicateAndUpdate, hc, Option.isSome_map, prune_isSome_iff, mem_insertReply,
      exists_eq_or_imp]
    rw [or_iff_right hseen]
  -- Any other request returns before the loop.
  · have hsome : (checkduplicateAndUpdate w bound xid xidRep).isSome = true := by
      unfold checkduplicateAndUpdate
      split
      · rename_i h
        exact absurd h hc
      · rfl
    refine iff_of_true hsome (Or.inl ?_)
    have hold := fun h => hc (hnew.mpr h)
    refine ⟨fun hnil => hold (Or.inl hnil), ?_⟩
    by_cases hle : xid ≤ bound
    · exact Or.inl hle
    · exact Or.inr (by_contra fun hmem => hold (Or.inr ⟨Nat.not_le.mp hle, hmem⟩))

/-- The first request of a client, acknowledging itself. -/
theorem pruning_past_the_end : checkduplicateAndUpdate [] 0 1 1 = none := rfl

end Rpc

end Yfs
