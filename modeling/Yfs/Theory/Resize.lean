import Yfs.Theory.Sharing

/-!
# Resizing a File

`updatesize` pads by the difference between the new size and the size attribute, while
the bytes come from the content. The two are cached separately, one may be fetched while
the other is cached, and a write-back drops both; still the attribute is always the
length of the content, modulo `2 ^ 32`, for every client that owns the lock. So below
`2 ^ 32` the new content is the old one, cut off or filled up with zeros, and whoever
gets the lock later fetches it.

## Theorems

* `resized_eq`: The content that `updatesize` writes.
* `updatesize_runs`: `updatesize` by the owner of the lock.
* `resize_exact`: What any later owner fetches.
-/

namespace Yfs

open Extent Txn

theorem Cached.ActsOn.trans {k t u : Cached} {eid : Inum} (h₁ : k.ActsOn t eid)
    (h₂ : t.ActsOn u eid) : k.ActsOn u eid where
  client := fun e he =>
    ⟨((h₂.client e he).content).trans (h₁.client e he).content,
      ((h₂.client e he).attr).trans (h₁.client e he).attr,
      ((h₂.client e he).dirty).trans (h₁.client e he).dirty⟩
  content := fun e he => (h₂.content e he).trans (h₁.content e he)
  attr := fun e he => (h₂.attr e he).trans (h₁.attr e he)
  synced := fun e hs => h₂.synced e (h₁.synced e hs)

theorem toNat_sizeAttr {c : Bytes} (h : c.length < 2 ^ 32) : (sizeAttr c).toNat = c.length := by
  rw [sizeAttr, UInt32.toNat_ofNat_of_lt' h]

/-- With the length of the content as its size attribute. -/
theorem resized_eq {c : Bytes} (hlen : c.length < 2 ^ 32) (newSize : UInt64) :
    resized c (sizeAttr c) newSize = c.take (min c.length newSize.toNat) ++
      List.replicate (newSize.toNat - c.length) 0 := by
  unfold resized
  rw [toNat_sizeAttr hlen]
  by_cases hlt : c.length < newSize.toNat
  · rw [if_pos hlt, Nat.min_eq_left (by omega), List.take_length]
  · rw [if_neg hlt, Nat.min_eq_right (by omega), Nat.sub_eq_zero_of_le (by omega),
      List.replicate_zero, List.append_nil]

theorem length_resized {c : Bytes} (hlen : c.length < 2 ^ 32) (newSize : UInt64) :
    (resized c (sizeAttr c) newSize).length = newSize.toNat := by
  rw [resized_eq hlen, List.length_append, List.length_take, List.length_replicate]
  omega

/-- `updatesize` with a cache that stands for a content of the extent. -/
theorem updatesize_runs (clock : Nat → UInt32) {k : Cached} {inum : Inum} {c : Bytes}
    (hk : Sees k.client k.server inum (some c)) (newSize : UInt64) :
    ∃ t, (updatesize inum newSize).runLocked (Cached.serve clock) ∅ k = some (.ok, ∅, t) ∧
      k.ActsOn t inum ∧
      Sees t.client t.server inum (some (resized c (sizeAttr c) newSize)) := by
  rcases Cached.serve_sees clock .getattr hk with ⟨⟨hst, hsize⟩, h₁⟩
  rcases Cached.serve_sees clock .get h₁ with ⟨hget, h₂⟩
  rcases Cached.serve_sees clock (.put (resized c (sizeAttr c) newSize)) h₂ with ⟨hput, h₃⟩
  refine ⟨_, ?_, ((Cached.actsOn_serve clock inum .getattr k).trans
    (Cached.actsOn_serve clock inum .get _)).trans
      (Cached.actsOn_serve clock inum (.put (resized c (sizeAttr c) newSize)) _), h₃⟩
  -- The three calls succeed, and the size that was read is that of the content.
  change (Cached.serve clock inum .getattr k).1.1 = .ok at hst
  change (Cached.serve clock inum .getattr k).1.2.size = sizeAttr c at hsize
  change (Cached.serve clock inum .get (Cached.serve clock inum .getattr k).2).1 = (.ok, c) at hget
  change (Cached.serve clock inum (.put _) _).1 = .ok at hput
  rw [updatesize, runLocked_withLock, if_neg (Finset.notMem_empty inum)]
  simp only [runLocked_bind, runLocked_ecGetattr, runLocked_ecGet, runLocked_ecPut,
    Option.bind_some, hst, hsize, hget, hput, ne_eq, not_true_eq_false, if_false, runLocked_pure,
    Option.map_some, Finset.erase_insert (Finset.notMem_empty inum)]

namespace Sharing

variable {C : Type} [DecidableEq C] {clock : Nat → UInt32} {s : Sys C}

/-- A resize by the owner of the lock succeeds and makes the file exactly `newSize` bytes long: what
    was there up to that size, and zeros behind it. Until the next `put` on the file every owner
    gets this content and this size, however often the lock and the cached data have changed hands.
    Both lengths are below `2 ^ 32`, where the size attribute is the length. -/
theorem resize_exact {now : UInt32}
    (hr : Trace.Reaches (step clock) Trace.Always (Sys.init C now) s) {c : C} {inum : Inum}
    (ho : s.owner inum = some c) {content : Bytes} (hfile : s.content inum = some content)
    (hlen : content.length < 2 ^ 32) (newSize : UInt64) (hsize : newSize.toNat < 2 ^ 32) :
    ∃ t, (updatesize inum newSize).runLocked (Cached.serve clock) ∅ (s.view c)
        = some (.ok, ∅, t) ∧
      ∀ s', Trace.Reaches (step clock) (fun _ a => a.puts inum = false) (s.update c t) s' →
        ∀ d, s'.owner inum = some d →
          s'.answer clock d inum .get = (.ok, content.take (min content.length newSize.toNat) ++
            List.replicate (newSize.toNat - content.length) 0) ∧
          (s'.answer clock d inum .getattr).1 = .ok ∧
          (s'.answer clock d inum .getattr).2.size.toNat = newSize.toNat := by
  have hcoh := coherent_reachable hr
  have hsees := hcoh.sees inum
  rw [ownerView_of_owner ho, hfile] at hsees
  rcases updatesize_runs clock (k := s.view c) hsees newSize with ⟨t, hrun, hacts, ht⟩
  refine ⟨t, hrun, fun s' hr' d hd => ?_⟩
  -- From the resize on, the caches are coherent and the content is the new one.
  have hstart : Coherent (s.update c t) ∧
      (s.update c t).content inum = some (resized content (sizeAttr content) newSize) := by
    refine ⟨coherent_update hcoh ho hacts ht, ?_⟩
    rw [Sys.content, ownerView_update ho]
    exact ht.content
  have hlater := Trace.invariant_of_step
    (fun s => Coherent s ∧ s.content inum = some (resized content (sizeAttr content) newSize))
    hstart (fun s a s' hi hput hs => ⟨coherent_step a hi.1 hs,
      (content_step a hi.1 hs inum hput).trans hi.2⟩) hr'
  -- Whoever owns the lock then sees this content, from its cache or from the server.
  have hsees' := hlater.1.sees inum
  rw [ownerView_of_owner hd, hlater.2] at hsees'
  have hget := (Cached.serve_sees (s := s'.view d) clock .get hsees').1
  have hattr := (Cached.serve_sees (s := s'.view d) clock .getattr hsees').1
  refine ⟨by rw [← resized_eq hlen]; exact hget, hattr.1, ?_⟩
  have heq : (s'.answer clock d inum .getattr).2.size =
      sizeAttr (resized content (sizeAttr content) newSize) := hattr.2
  rw [heq, toNat_sizeAttr (by rw [length_resized hlen]; exact hsize), length_resized hlen]

/-- A file of two bytes grows to four while one client has it in its cache; then the other
    gets the lock. -/
theorem resize_exact_two_clients :
    ∃ s : Sys Bool, Trace.Reaches (step fun _ => 0) Trace.Always (Sys.init Bool 0) s ∧
      s.owner 5 = some true ∧ s.content 5 = some [104, 105] ∧
      ∃ t, (updatesize 5 4).runLocked (Cached.serve fun _ => 0) ∅ (s.view true)
          = some (.ok, ∅, t) ∧
        ∀ s', Trace.Reaches (step fun _ => 0) (fun _ a => a.puts 5 = false)
            (s.update true t) s' → ∀ d, s'.owner 5 = some d →
          s'.answer (fun _ => 0) d 5 .get = (.ok, [104, 105, 0, 0]) := by
  have hrun : Trace.Reaches (step fun _ => 0) Trace.Always (Sys.init Bool 0) _ :=
    Trace.reaches_always_of_run [.handover 5 true, .call true 5 (.put [104, 105])] rfl
  rcases resize_exact hrun (show Sys.owner _ 5 = some true from rfl)
    (show Sys.content _ 5 = some [104, 105] from rfl) (by decide) 4 (by decide) with
    ⟨t, ht, hlater⟩
  exact ⟨_, hrun, rfl, rfl, t, ht, fun s' hr d hd => (hlater s' hr d hd).1⟩

end Sharing

end Yfs
