import Mathlib.Data.List.TakeWhile
import Mathlib.Order.Bounds.Basic
import Yfs.Core.Rpc

/-!
# The Acknowledgement Window

What `update_xid_rep` does to the client's window. Its front is what the client
puts into every header as `xid_rep`, so what matters is how far the front moves:
every number it passes is the number being reported or was in the window before.

The compress loop pops from the front while an iterator walks the rest. Its
invariant is over the part in front of the iterator: popping happens only when the
front is the predecessor of the element the iterator is at, and in a sorted list
everything that can become the new front then lies between the two. `compress_round`
is what one position of the iterator can do; what the whole loop does follows from it
by induction.

Reports come in any order and more than once, since a number is reported by the reply
and again at the end of the call. A number above the front is inserted each time, so
the window can hold it twice; it is popped with all its copies.

## Main definitions

* `Advanced`: A window after a report.
* `Acked`: A window after any reports.

## Theorems

* `compress_round`: One position of the iterator.
* `compress_advanced`, `compress_complete`: The compress loop.
* `updateXidRep_advanced`: The whole update.
* `window_of_reports`: The window after any reports.
-/

namespace Yfs

namespace Rpc

/-- The window `w'` comes from the elements `all`, its front has not moved back
    from `f`, and everything the front has passed was an element. -/
structure Advanced (all : List Nat) (f : Nat) (w' : List Nat) : Prop where
  nonempty : w' ≠ []
  sorted : w'.Pairwise (· ≤ ·)
  subset : ∀ y ∈ w', y ∈ all
  mono : f ≤ w'.headD 0
  covered : ∀ y, f < y → y ≤ w'.headD 0 → y ∈ all

/-- A report adds its number to the window. -/
theorem mem_insertXid (x y : Nat) (w : List Nat) : y ∈ insertXid x w ↔ y = x ∨ y ∈ w := by
  induction w with
  | nil => simp only [insertXid, List.mem_singleton, List.not_mem_nil, or_false]
  | cons z w ih =>
      simp only [insertXid]
      split
      · exact List.mem_cons
      · simp only [List.mem_cons, ih]
        exact or_left_comm

/-- It goes to its place in the order, behind equal ones. -/
theorem pairwise_insertXid (x : Nat) (w : List Nat) (h : w.Pairwise (· ≤ ·)) :
    (insertXid x w).Pairwise (· ≤ ·) := by
  induction w with
  | nil => exact List.pairwise_singleton _ x
  | cons z w ih =>
      rcases List.pairwise_cons.mp h with ⟨hz, hw⟩
      simp only [insertXid]
      split
      · rename_i hlt
        refine List.pairwise_cons.mpr ⟨?_, h⟩
        intro y hy
        rcases List.mem_cons.mp hy with rfl | hy
        · omega
        · exact Nat.le_trans (Nat.le_of_lt hlt) (hz y hy)
      · rename_i hge
        refine List.pairwise_cons.mpr ⟨?_, ih hw⟩
        intro y hy
        rcases (mem_insertXid x y w).mp hy with rfl | hy
        · omega
        · exact hz y hy

/-- The window `d :: ds` after the pops at one position of the iterator, where the part
    in front of it was `f :: pre` and the element at it is `x`. -/
structure Popped (f : Nat) (pre : List Nat) (x d : Nat) (ds : List Nat) : Prop where
  sublist : (d :: ds).Sublist ((f :: pre) ++ [x])
  mono : f ≤ d
  covered : ∀ y, f < y → y ≤ d → y = x
  kept : ∀ y ∈ (f :: pre) ++ [x], d < y → y ∈ d :: ds
  gap : f + 1 ∉ f :: pre → d + 1 ∉ d :: ds

/-- The pops at one position. In a sorted list they happen only if the front is the
    predecessor of the element at the iterator, and then pop nothing but its copies. -/
theorem popped_dropWhile (f x : Nat) (pre : List Nat)
    (hs : ((f :: pre) ++ [x]).Pairwise (· ≤ ·)) (hb : f + 1 < 2 ^ 32) :
    ∃ d ds, (f :: pre).dropWhile (fun y => (y + 1) % 2 ^ 32 == x) ++ [x] = d :: ds ∧
      Popped f pre x d ds := by
  have hmem : ∀ y ∈ (f :: pre) ++ [x], f ≤ y ∧ y ≤ x := by
    intro y hy
    have hfront : f ≤ y := by
      rcases List.mem_cons.mp hy with rfl | hy
      · exact Nat.le_refl _
      · exact (List.pairwise_cons.mp hs).1 y hy
    have hback : y ≤ x := by
      rcases List.mem_append.mp hy with hy | hy
      · exact (List.pairwise_append.mp hs).2.2 y hy x (List.mem_singleton_self x)
      · rw [List.mem_singleton.mp hy]
    exact ⟨hfront, hback⟩
  by_cases hpop : f + 1 = x
  · have hsub : ((f :: pre).dropWhile (fun y => (y + 1) % 2 ^ 32 == x) ++ [x]).Sublist
        ((f :: pre) ++ [x]) := (List.dropWhile_sublist _).append_right [x]
    cases hd : (f :: pre).dropWhile (fun y => (y + 1) % 2 ^ 32 == x) ++ [x] with
    | nil => exact absurd hd (List.append_ne_nil_of_right_ne_nil _ (List.cons_ne_nil x []))
    | cons d ds =>
        rw [hd] at hsub
        -- The new front is still an element, so it is `f` or its successor `x`.
        rcases hmem d (hsub.subset List.mem_cons_self) with ⟨hlo, hhi⟩
        refine ⟨d, ds, rfl, hsub, hlo, fun y hy hyd => by omega, ?_, ?_⟩
        · intro y hy hlt
          -- Above `f` there is only `x`, which is behind the popped part.
          have hyx : y = x := by
            have hle := (hmem y hy).2
            omega
          rw [← hd, hyx]
          exact List.mem_append_right _ (List.mem_singleton_self x)
        -- With a gap behind the front, the part in front of the iterator is copies of the front,
        -- and all of them go.
        · intro hgap
          have hall : ∀ y ∈ f :: pre, ((y + 1) % 2 ^ 32 == x) = true := by
            intro y hy
            have hne : y ≠ f + 1 := fun h => hgap (h ▸ hy)
            have hbd := hmem y (List.mem_append_left _ hy)
            rw [show y = f by omega, Nat.mod_eq_of_lt hb, hpop, beq_self_eq_true]
          rw [List.dropWhile_eq_nil_iff.mpr hall, List.nil_append] at hd
          cases hd
          simp only [List.mem_singleton, Nat.succ_ne_self, not_false_eq_true]
  · -- Nothing is popped.
    have hd : (f :: pre).dropWhile (fun y => (y + 1) % 2 ^ 32 == x) = f :: pre := by
      rw [List.dropWhile_cons_of_neg]
      rw [beq_iff_eq, Nat.mod_eq_of_lt hb]
      exact hpop
    refine ⟨f, pre ++ [x], by rw [hd, List.cons_append], List.Sublist.refl _,
      Nat.le_refl f, fun y hy hyd => by omega, fun y hy _ => hy, ?_⟩
    intro hgap hin
    rcases List.mem_append.mp (show f + 1 ∈ (f :: pre) ++ [x] from hin) with h | h
    · exact hgap h
    · exact hpop (List.mem_singleton.mp h)

/-- One round of the compress loop: the iterator moves on, and the popped window becomes
    the part in front of it. -/
theorem compress_round (f x : Nat) (pre suf : List Nat)
    (hs : ((f :: pre) ++ x :: suf).Pairwise (· ≤ ·))
    (hb : ∀ y ∈ (f :: pre) ++ x :: suf, y + 1 < 2 ^ 32) :
    ∃ d ds, compress (f :: pre) (x :: suf) = compress (d :: ds) suf ∧ Popped f pre x d ds ∧
      ((d :: ds) ++ suf).Sublist ((f :: pre) ++ x :: suf) := by
  have hassoc : (f :: pre) ++ x :: suf = ((f :: pre) ++ [x]) ++ suf := by
    rw [List.append_assoc, List.singleton_append]
  rw [hassoc] at hs hb ⊢
  rcases popped_dropWhile f x pre (List.pairwise_append.mp hs).1
    (hb f (List.mem_append_left _ List.mem_cons_self)) with ⟨d, ds, hd, hp⟩
  exact ⟨d, ds, by rw [compress, hd], hp, hp.sublist.append_right suf⟩

/-- The whole loop. The induction is on what the iterator has not reached, for any part in front of
    it. -/
theorem compress_advanced (suf : List Nat) :
    ∀ (f : Nat) (pre : List Nat), ((f :: pre) ++ suf).Pairwise (· ≤ ·) →
      (∀ y ∈ (f :: pre) ++ suf, y + 1 < 2 ^ 32) →
      Advanced ((f :: pre) ++ suf) f (compress (f :: pre) suf) := by
  induction suf with
  | nil =>
      intro f pre hs _
      rw [List.append_nil] at hs ⊢
      exact ⟨List.cons_ne_nil f pre, hs, fun y hy => hy, Nat.le_refl f,
        fun y hlt hle => absurd hle (Nat.not_le.mpr hlt)⟩
  | cons x suf ih =>
      intro f pre hs hb
      rcases compress_round f x pre suf hs hb with ⟨d, ds, heq, hp, hsub⟩
      have hrec := ih d ds (hs.sublist hsub) (fun y hy => hb y (hsub.subset hy))
      rw [heq]
      refine ⟨hrec.nonempty, hrec.sorted, fun y hy => hsub.subset (hrec.subset y hy),
        Nat.le_trans hp.mono hrec.mono, fun y hlt hle => ?_⟩
      -- The front passed `y` in this round or in a later one.
      by_cases hyd : y ≤ d
      · rw [hp.covered y hlt hyd]
        exact List.mem_append_right _ List.mem_cons_self
      · exact hsub.subset (hrec.covered y (by omega) hle)

/-- The loop stops at a gap, and what is above the front it stops at is still there. -/
theorem compress_complete (suf : List Nat) :
    ∀ (f : Nat) (pre : List Nat), ((f :: pre) ++ suf).Pairwise (· ≤ ·) →
      (∀ y ∈ (f :: pre) ++ suf, y + 1 < 2 ^ 32) → f + 1 ∉ f :: pre →
      (compress (f :: pre) suf).headD 0 + 1 ∉ compress (f :: pre) suf ∧
      ∀ y ∈ (f :: pre) ++ suf, (compress (f :: pre) suf).headD 0 < y →
        y ∈ compress (f :: pre) suf := by
  induction suf with
  | nil =>
      intro f pre _ _ hgap
      exact ⟨hgap, fun y hy _ => (List.append_nil (f :: pre)) ▸ hy⟩
  | cons x suf ih =>
      intro f pre hs hb hgap
      rcases compress_round f x pre suf hs hb with ⟨d, ds, heq, hp, hsub⟩
      have hs' := hs.sublist hsub
      have hb' : ∀ y ∈ (d :: ds) ++ suf, y + 1 < 2 ^ 32 := fun y hy => hb y (hsub.subset hy)
      rcases ih d ds hs' hb' (hp.gap hgap) with ⟨hgap', hkept⟩
      have hmono := (compress_advanced suf d ds hs' hb').mono
      rw [heq]
      refine ⟨hgap', fun y hy hlt => hkept y ?_ hlt⟩
      -- The final front is not below that of this round, so `y` survives its pops.
      rw [List.append_cons] at hy
      rcases List.mem_append.mp hy with hy | hy
      · exact List.mem_append_left _ (hp.kept y hy (by omega))
      · exact List.mem_append_right _ hy

/-- A number above the front goes in behind it. -/
theorem updateXidRep_of_lt (x f : Nat) (w : List Nat) (h : f < x) :
    updateXidRep x (f :: w) = compress [f] (insertXid x w) := by
  have hins : insertXid x (f :: w) = f :: insertXid x w := by
    rw [insertXid, if_neg (Nat.not_lt.mpr (Nat.le_of_lt h))]
  rw [updateXidRep, if_neg (show ¬ x ≤ (f :: w).headD 0 from Nat.not_le.mpr h), hins]

theorem mem_cons_insertXid (x f y : Nat) (w : List Nat) :
    y ∈ f :: insertXid x w ↔ y ∈ x :: f :: w := by
  simp only [List.mem_cons, mem_insertXid]
  exact or_left_comm

theorem pairwise_cons_insertXid (x f : Nat) (w : List Nat) (hs : (f :: w).Pairwise (· ≤ ·))
    (h : f < x) : (f :: insertXid x w).Pairwise (· ≤ ·) := by
  have hsort := pairwise_insertXid x (f :: w) hs
  rwa [insertXid, if_neg (Nat.not_lt.mpr (Nat.le_of_lt h))] at hsort

/-- One report: the front moves only over reported numbers. -/
theorem updateXidRep_advanced (x : Nat) (w : List Nat) (hne : w ≠ [])
    (hs : w.Pairwise (· ≤ ·)) (hb : ∀ y ∈ x :: w, y + 1 < 2 ^ 32) :
    Advanced (x :: w) (w.headD 0) (updateXidRep x w) := by
  cases w with
  | nil => exact absurd rfl hne
  | cons f w =>
      by_cases hle : x ≤ f
      · rw [updateXidRep, if_pos (show x ≤ (f :: w).headD 0 from hle)]
        exact ⟨hne, hs, fun y hy => List.mem_cons_of_mem x hy, Nat.le_refl f,
          fun y hlt hle => absurd hle (Nat.not_le.mpr hlt)⟩
      · have hlt : f < x := Nat.lt_of_not_le hle
        have hmem := fun y => mem_cons_insertXid x f y w
        rw [updateXidRep_of_lt x f w hlt]
        have hc := compress_advanced (insertXid x w) f [] (pairwise_cons_insertXid x f w hs hlt)
          (fun y hy => hb y ((hmem y).mp hy))
        exact ⟨hc.nonempty, hc.sorted, fun y hy => (hmem y).mp (hc.subset y hy), hc.mono,
          fun y hlt hle => (hmem y).mp (hc.covered y hlt hle)⟩

/-! ## The window after any reports -/

/-- The window `w` after the reports `xs`: its front is below the first number that has
    not been reported, and above the front it lists the reported numbers. -/
structure Acked (xs w : List Nat) : Prop where
  nonempty : w ≠ []
  sorted : w.Pairwise (· ≤ ·)
  bounded : ∀ y ∈ w, y + 1 < 2 ^ 32
  gap : w.headD 0 + 1 ∉ w
  full : ∀ y, 1 ≤ y → y ≤ w.headD 0 → y ∈ xs
  above : ∀ y, w.headD 0 < y → (y ∈ w ↔ y ∈ xs)

/-- The window starts with the number zero, which is no request's. -/
theorem acked_new : Acked [] Rpcc.new.xidRepWindow where
  nonempty := List.cons_ne_nil 0 []
  sorted := List.pairwise_singleton _ 0
  bounded := by
    intro y hy
    rw [List.mem_singleton.mp hy]
    omega
  gap := by decide
  full := by
    intro y hpos hle
    exact absurd hle (Nat.not_le.mpr hpos)
  above := by
    intro y hlt
    refine ⟨fun hy => ?_, fun hy => absurd hy List.not_mem_nil⟩
    exact absurd (List.mem_singleton.mp hy) (Nat.ne_of_gt hlt)

/-- One report keeps the window right. An old one changes nothing; a new one goes in, and the front
    moves over what has no gap. -/
theorem acked_report (xs w : List Nat) (x : Nat) (h : Acked xs w) (hx : x + 1 < 2 ^ 32) :
    Acked (xs ++ [x]) (updateXidRep x w) := by
  have hmem : ∀ y, y ∈ xs ++ [x] ↔ y ∈ xs ∨ y = x := by
    intro y
    rw [List.mem_append, List.mem_singleton]
  have hb : ∀ y ∈ x :: w, y + 1 < 2 ^ 32 := by
    intro y hy
    rcases List.mem_cons.mp hy with rfl | hy
    · exact hx
    · exact h.bounded y hy
  have hadv := updateXidRep_advanced x w h.nonempty h.sorted hb
  cases w with
  | nil => exact absurd rfl h.nonempty
  | cons f w =>
      simp only [List.headD_cons] at hadv
      by_cases hle : x ≤ f
      · -- The report is old: `x` is covered by the front already.
        rw [updateXidRep, if_pos (show x ≤ (f :: w).headD 0 from hle)]
        refine ⟨h.nonempty, h.sorted, h.bounded, h.gap,
          fun y hpos hy => (hmem y).mpr (Or.inl (h.full y hpos hy)), fun y hlt => ?_⟩
        rw [h.above y hlt, hmem]
        simp only [List.headD_cons] at hlt
        exact ⟨Or.inl, fun hy => hy.resolve_right (by omega)⟩
      · have hlt : f < x := Nat.lt_of_not_le hle
        have hmem' := fun y => mem_cons_insertXid x f y w
        rw [updateXidRep_of_lt x f w hlt] at hadv ⊢
        have hone : f + 1 ∉ [f] := by
          rw [List.mem_singleton]
          omega
        rcases compress_complete (insertXid x w) f []
          (pairwise_cons_insertXid x f w h.sorted hlt)
          (fun y hy => hb y ((hmem' y).mp hy)) hone with ⟨hgap, hkept⟩
        -- Above the old front, what is in the window or reported has been reported.
        have hrep : ∀ y, f < y → y ∈ x :: f :: w → y ∈ xs ++ [x] := by
          intro y hy hin
          rcases List.mem_cons.mp hin with rfl | hin
          · exact (hmem y).mpr (Or.inr rfl)
          · exact (hmem y).mpr (Or.inl ((h.above y hy).mp hin))
        refine ⟨hadv.nonempty, hadv.sorted, fun y hy => hb y (hadv.subset y hy), hgap, ?_, ?_⟩
        · intro y hpos hy
          by_cases hyf : y ≤ f
          · exact (hmem y).mpr (Or.inl (h.full y hpos hyf))
          · exact hrep y (by omega) (hadv.covered y (by omega) hy)
        · intro y hy
          have hfy : f < y := Nat.lt_of_le_of_lt hadv.mono hy
          refine ⟨fun hin => hrep y hfy (hadv.subset y hin), fun hin => ?_⟩
          refine hkept y ((hmem' y).mpr ?_) hy
          rcases (hmem y).mp hin with hin | rfl
          · exact List.mem_cons_of_mem x ((h.above y hfy).mpr hin)
          · exact List.mem_cons_self

/-- The window after the reports `xs`, in this order. -/
def reported (xs : List Nat) : List Nat :=
  xs.foldl (fun w x => updateXidRep x w) Rpcc.new.xidRepWindow

/-- So the window is right after any reports, in any order and with repetitions. -/
theorem acked_reported (xs : List Nat) (hxs : ∀ x ∈ xs, x + 1 < 2 ^ 32) :
    Acked xs (reported xs) := by
  induction xs using List.reverseRecOn with
  | nil => exact acked_new
  | append_singleton xs x ih =>
      have hih := ih fun y hy => hxs y (List.mem_append_left [x] hy)
      have hx := hxs x (List.mem_append_right xs (List.mem_singleton_self x))
      unfold reported at hih ⊢
      rw [List.foldl_append]
      exact acked_report xs _ x hih hx

/-- The front is the largest number up to which everything has been reported, and the rest of the
    window is what has been reported above it. Copies of a number can stay behind the front, which
    is why the window is compared as a set. The range keeps the successors from wrapping. -/
theorem window_of_reports (xs : List Nat) (hxs : ∀ x ∈ xs, 1 ≤ x ∧ x ≤ 2 ^ 32 - 2) :
    reported xs ≠ [] ∧ (reported xs).Pairwise (· ≤ ·) ∧
    IsGreatest {n | ∀ y, 1 ≤ y → y ≤ n → y ∈ xs} ((reported xs).headD 0) ∧
    {y | y ∈ reported xs ∧ (reported xs).headD 0 < y} =
      {y | y ∈ xs ∧ (reported xs).headD 0 < y} := by
  have h : Acked xs (reported xs) := by
    refine acked_reported xs fun x hx => ?_
    have hbd := hxs x hx
    omega
  refine ⟨h.nonempty, h.sorted, ⟨h.full, fun n hn => ?_⟩, ?_⟩
  · -- The successor of the front has not been reported.
    by_contra hlt
    have hnext : (reported xs).headD 0 + 1 ∈ xs := hn _ (by omega) (by omega)
    exact h.gap ((h.above _ (Nat.lt_succ_self _)).mpr hnext)
  · ext y
    exact and_congr_left (h.above y)

theorem window_of_reports_out_of_order :
    reported [3, 1, 3, 5, 2] = [3, 3, 5] ∧ IsGreatest
      {n | ∀ y, 1 ≤ y → y ≤ n → y ∈ [3, 1, 3, 5, 2]} ((reported [3, 1, 3, 5, 2]).headD 0) :=
  ⟨by decide, (window_of_reports [3, 1, 3, 5, 2] (by decide)).2.2.1⟩

end Rpc

end Yfs
