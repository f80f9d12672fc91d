import Mathlib.Algebra.BigOperators.Group.Finset.Piecewise
import Mathlib.Data.Fintype.Basic
import Mathlib.Data.List.Basic

/-!
# Queues with Sentinels

A first-in first-out queue by its history: what has entered is what was taken, followed by
what is still there. The entries are items or sentinels, and the sentinels come last.

Whoever counts the sentinels that were taken knows how far the queue has been read: when
all of them have been taken, so have all the items, in the order in which they entered,
and nothing is left.

## Theorems

* `empty_of_sentinels`: All sentinels taken.
* `countP_eq_sum`: Counting what several readers took, reader by reader.
* `filter_eq_singleton`: An item that occurs once.
-/

namespace Yfs

namespace Queue

variable {α β : Type}

/-- All sentinels have been taken, so everything has been. -/
theorem empty_of_sentinels {out q : List (Option α)} {items : List α} {n : Nat}
    (hlog : out ++ q = items.map some ++ List.replicate n none) (hpos : 1 ≤ n)
    (hall : out.countP Option.isNone = n) : q = [] ∧ out.filterMap id = items := by
  have hcount := congrArg (List.countP Option.isNone) hlog
  have hitems : (items.map some).countP Option.isNone = 0 := by
    rw [List.countP_map, List.countP_eq_zero]
    exact fun a _ => Bool.false_ne_true
  have hsentinels : (List.replicate n (none : Option α)).countP Option.isNone = n := by
    rw [List.countP_replicate]
    exact if_pos rfl
  rw [List.countP_append, List.countP_append, hall, hitems, hsentinels] at hcount
  have hnil : q = [] := by
    by_contra hne
    -- The last entry is a sentinel, so one is still there.
    have hlast := congrArg List.getLast? hlog
    rw [List.getLast?_append_of_ne_nil _ hne, List.getLast?_append_of_ne_nil _
      (by rw [Ne, List.replicate_eq_nil_iff]; omega), List.getLast?_replicate,
      if_neg (by omega)] at hlast
    have hmem : none ∈ q := List.mem_of_getLast? hlast
    have hzero := List.countP_eq_zero.mp (show q.countP Option.isNone = 0 by omega) none hmem
    exact hzero rfl
  refine ⟨hnil, ?_⟩
  rw [hnil, List.append_nil] at hlog
  rw [hlog, List.filterMap_append]
  have hnone : (List.replicate n (none : Option α)).filterMap id = [] := by
    rw [List.filterMap_eq_nil_iff]
    exact fun a ha => List.eq_of_mem_replicate ha
  rw [hnone, List.append_nil, List.filterMap_map]
  exact List.filterMap_some

/-- What was taken, counted reader by reader. -/
theorem countP_eq_sum {ι : Type} [Fintype ι] [DecidableEq ι] (p : β → Bool) (l : List (ι × β)) :
    l.countP (fun e => p e.2) = ∑ i, l.countP fun e => decide (e.1 = i) && p e.2 := by
  induction l with
  | nil => exact (Finset.sum_const_zero).symm
  | cons e l ih =>
      simp only [List.countP_cons, ih, Finset.sum_add_distrib, Bool.and_eq_true,
        decide_eq_true_eq]
      congr 1
      by_cases hp : p e.2 = true
      · simp only [hp, and_true, if_true, Finset.sum_ite_eq, Finset.mem_univ]
      · simp only [hp, Bool.false_eq_true, and_false, if_false, Finset.sum_const_zero]

/-- An item that is not among those taken. -/
theorem filter_eq_nil [DecidableEq α] {l : List (β × Option α)} {a : α}
    (h : a ∉ l.filterMap Prod.snd) : l.filter (fun e => decide (e.2 = some a)) = [] := by
  rw [List.filter_eq_nil_iff]
  intro e he hdec
  exact h (List.mem_filterMap.mpr ⟨e, he, of_decide_eq_true hdec⟩)

/-- Items that are all different are taken by one reader each. -/
theorem filter_eq_singleton [DecidableEq α] {l : List (β × Option α)} {a : α}
    (hnodup : (l.filterMap Prod.snd).Nodup) (h : a ∈ l.filterMap Prod.snd) :
    ∃ i, l.filter (fun e => decide (e.2 = some a)) = [(i, some a)] := by
  induction l with
  | nil => exact absurd h List.not_mem_nil
  | cons e l ih =>
      rcases e with ⟨i, _ | b⟩
      · exact ih hnodup h
      · have hcons : ((i, some b) :: l).filterMap Prod.snd = b :: l.filterMap Prod.snd := rfl
        rw [hcons] at hnodup h
        rcases List.nodup_cons.mp hnodup with ⟨hnot, hrest⟩
        by_cases hab : b = a
        · subst hab
          refine ⟨i, ?_⟩
          rw [List.filter_cons, filter_eq_nil hnot]
          exact if_pos (decide_eq_true rfl)
        · have hne : ¬ decide ((i, some b).2 = some a) = true :=
            fun h => hab (Option.some.inj (of_decide_eq_true h))
          rw [List.filter_cons, if_neg hne]
          exact ih hrest ((List.mem_cons.mp h).resolve_left (Ne.symm hab))

end Queue

end Yfs
