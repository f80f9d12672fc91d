import Yfs.Core.Deadline
import Mathlib.Data.Nat.Log

/-!
# Deadlines

`add_timespec` carries while the nanoseconds are more than `10 ^ 9`. A sum of exactly
`10 ^ 9` is not carried: it is the right time, in a form that `pthread_cond_timedwait`
refuses and that `cmp_timespec` puts before the same time in its proper form.

## Main definitions

* `sum`: What the carry amounts to for two summands in range.
* `Lands`: The sum is carried where it has to be and fits.

## Theorems

* `addTimespec_eq`: `add_timespec` without its loop.
* `cmpTimespec_eq_sign`: Comparison of times in their proper form.
* `deadlines_exact_iff`: Which sums are exact.
* `carry_missed`: The sum that is not carried.
-/

namespace Yfs

namespace Rpc

theorem signed_eq_some {w : Nat} {x : Int} (h : -2 ^ w ≤ x ∧ x < 2 ^ w) : signed w x = some x :=
  if_pos h

/-- The sum of a time and a number of milliseconds, carried at most once. -/
def Timespec.sum (a : Timespec) (b : Int) : Timespec :=
  if a.tvNsec + b % 1000 * 10 ^ 6 ≤ 10 ^ 9 then
    ⟨a.tvSec + b / 1000, a.tvNsec + b % 1000 * 10 ^ 6⟩
  else ⟨a.tvSec + b / 1000 + 1, a.tvNsec + b % 1000 * 10 ^ 6 - 10 ^ 9⟩

/-- A time as the clock gives it. -/
structure Timespec.Clock (a : Timespec) : Prop where
  normal : a.Normal
  nonneg : 0 ≤ a.tvSec

/-- The sum is that of the times, carried or not. -/
theorem Timespec.sum_ns (a : Timespec) (b : Int) : (a.sum b).ns = a.ns + b * 10 ^ 6 := by
  have hb := Int.emod_add_mul_ediv b 1000
  unfold Timespec.sum
  split
  · simp only [Timespec.ns]
    omega
  · simp only [Timespec.ns]
    omega

/-- The nanoseconds reach `10 ^ 9` if the sum is exactly that. -/
theorem Timespec.sum_normal_iff (a : Timespec) (b : Int) (ha : a.Normal) :
    (a.sum b).Normal ↔ a.tvNsec + b % 1000 * 10 ^ 6 ≠ 10 ^ 9 := by
  rcases ha with ⟨hge, hlt⟩
  have hpos := Int.emod_nonneg b (show (1000 : Int) ≠ 0 by decide)
  have hmod := Int.emod_lt_of_pos b (show (0 : Int) < 1000 by decide)
  unfold Timespec.sum Timespec.Normal
  split
  · dsimp only
    omega
  · dsimp only
    omega

/-- For a time of the clock and a positive `int`, `add_timespec` is the sum, unless the
    seconds do not fit. -/
theorem addTimespec_eq (a : Timespec) (b : Int) (ha : a.Clock) (hb : 0 ≤ b) :
    addTimespec a b = if (a.sum b).tvSec < 2 ^ 63 then some (a.sum b) else none := by
  rcases ha with ⟨⟨hge, hlt⟩, hsec⟩
  have hpos := Int.emod_nonneg b (show (1000 : Int) ≠ 0 by decide)
  have hmod := Int.emod_lt_of_pos b (show (0 : Int) < 1000 by decide)
  have hdiv := Int.ediv_nonneg hb (show (0 : Int) ≤ 1000 by decide)
  have hnsec : signed 63 (a.tvNsec + b % 1000 * 1000000) = some (a.tvNsec + b % 1000 * 1000000) :=
    signed_eq_some ⟨by omega, by omega⟩
  have hverify : 0 ≤ a.tvNsec + b % 1000 * 1000000 := by omega
  simp only [addTimespec, Int.tdiv_eq_ediv_of_nonneg hb, Int.tmod_eq_emod_of_nonneg hb, hnsec,
    Option.bind_eq_bind, Option.bind_some, hverify, if_true]
  generalize hn : a.tvNsec + b % 1000 * 1000000 = nsec
  generalize hs : a.tvSec + b / 1000 = sec
  by_cases hcarry : nsec ≤ 10 ^ 9
  · -- The loop is not entered, also when the sum is exactly `10 ^ 9`.
    have hstop : ∀ n s, carry n ⟨s, nsec⟩ = some ⟨s, nsec⟩ := by
      intro n s
      cases n with
      | zero => rfl
      | succ n => exact if_neg (not_lt.mpr hcarry)
    have hsum : a.sum b = ⟨sec, nsec⟩ := by
      rw [Timespec.sum, if_pos (by omega), Timespec.mk.injEq]
      exact ⟨hs, by omega⟩
    rw [hsum]
    -- Whether the seconds overflow is decided before the loop.
    by_cases hfits : sec < 2 ^ 63
    · rw [signed_eq_some ⟨by omega, hfits⟩, Option.bind_some, hstop, if_pos hfits]
    · rw [signed, if_neg fun h => hfits h.2, Option.bind_none, if_neg hfits]
  -- The loop runs once: the nanoseconds are below `2 * 10 ^ 9`.
  · have hone : nsec.toNat / 10 ^ 9 = 1 := by omega
    have hsum : a.sum b = ⟨sec + 1, nsec - 10 ^ 9⟩ := by
      rw [Timespec.sum, if_neg (by omega), Timespec.mk.injEq]
      exact ⟨by omega, by omega⟩
    rw [hsum, hone]
    -- Or in it, by the one that is carried.
    by_cases hfits : sec + 1 < 2 ^ 63
    · rw [signed_eq_some ⟨by omega, by omega⟩, Option.bind_some, carry,
        if_pos (not_le.mp hcarry), signed_eq_some ⟨by omega, hfits⟩, Option.bind_some, carry,
        if_pos hfits]
    · rw [if_neg hfits, Option.bind_eq_none_iff]
      intro s hs'
      have hs₁ : s = sec := by
        unfold signed at hs'
        split at hs'
        · exact (Option.some.inj hs').symm
        · cases hs'
      rw [carry, if_pos (not_le.mp hcarry), hs₁, signed, if_neg fun h => hfits h.2,
        Option.bind_none]

/-- Both are in their proper form, so the comparison is that of the times. -/
theorem cmpTimespec_eq_sign (a b : Timespec) (ha : a.Normal) (hb : b.Normal) :
    cmpTimespec a b = (a.ns - b.ns).sign := by
  rcases ha with ⟨ha₀, ha₁⟩
  rcases hb with ⟨hb₀, hb₁⟩
  unfold cmpTimespec Timespec.ns
  split
  · rw [Int.sign_eq_one_of_pos (by omega)]
  · split
    · rw [Int.sign_eq_neg_one_of_neg (by omega)]
    · split
      · rw [Int.sign_eq_one_of_pos (by omega)]
      · split
        · rw [Int.sign_eq_neg_one_of_neg (by omega)]
        · rw [show a.tvSec * 10 ^ 9 + a.tvNsec - (b.tvSec * 10 ^ 9 + b.tvNsec) = 0 by omega,
            Int.sign_zero]

/-- The nanoseconds do not add up to exactly `10 ^ 9`, and the seconds fit. -/
def Timespec.Lands (a : Timespec) (b : Int) : Prop :=
  a.tvNsec + b % 1000 * 10 ^ 6 ≠ 10 ^ 9 ∧ a.ns + b * 10 ^ 6 < 2 ^ 63 * 10 ^ 9

/-- `add_timespec` gives the sum in its proper form. -/
def Timespec.Exact (a : Timespec) (b : Int) (r : Timespec) : Prop :=
  addTimespec a b = some r ∧ r.Normal ∧ r.ns = a.ns + b * 10 ^ 6

/-- Where the two conditions hold the result is exact. -/
theorem exact_of_lands (a : Timespec) (b : Int) (ha : a.Clock) (hb : 0 ≤ b) (h : a.Lands b) :
    a.Exact b (a.sum b) := by
  have hnormal := (a.sum_normal_iff b ha.normal).mpr h.1
  have hns := a.sum_ns b
  refine ⟨?_, hnormal, hns⟩
  rw [addTimespec_eq a b ha hb, if_pos]
  have hfits := h.2
  have hge := hnormal.1
  rw [← hns, Timespec.ns] at hfits
  omega

/-- And nowhere else. -/
theorem lands_of_exact (a : Timespec) (b : Int) (ha : a.Clock) (hb : 0 ≤ b) (r : Timespec)
    (h : a.Exact b r) : a.Lands b := by
  rcases h with ⟨hadd, hnormal, hns⟩
  rw [addTimespec_eq a b ha hb] at hadd
  split at hadd
  · rename_i hfits
    cases hadd
    refine ⟨(a.sum_normal_iff b ha.normal).mp hnormal, ?_⟩
    rw [← hns, Timespec.ns]
    have hlt := hnormal.2
    omega
  · cases hadd

/-- Two sums are exact, and compare as the times they are, if both are carried where they have to
    be: the nanoseconds do not add up to `10 ^ 9` exactly, which the loop leaves as they are, and
    the seconds fit their type. -/
theorem deadlines_exact_iff (a a' : Timespec) (b b' : Int) (ha : a.Clock) (ha' : a'.Clock)
    (hb : 0 ≤ b ∧ b < 2 ^ 31) (hb' : 0 ≤ b' ∧ b' < 2 ^ 31) :
    (∃ r r', a.Exact b r ∧ a'.Exact b' r' ∧ cmpTimespec r r' = (r.ns - r'.ns).sign) ↔
      a.Lands b ∧ a'.Lands b' := by
  constructor
  · rintro ⟨r, r', hr, hr', _⟩
    exact ⟨lands_of_exact a b ha hb.1 r hr, lands_of_exact a' b' ha' hb'.1 r' hr'⟩
  · rintro ⟨h, h'⟩
    have hr := exact_of_lands a b ha hb.1 h
    have hr' := exact_of_lands a' b' ha' hb'.1 h'
    exact ⟨_, _, hr, hr', cmpTimespec_eq_sign _ _ hr.2.1 hr'.2.1⟩

theorem deadlines_exact_half : ∃ r r',
    Timespec.Exact ⟨7, 500000000⟩ 499 r ∧ Timespec.Exact ⟨7, 500000000⟩ 501 r' ∧
      cmpTimespec r r' = (r.ns - r'.ns).sign :=
  (deadlines_exact_iff ⟨7, 500000000⟩ ⟨7, 500000000⟩ 499 501 ⟨by decide, by decide⟩
    ⟨by decide, by decide⟩ (by decide) (by decide)).mpr
    ⟨⟨by decide, by decide⟩, ⟨by decide, by decide⟩⟩

/-- Half a second more than half past: the nanoseconds stay at `10 ^ 9`, and the result
    compares as earlier than the full second that it is. -/
theorem carry_missed :
    addTimespec ⟨7, 500000000⟩ 500 = some ⟨7, 1000000000⟩ ∧
      ¬ (Timespec.mk 7 1000000000).Normal ∧
      addTimespec ⟨8, 0⟩ 0 = some ⟨8, 0⟩ ∧
      (Timespec.mk 7 1000000000).ns = (Timespec.mk 8 0).ns ∧
      cmpTimespec ⟨7, 1000000000⟩ ⟨8, 0⟩ = -1 := by
  decide

end Rpc

end Yfs
