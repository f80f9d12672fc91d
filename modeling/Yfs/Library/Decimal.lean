import Mathlib.Data.Nat.Digits.Defs
import Mathlib.Data.Nat.Digits.Lemmas
import Mathlib.Data.UInt

/-!
# Decimal Numerals

Natural numbers as strings of decimal digits, most significant digit first.

## Main definitions

* `isDigit`, `numeral`, `value`: Digits, the numeral of a number, and the number of
  a string of digits.

## Theorems

* `numeral_ne_nil`, `isDigit_of_mem_numeral`: A numeral is a non-empty string of
  digits.
* `value_numeral`: Reading a numeral gives the number back.
-/

namespace Yfs

namespace Decimal

def isDigit (c : UInt8) : Bool :=
  decide (48 ≤ c ∧ c ≤ 57)

/-- The digits of `n`, without leading zeros; zero has one digit. -/
def numeral (n : Nat) : List UInt8 :=
  if n = 0 then [48] else (Nat.digits 10 n).reverse.map fun d => UInt8.ofNat (48 + d)

/-- The number that a string of digits stands for. -/
def value (s : List UInt8) : Nat :=
  s.foldl (fun acc c => 10 * acc + (c.toNat - 48)) 0

/-- There is at least one digit. -/
theorem numeral_ne_nil (n : Nat) : numeral n ≠ [] := by
  unfold numeral
  split
  · exact List.cons_ne_nil _ _
  · rename_i hn
    intro h
    rw [List.map_eq_nil_iff, List.reverse_eq_nil_iff, Nat.digits_eq_nil_iff_eq_zero] at h
    exact hn h

theorem toNat_digit (d : Nat) (hd : d < 10) : (UInt8.ofNat (48 + d)).toNat = 48 + d := by
  rw [UInt8.toNat_ofNat']
  exact Nat.mod_eq_of_lt (by omega)

/-- There are digits only. -/
theorem isDigit_of_mem_numeral (n : Nat) (c : UInt8) (h : c ∈ numeral n) : isDigit c = true := by
  unfold numeral at h
  split at h
  · rw [List.mem_singleton.mp h]
    rfl
  · rcases List.mem_map.mp h with ⟨d, hd, rfl⟩
    have hlt := Nat.digits_lt_base (by decide : 1 < 10) (List.mem_reverse.mp hd)
    simp only [isDigit, decide_eq_true_eq, UInt8.le_iff_toNat_le, toNat_digit d hlt]
    exact ⟨Nat.le_add_right 48 d, Nat.add_le_add_left (Nat.le_of_lt_succ hlt) 48⟩

/-- Digits read from the most significant end. -/
theorem value_map_reverse (ds : List Nat) (hds : ∀ d ∈ ds, d < 10) :
    value (ds.reverse.map fun d => UInt8.ofNat (48 + d)) = Nat.ofDigits 10 ds := by
  induction ds with
  | nil => rfl
  | cons d ds ih =>
      have hrec := ih (fun x hx => hds x (List.mem_cons_of_mem d hx))
      -- The least significant digit is the last one to be read.
      unfold value at hrec ⊢
      rw [List.reverse_cons, List.map_append, List.foldl_append, hrec, Nat.ofDigits_cons]
      simp only [List.map_cons, List.map_nil, List.foldl_cons, List.foldl_nil,
        toNat_digit d (hds d List.mem_cons_self)]
      omega

/-- A numeral is read back. -/
theorem value_numeral (n : Nat) : value (numeral n) = n := by
  unfold numeral
  split
  · rename_i hn
    rw [hn]
    rfl
  · rw [value_map_reverse _ fun d hd => Nat.digits_lt_base (by decide) hd, Nat.ofDigits_digits]

end Decimal

end Yfs
