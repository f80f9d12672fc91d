import Mathlib.Data.List.Basic

/-!
# Overwriting a Part of a List

What writing at an offset does to a sequence: the new items go from the offset on, what
they do not cover stays where it is, and a gap in front of them is filled.

`overwrite` is the sequence itself, and `getElem?_overwrite` says where each of its items
comes from. A law about lengths and positions is read off these two.

## Main definitions

* `overwrite`: A list with `data` at an offset, and `fill` in the gap.

## Theorems

* `length_overwrite`: How long the result is.
* `getElem?_overwrite`: The item at each index.
-/

namespace Yfs

namespace Overwrite

variable {α : Type}

/-- `xs` with `data` from the index `off` on. An offset behind the end leaves a gap. -/
def overwrite (fill : α) (xs : List α) (off : Nat) (data : List α) : List α :=
  xs.take off ++ List.replicate (off - xs.length) fill ++ data ++ xs.drop (off + data.length)

variable (fill : α) (xs : List α) (off : Nat) (data : List α)

theorem length_overwrite :
    (overwrite fill xs off data).length = max xs.length (off + data.length) := by
  simp only [overwrite, List.length_append, List.length_take, List.length_replicate,
    List.length_drop]
  omega

theorem getElem?_overwrite (i : Nat) :
    (overwrite fill xs off data)[i]?
      = if i < off then if i < xs.length then xs[i]? else some fill
        else if i < off + data.length then data[i - off]? else xs[i]? := by
  -- What stands in front of the data is as long as the offset.
  have hfront : (xs.take off ++ List.replicate (off - xs.length) fill).length = off := by
    simp only [List.length_append, List.length_take, List.length_replicate]
    omega
  unfold overwrite
  rw [List.append_assoc, List.getElem?_append, hfront]
  by_cases hoff : i < off
  · rw [if_pos hoff, if_pos hoff, List.getElem?_append, List.length_take]
    by_cases hc : i < xs.length
    · rw [if_pos (by omega), if_pos hc, List.getElem?_take, if_pos hoff]
    · rw [if_neg (by omega), if_neg hc, List.getElem?_replicate, if_pos (by omega)]
  · rw [if_neg hoff, if_neg hoff, List.getElem?_append]
    by_cases hdata : i < off + data.length
    · rw [if_pos (by omega), if_pos hdata]
    · rw [if_neg (by omega), if_neg hdata, List.getElem?_drop]
      have hi : off + data.length + (i - off - data.length) = i := by omega
      rw [hi]

end Overwrite

end Yfs
