import Yfs.Core.Directory

/-!
# `split` with Its Positions

`yfs_client::split` as it stands in the source, with positions in the string that are kept
in variables of type `int`. `find` takes and returns a `size_t`, so there is a conversion
each way: `npos`, the largest `size_t`, becomes the `-1` that ends the loop, and so would a
position of `2 ^ 32 - 1`. From `2 ^ 31` on a position becomes negative, and a negative one
is converted back to a `size_t` that is beyond every string. A separator whose length is a
multiple of `2 ^ 32` would not move the scan at all.

The result is `none` where the code does not return: an `int` overflows, `substr` throws,
or the loop has not ended when its fuel has.

## Main definitions

* `toInt`, `toSize`, `checked`: The arithmetic of `int` and `size_t`.
* `findFrom`, `substr`: The functions of `std::string`.
* `loop`, `split`: `yfs_client::split`.
-/

namespace Yfs

namespace Positions

/-- `std::string::npos`. -/
def npos : Nat := 2 ^ 64 - 1

/-- A `size_t` as an `int`. -/
def toInt (n : Nat) : Int :=
  (n : Int).bmod (2 ^ 32)

/-- An `int` as a `size_t`. -/
def toSize (i : Int) : Nat :=
  (i % 2 ^ 64).toNat

/-- The result of an operation on `int`, if it is one. -/
def checked (i : Int) : Option Int :=
  if -2 ^ 31 ≤ i ∧ i < 2 ^ 31 then some i else none

/-- `std::string::find` from a position on. -/
def findFrom (src pat : Bytes) (pos : Nat) : Nat :=
  if src.length < pos then npos
  else match find pat (src.drop pos) with
    | some i => pos + i
    | none => npos

/-- `std::string::substr`. -/
def substr (src : Bytes) (pos n : Nat) : Option Bytes :=
  if pos ≤ src.length then some ((src.drop pos).take n) else none

def loop (src pat : Bytes) (separateCharacterLen : Int) :
    Nat → Int → List Bytes → Option (List Bytes)
  | 0, _, _ => none
  | fuel + 1, lastPosition, strs =>
    -- `find` returns a `size_t`, which is stored in an `int`: `npos` becomes -1.
    let index := toInt (findFrom src pat (toSize lastPosition))
    if index = -1 then do
      let lastString ← substr src (toSize lastPosition) npos
      some (if lastString.isEmpty then strs else strs ++ [lastString])
    else do
      -- The subtraction is one of `int`s, and its result is converted back for `substr`.
      let n ← checked (index - lastPosition)
      let str ← substr src (toSize lastPosition) (toSize n)
      let lastPosition ← checked (index + separateCharacterLen)
      loop src pat separateCharacterLen fuel lastPosition (strs ++ [str])

def split (fuel : Nat) (src pat : Bytes) : Option (List Bytes) :=
  loop src pat (toInt pat.length) fuel 0 []

end Positions

end Yfs
