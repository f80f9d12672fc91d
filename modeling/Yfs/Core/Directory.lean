import Yfs.Core.Protocol
import Yfs.Library.Decimal

/-!
# Directory Contents

How a directory is kept in an extent: inums and names in turn, separated by single
spaces, with nothing that tells a space inside a name from a separator. The string
is split again by every operation, and a token is an inum or a name by the parity
of its index.

`split` is the loop of the source over the rest of the string; one more iteration
than there are bytes is enough, since a separator is not empty. `n2i` is extraction
of an `unsigned long long` from a string stream. On a string with nothing but
white space the extraction does not assign to its operand, which in `n2i` is an
uninitialised local: its value is the argument `uninit`.

## Main definitions

* `find`, `split`: `yfs_client::split`.
* `filename`, `n2i`: Inums as text.
* `isfile`, `isdir`: The kind of object, which is a bit of the inum.
* `pairs`: The tokens by parity.
* `findEntry`: The scan that `lookup` and `unlink` make.
* `appendEntry`, `removeEntry`: The string edits of `add_entry` and `unlink`.
* `readdirEntries`: The loop of `fuseserver_readdir`.
-/

namespace Yfs

/-- The separator between tokens. -/
def sep : Bytes := [32]

/-- `std::string::find`: the leftmost position. -/
def find (pat : Bytes) : Bytes → Option Nat
  | [] => if pat.isEmpty then some 0 else none
  | c :: cs => if pat.isPrefixOf (c :: cs) then some 0 else (find pat cs).map (· + 1)

/-- The loop of `split`; `src` is the string from `lastPosition` on. -/
def splitLoop (pat : Bytes) : Nat → Bytes → List Bytes
  | 0, _ => []
  | fuel + 1, src => match find pat src with
    | some index => src.take index :: splitLoop pat fuel (src.drop (index + pat.length))
    -- What follows the last separator is a token unless it is empty.
    | none => if src.isEmpty then [] else [src]

def split (src pat : Bytes) : List Bytes :=
  splitLoop pat (src.length + 1) src

def filename (inum : Inum) : Bytes :=
  Decimal.numeral inum.toNat

/-- `isspace` in the C locale. -/
def isSpace (c : UInt8) : Bool :=
  c == 32 || (decide (9 ≤ c) && decide (c ≤ 13))

/-- A value out of range is clamped, and a minus sign negates modulo `2 ^ 64`. -/
def n2i (uninit : Inum) (n : Bytes) : Inum :=
  match n.dropWhile isSpace with
  -- At the end of the string the extraction leaves the variable alone.
  | [] => uninit
  | c :: cs =>
      let digits := if c = 43 ∨ c = 45 then cs else c :: cs
      -- Without a digit the value is zero.
      let v := Decimal.value (digits.takeWhile Decimal.isDigit)
      if 2 ^ 64 ≤ v then 0xffffffffffffffff
      else if c = 45 then - UInt64.ofNat v
      else UInt64.ofNat v

def isfile (inum : Inum) : Bool :=
  inum &&& 0x80000000 != 0

def isdir (inum : Inum) : Bool :=
  !isfile inum

/-- `(key_values[i - 1], key_values[i])` for the odd `i`. -/
def pairs : List Bytes → List (Bytes × Bytes)
  | inum :: name :: rest => (inum, name) :: pairs rest
  | _ => []

/-- The first entry under `name`. -/
def findEntry (entries name : Bytes) : Option (Bytes × Bytes) :=
  (pairs (split entries sep)).find? fun entry => name == entry.2

/-- What `add_entry` writes back. -/
def appendEntry (entries name : Bytes) (inum : Inum) : Bytes :=
  (if entries.isEmpty then entries else entries ++ sep) ++ filename inum ++ sep ++ name

/-- What `unlink` writes back: every token that equals the inum or the name goes,
    whatever its index, and so does the separator at the end. -/
def removeEntry (entries inum name : Bytes) : Bytes :=
  let kept := (split entries sep).filter fun token => token != inum && token != name
  (kept.flatMap (· ++ sep)).dropLast

/-- `std::string::c_str` as a string: up to the first zero byte. -/
def cstr (s : Bytes) : Bytes :=
  s.takeWhile (· != 0)

/-- The `dirbuf_add` calls of `fuseserver_readdir`. -/
def readdirEntries (uninit : Inum) (keyValues : List Bytes) : List (Bytes × Inum) :=
  (pairs keyValues).map fun entry => (cstr entry.2, n2i uninit entry.1)

end Yfs
