import Yfs.Core.Connection

/-!
# The Receive Buffer in Memory

`connection::readpdu` again, with the memory it works on: the size of the block behind
`rpdu_.buf`, and where in that block it stores.

The length prefix is an `int` that the peer has chosen. It is compared with `MAX_PDU` as
an `int`, added to 4 as a `size_t` to make the size of the block, and the difference to
`solong` is an `int` that becomes a `size_t` as the third argument of `read`. The
conversions are `sizeT`. A request for more than `PTRDIFF_MAX` bytes is one that
`malloc` cannot meet; it meets the others here.

What `read` returns is left to the environment: any number of bytes from 1 up to the
size it was given, the end of the file, or an error. It returns an `int`'s worth of bytes
at most.

## Main definitions

* `sizeT`, `malloc`: Conversion and allocation.
* `RecvBuf`: `rpdu_`, its block, and the stores made into it.
* `RecvBuf.readpdu`, `RecvBuf.more`: The first call for a PDU, and a later one.
-/

namespace Yfs

/-- Conversion from `int` to `size_t`. -/
def sizeT (x : Int) : Nat :=
  (x % 2 ^ 64).toNat

/-- The size of the block, or `none` for `NULL`. -/
def malloc (n : Nat) : Option Nat :=
  if n < 2 ^ 63 then some n else none

/-- `rpdu_`. A store is an offset from `buf` and a number of bytes. -/
structure RecvBuf where
  block : Option Nat
  sz : Int
  solong : Int
  stores : List (Int × Nat)
  deriving DecidableEq, Repr

namespace RecvBuf

def empty : RecvBuf where
  block := none
  sz := 0
  solong := 0
  stores := []

/-- How a call of `readpdu` ends; `aborted` is a failed `VERIFY`. -/
inductive Outcome where
  | returned (succ : Bool) (rpdu : RecvBuf)
  | aborted
  deriving DecidableEq, Repr

/-- The second `read`. An answer that `read` cannot give is `none`. -/
def readBody (b : RecvBuf) : ReadResult → Option Outcome
  | .got n =>
    if 1 ≤ n ∧ n ≤ sizeT (b.sz - b.solong) ∧ n < 2 ^ 31 then
      some (.returned true { b with
        solong := b.solong + n
        stores := (b.solong, n) :: b.stores })
    else none
  | .eof eagain | .failed eagain =>
    some (if eagain then .returned true b else .returned false empty)

/-- `connection::readpdu`, with the bytes `sz1` if the first `read` gets four. -/
def readpdu (b : RecvBuf) (sz1 : Bytes) (r₁ r₂ : ReadResult) : Option Outcome :=
  if b.sz ≠ 0 then b.readBody r₂
  else match r₁ with
    -- A `read` that returns 0 is the end of the connection, whatever `errno` is.
    | .eof _ => some (.returned false b)
    | .failed eagain => some (if eagain then .aborted else .returned false b)
    | .got n =>
      if 1 ≤ n ∧ n ≤ 4 then
        -- A size that comes in pieces ends the connection as well.
        if n ≠ 4 ∨ maxPdu < ntohl sz1 then some (.returned false b)
        else if b.block.isSome then some .aborted
        -- The buffer has the size that was announced and the size field itself; a negative size is
        -- converted.
        else match malloc (sizeT (ntohl sz1 + 4)) with
          | none => some .aborted
          | some k => readBody ⟨some k, ntohl sz1, 4, [(0, 4)]⟩ r₂
      else none

/-- A later call, which `read_cb` makes while the PDU is not complete, and which has not
    given up. -/
def more (b : RecvBuf) (r : ReadResult) : Option RecvBuf :=
  if b.solong < b.sz then
    match b.readBody r with
    | some (.returned true b') => some b'
    | _ => none
  else none

end RecvBuf

end Yfs
