import Mathlib.Algebra.Order.Ring.Int

/-!
# Deadlines and Retransmission

The arithmetic on `struct timespec` in `rpc.cc`, and the loop of `rpcc::call1` that waits
for a reply with it.

Seconds and nanoseconds are 64 bits wide and the argument of `add_timespec` is an `int`.
A sum that does not fit its type is `none`, as is a `VERIFY` that fails. The carry is a
loop; each turn takes `10 ^ 9` from the nanoseconds, so their number divided by `10 ^ 9`
is as many turns as it can make.

The loop of `call1` is modelled for a call whose reply never comes. What it asks the
world for is `World`: the clock, whether `get_refconn` has a connection to give, whether
the transmission comes back, and whether the connection turns out to be dead. A
transmission is the `get_refconn` of a turn and its calls of `send`. These have no
deadline: `send` waits for the PDU before its own and for room in the socket, so a peer
that reads nothing can keep the turn where it is, and the pass is `stuck`. The turn that
leaves the loop may transmit as well, since the test for the end comes after it.

The inner loop around `pthread_cond_timedwait` is one wait, however often it is woken for
nothing. A deadline whose nanoseconds are out of range is refused with `EINVAL`, which is
not `ETIMEDOUT`, so the inner loop asks again and is never left: this pass is `stuck` too.

## Main definitions

* `Timespec`, `cmpTimespec`, `addTimespec`: Times.
* `World`, `CallLoop`: What the loop reads and what it keeps.
* `pass`, `loop`: One turn of the outer loop, and all of them.
* `deadlineAt`: The deadline of the wait in a given turn.
-/

namespace Yfs

namespace Rpc

/-- `struct timespec`. -/
structure Timespec where
  tvSec : Int
  tvNsec : Int
  deriving DecidableEq, Repr

/-- A sum in a signed type of `w + 1` bits. -/
def signed (w : Nat) (x : Int) : Option Int :=
  if -2 ^ w ≤ x ∧ x < 2 ^ w then some x else none

namespace Timespec

/-- The time in nanoseconds. -/
def ns (t : Timespec) : Int := t.tvSec * 10 ^ 9 + t.tvNsec

/-- The nanoseconds are in the range that `pthread_cond_timedwait` accepts. -/
def Normal (t : Timespec) : Prop := 0 ≤ t.tvNsec ∧ t.tvNsec < 10 ^ 9

instance (t : Timespec) : Decidable t.Normal := inferInstanceAs (Decidable (_ ∧ _))

end Timespec

def cmpTimespec (a b : Timespec) : Int :=
  if b.tvSec < a.tvSec then 1
  else if a.tvSec < b.tvSec then -1
  else if b.tvNsec < a.tvNsec then 1
  else if a.tvNsec < b.tvNsec then -1
  else 0

/-- The loop of `add_timespec`, for `n` turns at most. -/
def carry : Nat → Timespec → Option Timespec
  | 0, t => some t
  | n + 1, t =>
    if 10 ^ 9 < t.tvNsec then
      (signed 63 (t.tvSec + 1)).bind fun sec => carry n ⟨sec, t.tvNsec - 10 ^ 9⟩
    else some t

/-- `add_timespec`, with `b` in milliseconds. -/
def addTimespec (a : Timespec) (b : Int) : Option Timespec := do
  let sec ← signed 63 (a.tvSec + b.tdiv 1000)
  let nsec ← signed 63 (a.tvNsec + b.tmod 1000 * 1000000)
  if 0 ≤ nsec then carry (nsec.toNat / 10 ^ 9) ⟨sec, nsec⟩ else none

/-! ## The loop of `call1` -/

/-- What the turns of the loop are told, by their number: the time, whether there is a
    connection to be had, whether a transmission would never come back, and whether the
    connection that was used is dead. -/
structure World where
  clock : Nat → Timespec
  connects : Nat → Bool
  blocks : Nat → Bool
  dead : Nat → Bool

/-- The variables of the loop. `ch` says whether the pointer is set. -/
structure CallLoop where
  transmit : Bool
  ch : Bool
  currTo : Int
  finaldeadline : Timespec
  deriving DecidableEq, Repr

/-- `to_min`. -/
def toMin : Int := 1000

/-- How a turn ends: with the `break` at the top, with a wait that timed out, or not. -/
inductive Pass where
  | left
  | waited (deadline : Timespec) (l : CallLoop)
  | stuck
  deriving DecidableEq, Repr

/-- One turn of the outer loop of `call1`, with `retrans_`. -/
def pass (w : World) (retrans : Bool) (i : Nat) (l : CallLoop) : Pass :=
  -- `get_refconn` leaves `ch` alone if it cannot connect.
  let ch := l.ch || l.transmit && w.connects i
  if l.transmit && w.blocks i then .stuck
  else if l.finaldeadline.tvSec = 0 then .left
  else match addTimespec (w.clock i) l.currTo with
    | none => .stuck
    | some next =>
      let last := decide (0 < cmpTimespec next l.finaldeadline)
      let nextdeadline := if last then l.finaldeadline else next
      if nextdeadline.Normal then
        match signed 31 (2 * l.currTo) with
        | none => .stuck
        | some currTo => .waited nextdeadline {
            transmit := retrans && (!ch || w.dead i)
            ch
            currTo
            finaldeadline := if last then { l.finaldeadline with tvSec := 0 }
              else l.finaldeadline }
      else .stuck

/-- The deadlines of the waits from turn `i` on, if the loop is left within `n` turns. -/
def loop (w : World) (retrans : Bool) : Nat → Nat → CallLoop → Option (List Timespec)
  | 0, _, _ => none
  | n + 1, i, l =>
    match pass w retrans i l with
    | .left => some []
    | .waited d l' => (loop w retrans n (i + 1) l').map (d :: ·)
    | .stuck => none

/-- The variables when the loop is entered, after the first reading of the clock. -/
def CallLoop.new (start : Timespec) (timeout : Int) : Option CallLoop :=
  (addTimespec start timeout).map fun finaldeadline =>
    { transmit := true, ch := false, currTo := toMin, finaldeadline }

/-- The variables after `n` waits, from turn `i` on. -/
def afterWaits (w : World) (retrans : Bool) : Nat → Nat → CallLoop → Option CallLoop
  | 0, _, l => some l
  | n + 1, i, l =>
    match pass w retrans i l with
    | .waited _ l' => afterWaits w retrans n (i + 1) l'
    | _ => none

/-- The deadline of the wait that follows `n` others. -/
def deadlineAt (w : World) (retrans : Bool) (n i : Nat) (l : CallLoop) : Option Timespec :=
  match (afterWaits w retrans n i l).map (pass w retrans (i + n)) with
  | some (.waited d _) => some d
  | _ => none

end Rpc

end Yfs
