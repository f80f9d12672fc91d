import Yfs.Theory.Deadline

/-!
# The Retransmission Loop

How long `rpcc::call1` waits for a reply that does not come.

The variables of the loop are known from the number of the turn: `curr_to` has been
doubled once in every turn, and whether a turn transmits depends on the connections
alone. So a run is a walk along `stateAt`, and `pass_turn` says what one turn of it does.
A turn whose own deadline would be later than the final one is the last that waits: it
waits for the final deadline and zeroes the seconds, which is how the loop knows that it
is done. `Overtakes` is such a turn, with all that the turns up to it and the one after
it need in order to come to their end.

`endsOnTime_iff` is exact. The loop ends on time if and only if the final deadline is a
time that `add_timespec` carries and that is not taken for the sign, and one of the first
turns overtakes it. The number of turns is not a variable of the loop; the inductions are
on the number of turns that are left, or on those that are allowed.

Why some early turn should overtake the final deadline is the doubling: if the clock was
not set back before the first wait, turn `i` begins `2 ^ i - 1` seconds after the start or
later, so only as many turns come before the last one as doublings fit into the timeout
(`overtakes_of_forward`). A clock that was set back can keep the loop waiting for longer.

## Main definitions

* `Punctual`: A wait that timed out has lasted until its deadline.
* `EndsOnTime`: The loop ends, and the deadlines of its waits.
* `sending`, `stateAt`: The variables of the loop at the top of a turn.
* `Returns`, `Ready`: The transmission of a turn comes back; the turn comes to its wait.
* `Overtakes`: A turn that is the last one to wait.

## Theorems

* `pass_turn`, `pass_leaves`: One turn.
* `loop_overtakes`: A loop that is left had such a turn.
* `loop_ends`: A loop that has such a turn is left.
* `endsOnTime_iff`: When the loop ends on time.
* `overtakes_of_forward`, `endsOnTime_of_forward`: A clock that was not set back.
* `final_wait_refused`: A timeout for which the loop does not end.
-/

namespace Yfs

namespace Rpc

/-- Every wait is followed by a reading of the clock that is not earlier than its
    deadline. -/
def Punctual (w : World) (retrans : Bool) (i : Nat) (l : CallLoop) : Prop :=
  ∀ n d, deadlineAt w retrans n i l = some d → d.ns ≤ (w.clock (i + n + 1)).ns

/-- The loop of a call with this timeout is left. The deadlines of its waits increase up
    to the last but one, none is later than the end of the timeout, the last one is at the
    end of the timeout, and there are few of them. -/
def EndsOnTime (w : World) (retrans : Bool) (start : Timespec) (timeout : Nat) : Prop :=
  ∃ l n ds, CallLoop.new start timeout = some l ∧ loop w retrans n 0 l = some ds ∧
    ds.dropLast.Pairwise (fun d d' => d.ns < d'.ns) ∧
    (∀ d ∈ ds, d.ns ≤ start.ns + timeout * 10 ^ 6) ∧
    (∃ d ∈ ds.getLast?, d.ns = start.ns + timeout * 10 ^ 6) ∧
    ds.length ≤ Nat.log 2 (timeout / 1000 + 1) + 2

/-! ## The variables of a turn -/

/-- `transmit` and `ch` at the top of turn `j`. They depend on the connections only. -/
def sending (w : World) (retrans : Bool) : Nat → Bool × Bool
  | 0 => (true, false)
  | j + 1 =>
      let ch := (sending w retrans j).2 || (sending w retrans j).1 && w.connects j
      (retrans && (!ch || w.dead j), ch)

/-- The variables of the loop at the top of turn `i`. -/
def stateAt (w : World) (retrans : Bool) (final : Timespec) (i : Nat) : CallLoop where
  transmit := (sending w retrans i).1
  ch := (sending w retrans i).2
  currTo := toMin * 2 ^ i
  finaldeadline := final

/-- The deadline that turn `i` works out from its own reading of the clock. -/
def ownDeadline (w : World) (i : Nat) : Timespec :=
  (w.clock i).sum (toMin * 2 ^ i)

/-- The transmission of turn `j` comes back, if the turn makes one. -/
def Returns (w : World) (retrans : Bool) (j : Nat) : Prop :=
  (sending w retrans j).1 = true → w.blocks j = false

/-- Turn `j` comes as far as its wait and its end: the transmission comes back, its own
    deadline is a `time_t`, and the doubled interval is an `int`. -/
structure Ready (w : World) (retrans : Bool) (j : Nat) : Prop where
  returns : Returns w retrans j
  fits : (w.clock j).tvSec + 2 ^ j < 2 ^ 63
  interval : toMin * 2 ^ (j + 1) < 2 ^ 31

/-- In turn `i` the interval goes beyond the time `final`, in nanoseconds. The turns up to
    this one come to their wait, and the transmission of the next one comes back. -/
structure Overtakes (w : World) (retrans : Bool) (final : Int) (i : Nat) : Prop where
  later : final < (w.clock i).ns + 2 ^ i * 10 ^ 9
  ready : ∀ j ≤ i, Ready w retrans j
  returns : Returns w retrans (i + 1)

@[simp]
theorem stateAt_transmit (w : World) (retrans : Bool) (final : Timespec) (i : Nat) :
    (stateAt w retrans final i).transmit = (sending w retrans i).1 := rfl

@[simp]
theorem stateAt_ch (w : World) (retrans : Bool) (final : Timespec) (i : Nat) :
    (stateAt w retrans final i).ch = (sending w retrans i).2 := rfl

@[simp]
theorem stateAt_currTo (w : World) (retrans : Bool) (final : Timespec) (i : Nat) :
    (stateAt w retrans final i).currTo = toMin * 2 ^ i := rfl

@[simp]
theorem stateAt_finaldeadline (w : World) (retrans : Bool) (final : Timespec) (i : Nat) :
    (stateAt w retrans final i).finaldeadline = final := rfl

theorem ownDeadline_ns (w : World) (i : Nat) :
    (ownDeadline w i).ns = (w.clock i).ns + 2 ^ i * 10 ^ 9 := by
  rw [ownDeadline, Timespec.sum_ns, toMin]
  omega

/-- The interval is a number of seconds, so nothing is carried. -/
theorem ownDeadline_eq (w : World) (i : Nat) (hw : (w.clock i).Clock) :
    ownDeadline w i = ⟨(w.clock i).tvSec + 2 ^ i, (w.clock i).tvNsec⟩ := by
  have hmod : toMin * 2 ^ i % 1000 = 0 := Int.mul_emod_right 1000 (2 ^ i)
  have hdiv : toMin * 2 ^ i / 1000 = 2 ^ i := Int.mul_ediv_cancel_left _ (by decide)
  have hlt := hw.normal.2
  rw [ownDeadline, Timespec.sum, hmod, hdiv, if_pos (by omega), Timespec.mk.injEq]
  exact ⟨rfl, by omega⟩

/-- The sum of a reading and the interval is the deadline, unless it does not fit. -/
theorem addTimespec_interval (w : World) (i : Nat) (hw : (w.clock i).Clock) :
    addTimespec (w.clock i) (toMin * 2 ^ i) =
      if (w.clock i).tvSec + 2 ^ i < 2 ^ 63 then some (ownDeadline w i) else none := by
  have hpos : (0 : Int) < 2 ^ i := pow_pos (by decide) i
  rw [addTimespec_eq _ _ hw (by rw [toMin]; omega), ← ownDeadline, ownDeadline_eq w i hw]

/-- The doubled interval, unless it is no `int`. -/
theorem signed_interval (i : Nat) :
    signed 31 (2 * (toMin * 2 ^ i)) =
      if toMin * 2 ^ (i + 1) < 2 ^ 31 then some (toMin * 2 ^ (i + 1)) else none := by
  have hpos : (0 : Int) < 2 ^ i := pow_pos (by decide) i
  have hdouble : 2 * (toMin * 2 ^ i) = toMin * 2 ^ (i + 1) := by
    rw [pow_succ, toMin]
    omega
  have hge : (-2 ^ 31 : Int) ≤ toMin * 2 ^ (i + 1) := by
    rw [← hdouble, toMin]
    omega
  rw [hdouble, signed]
  simp only [hge, true_and]

/-! ## One turn -/

/-- What a turn can do. One that waits does so for a time that is accepted, which is the
    final deadline if it zeroes the seconds. -/
theorem pass_cases (w : World) (retrans : Bool) (i : Nat) (l : CallLoop) :
    l.finaldeadline.tvSec = 0 ∧ pass w retrans i l = .left ∨ pass w retrans i l = .stuck ∨
      l.finaldeadline.tvSec ≠ 0 ∧ ∃ d l', pass w retrans i l = .waited d l' ∧ d.Normal ∧
        (d = l.finaldeadline ∧ l'.finaldeadline.tvSec = 0 ∨
          l'.finaldeadline = l.finaldeadline) := by
  unfold pass
  dsimp only
  by_cases hblocks : (l.transmit && w.blocks i) = true
  · exact Or.inr (Or.inl (if_pos hblocks))
  rw [if_neg hblocks]
  by_cases hsec : l.finaldeadline.tvSec = 0
  · exact Or.inl ⟨hsec, if_pos hsec⟩
  refine Or.inr ?_
  rw [if_neg hsec]
  -- The addition has no result if the seconds leave `time_t`.
  cases addTimespec (w.clock i) l.currTo with
  | none => exact Or.inl rfl
  | some next =>
      dsimp only
      generalize decide (0 < cmpTimespec next l.finaldeadline) = last
      by_cases hnormal : (if last = true then l.finaldeadline else next).Normal
      · rw [if_pos hnormal]
        cases signed 31 (2 * l.currTo) with
        | none => exact Or.inl rfl
        | some currTo =>
            refine Or.inr ⟨hsec, _, _, rfl, hnormal, ?_⟩
            cases last with
            | true => exact Or.inl ⟨rfl, rfl⟩
            | false => exact Or.inr rfl
      · rw [if_neg hnormal]
        exact Or.inl rfl

/-- The final deadline after turn `i`. -/
def finalAfter (w : World) (i : Nat) (final : Timespec) : Timespec :=
  if final.ns < (ownDeadline w i).ns then { final with tvSec := 0 } else final

/-- The deadline that turn `i` waits for. -/
def waitsFor (w : World) (i : Nat) (final : Timespec) : Timespec :=
  if final.ns < (ownDeadline w i).ns then final else ownDeadline w i

section Turn

variable (w : World) (retrans : Bool) (i : Nat) (final : Timespec) {l : CallLoop}

/-- A turn before the end waits exactly if it is `Ready`. It waits for its own deadline,
    or for the final one if that is earlier. -/
theorem pass_turn (hl : l = stateAt w retrans final i) (hw : (w.clock i).Clock)
    (hsec : final.tvSec ≠ 0) (hfinal : final.Normal) :
    (Ready w retrans i → pass w retrans i l
      = .waited (waitsFor w i final) (stateAt w retrans (finalAfter w i final) (i + 1))) ∧
    (¬ Ready w retrans i → pass w retrans i l = .stuck) := by
  have hown : (ownDeadline w i).Normal := by
    rw [ownDeadline_eq w i hw]
    exact hw.normal
  -- Both times are normal, so the comparison of the source compares nanoseconds.
  have hcmp : decide (0 < cmpTimespec (ownDeadline w i) final)
      = decide (final.ns < (ownDeadline w i).ns) := by
    rw [cmpTimespec_eq_sign _ _ hown hfinal, decide_eq_decide, Int.sign_pos_iff]
    omega
  have haccepted : (if decide (final.ns < (ownDeadline w i).ns) = true then final
      else ownDeadline w i).Normal := by
    split
    · exact hfinal
    · exact hown
  have htransmit : l.transmit = (sending w retrans i).1 := by rw [hl, stateAt_transmit]
  have hch : l.ch = (sending w retrans i).2 := by rw [hl, stateAt_ch]
  have hcurr : l.currTo = toMin * 2 ^ i := by rw [hl, stateAt_currTo]
  have hdeadline : l.finaldeadline = final := by rw [hl, stateAt_finaldeadline]
  unfold pass
  dsimp only
  rw [htransmit, hch, hcurr, hdeadline]
  constructor
  · rintro ⟨hreturns, hfits, hinterval⟩
    have hback : ¬ ((sending w retrans i).1 && w.blocks i) = true := by
      intro hblocks
      rw [Bool.and_eq_true] at hblocks
      rw [hreturns hblocks.1] at hblocks
      exact Bool.false_ne_true hblocks.2
    rw [if_neg hback, if_neg hsec, addTimespec_interval w i hw, if_pos hfits]
    dsimp only
    rw [hcmp, if_pos haccepted, signed_interval, if_pos hinterval]
    by_cases hlast : final.ns < (ownDeadline w i).ns
    · rw [decide_eq_true hlast, waitsFor, finalAfter, if_pos hlast, if_pos hlast]
      rfl
    · rw [decide_eq_false hlast, waitsFor, finalAfter, if_neg hlast, if_neg hlast]
      rfl
  · intro hready
    -- What is missing decides where the turn stops.
    by_cases hback : ((sending w retrans i).1 && w.blocks i) = true
    · exact if_pos hback
    rw [if_neg hback, if_neg hsec, addTimespec_interval w i hw]
    by_cases hfits : (w.clock i).tvSec + 2 ^ i < 2 ^ 63
    · have hinterval : ¬ toMin * 2 ^ (i + 1) < 2 ^ 31 := by
        refine fun hinterval => hready ⟨fun htransmit => ?_, hfits, hinterval⟩
        rwa [htransmit, Bool.true_and, Bool.not_eq_true] at hback
      rw [if_pos hfits]
      dsimp only
      rw [hcmp, if_pos haccepted, signed_interval, if_neg hinterval]
    · rw [if_neg hfits]

/-- The turn that finds the seconds zeroed leaves the loop, if its transmission comes
    back. -/
theorem pass_leaves (hl : l = stateAt w retrans final i) (hsec : final.tvSec = 0) :
    (Returns w retrans i → pass w retrans i l = .left) ∧
    (¬ Returns w retrans i → pass w retrans i l = .stuck) := by
  have htransmit : l.transmit = (sending w retrans i).1 := by rw [hl, stateAt_transmit]
  have hdeadline : l.finaldeadline = final := by rw [hl, stateAt_finaldeadline]
  unfold pass Returns
  dsimp only
  rw [htransmit, hdeadline]
  constructor
  · intro hreturns
    rw [if_neg fun hblocks => ?_, if_pos hsec]
    rw [Bool.and_eq_true] at hblocks
    rw [hreturns hblocks.1] at hblocks
    exact Bool.false_ne_true hblocks.2
  · intro hreturns
    rw [if_pos]
    rw [Classical.not_imp, Bool.not_eq_false] at hreturns
    rw [hreturns.1, hreturns.2, Bool.and_self]

/-- The deadline of a turn that is not the last one. -/
theorem waitsFor_own (h : ¬ final.ns < (ownDeadline w i).ns) :
    waitsFor w i final = ownDeadline w i ∧ finalAfter w i final = final :=
  ⟨if_neg h, if_neg h⟩

theorem waitsFor_final (h : final.ns < (ownDeadline w i).ns) :
    waitsFor w i final = final ∧ (finalAfter w i final).tvSec = 0 :=
  ⟨if_pos h, by rw [finalAfter, if_pos h]⟩

end Turn

/-- The wait of this turn, and those of the turns after it. -/
theorem Punctual.next {w : World} {retrans : Bool} {i : Nat} {l l' : CallLoop} {d : Timespec}
    (h : Punctual w retrans i l) (hpass : pass w retrans i l = .waited d l') :
    d.ns ≤ (w.clock (i + 1)).ns ∧ Punctual w retrans (i + 1) l' := by
  constructor
  · apply h 0 d
    simp only [deadlineAt, afterWaits, Option.map_some, Nat.add_zero, hpass]
  · intro n d' hd'
    have hshift : deadlineAt w retrans (n + 1) i l = some d' := by
      rw [← hd', deadlineAt, deadlineAt, afterWaits, hpass, Nat.add_right_comm i 1 n]
      rfl
    have hle := h (n + 1) d' hshift
    rw [show i + (n + 1) + 1 = i + 1 + n + 1 by omega] at hle
    exact hle

/-! ## All turns -/

theorem loop_waited (w : World) (retrans : Bool) (n i : Nat) (l l' : CallLoop) (d : Timespec)
    (hpass : pass w retrans i l = .waited d l') :
    loop w retrans (n + 1) i l = (loop w retrans n (i + 1) l').map (d :: ·) := by
  simp only [loop, hpass]

/-- A loop that is left has waited for the final deadline, which was accepted. -/
theorem loop_last (w : World) (retrans : Bool) (n i : Nat) (l : CallLoop) (ds : List Timespec)
    (h : loop w retrans n i l = some ds) (hsec : l.finaldeadline.tvSec ≠ 0) :
    l.finaldeadline.Normal := by
  -- The final deadline stays the same until the turn that waits for it.
  induction n generalizing i l ds with
  | zero => cases h
  | succ n ih =>
      rcases pass_cases w retrans i l with hleft | hpass | ⟨_, d, l', hpass, hnormal, hend⟩
      · exact absurd hleft.1 hsec
      · simp only [loop, hpass, reduceCtorEq] at h
      · rw [loop_waited w retrans n i l l' d hpass] at h
        rcases Option.map_eq_some_iff.mp h with ⟨ds', hds', _⟩
        rcases hend with ⟨rfl, _⟩ | hsame
        · exact hnormal
        · rw [← hsame] at hsec ⊢
          exact ih (i + 1) l' ds' hds' hsec

/-- A loop that finds the seconds zeroed makes no wait, and is left if its transmission
    comes back. -/
theorem loop_leaves (w : World) (retrans : Bool) (n i : Nat) (final : Timespec)
    (hsec : final.tvSec = 0) :
    (Returns w retrans i → loop w retrans (n + 1) i (stateAt w retrans final i) = some []) ∧
    ∀ ds, loop w retrans n i (stateAt w retrans final i) = some ds →
      ds = [] ∧ Returns w retrans i := by
  rcases pass_leaves w retrans i final rfl hsec with ⟨hleft, hstuck⟩
  constructor
  · intro hreturns
    simp only [loop, hleft hreturns]
  · intro ds hds
    cases n with
    | zero => cases hds
    | succ n =>
        by_cases hreturns : Returns w retrans i
        · simp only [loop, hleft hreturns, Option.some.injEq] at hds
          exact ⟨hds.symm, hreturns⟩
        · simp only [loop, hstuck hreturns, reduceCtorEq] at hds

/-- `ds` are deadlines as they should be, for waits that begin when the clock shows `now`:
    the last one is `final` and none is later, and those before it increase from `now` on. -/
structure Waits (now : Int) (final : Timespec) (ds : List Timespec) : Prop where
  bounded : ∀ d ∈ ds, d.ns ≤ final.ns
  last : ds.getLast? = some final
  increasing : ds.dropLast.Pairwise (fun d d' => d.ns < d'.ns)
  after : ∀ d ∈ ds.dropLast, now < d.ns

theorem waits_singleton (now : Int) (final : Timespec) : Waits now final [final] where
  bounded := fun _ hd => le_of_eq (congrArg Timespec.ns (List.mem_singleton.mp hd))
  last := rfl
  increasing := List.Pairwise.nil
  after := fun _ hd => absurd hd List.not_mem_nil

/-- One wait more at the front. It ended before the clock was read for the next one, so its
    deadline is earlier than theirs. -/
theorem Waits.cons {now now' : Int} {final d : Timespec} {ds : List Timespec}
    (h : Waits now' final ds) (hbound : d.ns ≤ final.ns) (hended : d.ns ≤ now')
    (hnow : now < d.ns) : Waits now final (d :: ds) := by
  have hne : ds ≠ [] := by
    rintro rfl
    exact Option.some_ne_none _ h.last.symm
  constructor
  · intro x hx
    rcases List.mem_cons.mp hx with rfl | hx
    · exact hbound
    · exact h.bounded x hx
  · rw [List.getLast?_cons_of_ne_nil hne, h.last]
  · rw [List.dropLast_cons_of_ne_nil hne]
    exact List.pairwise_cons.mpr ⟨fun x hx => lt_of_le_of_lt hended (h.after x hx), h.increasing⟩
  · intro x hx
    rw [List.dropLast_cons_of_ne_nil hne] at hx
    rcases List.mem_cons.mp hx with rfl | hx
    · exact hnow
    · have := h.after x hx
      omega

section Loop

variable (w : World) (retrans : Bool) (hw : ∀ i, (w.clock i).Clock) (final : Timespec)
  (hsec : final.tvSec ≠ 0) (hfinal : final.Normal)

include hw hsec hfinal

/-- A loop that is left from turn `i` on: the last of its waits was in a turn whose own
    deadline is later than the final one, and every turn came to its end. -/
theorem loop_overtakes (n i : Nat) (ds : List Timespec)
    (h : loop w retrans n i (stateAt w retrans final i) = some ds) :
    ∃ k, ds.length = k + 1 ∧ final.ns < (ownDeadline w (i + k)).ns ∧
      (∀ j ≤ k, Ready w retrans (i + j)) ∧ Returns w retrans (i + k + 1) := by
  -- The turns are peeled off the front; what is left of the loop is shorter by one.
  induction n generalizing i ds with
  | zero => cases h
  | succ n ih =>
      rcases pass_turn w retrans i final rfl (hw i) hsec hfinal with ⟨hwaits, hstuck⟩
      by_cases hready : Ready w retrans i
      · rw [loop_waited w retrans n i _ _ _ (hwaits hready)] at h
        rcases Option.map_eq_some_iff.mp h with ⟨ds', hds', rfl⟩
        by_cases hlast : final.ns < (ownDeadline w i).ns
        · have hzero := (waitsFor_final w i final hlast).2
          rcases (loop_leaves w retrans n (i + 1) _ hzero).2 ds' hds' with ⟨rfl, hreturns⟩
          refine ⟨0, rfl, hlast, ?_, hreturns⟩
          intro j hj
          rw [Nat.le_zero.mp hj]
          exact hready
        · rw [(waitsFor_own w i final hlast).2] at hds'
          rcases ih (i + 1) ds' hds' with ⟨k, hlen, hover, hrest, hreturns⟩
          rw [show i + 1 + k = i + (k + 1) by omega] at hover hreturns
          refine ⟨k + 1, by rw [List.length_cons, hlen], hover, ?_, hreturns⟩
          intro j hj
          cases j with
          | zero => exact hready
          | succ j =>
              rw [show i + (j + 1) = i + 1 + j by omega]
              exact hrest j (by omega)
      · simp only [loop, hstuck hready, reduceCtorEq] at h

/-- The turn whose own deadline is later than the final one is the last that waits. -/
theorem loop_ends_final (i n : Nat) (hlast : final.ns < (ownDeadline w i).ns)
    (hready : Ready w retrans i) (hreturns : Returns w retrans (i + 1)) :
    loop w retrans (n + 2) i (stateAt w retrans final i) = some [final] := by
  have hpass := (pass_turn w retrans i final rfl (hw i) hsec hfinal).1 hready
  rcases waitsFor_final w i final hlast with ⟨hwaits, hzero⟩
  rw [loop_waited w retrans (n + 1) i _ _ _ hpass, hwaits,
    (loop_leaves w retrans n (i + 1) _ hzero).1 hreturns, Option.map_some]

/-- From turn `i` on, if turn `i + k` overtakes the final deadline. An earlier turn may
    overtake it as well; then the loop is left earlier. -/
theorem loop_ends (k i : Nat) (hover : final.ns < (ownDeadline w (i + k)).ns)
    (hready : ∀ j ≤ k, Ready w retrans (i + j)) (hreturns : Returns w retrans (i + k + 1))
    (hp : Punctual w retrans i (stateAt w retrans final i)) :
    ∃ ds, loop w retrans (k + 2) i (stateAt w retrans final i) = some ds ∧
      ds.length ≤ k + 1 ∧ Waits (w.clock i).ns final ds := by
  -- The induction is on the number of turns that are allowed before the last one.
  induction k generalizing i with
  | zero =>
      exact ⟨[final], loop_ends_final w retrans hw final hsec hfinal i 0 hover
        (hready 0 (Nat.le_refl 0)) hreturns, Nat.le_refl 1, waits_singleton _ _⟩
  | succ k ih =>
      by_cases hlast : final.ns < (ownDeadline w i).ns
      · exact ⟨[final], loop_ends_final w retrans hw final hsec hfinal i (k + 1) hlast
          (hready 0 (Nat.zero_le _)) (hready 1 (by omega)).returns, Nat.le_add_left 1 (k + 1),
          waits_singleton _ _⟩
      · have hpass := (pass_turn w retrans i final rfl (hw i) hsec hfinal).1
          (hready 0 (Nat.zero_le _))
        rcases waitsFor_own w i final hlast with ⟨hwaits, hsame⟩
        rw [hwaits, hsame] at hpass
        rcases hp.next hpass with ⟨hended, hp'⟩
        rw [show i + (k + 1) = i + 1 + k by omega] at hover hreturns
        have hready' : ∀ j ≤ k, Ready w retrans (i + 1 + j) := by
          intro j hj
          rw [show i + 1 + j = i + (j + 1) by omega]
          exact hready (j + 1) (by omega)
        rcases ih (i + 1) hover hready' hreturns hp' with ⟨ds, hds, hlen, hrest⟩
        refine ⟨ownDeadline w i :: ds, ?_, ?_, hrest.cons (not_lt.mp hlast) hended ?_⟩
        · rw [loop_waited w retrans (k + 2) i _ _ _ hpass, hds, Option.map_some]
        · rw [List.length_cons]
          omega
        · have hpos : (0 : Int) < 2 ^ i := pow_pos (by decide) i
          rw [ownDeadline_ns]
          omega

end Loop

/-! ## The whole loop -/

/-- The state in which the loop is entered, if the final deadline is a `time_t`. -/
theorem new_eq (w : World) (retrans : Bool) (start : Timespec) (timeout : Nat)
    (hstart : start.Clock) :
    CallLoop.new start timeout = if (start.sum timeout).tvSec < 2 ^ 63
      then some (stateAt w retrans (start.sum timeout) 0) else none := by
  have hzero : stateAt w retrans (start.sum timeout) 0
      = ⟨true, false, toMin, start.sum timeout⟩ := by
    rw [stateAt, pow_zero, mul_one]
    rfl
  rw [CallLoop.new, addTimespec_eq start timeout hstart (Int.natCast_nonneg timeout), hzero]
  split
  · rw [Option.map_some]
  · rw [Option.map_none]

theorem sum_nonneg (start : Timespec) (timeout : Nat) (hstart : start.Clock) :
    0 ≤ (start.sum timeout).tvSec := by
  have hsec := hstart.nonneg
  unfold Timespec.sum
  split
  · dsimp only
    omega
  · dsimp only
    omega

/-- A final deadline that lands, outside the first second of the epoch: the loop is entered
    with it, it is accepted by the wait, and it is not taken for the sign. -/
theorem new_of_lands (w : World) (retrans : Bool) (start : Timespec) (timeout : Nat)
    (hstart : start.Clock) (hlands : start.Lands timeout)
    (hsecond : 10 ^ 9 ≤ start.ns + timeout * 10 ^ 6) :
    CallLoop.new start timeout = some (stateAt w retrans (start.sum timeout) 0) ∧
      (start.sum timeout).Normal ∧ (start.sum timeout).tvSec ≠ 0 := by
  have hnormal := (start.sum_normal_iff timeout hstart.normal).mpr hlands.1
  have hsum := start.sum_ns timeout
  have hfits := hlands.2
  have hge := hnormal.1
  have hlt := hnormal.2
  rw [← hsum, Timespec.ns] at hsecond hfits
  refine ⟨?_, hnormal, fun hzero => ?_⟩
  · rw [new_eq w retrans start timeout hstart, if_pos (by omega)]
  · rw [hzero] at hsecond
    omega

section Whole

variable (w : World) (retrans : Bool) (start : Timespec) (timeout : Nat)
  (hw : ∀ i, (w.clock i).Clock) (hstart : start.Clock)

include hw hstart

/-- One of the first turns overtakes the final deadline: the loop ends on time. -/
theorem endsOnTime_of_overtakes
    (hp : ∀ l, CallLoop.new start timeout = some l → Punctual w retrans 0 l)
    (hlands : start.Lands timeout) (hsecond : 10 ^ 9 ≤ start.ns + timeout * 10 ^ 6) (i : Nat)
    (hi : i ≤ Nat.log 2 (timeout / 1000 + 1) + 1)
    (h : Overtakes w retrans (start.ns + timeout * 10 ^ 6) i) :
    EndsOnTime w retrans start timeout := by
  have hsum := start.sum_ns timeout
  rcases new_of_lands w retrans start timeout hstart hlands hsecond with ⟨hnew, hnormal, hsec⟩
  have hover : (start.sum timeout).ns < (ownDeadline w (0 + i)).ns := by
    rw [hsum, Nat.zero_add, ownDeadline_ns]
    exact h.later
  have hready : ∀ j ≤ i, Ready w retrans (0 + j) := by
    intro j hj
    rw [Nat.zero_add]
    exact h.ready j hj
  have hreturns : Returns w retrans (0 + i + 1) := by
    rw [Nat.zero_add]
    exact h.returns
  rcases loop_ends w retrans hw _ hsec hnormal i 0 hover hready hreturns (hp _ hnew) with
    ⟨ds, hds, hlen, hwaits⟩
  refine ⟨_, _, ds, hnew, hds, hwaits.increasing, ?_, ⟨_, Option.mem_def.mpr hwaits.last, hsum⟩,
    by omega⟩
  intro d hd
  rw [← hsum]
  exact hwaits.bounded d hd

/-- No wait ends before its deadline. The loop ends on time if and only if the final
    deadline is carried and fits, it is not in the first second of the epoch, and in one of
    the first turns the interval goes beyond it, with every turn up to there coming to its
    wait and every transmission coming back. -/
theorem endsOnTime_iff
    (hp : ∀ l, CallLoop.new start timeout = some l → Punctual w retrans 0 l) :
    EndsOnTime w retrans start timeout ↔
      start.Lands timeout ∧ 10 ^ 9 ≤ start.ns + timeout * 10 ^ 6 ∧
        ∃ i ≤ Nat.log 2 (timeout / 1000 + 1) + 1,
          Overtakes w retrans (start.ns + timeout * 10 ^ 6) i := by
  have hsum := start.sum_ns timeout
  constructor
  · rintro ⟨l, n, ds, hl, hds, _, _, ⟨d, hd, _⟩, hlen⟩
    rw [new_eq w retrans start timeout hstart] at hl
    split at hl
    · rename_i hfits
      cases hl
      have hsec : (start.sum timeout).tvSec ≠ 0 := by
        -- With no seconds there is no wait, and so no last one.
        intro hzero
        rw [((loop_leaves w retrans n 0 _ hzero).2 ds hds).1] at hd
        exact absurd hd (Option.not_mem_none d)
      have hnormal := loop_last w retrans n 0 _ ds hds hsec
      rw [stateAt_finaldeadline] at hnormal
      rcases loop_overtakes w retrans hw _ hsec hnormal n 0 ds hds with
        ⟨k, hcount, hover, hready, hreturns⟩
      have hnonneg := sum_nonneg start timeout hstart
      have hge := hnormal.1
      have hlt := hnormal.2
      refine ⟨⟨(start.sum_normal_iff timeout hstart.normal).mp hnormal, ?_⟩, ?_, k, by omega, ?_⟩
      · rw [← hsum, Timespec.ns]
        omega
      · rw [← hsum, Timespec.ns]
        omega
      · rw [Nat.zero_add] at hover hreturns
        refine ⟨?_, fun j hj => ?_, hreturns⟩
        · rw [← hsum, ← ownDeadline_ns]
          exact hover
        · have hj' := hready j hj
          rwa [Nat.zero_add] at hj'
    · cases hl
  · rintro ⟨hlands, hsecond, i, hi, hover⟩
    exact endsOnTime_of_overtakes w retrans start timeout hw hstart hp hlands hsecond i hi hover

end Whole

/-! ## A clock that was not set back -/

/-- From turn `i` on, with `j` turns more up to turn `k`. Turn `i` begins `2 ^ i - 1` seconds
    after the start or later, so that turn `k` overtakes the final deadline if no turn before
    it does. -/
theorem overtakes_of_forward (w : World) (retrans : Bool) (hw : ∀ i, (w.clock i).Clock)
    (final : Timespec) (hsec : final.tvSec ≠ 0) (hfinal : final.Normal) (start : Int) (k : Nat)
    (hfew : final.ns < start + (2 ^ (k + 1) - 1) * 10 ^ 9)
    (hready : ∀ j ≤ k, Ready w retrans j) (hreturns : Returns w retrans (k + 1)) (i j : Nat)
    (hj : i + j = k) (hbegun : start + (2 ^ i - 1) * 10 ^ 9 ≤ (w.clock i).ns)
    (hp : Punctual w retrans i (stateAt w retrans final i)) :
    ∃ m ≤ k, Overtakes w retrans final.ns m := by
  have hover : ∀ m ≤ k, final.ns < (ownDeadline w m).ns → Overtakes w retrans final.ns m := by
    intro m hm hlast
    rw [ownDeadline_ns] at hlast
    refine ⟨hlast, fun j hj => hready j (by omega), ?_⟩
    rcases Nat.eq_or_lt_of_le hm with rfl | hlt
    · exact hreturns
    · exact (hready (m + 1) hlt).returns
  induction j generalizing i with
  | zero =>
      rw [Nat.add_zero] at hj
      subst hj
      refine ⟨i, Nat.le_refl i, hover i (Nat.le_refl i) ?_⟩
      rw [ownDeadline_ns]
      rw [pow_succ] at hfew
      omega
  | succ j ih =>
      by_cases hlast : final.ns < (ownDeadline w i).ns
      · exact ⟨i, by omega, hover i (by omega) hlast⟩
      · have hpass := (pass_turn w retrans i final rfl (hw i) hsec hfinal).1
          (hready i (by omega))
        rcases waitsFor_own w i final hlast with ⟨hwaits, hsame⟩
        rw [hwaits, hsame] at hpass
        rcases hp.next hpass with ⟨hended, hp'⟩
        rw [ownDeadline_ns] at hended
        -- The wait has lasted for `2 ^ i` seconds at least.
        have hbegun' : start + (2 ^ (i + 1) - 1) * 10 ^ 9 ≤ (w.clock (i + 1)).ns := by
          rw [pow_succ]
          omega
        exact ih (i + 1) (by omega) hbegun' hp'

/-- The clock was not set back between the start and the first wait, is far from the end of
    `time_t`, and no transmission blocks. Then for every timeout of up to `2 ^ 30`
    milliseconds only the final deadline itself decides whether the loop ends on time. -/
theorem endsOnTime_of_forward (w : World) (retrans : Bool) (start : Timespec) (timeout : Nat)
    (hw : ∀ i, (w.clock i).Clock ∧ (w.clock i).tvSec < 2 ^ 62) (hstart : start.Clock)
    (hto : timeout ≤ 2 ^ 30) (hback : start.ns ≤ (w.clock 0).ns)
    (hsent : ∀ j, Returns w retrans j)
    (hp : ∀ l, CallLoop.new start timeout = some l → Punctual w retrans 0 l)
    (hlands : start.Lands timeout) (hsecond : 10 ^ 9 ≤ start.ns + timeout * 10 ^ 6) :
    EndsOnTime w retrans start timeout := by
  have hclock := fun i => (hw i).1
  have hsum := start.sum_ns timeout
  rcases new_of_lands w retrans start timeout hstart hlands hsecond with ⟨hnew, hnormal, hsec⟩
  -- The number of doublings that fit into the timeout.
  have hk : Nat.log 2 (timeout / 1000 + 1) ≤ 20 :=
    Nat.lt_succ_iff.mp (Nat.log_lt_of_lt_pow (by omega) (by omega))
  -- So few doublings stay inside `int`, and inside `time_t` for such a clock.
  have hready : ∀ j ≤ Nat.log 2 (timeout / 1000 + 1), Ready w retrans j := by
    intro j hj
    have hpow : (2 : Int) ^ j ≤ 2 ^ 20 := pow_le_pow_right₀ (by decide) (by omega)
    have hlt := (hw j).2
    refine ⟨hsent j, by omega, ?_⟩
    rw [pow_succ, toMin]
    omega
  -- The intervals up to this turn add up to more than the timeout.
  have hfew : (start.sum timeout).ns <
      start.ns + (2 ^ (Nat.log 2 (timeout / 1000 + 1) + 1) - 1) * 10 ^ 9 := by
    have hlog : timeout / 1000 + 1 < 2 ^ (Nat.log 2 (timeout / 1000 + 1) + 1) :=
      Nat.lt_pow_succ_log_self (by decide) _
    have hcast : ((timeout / 1000 + 1 : Nat) : Int) <
        2 ^ (Nat.log 2 (timeout / 1000 + 1) + 1) := by exact_mod_cast hlog
    rw [hsum]
    omega
  rcases overtakes_of_forward w retrans hclock _ hsec hnormal start.ns _ hfew hready (hsent _) 0 _
    (Nat.zero_add _) (by omega) (hp _ hnew) with ⟨m, hm, hover⟩
  rw [hsum] at hover
  exact endsOnTime_of_overtakes w retrans start timeout hclock hstart hp hlands hsecond m
    (by omega) hover

/-- A clock that is read soon after the start, and long after every later deadline. No
    connection is ever made. -/
def sleepyWorld : World where
  clock := fun i => if i = 0 then ⟨100, 600000000⟩ else ⟨200, 0⟩
  connects := fun _ => false
  blocks := fun _ => false
  dead := fun _ => true

theorem clock_sleepyWorld (i : Nat) : (sleepyWorld.clock i).Clock := by
  by_cases hi : i = 0
  · rw [show sleepyWorld.clock i = ⟨100, 600000000⟩ from if_pos hi]
    exact ⟨by decide, by decide⟩
  · rw [show sleepyWorld.clock i = ⟨200, 0⟩ from if_neg hi]
    exact ⟨by decide, by decide⟩

/-- The second turn overtakes a deadline shortly after the start. -/
theorem overtakes_sleepyWorld : Overtakes sleepyWorld true 102100000000 1 := by
  refine ⟨by decide, fun j hj => ?_, fun _ => rfl⟩
  rcases Nat.le_one_iff_eq_zero_or_eq_one.mp hj with rfl | rfl
  · exact ⟨fun _ => rfl, by decide, by decide⟩
  · exact ⟨fun _ => rfl, by decide, by decide⟩

/-- A second and a half: a wait of one second, and one up to the final deadline. -/
theorem endsOnTime_sleepyWorld : EndsOnTime sleepyWorld true ⟨100, 600000000⟩ 1500 := by
  refine (endsOnTime_iff sleepyWorld true ⟨100, 600000000⟩ 1500 clock_sleepyWorld
    ⟨by decide, by decide⟩ ?_).mpr
    ⟨⟨by decide, by decide⟩, by decide, 1, Nat.le_add_left 1 _, overtakes_sleepyWorld⟩
  intro l hl n d hd
  cases hl
  cases n with
  | zero =>
      cases hd
      decide
  | succ n =>
      cases n with
      | zero =>
          cases hd
          decide
      | succ n => cases n <;> cases hd

-- A clock that is set back before the first wait: the waits are as many as it takes to
-- come from there to the final deadline, here seven for a timeout of one second.
example : loop ⟨fun i => ⟨2 ^ i - 1, 0⟩, fun _ => true, fun _ => false, fun _ => false⟩ true 8 0
    ⟨true, false, toMin, ⟨101, 0⟩⟩ =
    some [⟨1, 0⟩, ⟨3, 0⟩, ⟨7, 0⟩, ⟨15, 0⟩, ⟨31, 0⟩, ⟨63, 0⟩, ⟨101, 0⟩] := by
  decide

/-- Half a second from half past on. The final deadline is a sum that is not carried; the
    first wait is for it and is refused, so the loop is never left. -/
theorem final_wait_refused :
    ∃ l, CallLoop.new ⟨100, 500000000⟩ 500 = some l ∧ Punctual sleepyWorld true 0 l ∧
      (Timespec.mk 100 500000000).ns ≤ (sleepyWorld.clock 0).ns ∧
      ∀ n, loop sleepyWorld true n 0 l = none := by
  refine ⟨⟨true, false, 1000, ⟨100, 1000000000⟩⟩, rfl, ?_, by decide, ?_⟩
  · intro n d hd
    cases n <;> cases hd
  · intro n
    cases n <;> rfl

end Rpc

end Yfs
