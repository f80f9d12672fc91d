import Mathlib.Algebra.BigOperators.Group.Finset.Basic
import Mathlib.Algebra.Order.BigOperators.Group.Finset
import Yfs.Core.Channel
import Yfs.Library.Trace

/-!
# References to the Connections of a Client

Nothing is used after it has been deleted, and everything is deleted in the end.

The count of a connection is the number of the pointers to it that stand for a reference:
`chan_`, and the `ch` of each thread in `call1`. Two of the moments inside `get_refconn` are
exceptions. After the `decref` of a dead connection `chan_` still points to it, but its
reference is gone (`current`); and `*ch` has none between its assignment and the `incref`.
Both are within one section of `chan_m_`, so no other thread reads `chan_` meanwhile.

A `decref` to zero leaves an object in place that is not dead, and nobody would delete it
later. This never comes about, for a connection that is alive is `chan_`: `get_refconn` drops
only a dead one, and the destructor closes the last one first.

## Main definitions

* `current`: The connection that `chan_` has a reference to.
* `refs`: The number of references.
* `Sound`, `Books`, `Counted`: An object and its references, all objects, the whole state.

## Theorems

* `Sound.incref`, `Sound.decref`: The counts.
* `Books.drop`, `Books.take`, `Books.make`: What happens to the references.
* `counted_step`: Every action.
* `references_counted`: Every run.
-/

namespace Yfs

namespace Rpc

/-! ## Objects -/

/-- An object to which there are `n` references. -/
def Conn.Sound (c : Conn) (n : Nat) : Prop :=
  c.refno = n ∧ (c.freed = true ↔ n = 0)

namespace Conn.Sound

variable {c : Conn} {n : Nat}

/-- An object with a reference has not been freed. -/
theorem not_freed (h : c.Sound n) (hn : 0 < n) : c.freed = false := by
  rw [Bool.eq_false_iff]
  intro hfreed
  have := h.2.mp hfreed
  omega

theorem incref (h : c.Sound n) (hn : 0 < n) : c.incref.Sound (n + 1) := by
  refine ⟨?_, ?_⟩
  · simp [Conn.incref, h.1]
  · simp [Conn.incref, h.not_freed hn]

/-- A reference is given up; the object is freed with the last one, if it is dead. -/
theorem decref (h : c.Sound (n + 1)) (hdead : n = 0 → c.dead = true) : c.decref.Sound n := by
  -- `decref` deletes the object when the count is zero and it is dead, not before.
  have hcount : c.refno - 1 = n := by
    have := h.1
    omega
  have hfreed := h.not_freed (Nat.succ_pos n)
  refine ⟨hcount, ?_⟩
  simp only [Conn.decref, hcount, hfreed, Bool.false_or, Bool.and_eq_true, decide_eq_true_eq]
  constructor
  · intro hn
    omega
  · intro hn
    exact ⟨by omega, hdead hn⟩

end Conn.Sound

/-- All objects: the ones that have been made have their references, there are none to the
    others, and all but `cur` are dead. -/
structure Books (conn : Nat → Conn) (made : Nat) (refs : Nat → Nat) (cur : Option Nat) :
    Prop where
  sound : ∀ k < made, (conn k).Sound (refs k)
  unmade : ∀ k, made ≤ k → refs k = 0
  old : ∀ k < made, cur ≠ some k → (conn k).dead = true

namespace Books

variable {conn : Nat → Conn} {made : Nat} {refs refs' : Nat → Nat} {cur cur' : Option Nat}

/-- There are no references to objects that have not been made. -/
theorem made_of_refs (h : Books conn made refs cur) {k : Nat} (hk : 0 < refs k) : k < made := by
  by_contra hge
  have := h.unmade k (by omega)
  omega

/-- Where a pointer has a reference, the object under it is there. -/
theorem not_freed (h : Books conn made refs cur) {k : Nat} (hk : 0 < refs k) :
    (conn k).freed = false :=
  (h.sound k (h.made_of_refs hk)).not_freed hk

/-- A reference is given up, which is not the last one to an object that is alive. -/
theorem drop (h : Books conn made refs cur) {k : Nat} (hk : refs k = refs' k + 1)
    (hne : ∀ j, j ≠ k → refs' j = refs j) (hdead : refs' k = 0 → (conn k).dead = true)
    (hcur : ∀ j < made, cur' ≠ some j → (conn j).dead = true) :
    Books (Function.update conn k (conn k).decref) made refs' cur' := by
  have hmade := h.made_of_refs (k := k) (by omega)
  refine ⟨fun j hj => ?_, fun j hj => ?_, fun j hj hold => ?_⟩
  -- The object itself has a reference less, and the others are as they were.
  · by_cases hjk : j = k
    · subst hjk
      have hs := h.sound j hj
      rw [hk] at hs
      rw [Function.update_self]
      exact hs.decref hdead
    · rw [Function.update_of_ne hjk, hne j hjk]
      exact h.sound j hj
  · rw [hne j (by omega)]
    exact h.unmade j hj
  · by_cases hjk : j = k
    · subst hjk
      rw [Function.update_self]
      exact hcur j hj hold
    · rw [Function.update_of_ne hjk]
      exact hcur j hj hold

/-- One more reference, to an object that has one. -/
theorem take (h : Books conn made refs cur) {k : Nat} (hpos : 0 < refs k)
    (hk : refs' k = refs k + 1) (hne : ∀ j, j ≠ k → refs' j = refs j) :
    Books (Function.update conn k (conn k).incref) made refs' cur := by
  have hmade := h.made_of_refs hpos
  refine ⟨fun j hj => ?_, fun j hj => ?_, fun j hj hold => ?_⟩
  · by_cases hjk : j = k
    · subst hjk
      rw [Function.update_self, hk]
      exact (h.sound j hj).incref hpos
    · rw [Function.update_of_ne hjk, hne j hjk]
      exact h.sound j hj
  · rw [hne j (by omega)]
    exact h.unmade j hj
  · by_cases hjk : j = k
    · subst hjk
      rw [Function.update_self]
      exact h.old j hj hold
    · rw [Function.update_of_ne hjk]
      exact h.old j hj hold

/-- A new object with one reference, after the ones before it have died. -/
theorem make (h : Books conn made refs none) (hk : refs' made = 1)
    (hne : ∀ j, j ≠ made → refs' j = refs j) :
    Books (Function.update conn made ⟨1, false, false⟩) (made + 1) refs' (some made) := by
  refine ⟨fun j hj => ?_, fun j hj => ?_, fun j hj hold => ?_⟩
  · by_cases hjk : j = made
    · rw [hjk, Function.update_self, hk]
      exact ⟨rfl, by simp⟩
    · rw [Function.update_of_ne hjk, hne j hjk]
      exact h.sound j (by omega)
  · rw [hne j (by omega)]
    exact h.unmade j (by omega)
  -- The new object is alive, and it is `chan_`.
  · have hjk : j ≠ made := by
      rintro rfl
      exact hold rfl
    rw [Function.update_of_ne hjk]
    exact h.old j (by omega) nofun

/-- An object dies. -/
theorem kill (h : Books conn made refs cur) (k : Nat) :
    Books (Function.update conn k { conn k with dead := true }) made refs cur := by
  refine ⟨fun j hj => ?_, h.unmade, fun j hj hold => ?_⟩
  · by_cases hjk : j = k
    · subst hjk
      rw [Function.update_self]
      exact h.sound j hj
    · rw [Function.update_of_ne hjk]
      exact h.sound j hj
  · by_cases hjk : j = k
    · subst hjk
      rw [Function.update_self]
    · rw [Function.update_of_ne hjk]
      exact h.old j hj hold

end Books

/-! ## Pointers and threads -/

/-- The reference of a pointer. -/
def points (ptr : Option Nat) (k : Nat) : Nat :=
  if ptr = some k then 1 else 0

@[simp]
theorem points_none (k : Nat) : points none k = 0 := rfl

@[simp]
theorem points_self (k : Nat) : points (some k) k = 1 := if_pos rfl

theorem points_of_ne {j k : Nat} (h : j ≠ k) : points (some k) j = 0 :=
  if_neg fun heq => h (Option.some.inj heq).symm

namespace ChanPc

/-- The thread is in the section of `chan_m_`. -/
def inside : ChanPc → Bool
  | .test _ | .drop _ | .connect _ | .swap _ | .take => true
  | _ => false

/-- `chan_` is about to be assigned. -/
def connecting : ChanPc → Bool
  | .connect _ => true
  | _ => false

/-- The connection that the thread has a reference to. -/
def ch : ChanPc → Option Nat
  | .call ch | .test ch | .drop ch | .connect ch | .swap ch => ch
  | _ => none

end ChanPc

namespace Channel

variable {T : Type}

/-- `chan_`, unless its reference has been given up. -/
def current (s : Channel T) : Option Nat :=
  match s.chanM with
  | none => s.chan
  | some t => if (s.pc t).connecting then none else s.chan

/-- The references to an object. -/
def refs [Fintype T] (s : Channel T) (k : Nat) : Nat :=
  points s.current k + ∑ t, points (s.pc t).ch k

/-- What holds between any two actions: nothing that was freed has been used, the counts are the
    references, `chan_m_` is had by the thread in its section, and the three places where the source
    relies on an earlier test can. -/
structure Counted [Fintype T] (s : Channel T) : Prop where
  ok : s.fault = false
  books : Books s.conn s.made s.refs s.current
  inside : ∀ t, (s.pc t).inside = true ↔ s.chanM = some t
  drop : ∀ t ch, s.pc t = .drop ch → ∃ k, s.chan = some k ∧ (s.conn k).dead = true
  take : ∀ t, s.pc t = .take → s.chan ≠ none
  closed : s.destroyed = true → s.chan = none ∧ ∀ t, s.pc t = .out

variable {s s' : Channel T} {t : T} {p : ChanPc} {k : Nat}

theorem current_inside (h : s.chanM = some t) :
    s.current = if (s.pc t).connecting then none else s.chan := by
  simp only [current, h]

theorem current_free (h : s.chanM = none) : s.current = s.chan := by
  simp only [current, h]

section Fintype

variable [Fintype T]

theorem refs_pos_of_current (h : s.current = some k) : 0 < s.refs k := by
  unfold refs
  rw [h, points_self]
  omega

/-- The local pointer of a thread is a reference, so the object has one. -/
theorem refs_pos_of_ch (h : (s.pc t).ch = some k) : 0 < s.refs k := by
  have hle := Finset.single_le_sum (f := fun t' => points (s.pc t').ch k)
    (fun _ _ => Nat.zero_le _) (Finset.mem_univ t)
  rw [h, points_self] at hle
  unfold refs
  omega

/-- A pointer with a reference may be used. -/
theorem Counted.touch (h : Counted s) (hk : 0 < s.refs k) : (s.touch k).fault = false := by
  simp [Channel.touch, h.ok, h.books.not_freed hk]

/-- And a reference may be given up, as the count does not fall below zero. -/
theorem Counted.decref (h : Counted s) (hk : 0 < s.refs k) : (s.decref k).fault = false := by
  have hcount := (h.books.sound k (h.books.made_of_refs hk)).1
  -- The count is the number of the references, and there is one at least.
  have hpos : ¬ (s.conn k).decref.refno < 0 := by
    simp only [Conn.decref]
    omega
  simp [Channel.decref, h.touch hk, hpos]

/-- The destructor runs when no thread is in a call. -/
theorem Counted.not_destroyed (h : Counted s) (hpc : s.pc t ≠ .out) : s.destroyed = false := by
  rw [Bool.eq_false_iff]
  intro hd
  exact hpc ((h.closed hd).2 t)

theorem Counted.not_mine (h : Counted s) (hpc : (s.pc t).inside = false) :
    s.chanM ≠ some t := by
  intro hM
  rw [(h.inside t).mpr hM] at hpc
  cases hpc

/-- So may the local pointer of a thread. -/
theorem Counted.decrefAny (h : Counted s) {ch : Option Nat} (hch : (s.pc t).ch = ch) :
    (s.decrefAny ch).fault = false := by
  cases ch with
  | none => exact h.ok
  | some k => exact h.decref (refs_pos_of_ch hch)

end Fintype

section decrefAny

variable (s) (ch : Option Nat)

@[simp]
theorem decrefAny_pc : (s.decrefAny ch).pc = s.pc := by
  cases ch <;> rfl

@[simp]
theorem decrefAny_chan : (s.decrefAny ch).chan = s.chan := by
  cases ch <;> rfl

@[simp]
theorem decrefAny_chanM : (s.decrefAny ch).chanM = s.chanM := by
  cases ch <;> rfl

@[simp]
theorem decrefAny_made : (s.decrefAny ch).made = s.made := by
  cases ch <;> rfl

@[simp]
theorem decrefAny_destroyed : (s.decrefAny ch).destroyed = s.destroyed := by
  cases ch <;> rfl

@[simp]
theorem dead_decrefAny (j : Nat) : ((s.decrefAny ch).conn j).dead = (s.conn j).dead := by
  cases ch with
  | none => rfl
  | some k =>
      by_cases hj : j = k
      · subst hj
        simp [Channel.decrefAny, Channel.decref, setConn, Conn.decref]
      · simp [Channel.decrefAny, Channel.decref, setConn, Channel.touch, hj]

end decrefAny

variable [DecidableEq T]

theorem current_setPc (s : Channel T) (p : ChanPc) (hM : s.chanM = some t) :
    (s.setPc t p).current = if p.connecting then none else s.chan := by
  rw [current_inside (s := s.setPc t p) hM]
  simp [setPc]

/-- A thread outside the section does not change `chan_`. -/
theorem current_outside (hpc : s'.pc = Function.update s.pc t p) (hchan : s'.chan = s.chan)
    (hmutex : s'.chanM = s.chanM) (ht : s.chanM ≠ some t) : s'.current = s.current := by
  unfold current
  rw [hmutex, hchan]
  rcases hM : s.chanM with _ | t'
  · rfl
  -- Whoever is in the section has not moved.
  · have hne : t' ≠ t := by
      rintro rfl
      exact ht hM
    simp only [hpc, Function.update_of_ne hne]

variable [Fintype T]

/-- One thread moves: its reference is another one now, and those of the others are what they
    were. -/
theorem sum_points_update (pc : T → ChanPc) (t : T) (p : ChanPc) (k : Nat) :
    (∑ t', points (Function.update pc t p t').ch k) + points (pc t).ch k
      = (∑ t', points (pc t').ch k) + points p.ch k := by
  -- Take the thread out of both sums.
  have hrest : ∑ t' ∈ Finset.univ.erase t, points (Function.update pc t p t').ch k
      = ∑ t' ∈ Finset.univ.erase t, points (pc t').ch k := by
    refine Finset.sum_congr rfl fun t' ht' => ?_
    rw [Function.update_of_ne (Finset.ne_of_mem_erase ht')]
  have hnew := Finset.add_sum_erase Finset.univ
    (fun t' => points (Function.update pc t p t').ch k) (Finset.mem_univ t)
  have hold := Finset.add_sum_erase Finset.univ (fun t' => points (pc t').ch k)
    (Finset.mem_univ t)
  simp only [Function.update_self] at hnew
  omega

/-- The references, when one thread moves on. -/
theorem refs_move (hpc : s'.pc = Function.update s.pc t p) (k : Nat) :
    s'.refs k + points s.current k + points (s.pc t).ch k
      = s.refs k + points s'.current k + points p.ch k := by
  have := sum_points_update s.pc t p k
  unfold refs
  rw [hpc]
  omega

theorem refs_same (hpc : s'.pc = Function.update s.pc t p) (hcur : s'.current = s.current)
    (hch : p.ch = (s.pc t).ch) : s'.refs = s.refs := by
  ext k
  have := refs_move hpc k
  rw [hcur, hch] at this
  omega

/-- A thread gives up its reference. The last one to an object that is not `chan_` is to a
    dead one. -/
theorem Counted.books_decrefAny (h : Counted s) {ch : Option Nat} (hch : (s.pc t).ch = ch)
    (hpc : s'.pc = Function.update s.pc t p) (hp : p.ch = none) (hcur : s'.current = s.current)
    (hconn : s'.conn = (s.decrefAny ch).conn) (hmade : s'.made = s.made) :
    Books s'.conn s'.made s'.refs s'.current := by
  rw [hconn, hmade, hcur]
  cases ch with
  -- Without a connection nothing is given up.
  | none =>
      rw [refs_same hpc hcur (by rw [hp, hch])]
      exact h.books
  | some k =>
      have hrefs : ∀ j, s.refs j = s'.refs j + points (some k) j := by
        intro j
        have := refs_move hpc j
        rw [hp, hch, hcur, points_none] at this
        omega
      have hk := hrefs k
      rw [points_self] at hk
      refine h.books.drop hk (fun j hj => ?_) (fun hzero => ?_) h.books.old
      · rw [hrefs j, points_of_ne hj, Nat.add_zero]
      -- If no reference is left, the object is not `chan_`, and all others are dead.
      · refine h.books.old k (h.books.made_of_refs (by omega)) fun hcurrent => ?_
        have := refs_pos_of_current (hcur.trans hcurrent)
        omega

/-! ## Actions -/

/-- A thread moves on. What the others rely on changes only in the section of `chan_m_`. -/
theorem Counted.move (h : Counted s) (hpc : s'.pc = Function.update s.pc t p)
    (hopen : s'.destroyed = false) (hok : s'.fault = false)
    (hbooks : Books s'.conn s'.made s'.refs s'.current)
    (hmine : p.inside = true ↔ s'.chanM = some t)
    (hothers : ∀ t', t' ≠ t → (s'.chanM = some t' ↔ s.chanM = some t'))
    (hshared : s.chanM = some t ∨
      s'.chan = s.chan ∧ ∀ k, (s.conn k).dead = true → (s'.conn k).dead = true)
    (hdrop : ∀ ch, p = .drop ch → ∃ k, s'.chan = some k ∧ (s'.conn k).dead = true)
    (htake : p = .take → s'.chan ≠ none) : Counted s' := by
  have hself : s'.pc t = p := by rw [hpc, Function.update_self]
  have hother : ∀ t', t' ≠ t → s'.pc t' = s.pc t' := fun t' hne => by
    rw [hpc, Function.update_of_ne hne]
  -- A thread elsewhere in the section leaves no room for this one.
  have hapart : ∀ t', t' ≠ t → (s.pc t').inside = true →
      s'.chan = s.chan ∧ ∀ k, (s.conn k).dead = true → (s'.conn k).dead = true := by
    intro t' hne hin
    refine hshared.resolve_left fun hM => hne ?_
    exact Option.some.inj (((h.inside t').mp hin).symm.trans hM)
  refine ⟨hok, hbooks, fun t' => ?_, fun t' ch hd => ?_, fun t' hd => ?_, fun hd => ?_⟩
  · by_cases hne : t' = t
    · rw [hne, hself]
      exact hmine
    · rw [hother t' hne, h.inside t', hothers t' hne]
  · by_cases hne : t' = t
    · rw [hne, hself] at hd
      exact hdrop ch hd
    · rw [hother t' hne] at hd
      rcases hapart t' hne (by rw [hd]; rfl) with ⟨hchan, hdead⟩
      rcases h.drop t' ch hd with ⟨k, hk, hkd⟩
      exact ⟨k, hchan.trans hk, hdead k hkd⟩
  · by_cases hne : t' = t
    · rw [hne, hself] at hd
      exact htake hd
    · rw [hother t' hne] at hd
      rw [(hapart t' hne (by rw [hd]; rfl)).1]
      exact h.take t' hd
  · rw [hopen] at hd
    cases hd

/-- A thread in the section, which stays in it. -/
theorem Counted.within (h : Counted s) (hin : (s.pc t).inside = true)
    (hpc : s'.pc = Function.update s.pc t p) (hp : p.inside = true)
    (hM : s'.chanM = s.chanM) (hd : s'.destroyed = s.destroyed) (hok : s'.fault = false)
    (hbooks : Books s'.conn s'.made s'.refs s'.current)
    (hdrop : ∀ ch, p = .drop ch → ∃ k, s'.chan = some k ∧ (s'.conn k).dead = true)
    (htake : p = .take → s'.chan ≠ none) : Counted s' := by
  -- The mutex is the thread's before the step and after it.
  have hmine := (h.inside t).mp hin
  have hout : s.pc t ≠ .out := by
    intro hout
    rw [hout] at hin
    cases hin
  refine h.move hpc (hd.trans (h.not_destroyed hout)) hok hbooks ?_ ?_ (Or.inl hmine) hdrop htake
  · rw [hp, hM, hmine]
    exact iff_of_true rfl rfl
  · intro t' _
    rw [hM]

/-- A call starts without a connection. -/
theorem counted_enter (h : Counted s) (hpc : s.pc t = .out) (hopen : s.destroyed = false) :
    Counted (s.setPc t (.call none)) := by
  have hM : s.chanM ≠ some t := h.not_mine (by rw [hpc]; rfl)
  have hcur : (s.setPc t (.call none)).current = s.current := current_outside rfl rfl rfl hM
  refine h.move (t := t) rfl hopen h.ok ?_ (iff_of_false nofun hM) (fun _ _ => Iff.rfl)
    (Or.inr ⟨rfl, fun _ hk => hk⟩) nofun nofun
  rw [hcur, refs_same rfl hcur (by rw [hpc]; rfl)]
  exact h.books

/-- To send, the thread enters the section. -/
theorem counted_transmit (h : Counted s) {ch : Option Nat} (hpc : s.pc t = .call ch)
    (hfree : s.chanM = none) : Counted ((s.lock t).setPc t (.test ch)) := by
  have hnew : ((s.lock t).setPc t (.test ch)).current = s.chan :=
    current_setPc (s.lock t) (.test ch) rfl
  have hcur := hnew.trans (current_free hfree).symm
  have hout : s.pc t ≠ .out := by simp [hpc]
  refine h.move (t := t) rfl (h.not_destroyed hout) h.ok ?_ (iff_of_true rfl rfl) ?_
    (Or.inr ⟨rfl, fun _ hk => hk⟩) nofun nofun
  · rw [hcur, refs_same (s := s) rfl hcur (by rw [hpc]; rfl)]
    exact h.books
  · intro t' hne
    rw [hfree]
    exact iff_of_false (fun hM => hne (Option.some.inj hM).symm) nofun

/-- The thread gives its reference back. -/
theorem counted_leave (h : Counted s) {ch : Option Nat} (hpc : s.pc t = .call ch) :
    Counted ((s.decrefAny ch).setPc t .out) := by
  have hM : s.chanM ≠ some t := h.not_mine (by rw [hpc]; rfl)
  have hout : s.pc t ≠ .out := by simp [hpc]
  have hch : (s.pc t).ch = ch := by rw [hpc]; rfl
  -- At the end of a call `chan_` keeps its own reference.
  have hcur : ((s.decrefAny ch).setPc t .out).current = s.current :=
    current_outside (t := t) (p := .out) (by simp [setPc]) (by simp [setPc]) (by simp [setPc]) hM
  refine h.move (t := t) (p := .out) (by simp [setPc]) ?_ (h.decrefAny hch) ?_ ?_ ?_ (Or.inr ?_)
    nofun nofun
  · simpa [setPc] using h.not_destroyed hout
  · exact h.books_decrefAny (p := .out) hch (by simp [setPc]) rfl hcur rfl (by simp [setPc])
  · exact iff_of_false nofun (by simpa [setPc] using hM)
  · simp [setPc]
  · simp [setPc]

/-! ### The section of `chan_m_` -/

/-- There is no connection yet. -/
theorem counted_test_none (h : Counted s) {ch : Option Nat} (hpc : s.pc t = .test ch)
    (hchan : s.chan = none) : Counted (s.setPc t (.connect ch)) := by
  have hin : (s.pc t).inside = true := by rw [hpc]; rfl
  have hM := (h.inside t).mp hin
  have hnew : (s.setPc t (.connect ch)).current = none := current_setPc s (.connect ch) hM
  have hcur : (s.setPc t (.connect ch)).current = s.current := by
    rw [hnew, current_inside hM, hpc]
    exact hchan.symm
  refine h.within hin rfl rfl rfl rfl h.ok ?_ nofun nofun
  rw [hcur, refs_same (s := s) rfl hcur (by rw [hpc]; rfl)]
  exact h.books

/-- `isdead` is called for `chan_`, to which there is a reference. -/
theorem counted_test_some (h : Counted s) {ch : Option Nat} (hpc : s.pc t = .test ch)
    (hchan : s.chan = some k) :
    Counted ((s.touch k).setPc t (if (s.conn k).dead then .drop ch else .swap ch)) := by
  have hin : (s.pc t).inside = true := by rw [hpc]; rfl
  have hM := (h.inside t).mp hin
  have hcurrent : s.current = some k := by
    rw [current_inside hM, hpc]
    exact hchan
  have hok := h.touch (refs_pos_of_current hcurrent)
  -- The test is of the object under `chan_`; what it finds decides where the thread goes.
  by_cases hdead : (s.conn k).dead = true
  · rw [if_pos hdead]
    have hnew : ((s.touch k).setPc t (.drop ch)).current = s.chan :=
      current_setPc (s.touch k) (.drop ch) hM
    have hcur := hnew.trans (hchan.trans hcurrent.symm)
    refine h.within hin rfl rfl rfl rfl hok ?_ (fun _ _ => ⟨k, hchan, hdead⟩) nofun
    rw [hcur, refs_same (s := s) rfl hcur (by rw [hpc]; rfl)]
    exact h.books
  · rw [if_neg hdead]
    have hnew : ((s.touch k).setPc t (.swap ch)).current = s.chan :=
      current_setPc (s.touch k) (.swap ch) hM
    have hcur := hnew.trans (hchan.trans hcurrent.symm)
    refine h.within hin rfl rfl rfl rfl hok ?_ nofun nofun
    rw [hcur, refs_same (s := s) rfl hcur (by rw [hpc]; rfl)]
    exact h.books

/-- `chan_` gives up its reference to a dead connection. -/
theorem counted_drop (h : Counted s) {ch : Option Nat} (hpc : s.pc t = .drop ch) :
    Counted ((s.decrefAny s.chan).setPc t (.connect ch)) := by
  have hin : (s.pc t).inside = true := by rw [hpc]; rfl
  have hM := (h.inside t).mp hin
  rcases h.drop t ch hpc with ⟨k, hchan, hdead⟩
  have hcurrent : s.current = some k := by
    rw [current_inside hM, hpc]
    exact hchan
  rw [hchan]
  change Counted ((s.decref k).setPc t (.connect ch))
  have hcur : ((s.decref k).setPc t (.connect ch)).current = none :=
    current_setPc (s.decref k) (.connect ch) hM
  -- From here until the new connection is assigned, `chan_` still points to the object but has no
  -- reference to it.
  have hrefs : ∀ j, s.refs j
      = ((s.decref k).setPc t (.connect ch)).refs j + points (some k) j := by
    intro j
    have := refs_move (s := s) (t := t) (p := .connect ch)
      (rfl : ((s.decref k).setPc t (.connect ch)).pc = _) j
    rw [hpc, hcur, hcurrent, points_none] at this
    simp only [ChanPc.ch] at this
    omega
  have hk := hrefs k
  rw [points_self] at hk
  refine h.within hin rfl rfl rfl rfl (h.decref (refs_pos_of_current hcurrent)) ?_ nofun nofun
  rw [hcur]
  refine h.books.drop hk (fun j hj => ?_) (fun _ => hdead) (fun j hj _ => ?_)
  · rw [hrefs j, points_of_ne hj, Nat.add_zero]
  · -- All but the one that is dropped had died before.
    by_cases hjk : j = k
    · rw [hjk]
      exact hdead
    · exact h.books.old j hj (by rw [hcurrent]; exact fun heq => hjk (Option.some.inj heq).symm)

/-- The result of `connect_to_dst` is assigned to `chan_`. -/
theorem counted_connect (h : Counted s) {ch : Option Nat} (hpc : s.pc t = .connect ch)
    (connected : Bool) : Counted ((s.connectToDst connected).setPc t (.swap ch)) := by
  have hin : (s.pc t).inside = true := by rw [hpc]; rfl
  have hM := (h.inside t).mp hin
  have hcurrent : s.current = none := by
    rw [current_inside hM, hpc]
    rfl
  have hbooks := h.books
  rw [hcurrent] at hbooks
  cases connected with
  -- A connection that could not be made leaves `chan_` without one.
  | false =>
      have hnew : ((s.connectToDst false).setPc t (.swap ch)).current = none :=
        current_setPc (s.connectToDst false) (.swap ch) hM
      have hcur := hnew.trans hcurrent.symm
      refine h.within hin rfl rfl rfl rfl h.ok ?_ nofun nofun
      rw [hcur, refs_same (s := s) rfl hcur (by rw [hpc]; rfl)]
      exact h.books
  | true =>
      have hcur : ((s.connectToDst true).setPc t (.swap ch)).current = some s.made :=
        current_setPc (s.connectToDst true) (.swap ch) hM
      have hrefs : ∀ j, ((s.connectToDst true).setPc t (.swap ch)).refs j
          = s.refs j + points (some s.made) j := by
        intro j
        have := refs_move (s := s) (t := t) (p := .swap ch)
          (rfl : ((s.connectToDst true).setPc t (.swap ch)).pc = _) j
        rw [hpc, hcur, hcurrent, points_none] at this
        simp only [ChanPc.ch] at this
        omega
      refine h.within hin rfl rfl rfl rfl h.ok ?_ nofun nofun
      rw [hcur]
      refine hbooks.make ?_ fun j hj => ?_
      · rw [hrefs, points_self, hbooks.unmade s.made le_rfl]
      · rw [hrefs, points_of_ne hj, Nat.add_zero]

/-- The thread leaves the section. -/
theorem Counted.leaveSection (h : Counted s) (hin : (s.pc t).inside = true) (ch : Option Nat)
    (hpc : s'.pc = Function.update s.pc t (.call ch)) (hM : s'.chanM = none)
    (hd : s'.destroyed = s.destroyed) (hok : s'.fault = false)
    (hbooks : Books s'.conn s'.made s'.refs s'.current) : Counted s' := by
  have hmine := (h.inside t).mp hin
  have hout : s.pc t ≠ .out := by
    intro hout
    rw [hout] at hin
    cases hin
  refine h.move hpc (hd.trans (h.not_destroyed hout)) hok hbooks ?_ (fun t' hne => ?_)
    (Or.inl hmine) nofun nofun
  · rw [hM]
    exact iff_of_false nofun nofun
  · rw [hM, hmine]
    exact iff_of_false nofun fun heq => hne (Option.some.inj heq).symm

/-- Without a connection, the thread keeps the one that it has. -/
theorem counted_swap_none (h : Counted s) {ch : Option Nat} (hpc : s.pc t = .swap ch) :
    Counted (s.unlock.setPc t (.call ch)) := by
  have hin : (s.pc t).inside = true := by rw [hpc]; rfl
  have hcur : (s.unlock.setPc t (.call ch)).current = s.current := by
    rw [current_inside ((h.inside t).mp hin), hpc]
    rfl
  refine h.leaveSection hin ch rfl rfl rfl h.ok ?_
  rw [hcur, refs_same (s := s) rfl hcur (by rw [hpc]; rfl)]
  exact h.books

/-- The reference to the connection before is given up. -/
theorem counted_swap_some (h : Counted s) {ch : Option Nat} (hpc : s.pc t = .swap ch)
    (hchan : s.chan ≠ none) : Counted ((s.decrefAny ch).setPc t .take) := by
  have hin : (s.pc t).inside = true := by rw [hpc]; rfl
  have hM := (h.inside t).mp hin
  have hch : (s.pc t).ch = ch := by rw [hpc]; rfl
  -- The thread gives up its old connection before it takes the new one.
  have hcur : ((s.decrefAny ch).setPc t .take).current = s.current := by
    rw [current_setPc (s.decrefAny ch) .take (by simpa using hM), current_inside hM, hpc]
    simp [ChanPc.connecting]
  refine h.within (p := .take) hin (by simp [setPc]) rfl (by simp [setPc]) (by simp [setPc])
    (h.decrefAny hch) ?_ nofun fun _ => by simpa [setPc] using hchan
  exact h.books_decrefAny (p := .take) hch (by simp [setPc]) rfl hcur rfl (by simp [setPc])

/-- The thread has `chan_` and takes its reference. -/
theorem counted_take (h : Counted s) (hpc : s.pc t = .take) (hchan : s.chan = some k) :
    Counted ((s.incref k).unlock.setPc t (.call (some k))) := by
  have hin : (s.pc t).inside = true := by rw [hpc]; rfl
  have hcurrent : s.current = some k := by
    rw [current_inside ((h.inside t).mp hin), hpc]
    exact hchan
  have hpos := refs_pos_of_current hcurrent
  have hcur : ((s.incref k).unlock.setPc t (.call (some k))).current = s.current := by
    rw [hcurrent]
    exact hchan
  -- `incref` comes before the mutex is released, so nobody can drop `chan_` in between.
  have hrefs : ∀ j, ((s.incref k).unlock.setPc t (.call (some k))).refs j
      = s.refs j + points (some k) j := by
    intro j
    have := refs_move (s := s) (t := t) (p := .call (some k))
      (rfl : ((s.incref k).unlock.setPc t (.call (some k))).pc = _) j
    rw [hpc, hcur] at this
    simp only [ChanPc.ch, points_none] at this
    omega
  refine h.leaveSection hin (some k) rfl rfl rfl (h.touch hpos) ?_
  rw [hcur]
  refine h.books.take hpos ?_ fun j hj => ?_
  · rw [hrefs, points_self]
  · rw [hrefs, points_of_ne hj, Nat.add_zero]

/-- The statements of `get_refconn`, one at a time. -/
theorem counted_getRefconn (h : Counted s) {connected : Bool}
    (hs : s.getRefconn t connected = some s') : Counted s' := by
  unfold getRefconn at hs
  split at hs
  next ch hpc =>
    split at hs
    next hchan =>
      cases hs
      exact counted_test_none h hpc hchan
    next k hchan =>
      cases hs
      exact counted_test_some h hpc hchan
  next ch hpc =>
    cases hs
    exact counted_drop h hpc
  next ch hpc =>
    cases hs
    exact counted_connect h hpc connected
  next ch hpc =>
    split at hs
    next hchan =>
      cases hs
      exact counted_swap_none h hpc
    next k hchan =>
      cases hs
      exact counted_swap_some h hpc (by simp [hchan])
  next hpc =>
    split at hs
    next hchan => cases hs
    next k hchan =>
      cases hs
      exact counted_take h hpc hchan
  next => cases hs

/-! ### Everything else -/

omit [DecidableEq T] in
/-- A pointer with a reference is used. -/
theorem counted_touch (h : Counted s) (hk : 0 < s.refs k) : Counted (s.touch k) :=
  ⟨h.touch hk, h.books, h.inside, h.drop, h.take, h.closed⟩

omit [DecidableEq T] in
/-- An object can die at any time. The pointer that is about to be dropped was dead already. -/
theorem counted_dies (h : Counted s) (k : Nat) :
    Counted (s.setConn k { s.conn k with dead := true }) := by
  refine ⟨h.ok, h.books.kill k, h.inside, fun t ch hpc => ?_, h.take, h.closed⟩
  rcases h.drop t ch hpc with ⟨j, hchan, hdead⟩
  refine ⟨j, hchan, ?_⟩
  by_cases hj : j = k
  · simp [setConn, hj]
  · simpa [setConn, hj] using hdead

omit [DecidableEq T] in
/-- When no thread is in a call, none is in the section. -/
theorem Counted.unlocked (h : Counted s) (hout : ∀ t, s.pc t = .out) : s.chanM = none := by
  rcases hM : s.chanM with _ | t
  · rfl
  · have hin := (h.inside t).mpr hM
    rw [hout t] at hin
    cases hin

omit [DecidableEq T] in
/-- The last reference is to a connection that has been closed. -/
theorem counted_dropLast (h : Counted s) (hout : ∀ t, s.pc t = .out) (hchan : s.chan = some k)
    (hdead : (s.conn k).dead = true) :
    Counted { s.decref k with chan := none, destroyed := true } := by
  have hM := h.unlocked hout
  have hcurrent : s.current = some k := (current_free hM).trans hchan
  have hcur : current { s.decref k with chan := none, destroyed := true } = none :=
    current_free hM
  have hrefs : ∀ j, s.refs j = refs { s.decref k with chan := none, destroyed := true } j
      + points (some k) j := by
    intro j
    unfold refs
    rw [hcur, hcurrent, points_none, Nat.zero_add]
    exact Nat.add_comm _ _
  have hk := hrefs k
  rw [points_self] at hk
  refine ⟨h.decref (refs_pos_of_current hcurrent), ?_, h.inside, ?_, ?_, fun _ => ⟨rfl, hout⟩⟩
  · rw [hcur]
    refine h.books.drop hk (fun j hj => ?_) (fun _ => hdead) (fun j hj _ => ?_)
    · rw [hrefs j, points_of_ne hj, Nat.add_zero]
    · by_cases hjk : j = k
      · rw [hjk]
        exact hdead
      · exact h.books.old j hj (by rw [hcurrent]; exact fun heq => hjk (Option.some.inj heq).symm)
  · intro t ch hpc
    cases (hout t).symm.trans hpc
  · intro t hpc
    cases (hout t).symm.trans hpc

omit [DecidableEq T] in
/-- `closeconn` is called first. -/
theorem counted_destroy (h : Counted s) (hout : ∀ t, s.pc t = .out) : Counted s.destroy := by
  unfold destroy
  split
  next hchan =>
    exact ⟨h.ok, h.books, h.inside, h.drop, h.take, fun _ => ⟨hchan, hout⟩⟩
  next k hchan =>
    have hcurrent : s.current = some k := (current_free (h.unlocked hout)).trans hchan
    -- `closeconn` makes the object dead, so that the `decref` after it deletes it.
    have hclosed := counted_dies (counted_touch h (refs_pos_of_current hcurrent)) k
    exact counted_dropLast hclosed hout hchan (by simp [setConn])

/-- Every action keeps the counts, whichever thread takes it and whenever an object dies. -/
theorem counted_step (s : Channel T) (a : ChannelAction T) (s' : Channel T) (h : Counted s)
    (hs : s.step a = some s') : Counted s' := by
  cases a with
  | enter t =>
      rcases Option.ite_none_right_eq_some.mp hs with ⟨⟨hpc, hopen⟩, hs⟩
      cases hs
      exact counted_enter h hpc hopen
  | transmit t =>
      dsimp only [step] at hs
      split at hs
      next ch hpc =>
        rcases Option.ite_none_right_eq_some.mp hs with ⟨hfree, hs⟩
        cases hs
        exact counted_transmit h hpc hfree
      next => cases hs
  | advance t connected => exact counted_getRefconn h hs
  | use t =>
      dsimp only [step] at hs
      split at hs
      next k hpc =>
        cases hs
        exact counted_touch h (refs_pos_of_ch (t := t) (by rw [hpc]; rfl))
      next => cases hs
  | leave t =>
      dsimp only [step] at hs
      split at hs
      next ch hpc =>
        cases hs
        exact counted_leave h hpc
      next => cases hs
  | dies k =>
      rcases Option.ite_none_right_eq_some.mp hs with ⟨_, hs⟩
      cases hs
      exact counted_dies h k
  | destroy =>
      rcases Option.ite_none_right_eq_some.mp hs with ⟨⟨_, hout⟩, hs⟩
      cases hs
      exact counted_destroy h hout

omit [DecidableEq T] in
/-- At first there are no objects, and no thread is in a call. -/
theorem counted_new : Counted (new T) := by
  refine ⟨rfl, ⟨nofun, fun k _ => ?_, nofun⟩, fun t => iff_of_false nofun nofun, nofun, nofun,
    nofun⟩
  simp [refs, current, new, ChanPc.ch]

/-- In every run: nothing is used after it has been deleted, and no count goes below zero;
    the count of a connection is the number of the references to it, and it is deleted if and
    only if there are none; a connection that is alive is `chan_`; and the destructor leaves no
    connection behind. -/
theorem references_counted (s : Channel T)
    (h : Trace.Reaches step Trace.Always (new T) s) :
    s.fault = false ∧
      (∀ k < s.made, (s.conn k).refno = s.refs k ∧ ((s.conn k).freed = true ↔ s.refs k = 0)) ∧
      (∀ k < s.made, (s.conn k).dead = false → s.chan = some k) ∧
      (s.destroyed = true → ∀ k < s.made, (s.conn k).freed = true) := by
  have hinv : Counted s := Trace.invariant_of_step Counted counted_new
    (fun s a s' hs _ hstep => counted_step s a s' hs hstep) h
  refine ⟨hinv.ok, hinv.books.sound, fun k hk halive => ?_, fun hd k hk => ?_⟩
  -- All objects but `chan_` are dead, and `chan_` counts as nobody's while it is replaced.
  · by_contra hne
    have hcur : s.current ≠ some k := by
      intro hcur
      unfold current at hcur
      split at hcur
      · exact hne hcur
      · split at hcur
        · cases hcur
        · exact hne hcur
    rw [hinv.books.old k hk hcur] at halive
    cases halive
  -- After the destructor there is no pointer left to sum over.
  · rcases hinv.closed hd with ⟨hchan, hout⟩
    refine (hinv.books.sound k hk).2.mpr ?_
    unfold refs
    rw [current_free (hinv.unlocked hout), hchan]
    simp [hout, ChanPc.ch]

/-- Two threads; the first connection dies while both use it, and one of them moves to a second
    one. -/
def reconnect : List (ChannelAction Bool) :=
  [.enter false, .transmit false, .advance false true, .advance false true, .advance false true,
    .advance false true, .enter true, .transmit true, .advance true true, .advance true true,
    .advance true true, .use true, .dies 0, .transmit false, .advance false true,
    .advance false true, .use true, .advance false true, .advance false true,
    .advance false true]

/-- The second thread still uses the first one, and is the last to do so. -/
theorem references_counted_reconnect :
    ∃ s : Channel Bool, (s.made, s.chan, s.pc true, s.pc false)
        = (2, some 1, .call (some 0), .call (some 1)) ∧
      s.fault = false ∧
      (∀ k < s.made, (s.conn k).refno = s.refs k ∧ ((s.conn k).freed = true ↔ s.refs k = 0)) ∧
      (∀ k < s.made, (s.conn k).dead = false → s.chan = some k) ∧
      (s.destroyed = true → ∀ k < s.made, (s.conn k).freed = true) := by
  have hrun : (Trace.run step (fun _ _ => true) (new Bool) reconnect).map
      (fun s => (s.made, s.chan, s.pc true, s.pc false))
      = some (2, some 1, .call (some 0), .call (some 1)) := by
    decide +kernel
  rcases Option.map_eq_some_iff.mp hrun with ⟨s, hs, heq⟩
  exact ⟨s, heq, references_counted s (Trace.reaches_always_of_run _ hs)⟩

end Channel

end Rpc

end Yfs
