import Mathlib.Algebra.Order.Ring.Int
import Mathlib.Data.List.Basic
import Yfs.Core.BlockingLockServer
import Yfs.Library.Trace

/-!
# The Lock That Is Handed Over

What `lock_server` guarantees without testing again after a wait.

The count in `lock_inuse_map` is that of all requests for a lock which have not been released,
so a new request finds zero in it only if no one has the lock or waits for it. `release` hands
the lock to a request that waits: one owner leaves and one is woken. So there is one owner at a
time, and while a request waits there is one to wake it. A wait that ends without a signal adds
an owner, and nothing takes it away before a release with no one waiting; `spurious` carries
the number of such wake-ups through the run.

All of this rests on the clients: a release by one that does not have the lock hands it to a
second owner. So the runs are those in which every release is one of `releasesOwn`.

## Main definitions

* `Balanced`: What holds of the numbers at a lock.
* `owners`: The requests that have the lock, or will have it without waiting any more.
* `Ledger`: The numbers at a lock are balanced.

## Theorems

* `Balanced.grant`, `Balanced.wait`, `Balanced.handOver`, `Balanced.free`, `Balanced.wake`:
  What happens to the numbers.
* `ledger_acquire`, `ledger_release`, `ledger_wake`, `ledger_returns`: The actions.
* `ledger_step`: Any action, for any lock.
* `handed_over`: Every run in which clients release what they have.
-/

namespace Yfs

namespace BlockingLockServer

/-! ## Numbers -/

/-- The count is that of the owners and of those who wait, who waits has someone to wait for,
    and there are more owners than one only if waits have ended without a signal. -/
structure Balanced (inuse : Option Int) (owners waiting spurious : Nat) : Prop where
  count : inuse.getD 0 = (owners + waiting : Nat)
  known : 0 < owners + waiting → inuse ≠ none
  awaited : 0 < waiting → 0 < owners
  bounded : owners ≤ 1 + spurious

namespace Balanced

variable {inuse : Option Int} {n : Int} {o w e : Nat}

/-- A count that is there. -/
theorem ofCount (hcount : n = (o + w : Nat)) (hawaited : 0 < w → 0 < o) (hbounded : o ≤ 1 + e) :
    Balanced (some n) o w e :=
  ⟨hcount, fun _ => nofun, hawaited, hbounded⟩

/-- The first request for a lock. -/
theorem first (h : Balanced none o w e) : Balanced (some 1) (o + 1) w e := by
  have hnone : ¬ 0 < o + w := fun hpos => h.known hpos rfl
  exact ofCount (by omega) (by omega) (by omega)

/-- A lock that nobody has or waits for goes to the request. -/
theorem grant (h : Balanced (some n) o w e) (hn : n + 1 = 1) :
    Balanced (some (n + 1)) (o + 1) w e := by
  have hcount : n = (o + w : Nat) := h.count
  exact ofCount (by omega) (by omega) (by omega)

/-- Whoever waits finds an owner, or others that wait for one. -/
theorem wait (h : Balanced (some n) o w e) (hn : n + 1 ≠ 1) :
    Balanced (some (n + 1)) o (w + 1) e := by
  have hcount : n = (o + w : Nat) := h.count
  have hawaited := h.awaited
  exact ofCount (by omega) (by omega) h.bounded

/-- One owner goes and one comes. -/
theorem handOver (h : Balanced (some n) o (w + 1) e) : Balanced (some (n - 1)) o w e := by
  have hcount : n = (o + (w + 1) : Nat) := h.count
  have hawaited := h.awaited
  exact ofCount (by omega) (by omega) h.bounded

/-- The last one goes. -/
theorem free (h : Balanced (some n) (o + 1) 0 e) : Balanced (some (n - 1)) o 0 e := by
  have hcount : n = (o + 1 + 0 : Nat) := h.count
  have hbounded := h.bounded
  exact ofCount (by omega) (by omega) (by omega)

/-- A wait that ends without a signal makes one more owner, and is counted for it. -/
theorem wake (h : Balanced inuse o (w + 1) e) : Balanced inuse (o + 1) w (e + 1) := by
  have hcount := h.count
  have hbounded := h.bounded
  exact ⟨by omega, fun _ => h.known (by omega), by omega, by omega⟩

end Balanced

/-! ## One lock -/

variable {L C : Type}

/-- The requests that have a lock, or will have it without waiting any more. -/
def owners (s : BlockingLockServer L C) (lid : L) : Nat :=
  (s.held lid).length + (s.woken lid).length

/-- The fields of a lock, as numbers. -/
def Ledger (s : BlockingLockServer L C) (lid : L) : Prop :=
  Balanced (s.lockInuseMap lid) (s.owners lid) (s.waiting lid).length (s.spurious lid)

theorem ledger_new (lid : L) : Ledger (new L C) lid :=
  ⟨rfl, nofun, nofun, Nat.zero_le _⟩

variable {s s' : BlockingLockServer L C} {lid : L} {clt : C}

theorem Ledger.of_eq {inuse : Option Int} {o w e : Nat} (h : Balanced inuse o w e)
    (hinuse : s.lockInuseMap lid = inuse) (howners : s.owners lid = o)
    (hwaiting : (s.waiting lid).length = w) (hspurious : s.spurious lid = e) : Ledger s lid := by
  unfold Ledger
  rw [hinuse, howners, hwaiting, hspurious]
  exact h

variable [DecidableEq L] [DecidableEq C]

omit [DecidableEq C] in
/-- `acquire` counts the request before it looks whether the lock is free. -/
theorem ledger_acquire (h : Ledger s lid) (clt : C) : Ledger (s.acquire clt lid) lid := by
  unfold Ledger at h
  unfold acquire
  rcases hn : s.lockInuseMap lid with _ | n
  · rw [hn] at h
    refine Ledger.of_eq h.first ?_ ?_ rfl rfl
    · simp [grant, setInuse]
    · simp [owners, grant, setInuse]
      omega
  · rw [hn] at h
    dsimp only
    by_cases hfree : n + 1 = 1
    · rw [if_pos hfree]
      refine Ledger.of_eq (h.grant hfree) ?_ ?_ rfl rfl
      · simp [grant, setInuse]
      · simp [owners, grant, setInuse]
        omega
    · rw [if_neg hfree]
      refine Ledger.of_eq (h.wait hfree) ?_ rfl ?_ rfl
      · simp [wait, setInuse]
      · simp [wait, setInuse]

/-- The lock goes to the request that the signal wakes, or it is free. -/
theorem ledger_release (h : Ledger s lid) (hclt : clt ∈ s.held lid) {next : Option C}
    (hs : s.release clt lid next = some s') : Ledger s' lid := by
  have hheld := List.length_erase_add_one hclt
  unfold Ledger at h
  unfold release signal at hs
  cases next with
  -- Nobody waits, and the signal wakes nobody.
  | none =>
      rcases Option.bind_eq_some_iff.mp hs with ⟨s₁, hs₁, hs⟩
      rcases Option.ite_none_right_eq_some.mp hs₁ with ⟨hnil, heq⟩
      cases heq
      rcases Option.bind_eq_some_iff.mp hs with ⟨n, hn, heq⟩
      cases heq
      have howners : s.owners lid = ((s.held lid).erase clt).length + (s.woken lid).length + 1 := by
        unfold owners
        omega
      rw [hn, howners, hnil] at h
      refine Ledger.of_eq h.free ?_ ?_ ?_ rfl
      · simp [setInuse]
      · simp [owners, setInuse]
      · simp [setInuse, hnil]
  -- One owner goes, and the request that is woken is the next.
  | some c =>
      rcases Option.bind_eq_some_iff.mp hs with ⟨s₁, hs₁, hs⟩
      rcases Option.ite_none_right_eq_some.mp hs₁ with ⟨hc, heq⟩
      cases heq
      rcases Option.bind_eq_some_iff.mp hs with ⟨n, hn, heq⟩
      cases heq
      have hn' : s.lockInuseMap lid = some n := hn
      rw [hn', ← List.length_erase_add_one hc] at h
      refine Ledger.of_eq h.handOver ?_ ?_ ?_ rfl
      · simp [setInuse]
      · simp only [owners, unwait, setInuse, Function.update_self, List.length_cons]
        omega
      · simp [setInuse, unwait]

/-- The source waits once and tests nothing afterwards, so a wait that ends by itself is taken for a
    grant. -/
theorem ledger_wake (h : Ledger s lid) (hclt : clt ∈ s.waiting lid) :
    Ledger { s.unwait clt lid with
      spurious := Function.update s.spurious lid (s.spurious lid + 1) } lid := by
  unfold Ledger at h
  rw [← List.length_erase_add_one hclt] at h
  refine Ledger.of_eq h.wake rfl ?_ ?_ ?_
  · simp only [owners, unwait, Function.update_self, List.length_cons]
    omega
  · simp [unwait]
  · simp

/-- The owner was counted before it returns. -/
theorem ledger_returns (h : Ledger s lid) (hclt : clt ∈ s.woken lid) :
    Ledger { s.grant clt lid with
      woken := Function.update s.woken lid ((s.woken lid).erase clt) } lid := by
  have hwoken := List.length_erase_add_one hclt
  refine Ledger.of_eq h rfl ?_ rfl rfl
  simp only [owners, grant, Function.update_self, List.length_cons]
  omega

/-! ## Runs -/

/-- The fields of a lock are the same. -/
def Untouched (s s' : BlockingLockServer L C) (lid : L) : Prop :=
  s'.lockInuseMap lid = s.lockInuseMap lid ∧ s'.waiting lid = s.waiting lid ∧
    s'.woken lid = s.woken lid ∧ s'.held lid = s.held lid ∧ s'.spurious lid = s.spurious lid

omit [DecidableEq L] [DecidableEq C] in
theorem Ledger.untouched (h : Ledger s lid) (hsame : Untouched s s' lid) : Ledger s' lid := by
  rcases hsame with ⟨hinuse, hwaiting, hwoken, hheld, hspurious⟩
  exact Ledger.of_eq h hinuse (by rw [owners, owners, hheld, hwoken]) (by rw [hwaiting])
    hspurious

omit [DecidableEq C] in
theorem untouched_acquire (s : BlockingLockServer L C) (clt : C) {lid l : L} (hne : lid ≠ l) :
    Untouched s (s.acquire clt l) lid := by
  unfold acquire
  split
  · simp [Untouched, grant, setInuse, hne]
  · split
    · simp [Untouched, grant, setInuse, hne]
    · simp [Untouched, wait, setInuse, hne]

/-- An action does not touch the fields of another lock. -/
theorem untouched_release {l : L} {next : Option C} (hne : lid ≠ l)
    (hs : s.release clt l next = some s') : Untouched s s' lid := by
  unfold release at hs
  rcases Option.bind_eq_some_iff.mp hs with ⟨s₁, hs₁, hs⟩
  rcases Option.bind_eq_some_iff.mp hs with ⟨n, _, heq⟩
  cases heq
  cases next with
  | none =>
      rcases Option.ite_none_right_eq_some.mp hs₁ with ⟨_, heq⟩
      cases heq
      simp [Untouched, setInuse, hne]
  | some c =>
      rcases Option.ite_none_right_eq_some.mp hs₁ with ⟨_, heq⟩
      cases heq
      simp [Untouched, setInuse, unwait, hne]

/-- An action is about one lock, and the others stay as they are. -/
theorem ledger_step (s : BlockingLockServer L C) (a : BlockingAction L C)
    (s' : BlockingLockServer L C) (h : ∀ lid, Ledger s lid) (hok : s.releasesOwn a = true)
    (hs : s.step a = some s') (lid : L) : Ledger s' lid := by
  cases a with
  | acquire clt l =>
      cases hs
      by_cases hl : lid = l
      · rw [← hl]
        exact ledger_acquire (h lid) clt
      · exact (h lid).untouched (untouched_acquire s clt hl)
  | release clt l next =>
      have hclt : clt ∈ s.held l := of_decide_eq_true hok
      by_cases hl : lid = l
      · rw [← hl] at hclt hs
        exact ledger_release (h lid) hclt hs
      · exact (h lid).untouched (untouched_release hl hs)
  | wake clt l =>
      rcases Option.ite_none_right_eq_some.mp hs with ⟨hclt, hs⟩
      cases hs
      by_cases hl : lid = l
      · rw [← hl] at hclt ⊢
        exact ledger_wake (h lid) hclt
      · exact (h lid).untouched (by simp [Untouched, unwait, hl])
  | returns clt l =>
      rcases Option.ite_none_right_eq_some.mp hs with ⟨hclt, hs⟩
      cases hs
      by_cases hl : lid = l
      · rw [← hl] at hclt ⊢
        exact ledger_returns (h lid) hclt
      · exact (h lid).untouched (by simp [Untouched, grant, hl])

/-- In every run in which clients release only what they have: the count of a lock is the number of
    the requests for it that have not been released; a request that waits has one to wait for, which
    has the lock or is about to return with it; and at most one client has it, and one more for each
    wait that has ended without a signal. The condition is one on the clients, since `release` does
    not look at who calls it. -/
theorem handed_over (s : BlockingLockServer L C)
    (h : Trace.Reaches step (fun s a => s.releasesOwn a = true) (new L C) s) (lid : L) :
    (s.lockInuseMap lid).getD 0
        = ((s.held lid).length + (s.woken lid).length + (s.waiting lid).length : Nat) ∧
      (s.waiting lid ≠ [] → s.held lid ≠ [] ∨ s.woken lid ≠ []) ∧
      (s.held lid).length + (s.woken lid).length ≤ 1 + s.spurious lid := by
  have hledger : Ledger s lid := Trace.invariant_of_step (fun s => ∀ lid, Ledger s lid)
    ledger_new ledger_step h lid
  refine ⟨hledger.count, fun hwaiting => ?_, hledger.bounded⟩
  have howners := hledger.awaited (List.length_pos_iff.mpr hwaiting)
  unfold owners at howners
  by_cases hheld : s.held lid = []
  · right
    rw [hheld, List.length_nil, Nat.zero_add] at howners
    exact List.ne_nil_of_length_pos howners
  · exact Or.inl hheld

/-- Two clients wait for a third one; one of them is woken by its release, and the other one
    without a signal. -/
theorem handed_over_spurious :
    ∃ s : BlockingLockServer Nat Nat, s.held 7 = [1, 2] ∧ s.spurious 7 = 1 ∧
      (s.lockInuseMap 7).getD 0
        = ((s.held 7).length + (s.woken 7).length + (s.waiting 7).length : Nat) ∧
      (s.waiting 7 ≠ [] → s.held 7 ≠ [] ∨ s.woken 7 ≠ []) ∧
      (s.held 7).length + (s.woken 7).length ≤ 1 + s.spurious 7 := by
  have hrun : (Trace.run step releasesOwn (new Nat Nat)
      [.acquire 0 7, .acquire 1 7, .acquire 2 7, .release 0 7 (some 2), .wake 1 7, .returns 2 7,
        .returns 1 7]).map (fun s => (s.held 7, s.spurious 7)) = some ([1, 2], 1) := by
    decide +kernel
  rcases Option.map_eq_some_iff.mp hrun with ⟨s, hs, heq⟩
  simp only [Prod.mk.injEq] at heq
  exact ⟨s, heq.1, heq.2, handed_over s (Trace.reaches_of_run _ hs) 7⟩

-- Client 2 releases what client 0 has: client 1 is woken, and both have the lock.
example : (Trace.run step (fun _ _ => true) (new Nat Nat)
    [.acquire 0 7, .acquire 1 7, .release 2 7 (some 1), .returns 1 7]).map
      (fun s => (s.held 7, s.spurious 7, s.lockInuseMap 7)) = some ([1, 0], 0, some 1) := by
  decide

end BlockingLockServer

end Yfs
