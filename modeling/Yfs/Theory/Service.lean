import Yfs.Core.Service
import Yfs.Theory.LockService
import Yfs.Theory.Serializability

/-!
# Serializability over the Lock Protocol

The file system with the lock protocol as it is does what it does with an ideal lock
service, as long as `give_back` overwrites the state only of locks that are still `FREE`.

A step of the lock protocol is an `Event`, and each event is a step of `Cluster` or none:
a grant is a grant, a thread that gets through its `acquire` or `release` advances its
operation, and the return of `dorelease` is the flush before the lock is given up. An
operation inside a lock call is, seen from above, still in front of that call; `atCall`
puts the call back.

## Main definitions

* `giveBackFree`: The condition on the steps of the lock protocol.
* `atCall`: An operation together with the lock call it is in.
* `Abstracts`: The deployed system and the one with ideal locks.

## Theorems

* `reaches_locks`: The locks take part in a run of the lock protocol.
* `abstracts_step`: A step is one of `Cluster`, or none.
* `service_serial`: The results are those of a serial run on one server.
* `cached_only_by_owner`: What a client caches, no other client has.
-/

namespace Yfs

namespace Service

open Serial LockProtocol

variable {C : Type} [DecidableEq C]

/-- `give_back` overwrites the state only of a lock that is still `FREE`. -/
def giveBackFree (s : Sys C) : Action C → Bool
  | .lock a => LockProtocol.giveBackFree s.locks a
  | _ => true

variable (u : Uninit) (clock : Nat → UInt32)

/-! ## The locks -/

/-- The steps of the lock service, other than the calls of the operations, are those of the
    protocol, and may be accompanied by a flush. -/
theorem step_lock {s s' : Sys C} {a : LockProtocol.Action C Unit Inum}
    (h : step u clock s (.lock a) = some s') :
    (∀ c lid, a ≠ .callAcquire c () lid ∧ a ≠ .callRelease c () lid) ∧
      ∃ locks, LockProtocol.step s.locks a = some locks ∧
        s' = { s.besides clock a with locks := locks } := by
  simp only [step] at h
  split at h
  · cases h
  · cases h
  · rename_i hacq hrel
    rcases Option.map_eq_some_iff.mp h with ⟨locks, hl, rfl⟩
    exact ⟨fun c lid => ⟨hacq c () lid, hrel c () lid⟩, locks, hl, rfl⟩

/-- An operation moves only outside the lock cache, and calls it or leaves it alone. -/
theorem step_advance {s s' : Sys C} {c : C} (h : step u clock s (.advance c) = some s') :
    s.locks.thread (c, .app ()) = .idle ∧ ∃ op p releasing, s.phase c = .running op p releasing ∧
      s.exec clock c op releasing p = some s' := by
  simp only [step] at h
  split at h
  · rename_i op p releasing hpc hph
    exact ⟨hpc, op, p, releasing, hph, h⟩
  · cases h

/-- Seen from the locks a run of the system is a run of the protocol, in which the operations are
    the threads of the application. -/
theorem reaches_locks (now : UInt32) {s : Sys C}
    (h : Trace.Reaches (step u clock) (fun s a => giveBackFree s a = true) (Sys.init C now) s) :
    Trace.Reaches LockProtocol.step (fun s a => LockProtocol.giveBackFree s a = true)
      (LockProtocol.init C Unit Inum) s.locks := by
  refine Trace.projection Sys.locks (fun s a s' hok hs => ?_) h
  cases a with
  | begin c op =>
      left
      simp only [step] at hs
      split at hs
      · cases hs
        rfl
      · cases hs
  -- An operation takes part in the protocol only where it calls it.
  | advance c =>
      rcases step_advance u clock hs with ⟨_, op, p, releasing, _, hexec⟩
      cases p with
      | ret r =>
          cases hexec
          exact Or.inl rfl
      | call eid o next =>
          cases hexec
          exact Or.inl rfl
      | acquire lid next =>
          rcases Option.map_eq_some_iff.mp hexec with ⟨locks, hl, rfl⟩
          exact Or.inr ⟨_, rfl, hl⟩
      | release lid next =>
          rcases Option.map_eq_some_iff.mp hexec with ⟨locks, hl, rfl⟩
          exact Or.inr ⟨_, rfl, hl⟩
  | lock a =>
      rcases step_lock u clock hs with ⟨_, locks, hl, rfl⟩
      exact Or.inr ⟨a, hok, hl⟩

/-! ## From the protocol to ideal locks -/

/-- What is left of an operation, with the lock call that it is in. -/
def atCall : Option (Request Inum) → Phase Inum ExtentCall ExtentCall.Answer Op Result →
    Phase Inum ExtentCall ExtentCall.Answer Op Result
  | some (.acquire lid), .running op p releasing => .running op (.acquire lid p) releasing
  | some (.release lid), .running op p releasing => .running op (.release lid p) releasing
  | _, ph => ph

/-- The lock call of the process's operation, if it is in one. -/
def Sys.request (s : Sys C) (c : C) : Option (Request Inum) :=
  (s.locks.thread (c, .app ())).request

/-- The system with ideal locks in which the same has happened. -/
structure Abstracts (s : Sys C) (t : Cluster.Sys C) : Prop where
  server : t.server = s.server
  ticks : t.ticks = s.ticks
  client : t.client = s.client
  completed : t.completed = s.completed
  owner : ∀ lid c, t.owner lid = some c ↔ Has s.locks c lid
  held : ∀ lid, t.held lid = true ↔ ∃ c, Uses s.locks c () lid
  phase : ∀ c, t.phase c = atCall (s.request c) (s.phase c)
  busy : ∀ c, s.request c ≠ none → s.phase c ≠ .idle

omit [DecidableEq C] in
/-- At first no process has a lock, and none uses one. -/
theorem abstracts_init (now : UInt32) : Abstracts (Sys.init C now) (Cluster.Sys.init C now) := by
  have hnone := realises_init (C := C) (T := Unit) (L := Inum)
  refine ⟨rfl, rfl, rfl, rfl, hnone.owner, fun lid => ?_, fun _ => rfl, fun _ h => absurd rfl h⟩
  refine iff_of_false Bool.false_ne_true ?_
  rintro ⟨c, huse⟩
  cases (hnone.user lid c ()).mpr huse

section Advance

variable {s : Sys C} {t : Cluster.Sys C}

omit [DecidableEq C] in
/-- Outside the lock cache there is nothing to put back. -/
theorem Abstracts.phase_of_idle (h : Abstracts s t) {c : C}
    (hpc : s.locks.thread (c, .app ()) = .idle) : t.phase c = s.phase c := by
  have hph := h.phase c
  simp only [Sys.request, hpc, ThreadPc.request, atCall] at hph
  exact hph

/-- A process that is outside the lock cache goes on with its operation: the locks are as before,
    and both systems put the same in its place. -/
theorem Abstracts.update_phase {s' : Sys C} {t' : Cluster.Sys C} (h : Abstracts s t)
    (hlocks : s'.locks = s.locks) (howner : t'.owner = t.owner) (hheld : t'.held = t.held)
    (hserver : t'.server = s'.server) (hticks : t'.ticks = s'.ticks)
    (hclient : t'.client = s'.client) (hcompleted : t'.completed = s'.completed) {c : C}
    {ph : Phase Inum ExtentCall ExtentCall.Answer Op Result}
    (hphase : s'.phase = Function.update s.phase c ph)
    (hphase' : t'.phase = Function.update t.phase c ph) (hreq : s.request c = none) :
    Abstracts s' t' := by
  have hrequest : s'.request = s.request := by
    funext c'
    unfold Sys.request
    rw [hlocks]
  refine ⟨hserver, hticks, hclient, hcompleted, ?_, ?_, ?_, ?_⟩
  · rw [howner, hlocks]
    exact h.owner
  · rw [hheld, hlocks]
    exact h.held
  · intro c'
    rw [hrequest, hphase, hphase']
    by_cases hc : c' = c
    · rw [hc, hreq, Function.update_self, Function.update_self]
      rfl
    · rw [Function.update_of_ne hc, Function.update_of_ne hc]
      exact h.phase c'
  · intro c' hne
    rw [hrequest] at hne
    have hc : c' ≠ c := by
      rintro rfl
      exact hne hreq
    rw [hphase, Function.update_of_ne hc]
    exact h.busy c' hne

/-- An operation that enters the lock cache stays where it is, seen from above: with ideal locks it
    has its `acquire` or `release` still before it, and `atCall` puts it back. -/
theorem Abstracts.call {s' : Sys C} (h : Abstracts s t) (hserver : s'.server = s.server)
    (hticks : s'.ticks = s.ticks) (hclient : s'.client = s.client)
    (hcompleted : s'.completed = s.completed) (hhas : SameHas s.locks s'.locks)
    (huses : SameUses s.locks s'.locks) {c : C} {r : Option (Request Inum)}
    (hreq : Requests s.locks s'.locks c () r)
    {ph : Phase Inum ExtentCall ExtentCall.Answer Op Result}
    (hphase : s'.phase = Function.update s.phase c ph) (hph : t.phase c = atCall r ph)
    (hbusy : ph ≠ .idle) : Abstracts s' t := by
  have hother : ∀ c', c' ≠ c → s'.request c' = s.request c' := fun c' hc =>
    hreq.others c' () fun heq => hc (congrArg Prod.fst heq)
  refine ⟨h.server.trans hserver.symm, h.ticks.trans hticks.symm, h.client.trans hclient.symm,
    h.completed.trans hcompleted.symm, ?_, ?_, ?_, ?_⟩
  · exact fun lid c' => (h.owner lid c').trans (hhas c' lid).symm
  · exact fun lid => (h.held lid).trans (exists_congr fun c' => (huses c' () lid).symm)
  · intro c'
    rw [hphase]
    by_cases hc : c' = c
    · rw [hc, Function.update_self, hph, Sys.request, hreq.self]
    · rw [Function.update_of_ne hc, hother c' hc]
      exact h.phase c'
  · intro c' hne
    rw [hphase]
    by_cases hc : c' = c
    · rw [hc, Function.update_self]
      exact hbusy
    · rw [Function.update_of_ne hc]
      rw [hother c' hc] at hne
      exact h.busy c' hne

end Advance

/-- Most steps of the protocol do nothing to the extents. -/
theorem besides_of_plain (s : Sys C) {a : LockProtocol.Action C Unit Inum} (ha : a.plain = true) :
    s.besides clock a = s := by
  cases a with
  | enterRelease c x => cases ha
  | doreleaseReturns c i => cases ha
  | _ => rfl

/-- The release action flushes the extent, between two steps of the protocol. -/
theorem besides_dorelease (s : Sys C) {c : C} {i : ThreadId Unit} {lid : Inum}
    (hpc : s.locks.thread (c, i) = .dorelease lid) :
    s.besides clock (.doreleaseReturns c i) =
      let r := (s.client c).writeBack s.server (clock s.ticks) lid
      { s with
        server := r.2
        ticks := s.ticks + 1
        client := Function.update s.client c r.1 } := by
  simp only [Sys.besides, hpc]

section Events

variable {s : Sys C} {t : Cluster.Sys C} {locks : LockProtocol.Sys C Unit Inum}

omit [DecidableEq C] in
/-- Which calls are made depends on the threads alone. -/
theorem request_same (hreq : SameRequests s.locks locks) (c : C) :
    { s with locks := locks }.request c = s.request c :=
  hreq c ()

omit [DecidableEq C] in
/-- A step that changes neither who has a lock nor who uses it is not seen with ideal locks. -/
theorem abstracts_quiet (h : Abstracts s t) (hhas : SameHas s.locks locks)
    (huses : SameUses s.locks locks) (hreq : SameRequests s.locks locks) :
    Abstracts { s with locks := locks } t := by
  refine ⟨h.server, h.ticks, h.client, h.completed, ?_, ?_, ?_, ?_⟩
  · exact fun lid c => (h.owner lid c).trans (hhas c lid).symm
  · exact fun lid => (h.held lid).trans (exists_congr fun c => (huses c () lid).symm)
  · intro c
    rw [request_same hreq]
    exact h.phase c
  · intro c hne
    rw [request_same hreq] at hne
    exact h.busy c hne

/-- The server gives a lock to a client that has asked for it. Nobody has it at that moment, so it
    may be granted with ideal locks as well. -/
theorem abstracts_grant (h : Abstracts s t) {c : C} {lid : Inum}
    (hfree : ∀ c', ¬ Has s.locks c' lid)
    (hhas : ∀ c' lid', Has locks c' lid' ↔ Has s.locks c' lid' ∨ (c', lid') = (c, lid))
    (huses : SameUses s.locks locks) (hreq : SameRequests s.locks locks) :
    ∃ t', Cluster.step u clock t (.grant lid c) = some t' ∧
      Abstracts { s with locks := locks } t' := by
  have hnone : t.owner lid = none := by
    cases ho : t.owner lid with
    | none => rfl
    | some c' => exact absurd ((h.owner lid c').mp ho) (hfree c')
  have hstep : Cluster.step u clock t (.grant lid c)
      = some { t with owner := Function.update t.owner lid (some c) } := by
    simp only [Cluster.step, hnone]
  refine ⟨_, hstep, ⟨h.server, h.ticks, h.client, h.completed, ?_, ?_, ?_, ?_⟩⟩
  · refine Threads.Records.give h.owner hfree fun c' lid' => ?_
    rw [hhas, Prod.mk.injEq]
  · exact fun lid' => (h.held lid').trans (exists_congr fun c' => (huses c' () lid').symm)
  · intro c'
    rw [request_same hreq]
    exact h.phase c'
  · intro c' hne
    rw [request_same hreq] at hne
    exact h.busy c' hne

/-- The release action of a lock is done: the extent has been flushed. With ideal locks the flush
    and the hand-back are one step, which is allowed since no operation uses the lock. -/
theorem abstracts_giveBack (h : Abstracts s t) (hi : Token s.locks) {c : C} {i : ThreadId Unit}
    {lid : Inum} (hpc : s.locks.thread (c, i) = .dorelease lid)
    (hhas : ∀ c' lid', Has locks c' lid' ↔ Has s.locks c' lid' ∧ (c', lid') ≠ (c, lid))
    (huses : SameUses s.locks locks) (hreq : SameRequests s.locks locks) :
    ∃ t', Cluster.step u clock t (.giveBack lid) = some t' ∧
      Abstracts { s.besides clock (.doreleaseReturns c i) with locks := locks } t' := by
  -- The thread that runs the action keeps the lock for its process.
  have hkeeps : (s.locks.thread (c, i)).keeps = some lid := by
    rw [hpc]
    rfl
  have hown : t.owner lid = some c := (h.owner lid c).mpr (Or.inr ⟨i, hkeeps⟩)
  have hheld : t.held lid = false := by
    by_contra hne
    rcases (h.held lid).mp (by simpa using hne) with ⟨c', huse⟩
    exact hi.unused_of_keeps hkeeps c' () huse
  rw [besides_dorelease clock s hpc]
  have hstep : Cluster.step u clock t (.giveBack lid) = some { t with
      server := ((t.client c).writeBack t.server (clock t.ticks) lid).2
      ticks := t.ticks + 1
      client := Function.update t.client c
        ((t.client c).writeBack t.server (clock t.ticks) lid).1
      owner := Function.update t.owner lid none } := by
    simp only [Cluster.step, hown, hheld, Bool.false_eq_true, if_false]
  refine ⟨_, hstep, ⟨?_, ?_, ?_, h.completed, ?_, ?_, ?_, ?_⟩⟩
  · simp only [h.server, h.ticks, h.client]
  · simp only [h.ticks]
  · simp only [h.server, h.ticks, h.client]
  · refine Threads.Records.takeBack h.owner (fun c' => hi.has_unique (Or.inr ⟨i, hkeeps⟩))
      fun c' lid' => ?_
    rw [hhas, ne_eq, Prod.mk.injEq]
  · exact fun lid' => (h.held lid').trans (exists_congr fun c' => (huses c' () lid').symm)
  · intro c'
    exact (h.phase c').trans (congrArg (atCall · (s.phase c')) (hreq c' ()).symm)
  · intro c' hne
    exact h.busy c' (by rwa [← request_same hreq])

omit [DecidableEq C] in
/-- An operation inside a lock call is running. -/
theorem Abstracts.running_of_request (h : Abstracts s t) {c : C} (hne : s.request c ≠ none) :
    ∃ op p releasing, s.phase c = .running op p releasing := by
  cases hph : s.phase c with
  | idle => exact absurd hph (h.busy c hne)
  | running op p releasing => exact ⟨op, p, releasing, rfl⟩

/-- A thread gets through its `acquire`: its process has the lock, and no operation uses it. This is
    the step in which the operation advances with ideal locks. -/
theorem abstracts_take (h : Abstracts s t) {c : C} {lid : Inum} (hown : Has s.locks c lid)
    (hfree : ∀ c' t', ¬ Uses s.locks c' t' lid) (hhas : SameHas s.locks locks)
    (huses : ∀ c' t' lid', Uses locks c' t' lid' ↔
      Uses s.locks c' t' lid' ∨ (c', t', lid') = (c, (), lid))
    (hasked : s.request c = some (.acquire lid)) (hreq : Requests s.locks locks c () none) :
    ∃ t', Cluster.step u clock t (.advance c) = some t' ∧
      Abstracts { s with locks := locks } t' := by
  rcases h.running_of_request (c := c) (by rw [hasked]; exact Option.some_ne_none _)
    with ⟨op, p, releasing, hph⟩
  -- Seen from above the operation still has its `acquire` before it.
  have htph : t.phase c = .running op (.acquire lid p) releasing := by
    rw [h.phase c, hasked, hph]
    rfl
  have hguard : t.owner lid = some c ∧ t.held lid = false := by
    refine ⟨(h.owner lid c).mpr hown, ?_⟩
    by_contra hne
    rcases (h.held lid).mp (by simpa using hne) with ⟨c', huse⟩
    exact hfree c' () huse
  have hother : ∀ c', c' ≠ c → { s with locks := locks }.request c' = s.request c' :=
    fun c' hc => hreq.others c' () fun heq => hc (congrArg Prod.fst heq)
  have hself : { s with locks := locks }.request c = none := hreq.self
  have hstep : Cluster.step u clock t (.advance c) = some { t with
      held := Function.update t.held lid true
      phase := Function.update t.phase c (.running op p releasing) } := by
    simp only [Cluster.step, htph, Cluster.Sys.exec, if_pos hguard]
  refine ⟨_, hstep, ⟨h.server, h.ticks, h.client, h.completed, ?_, ?_, ?_, ?_⟩⟩
  · exact fun lid' c' => (h.owner lid' c').trans (hhas c' lid').symm
  · intro lid'
    by_cases hl : lid' = lid
    · simp only [hl, Function.update_self, true_iff]
      exact ⟨c, (huses c () lid).mpr (Or.inr rfl)⟩
    · simp only [Function.update_of_ne hl]
      refine (h.held lid').trans (exists_congr fun c' => ?_)
      rw [huses, or_iff_left]
      exact fun heq => hl (congrArg (fun x => x.2.2) heq)
  · intro c'
    change Function.update t.phase c _ c' = atCall ({ s with locks := locks }.request c')
      (s.phase c')
    by_cases hc : c' = c
    · rw [hc, hself, Function.update_self]
      exact hph.symm
    · rw [hother c' hc, Function.update_of_ne hc]
      exact h.phase c'
  · intro c' hne
    by_cases hc : c' = c
    · rw [hc] at hne
      exact absurd hself hne
    · rw [hother c' hc] at hne
      exact h.busy c' hne

/-- A `release` takes effect where the thread gives up the lock inside its process; whether the lock
    also goes back to the server is decided later. -/
theorem abstracts_drop (h : Abstracts s t) (hi : Token s.locks) {c : C} {lid : Inum}
    (huse : Uses s.locks c () lid) (hhas : SameHas s.locks locks)
    (huses : ∀ c' t' lid', Uses locks c' t' lid' ↔
      Uses s.locks c' t' lid' ∧ (c', t', lid') ≠ (c, (), lid))
    (hasked : s.request c = some (.release lid)) (hreq : Requests s.locks locks c () none) :
    ∃ t', Cluster.step u clock t (.advance c) = some t' ∧
      Abstracts { s.besides clock (.enterRelease c ()) with locks := locks } t' := by
  rcases h.running_of_request (c := c) (by rw [hasked]; exact Option.some_ne_none _)
    with ⟨op, p, releasing, hph⟩
  -- Seen from above the operation still has its `release` before it.
  have htph : t.phase c = .running op (.release lid p) releasing := by
    rw [h.phase c, hasked, hph]
    rfl
  have hguard : t.owner lid = some c ∧ t.held lid = true :=
    ⟨(h.owner lid c).mpr (hi.has_of_uses huse), (h.held lid).mpr ⟨c, huse⟩⟩
  have hother : ∀ c', c' ≠ c → { s with locks := locks }.request c' = s.request c' :=
    fun c' hc => hreq.others c' () fun heq => hc (congrArg Prod.fst heq)
  have hself : { s with locks := locks }.request c = none := hreq.self
  have hstep : Cluster.step u clock t (.advance c) = some { t with
      held := Function.update t.held lid false
      phase := Function.update t.phase c (.running op p true) } := by
    simp only [Cluster.step, htph, Cluster.Sys.exec, if_pos hguard]
  refine ⟨_, hstep, ⟨h.server, h.ticks, h.client, h.completed, ?_, ?_, ?_, ?_⟩⟩
  · exact fun lid' c' => (h.owner lid' c').trans (hhas c' lid').symm
  · intro lid'
    by_cases hl : lid' = lid
    · -- The thread that drops the lock was the only one to use it.
      rw [hl]
      refine iff_of_false (by simp only [Function.update_self, Bool.false_eq_true,
        not_false_eq_true]) ?_
      rintro ⟨c', huse'⟩
      rcases (huses c' () lid).mp huse' with ⟨hold, hne⟩
      cases hi.uses_unique_all huse hold
      exact hne rfl
    · simp only [Function.update_of_ne hl]
      refine (h.held lid').trans (exists_congr fun c' => ?_)
      rw [huses, and_iff_left]
      exact fun heq => hl (congrArg (fun x => x.2.2) heq)
  · intro c'
    change Function.update t.phase c _ c' = atCall ({ s with locks := locks }.request c')
      (Function.update s.phase c (released (s.phase c)) c')
    by_cases hc : c' = c
    · rw [hc, hself, Function.update_self, Function.update_self, hph]
      rfl
    · rw [hother c' hc, Function.update_of_ne hc, Function.update_of_ne hc]
      exact h.phase c'
  · intro c' hne
    by_cases hc : c' = c
    · rw [hc] at hne
      exact absurd hself hne
    · change Function.update s.phase c (released (s.phase c)) c' ≠ .idle
      rw [Function.update_of_ne hc]
      exact h.busy c' (by rwa [← hother c' hc])

/-- A step of the lock protocol is one of the system with ideal locks, or none. What a step may do
    is listed in `Event`, and each kind of event has its lemma. -/
theorem abstracts_lock (h : Abstracts s t) (hi : Token s.locks)
    {a : LockProtocol.Action C Unit Inum}
    (ha : ∀ c lid, a ≠ .callAcquire c () lid ∧ a ≠ .callRelease c () lid)
    (he : Event s.locks a locks) :
    Abstracts { s.besides clock a with locks := locks } t ∨
      ∃ b t', Cluster.step u clock t b = some t' ∧
        Abstracts { s.besides clock a with locks := locks } t' := by
  cases he with
  | quiet _ _ hplain hhas huses hreq =>
      rw [besides_of_plain clock s hplain]
      exact Or.inl (abstracts_quiet h hhas huses hreq)
  | callAcquire c x lid _ hpc hhas huses hreq => exact absurd rfl (ha c lid).1
  | callRelease c x lid _ hpc hhas huses hreq => exact absurd rfl (ha c lid).2
  | grant _ c lid _ hplain hfree hhas huses hreq =>
      rw [besides_of_plain clock s hplain]
      exact Or.inr ⟨_, abstracts_grant u clock h hfree hhas huses hreq⟩
  | take _ c x lid _ hplain hown hfree hhas huses hasked hreq =>
      rw [besides_of_plain clock s hplain]
      exact Or.inr ⟨_, abstracts_take u clock h hown hfree hhas huses hasked hreq⟩
  | drop c x lid _ huse hhas huses hasked hreq =>
      exact Or.inr ⟨_, abstracts_drop u clock h hi huse hhas huses hasked hreq⟩
  | giveBack c i lid _ hpc hhas huses hreq =>
      exact Or.inr ⟨_, abstracts_giveBack u clock h hi hpc hhas huses hreq⟩

end Events

/-- A step of an operation outside the lock cache: it returns, it calls the extent cache, or it
    enters the lock cache, and the last is not seen with ideal locks. -/
theorem abstracts_exec {s s' : Sys C} {t : Cluster.Sys C} (h : Abstracts s t)
    (hevent : ∀ a locks, LockProtocol.giveBackFree s.locks a = true →
      LockProtocol.step s.locks a = some locks → Event s.locks a locks)
    {c : C} (hpc : s.locks.thread (c, .app ()) = .idle) {op : Op} {p : Prog Result}
    {releasing : Bool} (hph : s.phase c = .running op p releasing)
    (hs : s.exec clock c op releasing p = some s') :
    Abstracts s' t ∨ ∃ t', Cluster.step u clock t (.advance c) = some t' ∧ Abstracts s' t' := by
  have htph : t.phase c = .running op p releasing := by rw [h.phase_of_idle hpc, hph]
  have hreq : s.request c = none := by rw [Sys.request, hpc]; rfl
  cases p with
  | ret r =>
      cases hs
      right
      refine ⟨_, by simp only [Cluster.step, htph]; rfl, ?_⟩
      refine h.update_phase rfl rfl rfl h.server h.ticks h.client ?_ rfl rfl hreq
      rw [h.completed]
  | call eid o next =>
      cases hs
      right
      refine ⟨_, by simp only [Cluster.step, htph]; rfl, ?_⟩
      refine h.update_phase rfl rfl rfl ?_ ?_ ?_ h.completed rfl ?_ hreq
      all_goals simp only [h.server, h.ticks, h.client]
  -- Of the events, only one is a call of `acquire`.
  | acquire lid next =>
      rcases Option.map_eq_some_iff.mp hs with ⟨locks, hl, rfl⟩
      left
      cases hevent _ _ rfl hl with
      | callAcquire _ _ _ _ _ hhas huses hreq' =>
          exact h.call rfl rfl rfl rfl hhas huses hreq' rfl htph fun hc => by cases hc
      | quiet _ _ ha _ _ _ => cases ha
      | grant _ _ _ _ ha _ _ _ _ => cases ha
      | take _ _ _ _ _ ha _ _ _ _ _ _ => cases ha
  | release lid next =>
      rcases Option.map_eq_some_iff.mp hs with ⟨locks, hl, rfl⟩
      left
      cases hevent _ _ rfl hl with
      | callRelease _ _ _ _ _ hhas huses hreq' =>
          exact h.call rfl rfl rfl rfl hhas huses hreq' rfl htph fun hc => by cases hc
      | quiet _ _ ha _ _ _ => cases ha
      | grant _ _ _ _ ha _ _ _ _ => cases ha
      | take _ _ _ _ _ ha _ _ _ _ _ _ => cases ha

/-- A step of the deployed system is one of the system with ideal locks, or none. -/
theorem abstracts_step (now : UInt32) {s s' : Sys C} {t : Cluster.Sys C} {a : Action C}
    (hr : Trace.Reaches (step u clock) (fun s a => giveBackFree s a = true) (Sys.init C now) s)
    (h : Abstracts s t) (hok : giveBackFree s a = true) (hs : step u clock s a = some s') :
    Abstracts s' t ∨ ∃ b t', Cluster.step u clock t b = some t' ∧ Abstracts s' t' := by
  have hlocks := reaches_locks u clock now hr
  cases a with
  -- An operation begins in a process that is idle, so it is in no lock call either.
  | begin c op =>
      simp only [step] at hs
      split at hs
      · rename_i hidle
        cases hs
        have hreq : s.request c = none := by
          by_contra hne
          exact h.busy c hne hidle
        have htph : t.phase c = .idle := by
          rw [h.phase c, hreq, hidle]
          rfl
        refine Or.inr ⟨.begin c op, _, by simp only [Cluster.step, htph]; rfl, ?_⟩
        exact h.update_phase rfl rfl rfl h.server h.ticks h.client h.completed rfl rfl hreq
      · cases hs
  | advance c =>
      rcases step_advance u clock hs with ⟨hpc, op, p, releasing, hph, hexec⟩
      rcases abstracts_exec u clock h (fun a locks => event_reachable hlocks) hpc hph hexec
        with hsame | ⟨t', ht', habs⟩
      · exact Or.inl hsame
      · exact Or.inr ⟨_, t', ht', habs⟩
  | lock a =>
      rcases step_lock u clock hs with ⟨ha, locks, hl, rfl⟩
      exact abstracts_lock u clock h (token_reachable s.locks hlocks) ha
        (event_reachable hlocks hok hl)

/-- Every run of the deployed system is one of the system with ideal locks, as long as `give_back`
    overwrites only what is `FREE`. -/
theorem abstracts_run (now : UInt32) {s : Sys C}
    (h : Trace.Reaches (step u clock) (fun s a => giveBackFree s a = true) (Sys.init C now) s) :
    ∃ t, Trace.Reaches (Cluster.step u clock) Trace.Always (Cluster.Sys.init C now) t ∧
      Abstracts s t := by
  refine Trace.simulation Abstracts (abstracts_init now) (fun s a s' t hr ht hok hs => ?_) h
  rcases abstracts_step u clock now hr ht hok hs with hsame | ⟨b, t', hb, ht'⟩
  · exact Or.inl hsame
  · exact Or.inr ⟨b, t', trivial, hb, ht'⟩

/-! ## Results -/

/-- What an operation is about to return is decided once it has released its first lock. To be
    inside a lock call changes nothing about that, since what has released a lock takes none. -/
theorem committed_atCall {H : Set Inum} (r : Option (Request Inum))
    {ph ph' : Phase Inum ExtentCall ExtentCall.Answer Op Result}
    (h : Cluster.SamePhase H (atCall r ph) ph') : (atCall r ph).committed = ph.committed := by
  cases ph with
  | idle =>
      cases r with
      | none => rfl
      | some r => cases r <;> rfl
  | running op p releasing =>
      cases r with
      | none => rfl
      | some r =>
          cases releasing with
          | false => cases r <;> rfl
          | true =>
              cases r with
              | release lid => rfl
              | acquire lid =>
                  -- An operation that has released a lock takes none.
                  cases h with
                  | leaving _ _ p' hrel => cases hrel

/-- On the store, what the programs have returned or are about to return is what a server without
    caches returns in the order in which they have taken effect. -/
theorem order_serial (clock' : Nat → UInt32) (now : UInt32) {t : Cluster.StoreSys C}
    (ht : Trace.Reaches (Serial.step Store.act (Op.prog u)) Trace.Always
      (Serial.Sys.init (ExtentServer.new now).contentMap) t) (c : C) :
    (resultsOf c (serial (Op.prog u) (Direct.serve clock') t.order
      ⟨ExtentServer.new now, 0⟩).1).map Cluster.timeless
      = (t.completed c ++ (t.phase c).committed).map Cluster.timeless := by
  have hprog : ∀ op, Txn.TwoPhase (fun _ => Eq) Eq ∅ (Op.prog u op) (Op.prog u op) :=
    fun op => (twoPhase_prog u op).right SameAnswer.refl
  have hnew : Direct.Holds ⟨ExtentServer.new now, 0⟩ (ExtentServer.new now).contentMap :=
    fun eid => ⟨ExtentServer.synced_new now eid, rfl⟩
  -- Two-phase locking gives the order; that a server has the same answers as the store, but for the
  -- times, is the other half.
  rw [← Serial.serializable hprog _ ht c, ← resultsOf_map, ← resultsOf_map]
  exact congrArg (resultsOf c) (Cluster.serial_timeless u clock' t.order hnew)

/-- The system with ideal locks and the programs on the store in which the same has happened. The
    first refinement takes the protocol away, and the second one the caches and the server. -/
theorem serial_run (now : UInt32) {s : Sys C}
    (h : Trace.Reaches (step u clock) (fun s a => giveBackFree s a = true) (Sys.init C now) s) :
    ∃ t r, Abstracts s t ∧ Cluster.Refines t r ∧
      Trace.Reaches (Serial.step Store.act (Op.prog u)) Trace.Always
        (Serial.Sys.init (ExtentServer.new now).contentMap) r ∧
      ∀ c, (r.completed c ++ (r.phase c).committed).map Cluster.timeless
        = (s.completed c ++ (s.phase c).committed).map Cluster.timeless := by
  rcases abstracts_run u clock now h with ⟨t, ht, habs⟩
  rcases Cluster.refines_run u clock now ht with ⟨r, hr, href⟩
  refine ⟨t, r, habs, href, hr, fun c => ?_⟩
  have hphase := href.phase c
  have hcommitted : (s.phase c).committed.map Cluster.timeless
      = (r.phase c).committed.map Cluster.timeless := by
    rw [← hphase.committed_eq]
    rw [habs.phase c] at hphase ⊢
    rw [committed_atCall _ hphase]
  rw [List.map_append, List.map_append, ← href.completed c, habs.completed, hcommitted]

/-- In every reachable state there is an order of the operations that have taken effect,
    such that a single server without caches and without locks gives each process, one
    operation after another, the results it has seen or is about to see. -/
theorem service_serial (clock' : Nat → UInt32) (now : UInt32) (s : Sys C)
    (h : Trace.Reaches (step u clock) (fun s a => giveBackFree s a = true) (Sys.init C now) s) :
    ∃ order : List (C × Op), ∀ c,
      (resultsOf c (serial (Op.prog u) (Direct.serve clock') order
        ⟨ExtentServer.new now, 0⟩).1).map Cluster.timeless
        = (s.completed c ++ (s.phase c).committed).map Cluster.timeless := by
  rcases serial_run u clock now h with ⟨_, r, _, _, hr, hresults⟩
  exact ⟨r.order, fun c => (order_serial u clock' now hr c).trans (hresults c)⟩

/-- A thread of the process gets through an `acquire` that the server answers with `OK`. -/
def acquireAtOnce (c : Bool) : List (Action Bool) :=
  [.advance c, .lock (.enterAcquire c ()), .lock (.serverAcquire c (.app ())),
    .lock (.acquireReturns c ())]

/-- The process does what follows its acquires in a `create`: five calls, two releases. -/
def callsAndReleases (c : Bool) : List (Action Bool) :=
  List.replicate 6 (.advance c) ++ [.lock (.enterRelease c ()), .advance c,
    .lock (.enterRelease c ()), .advance c]

/-- The process asks for the attributes of an extent whose lock another one has. -/
def waitForLock (c : Bool) : List (Action Bool) :=
  [.begin c (.getfile 0x80000000), .advance c, .lock (.enterAcquire c ()),
    .lock (.serverAcquire c (.app ())), .lock (.serverReadOwner c (.app ())),
    .lock (.clientRevoke c (.app ())), .lock (.serverRetryReply c (.app ())),
    .lock (.acquireReturns c ())]

/-- The `give_back` thread of the process flushes the extent and releases its lock. -/
def giveLockBack (c : Bool) : List (Action Bool) :=
  [.lock (.giveBackTest c 0x80000000), .lock (.giveBackUpdate c),
    .lock (.doreleaseReturns c .giveBack), .lock (.serverRelease c .giveBack),
    .lock (.clientRetry c .giveBack), .lock (.serverReleaseReply c .giveBack),
    .lock (.releaseReturns c .giveBack)]

/-- The waiting process gets the lock and answers its request. -/
def retryAndReturn (c : Bool) : List (Action Bool) :=
  [.lock (.wake c ()), .lock (.serverAcquire c (.app ())), .lock (.acquireReturns c ()),
    .advance c, .advance c, .lock (.enterRelease c ()), .advance c]

/-- One process creates a file, and another one asks for its attributes. -/
def handoverRun : List (Action Bool) :=
  .begin false (.create 1 [102] 0x80000000) :: (acquireAtOnce false ++ acquireAtOnce false
    ++ callsAndReleases false ++ waitForLock true ++ giveLockBack false ++ retryAndReturn true)

/-- In that run both operations return, and there is an order for them. -/
theorem service_serial_handover :
    ∃ s, Trace.run (step ⟨0, 0⟩ fun _ => 0) giveBackFree (Sys.init Bool 0) handoverRun = some s ∧
      s.completed true = [(.getfile 0x80000000, .attr .ok (some ⟨0, 0, 0, 0⟩))] ∧
      ∃ order : List (Bool × Op), ∀ c,
        (resultsOf c (serial (Op.prog ⟨0, 0⟩) (Direct.serve fun _ => 0) order
          ⟨ExtentServer.new 0, 0⟩).1).map Cluster.timeless
          = (s.completed c ++ (s.phase c).committed).map Cluster.timeless := by
  have hrun : (Trace.run (step ⟨0, 0⟩ fun _ => 0) giveBackFree (Sys.init Bool 0)
      handoverRun).map (fun s => s.completed true)
        = some [(.getfile 0x80000000, .attr .ok (some ⟨0, 0, 0, 0⟩))] := by
    decide +kernel
  rcases Option.map_eq_some_iff.mp hrun with ⟨s, hs, hcompleted⟩
  exact ⟨s, hs, hcompleted, service_serial ⟨0, 0⟩ (fun _ => 0) (fun _ => 0) 0 s
    (Trace.reaches_of_run handoverRun hs)⟩

theorem isClear_of_uncached {c : ExtentClient} {eid : Inum} (h : Uncached c eid) :
    c.isClear eid = true := by
  simp only [ExtentClient.isClear, h.content, h.attr, h.dirty, Option.isNone_none,
    Bool.not_false, Bool.and_self]

/-- Whatever a process has cached of an extent, or owes to the server, it has as the owner of the
    extent's lock, and no other process has anything of it. The condition is the one that the lock
    protocol needs for mutual exclusion: `give_back` takes away only locks that are still `FREE`. -/
theorem cached_only_by_owner (now : UInt32) (s : Sys C)
    (h : Trace.Reaches (step u clock) (fun s a => giveBackFree s a = true) (Sys.init C now) s)
    (c : C) (eid : Inum) (hc : (s.client c).isClear eid = false) :
    s.locks.whereIsLock eid = some (some c) ∧
      ∀ c', c' ≠ c → (s.client c').isClear eid = true := by
  rcases serial_run u clock now h with ⟨t, r, habs, href, _, _⟩
  have hclear : ∀ c', t.owner eid ≠ some c' → (s.client c').isClear eid = true := by
    intro c' hne
    have hun := href.coherent.uncached eid c' hne
    rw [habs.client] at hun
    exact isClear_of_uncached hun
  have hown : t.owner eid = some c := by
    by_contra hne
    rw [hclear c hne] at hc
    cases hc
  refine ⟨?_, fun c' hne => hclear c' ?_⟩
  · exact (token_reachable s.locks (reaches_locks u clock now h)).owner_of_has
      ((habs.owner eid c).mp hown)
  · rw [hown]
    exact fun heq => hne (Option.some.inj heq).symm

/-- A process in the middle of a `create` owes the new extent to the server. -/
theorem cached_only_by_owner_creating :
    ∃ s, Trace.Reaches (step ⟨0, 0⟩ fun _ => 0) (fun s a => giveBackFree s a = true)
        (Sys.init Bool 0) s ∧
      (s.client false).isClear 0x80000000 = false ∧
      s.locks.whereIsLock 0x80000000 = some (some false) ∧
        ∀ c', c' ≠ false → (s.client c').isClear 0x80000000 = true := by
  have hrun : (Trace.run (step ⟨0, 0⟩ fun _ => 0) giveBackFree (Sys.init Bool 0)
      (.begin false (.create 1 [102] 0x80000000) :: (acquireAtOnce false ++ acquireAtOnce false
        ++ List.replicate 2 (.advance false)))).map
          (fun s => (s.client false).isClear 0x80000000) = some false := by
    decide +kernel
  rcases Option.map_eq_some_iff.mp hrun with ⟨s, hs, hclear⟩
  have hr := Trace.reaches_of_run _ hs
  exact ⟨s, hr, hclear, cached_only_by_owner ⟨0, 0⟩ (fun _ => 0) 0 s hr false 0x80000000 hclear⟩

end Service

end Yfs
