import Yfs.Core.LockServer
import Yfs.Library.History

/-!
# Server-Side Grant Exclusivity

Whether a lock that the server has granted is released by the client that has it before
it is granted again.

The server keeps one owner per lock and a grant needs there to be none, so what matters
is what can take an owner away. `Charged` ties the owner to the history: the client of
the last grant is still the owner unless it has released since. Two things break that.
`release` does not compare its id with the owner, so anybody's release takes the owner
away; and a grant to the empty id leaves no owner behind. `Orderly` excludes the two,
and then a grant of a lock is always preceded by the release (`exclusive_of_orderly`).

The server inside `LockProtocol` is this one, at clients that have ids
(`ofSys_serverAcquire`, `ofSys_serverRelease`).

## Main definitions

* `Exclusive`: Between two grants of a lock the first client releases it.
* `Orderly`: Only the owner releases, and no grant goes to the empty id.
* `Charged`: The client of the last grant is the owner until it releases.
* `ofSys`: The server of the protocol.

## Theorems

* `acquire_free`, `acquire_owned`: The two outcomes of a request.
* `acquire_ok_iff`: A grant needs the lock to have no owner.
* `acquire_owner`, `release_owner`: Who owns a lock afterwards.
* `charged_step`: An orderly request keeps owner and history in step.
* `exclusive_of_orderly`: Grants are exclusive.
* `staleRelease_regrants`: A late release of another client breaks this.
* `ofSys_serverAcquire`, `ofSys_serverRelease`: The protocol has the same handlers.
-/

namespace Yfs

namespace LockServer

variable {L : Type} [DecidableEq L]

/-- Between a grant of a lock and the next one, the client of the first has released
    it. -/
def Exclusive (handled : List (Event L)) : Prop :=
  ∀ lid x y pre mid post,
    handled = pre ++ .acquire lid x .ok :: (mid ++ .acquire lid y .ok :: post) →
    (∀ z, Event.acquire lid z .ok ∉ mid) → Event.release lid x ∈ mid

/-- A release comes from the owner, if there is one, and a lock without an owner is not
    asked for under the empty id. -/
def Orderly (s : Session L) : Request L → Prop
  | .acquire lid id _ => s.server.owner lid = none → id ≠ []
  | .release lid id _ => s.server.owner lid = none ∨ s.server.owner lid = some id

instance (s : Session L) : (r : Request L) → Decidable (Orderly s r)
  | .acquire lid id _ => inferInstanceAs (Decidable (s.server.owner lid = none → id ≠ []))
  | .release lid id _ =>
      inferInstanceAs (Decidable (s.server.owner lid = none ∨ s.server.owner lid = some id))

/-- The client of the last grant is the owner, unless it has released since. -/
def Charged (s : Session L) : Prop :=
  ∀ lid x pre mid, s.handled = pre ++ .acquire lid x .ok :: mid →
    (∀ z, Event.acquire lid z .ok ∉ mid) → Event.release lid x ∉ mid →
    s.server.owner lid = some x

/-! ## The handlers -/

/-- Writing an id for a lock makes it the owner, unless it is the empty one. -/
theorem owner_setWhere (s : LockServer L) (lid l : L) (id : Bytes) :
    (s.setWhere lid id).owner l
      = if l = lid then (some id).filter (· ≠ []) else s.owner l := by
  simp only [owner, setWhere, Function.update_apply]
  split <;> rfl

/-- A lock that nobody has is granted. -/
theorem acquire_free (s : LockServer L) (lid : L) (id : Bytes) (revoke : Callback)
    (h : s.owner lid = none) : s.acquire lid id revoke = (.ok, s.setWhere lid id) := by
  unfold acquire
  cases hw : s.whereIsLock lid with
  | none => rfl
  | some o =>
      simp only [owner, hw, Option.filter_some, ite_eq_right_iff, decide_eq_true_eq, ne_eq,
        reduceCtorEq, imp_false, not_not] at h
      simp only [h, if_true]

/-- For a lock that somebody has, the client is put into the list. -/
theorem acquire_owned (s : LockServer L) (lid : L) (id : Bytes) (revoke : Callback)
    (h : s.owner lid ≠ none) :
    s.acquire lid id revoke =
      (if (s.whoWaitingLock lid).isEmpty ∧ revoke ≠ .ok then .rpcerr else .retry,
        s.setWaiting lid (LockProtocol.Sys.enqueue (s.whoWaitingLock lid) id)) := by
  unfold acquire
  unfold owner at h
  cases hw : s.whereIsLock lid with
  | none =>
      rw [hw] at h
      exact absurd rfl h
  | some o =>
      -- An owner is an id that is not empty.
      have ho : o ≠ [] := by
        rintro rfl
        rw [hw] at h
        exact absurd rfl h
      simp only [if_neg ho]

/-- An `acquire` is granted when the lock has no owner, and only then. -/
theorem acquire_ok_iff (s : LockServer L) (lid : L) (id : Bytes) (revoke : Callback) :
    (s.acquire lid id revoke).1 = .ok ↔ s.owner lid = none := by
  by_cases h : s.owner lid = none
  · simp only [acquire_free s lid id revoke h, h]
  · simp only [acquire_owned s lid id revoke h, h, iff_false]
    split <;> simp only [reduceCtorEq, not_false_eq_true]

/-- Only a grant changes an owner. -/
theorem acquire_owner (s : LockServer L) (lid l : L) (id : Bytes) (revoke : Callback) :
    (s.acquire lid id revoke).2.owner l
      = if l = lid ∧ s.owner lid = none then (some id).filter (· ≠ []) else s.owner l := by
  by_cases h : s.owner lid = none
  · rw [acquire_free s lid id revoke h, owner_setWhere]
    simp only [h, and_true]
  · have hneg : ¬(l = lid ∧ s.owner lid = none) := fun hand => h hand.2
    rw [acquire_owned s lid id revoke h, if_neg hneg]
    rfl

/-- A `release` leaves the lock without an owner, whoever sends it: the id is not looked at. -/
theorem release_owner (s s' : LockServer L) (lid l : L) (id : Bytes) (retry : Callback)
    (h : s.release lid id retry = some s') :
    s'.owner l = if l = lid then none else s.owner l := by
  -- The lock is freed in every branch that returns, before the queue is looked at.
  have hwhere : s'.owner l = (s.setWhere lid []).owner l := by
    unfold release at h
    split at h
    · cases h
      rfl
    · split at h
      · cases h
      · cases h
        rfl
  rw [hwhere, owner_setWhere]
  rfl

/-! ## Histories -/

theorem step_acquire (s : Session L) (lid : L) (id : Bytes) (revoke : Callback) :
    s.step (.acquire lid id revoke) = some ⟨(s.server.acquire lid id revoke).2,
      s.handled ++ [.acquire lid id (s.server.acquire lid id revoke).1]⟩ := rfl

/-- A `release` that returns has gone through the server, and is the last event. -/
theorem step_release (s s' : Session L) (lid : L) (id : Bytes) (retry : Callback)
    (h : s.step (.release lid id retry) = some s') :
    s.server.release lid id retry = some s'.server ∧
      s'.handled = s.handled ++ [.release lid id] := by
  simp only [Session.step, Option.map_eq_some_iff] at h
  rcases h with ⟨server, hserver, rfl⟩
  exact ⟨hserver, rfl⟩

/-- A step keeps the last client in charge. It is the case of a `release` that needs the condition,
    since the server would take it from anybody. -/
theorem charged_step (s s' : Session L) (r : Request L) (hi : Charged s) (hok : Orderly s r)
    (h : s.step r = some s') : Charged s' := by
  intro lid x pre mid hsplit hnone hrel
  cases r with
  | acquire l id revoke =>
      rw [step_acquire, Option.some.injEq] at h
      subst h
      rw [acquire_owner]
      rcases History.concat_split hsplit with ⟨_, hlast, _⟩ | ⟨mid', rfl, hbefore⟩
      · -- The new event is the grant itself.
        rcases Event.acquire.inj hlast with ⟨rfl, rfl, hst⟩
        have hfree := (acquire_ok_iff s.server lid x revoke).mp hst.symm
        rw [if_pos ⟨rfl, hfree⟩, Option.filter_some, if_pos (decide_eq_true (hok hfree))]
      · -- The lock is still owned, so this request is not a grant of it.
        have hown := hi lid x pre mid' hbefore
          (fun z hz => hnone z (List.mem_append_left _ hz))
          (fun hz => hrel (List.mem_append_left _ hz))
        rw [if_neg]
        · exact hown
        · rintro ⟨rfl, hfree⟩
          rw [hown] at hfree
          exact absurd hfree (by simp only [reduceCtorEq, not_false_eq_true])
  | release l id retry =>
      rcases step_release s s' l id retry h with ⟨hserver, hhandled⟩
      rw [hhandled] at hsplit
      rw [release_owner s.server s'.server l lid id retry hserver]
      rcases History.concat_split hsplit with ⟨_, hlast, _⟩ | ⟨mid', rfl, hbefore⟩
      · cases hlast
      · have hown := hi lid x pre mid' hbefore
          (fun z hz => hnone z (List.mem_append_left _ hz))
          (fun hz => hrel (List.mem_append_left _ hz))
        rw [if_neg]
        · exact hown
        · -- A release of this lock would be the owner's own.
          rintro rfl
          simp only [Orderly, hown, reduceCtorEq, Option.some.injEq, false_or] at hok
          exact hrel (List.mem_append_right _ (List.mem_singleton.mpr (by rw [hok])))

/-- A grant finds the lock without an owner, so the client in charge has released. -/
theorem exclusive_step (s s' : Session L) (r : Request L) (hcharged : Charged s)
    (hi : Exclusive s.handled) (h : s.step r = some s') : Exclusive s'.handled := by
  intro lid x y pre mid post hsplit hnone
  -- Either the second grant is the new event, or both grants were there before.
  have hcases : ∀ e, s'.handled = s.handled ++ [e] → e ≠ .acquire lid y .ok →
      Event.release lid x ∈ mid := by
    intro e he hne
    rw [he, ← List.cons_append, ← List.append_assoc] at hsplit
    rcases History.concat_split hsplit with ⟨_, hlast, _⟩ | ⟨post', _, hbefore⟩
    · exact absurd hlast.symm hne
    · rw [List.append_assoc, List.cons_append] at hbefore
      exact hi lid x y pre mid post' hbefore hnone
  cases r with
  | acquire l id revoke =>
      rw [step_acquire, Option.some.injEq] at h
      subst h
      by_cases hgrant : (.acquire l id (s.server.acquire l id revoke).1 : Event L)
          = .acquire lid y .ok
      · rcases Event.acquire.inj hgrant with ⟨rfl, rfl, hst⟩
        have hfree := (acquire_ok_iff s.server l id revoke).mp hst
        simp only at hsplit
        rw [← List.cons_append, ← List.append_assoc] at hsplit
        rcases History.concat_split hsplit with ⟨hpre, _, _⟩ | ⟨post', _, hbefore⟩
        · -- A grant finds no owner, so the last client has released.
          by_contra hrel
          have hown := hcharged l x pre mid hpre.symm hnone hrel
          rw [hown] at hfree
          exact absurd hfree (by simp only [reduceCtorEq, not_false_eq_true])
        · rw [List.append_assoc, List.cons_append] at hbefore
          exact hi l x id pre mid post' hbefore hnone
      · exact hcases _ rfl hgrant
  | release l id retry =>
      exact hcases _ (step_release s s' l id retry h).2
        (by simp only [ne_eq, reduceCtorEq, not_false_eq_true])

/-- While only owners release and no grant goes to the empty id, a lock is released by the client it
    was granted to before it is granted again. The invariant says who is in charge after the last
    grant; `exclusive_step` reads the statement off it at each new grant. -/
theorem exclusive_of_orderly (s : Session L)
    (h : Trace.Reaches Session.step Orderly Session.new s) : Exclusive s.handled := by
  refine (Trace.invariant_of_step (fun s => Charged s ∧ Exclusive s.handled) ?_ ?_ h).2
  -- Nothing has been handled at the start.
  · constructor
    · intro lid x pre mid hsplit
      exact absurd hsplit (by simp [Session.new])
    · intro lid x y pre mid post hsplit
      exact absurd hsplit (by simp [Session.new])
  · rintro s r s' ⟨hcharged, hex⟩ hok hstep
    exact ⟨charged_step s s' r hcharged hok hstep, exclusive_step s s' r hcharged hex hstep⟩

/-- Two clients take the lock in turn. -/
def orderlyRequests : List (Request Nat) :=
  [.acquire 7 [97] .ok, .release 7 [97] .ok, .acquire 7 [98] .ok]

theorem exclusive_orderlyRequests :
    ∃ s : Session Nat, Trace.Reaches Session.step Orderly Session.new s ∧
      s.handled = [.acquire 7 [97] .ok, .release 7 [97], .acquire 7 [98] .ok] ∧
      Exclusive s.handled := by
  have hrun : Trace.Reaches Session.step (fun s r => decide (Orderly s r) = true) Session.new _ :=
    Trace.reaches_of_run orderlyRequests rfl
  have h := Trace.reaches_weaken (fun s r hr => of_decide_eq_true hr) hrun
  exact ⟨_, h, rfl, exclusive_of_orderly _ h⟩

/-- `a` has released the lock and `b` has it when a second release of `a` arrives; the
    lock is then granted to `c`, and `b` has not released it. -/
def staleRelease : List (Request Nat) :=
  [.acquire 7 [97] .ok, .release 7 [97] .ok, .acquire 7 [98] .ok, .release 7 [97] .ok,
    .acquire 7 [99] .ok]

/-- The server has no such check, so a stale release frees a lock that another client has. -/
theorem staleRelease_regrants :
    ∃ s : Session Nat, Trace.Reaches Session.step Trace.Always Session.new s ∧
      s.handled = [.acquire 7 [97] .ok, .release 7 [97], .acquire 7 [98] .ok, .release 7 [97],
        .acquire 7 [99] .ok] ∧ ¬Exclusive s.handled := by
  refine ⟨_, Trace.reaches_always_of_run staleRelease rfl, rfl, fun hex => ?_⟩
  -- Between the grants to `b` and to `c` there is only the release of `a`.
  have hmem := hex 7 [98] [99] [.acquire 7 [97] .ok, .release 7 [97]] [.release 7 [97]] [] rfl
    (by simp only [List.mem_singleton, reduceCtorEq, not_false_eq_true, implies_true])
  exact absurd hmem (by decide)

/-! ## The server of the protocol -/

section Protocol

open LockProtocol

variable {C T : Type} [DecidableEq C] [DecidableEq T]

/-- The server of a lock system whose clients have ids. -/
def ofSys (ident : C → Bytes) (s : Sys C T L) : LockServer L where
  whereIsLock := fun lid => (s.whereIsLock lid).map fun o => o.elim [] ident
  whoWaitingLock := fun lid => (s.whoWaitingLock lid).map ident

omit [DecidableEq L] [DecidableEq T] in
/-- Queueing an id is queueing the client. -/
theorem map_enqueue (ident : C → Bytes) (hinj : Function.Injective ident) (q : List C) (c : C) :
    (Sys.enqueue q c).map ident = Sys.enqueue (q.map ident) (ident c) := by
  unfold Sys.enqueue
  by_cases hc : c ∈ q
  · rw [if_pos hc, if_pos (List.mem_map_of_mem hc)]
  · rw [if_neg hc, if_neg fun hmem => hc ((List.mem_map_of_injective hinj).mp hmem),
      List.map_append, List.map_singleton]

omit [DecidableEq C] [DecidableEq T] in
theorem ofSys_setWhere (ident : C → Bytes) (s : Sys C T L) (lid : L) (o : Option C) :
    ofSys ident (s.setWhere lid o) = (ofSys ident s).setWhere lid (o.elim [] ident) := by
  ext1
  · funext l
    simp only [ofSys, Sys.setWhere, setWhere, Function.update_apply]
    split <;> rfl
  · rfl

omit [DecidableEq C] [DecidableEq T] in
theorem ofSys_setWaiting (ident : C → Bytes) (s : Sys C T L) (lid : L) (q : List C) :
    ofSys ident (s.setWaiting lid q) = (ofSys ident s).setWaiting lid (q.map ident) := by
  ext1
  · rfl
  · funext l
    simp only [ofSys, Sys.setWaiting, setWaiting, Function.update_apply]
    split <;> rfl

omit [DecidableEq C] [DecidableEq T] [DecidableEq L] in
/-- A client that owns a lock in the protocol owns it here, and only such a client. The ids are not
    empty, so none of them reads as nobody. -/
theorem ofSys_owner (ident : C → Bytes) (hne : ∀ c, ident c ≠ []) (s : Sys C T L) (lid : L) :
    (ofSys ident s).owner lid = (s.whereIsLock lid).join.map ident := by
  simp only [owner, ofSys]
  rcases s.whereIsLock lid with _ | _ | c
  · rfl
  · rfl
  · exact if_pos (decide_eq_true (hne c))

/-- The protocol's `acquire` handler is this one. It has the queue and the owner the same; what the
    caller is told is not part of the server. -/
theorem ofSys_serverAcquire (ident : C → Bytes) (hinj : Function.Injective ident)
    (hne : ∀ c, ident c ≠ []) (s : Sys C T L) (c : C) (i : ThreadId T) (lid : L)
    (revoke : Callback) :
    ofSys ident (s.serverAcquire c i lid)
      = ((ofSys ident s).acquire lid (ident c) revoke).2 := by
  have hown := ofSys_owner ident hne s lid
  -- The lock has never been granted, or it has been released, or somebody has it.
  rcases hw : s.whereIsLock lid with _ | _ | o
  all_goals
    rw [hw] at hown
    simp only [Sys.serverAcquire, hw]
  · rw [acquire_free _ _ _ _ hown]
    exact ofSys_setWhere ident s lid (some c)
  · rw [acquire_free _ _ _ _ hown]
    exact ofSys_setWhere ident s lid (some c)
  · rw [acquire_owned _ _ _ _ (by rw [hown]; exact Option.some_ne_none _)]
    simp only [ofSys, ← map_enqueue ident hinj]
    exact ofSys_setWaiting ident s lid _

/-- And so is its `release` handler, whoever calls it. -/
theorem ofSys_serverRelease (ident : C → Bytes) (s : Sys C T L) (c : C) (i : ThreadId T)
    (lid : L) (id : Bytes) :
    (ofSys ident s).release lid id .ok = some (ofSys ident (s.serverRelease c i lid)) := by
  have hwhere := ofSys_setWhere ident s lid none
  have hwaiting : (ofSys ident s).whoWaitingLock lid = (s.whoWaitingLock lid).map ident := rfl
  unfold release Sys.serverRelease
  cases hq : s.whoWaitingLock lid with
  | nil =>
      simp only [hwaiting, hq, List.map_nil]
      exact congrArg some hwhere.symm
  -- The first of the queue is told to retry and leaves the queue.
  | cons first rest =>
      simp only [hwaiting, hq, List.map_cons, reduceCtorEq, if_false]
      refine congrArg some ?_
      have hpop := ofSys_setWaiting ident (s.setWhere lid none) lid rest
      rw [hwhere] at hpop
      exact hpop.symm

end Protocol

end LockServer

end Yfs
