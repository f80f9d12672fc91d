import Yfs.Core.Cluster
import Yfs.Theory.Operations

/-!
# Serializability of the File System

Clients with write-back caches on one extent server give the results of a single server
without caches on which the operations are executed one after another.

Two steps lead there. The caches disappear first: as long as each extent is cached by the
owner of its lock alone (`Coherent`), every step of the clients is a step of programs on
the abstract store, or changes nothing there (`refines_step`). What a flush and a handover
move around is not visible in the store. The programs are two-phase, so the library's
`Serial.serializable` gives the order. At the other end the store is a server used
directly, with its own clock; the results differ at most in times.

An operation takes effect at its first release. Until it returns, its effects can be seen
by operations that have already returned. So the order is one of the completed operations
and of those that have begun to release; and the completed operations alone need not have
one (`completed_not_serial`).

## Main definitions

* `Coherent`: Extents are cached by owners.
* `SamePhase`, `Refines`: The clients and the programs on the store.
* `timeless`: A result without the times.

## Theorems

* `coherent_call`, `coherent_giveBack`, `coherent_grant`: What a step keeps.
* `refines_step`: A step of the clients is a step on the store, or none.
* `completed_serial`: The results are those of a serial run on the server.
* `completed_not_serial`: Why operations that are still releasing are part of it.
-/

namespace Yfs

namespace Cluster

open Txn Serial Extent

variable {C : Type} [DecidableEq C]

/-! ## Caches -/

/-- The store `f` that the clients stand for: an extent is as its lock's owner sees it,
    and as the server has it if the lock has no owner. -/
structure Coherent (f : Store) (s : Sys C) : Prop where
  synced : ∀ eid, Synced s.server eid
  sees : ∀ eid c, s.owner eid = some c → Sees (s.client c) s.server eid (f eid)
  free : ∀ eid, s.owner eid = none → s.server.contentMap eid = f eid
  uncached : ∀ eid c, s.owner eid ≠ some c → Uncached (s.client c) eid

omit [DecidableEq C] in
theorem coherent_init (now : UInt32) :
    Coherent (ExtentServer.new now).contentMap (Sys.init C now) :=
  ⟨ExtentServer.synced_new now, fun _ _ h => (by cases h), fun _ _ => rfl,
    fun _ _ _ => ⟨rfl, rfl, rfl⟩⟩

omit [DecidableEq C] in
/-- Only the caches, the server and the owners matter. -/
theorem Coherent.congr {f : Store} {s s' : Sys C} (h : Coherent f s)
    (hserver : s'.server = s.server) (hclient : s'.client = s.client)
    (howner : s'.owner = s.owner) : Coherent f s' := by
  constructor
  · rw [hserver]
    exact h.synced
  · rw [hserver, hclient, howner]
    exact h.sees
  · rw [hserver, howner]
    exact h.free
  · rw [hclient, howner]
    exact h.uncached

/-- A call by the owner of the lock is answered from the store. -/
theorem coherent_call {f : Store} {s : Sys C} (h : Coherent f s) (clock : Nat → UInt32) {c : C}
    {eid : Inum} (hown : s.owner eid = some c) (o : ExtentCall)
    (phase : C → Phase Inum ExtentCall ExtentCall.Answer Op Result) :
    let r := Cached.serve clock eid o ⟨s.client c, s.server, s.ticks⟩
    SameAnswer o r.1 (Store.act o (f eid)).1 ∧
      Coherent (serveAt Store.act eid o f).2 { s with
        server := r.2.server
        ticks := r.2.ticks
        client := Function.update s.client c r.2.client
        phase := phase } := by
  intro r
  have hself : SameAnswer o r.1 (Store.act o (f eid)).1 ∧
      Sees r.2.client r.2.server eid (Store.act o (f eid)).2 :=
    Cached.serve_sees clock o (h.sees eid c hown)
  have hserver : r.2.server.contentMap = s.server.contentMap ∧
      ∀ e, (r.2.server.attrMap e).map (·.size) = (s.server.attrMap e).map (·.size) :=
    Cached.serve_server clock eid o _
  have hother : ∀ e, e ≠ eid → (serveAt Store.act eid o f).2 e = f e :=
    fun e he => Function.update_of_ne he _ _
  refine ⟨hself.1, ?_, ?_, ?_, ?_⟩
  · intro e
    change (r.2.server.attrMap e).map (·.size) = (r.2.server.contentMap e).map sizeAttr
    rw [hserver.2, hserver.1]
    exact h.synced e
  · intro e c' hc'
    -- At the extent of the call the caller sees the new value; elsewhere all see the old.
    change s.owner e = some c' at hc'
    change Sees (Function.update s.client c r.2.client c') r.2.server e _
    by_cases he : e = eid
    · subst he
      rw [hown, Option.some.injEq] at hc'
      subst hc'
      simp only [serveAt, Function.update_self]
      exact hself.2
    · rw [hother e he]
      by_cases hcc : c' = c
      · subst hcc
        rw [Function.update_self]
        exact Cached.serve_sees_other clock he o (h.sees e c' hc')
      · rw [Function.update_of_ne hcc]
        exact (h.sees e c' hc').server_congr (congrFun hserver.1 e) (hserver.2 e)
  · intro e he
    change s.owner e = none at he
    change r.2.server.contentMap e = _
    rw [hserver.1, hother e (by rintro rfl; rw [hown] at he; cases he)]
    exact h.free e he
  · intro e c' hc'
    change s.owner e ≠ some c' at hc'
    change Uncached (Function.update s.client c r.2.client c') e
    by_cases hcc : c' = c
    · -- What is not the caller's is not what it called.
      subst hcc
      rw [Function.update_self]
      have he : e ≠ eid := by
        rintro rfl
        exact hc' hown
      exact (h.uncached e c' hc').congr
        (Cached.sameAt_serve clock he o ⟨s.client c', s.server, s.ticks⟩)
    · rw [Function.update_of_ne hcc]
      exact h.uncached e c' hc'

/-- A flush moves the value of an extent to the server. -/
theorem coherent_giveBack {f : Store} {s : Sys C} (h : Coherent f s) (now : UInt32) {c : C}
    {lid : Inum} (hown : s.owner lid = some c) (ticks : Nat) :
    let r := (s.client c).writeBack s.server now lid
    Coherent f { s with
      server := r.2
      ticks := ticks
      client := Function.update s.client c r.1
      owner := Function.update s.owner lid none } := by
  intro r
  -- What the owner stood for is now what the server has.
  have hcontent : r.2.contentMap = Function.update s.server.contentMap lid (f lid) :=
    writeBack_contentMap now (h.sees lid c hown)
  have hsame : ∀ e, e ≠ lid → ∀ c',
      SameAt (s.client c') (Function.update s.client c r.1 c') e := by
    intro e he c'
    by_cases hcc : c' = c
    · subst hcc
      rw [Function.update_self]
      exact sameAt_writeBack _ _ _ he
    · rw [Function.update_of_ne hcc]
      exact sameAt_refl _ _
  -- Only the lock's own extent moves: the server gets its value, and the cache forgets it.
  refine ⟨fun e => synced_writeBack now lid (h.synced e), ?_, ?_, ?_⟩
  · intro e c' hc'
    change Function.update s.owner lid none e = some c' at hc'
    by_cases he : e = lid
    · rw [he, Function.update_self] at hc'
      cases hc'
    · rw [Function.update_of_ne he] at hc'
      refine ((h.sees e c' hc').client_congr (hsame e he c')).server_congr ?_ ?_
      · rw [hcontent, Function.update_of_ne he]
      · rw [writeBack_size _ _ _ he]
  · intro e hnone
    change Function.update s.owner lid none e = none at hnone
    change r.2.contentMap e = f e
    rw [hcontent]
    by_cases he : e = lid
    · rw [he, Function.update_self]
    · rw [Function.update_of_ne he] at hnone ⊢
      exact h.free e hnone
  · intro e c' hc'
    change Function.update s.owner lid none e ≠ some c' at hc'
    change Uncached (Function.update s.client c r.1 c') e
    by_cases he : e = lid
    · subst he
      by_cases hcc : c' = c
      · subst hcc
        rw [Function.update_self]
        exact uncached_writeBack _ _ _ _
      · rw [Function.update_of_ne hcc]
        refine h.uncached e c' fun heq => ?_
        rw [hown, Option.some.injEq] at heq
        exact hcc heq.symm
    · rw [Function.update_of_ne he] at hc'
      exact (h.uncached e c' hc').congr (hsame e he c')

omit [DecidableEq C] in
theorem coherent_grant {f : Store} {s : Sys C} (h : Coherent f s) {lid : Inum}
    (hnone : s.owner lid = none) (c : C) :
    Coherent f { s with owner := Function.update s.owner lid (some c) } := by
  have huncached : ∀ c', Uncached (s.client c') lid := by
    intro c'
    refine h.uncached lid c' ?_
    rw [hnone]
    simp only [ne_eq, reduceCtorEq, not_false_eq_true]
  refine ⟨h.synced, ?_, ?_, ?_⟩
  · intro e c' hc'
    change Function.update s.owner lid (some c) e = some c' at hc'
    by_cases he : e = lid
    · subst he
      -- A new owner has nothing cached.
      rw [← h.free e hnone]
      exact Sees.of_uncached (h.synced e) (huncached c')
    · rw [Function.update_of_ne he] at hc'
      exact h.sees e c' hc'
  · intro e he'
    change Function.update s.owner lid (some c) e = none at he'
    by_cases he : e = lid
    · rw [he, Function.update_self] at he'
      cases he'
    · rw [Function.update_of_ne he] at he'
      exact h.free e he'
  · intro e c' hc'
    change Function.update s.owner lid (some c) e ≠ some c' at hc'
    by_cases he : e = lid
    · rw [he]
      exact huncached c'
    · rw [Function.update_of_ne he] at hc'
      exact h.uncached e c' hc'

/-! ## From the clients to the store -/

/-- A result without the times. -/
def timeless (x : Op × Result) : Op × Result :=
  (x.1, x.2.timeless)

/-- The same operation at the same point, up to the times that it has been answered. -/
inductive SamePhase (H : Set Inum) :
    Phase Inum ExtentCall ExtentCall.Answer Op Result →
      Phase Inum ExtentCall ExtentCall.Answer Op Result → Prop where
  | idle : SamePhase H .idle .idle
  | growing (op : Op) (p p' : Prog Result) (h : TwoPhase SameAnswer SameResult H p p') :
      SamePhase H (.running op p false) (.running op p' false)
  | leaving (op : Op) (p p' : Prog Result) (h : Releasing SameResult p p') :
      SamePhase H (.running op p true) (.running op p' true)

theorem SamePhase.mono {H H' : Set Inum}
    {ph ph' : Phase Inum ExtentCall ExtentCall.Answer Op Result} (hH : H ⊆ H')
    (h : SamePhase H ph ph') : SamePhase H' ph ph' := by
  cases h with
  | idle => exact SamePhase.idle
  | growing op p p' h => exact SamePhase.growing op p p' (h.mono hH)
  | leaving op p p' h => exact SamePhase.leaving op p p' h

/-- The programs on the store. -/
abbrev StoreSys (C : Type) :=
  Serial.Sys C Inum (Option Bytes) ExtentCall ExtentCall.Answer Op Result

structure Refines (s : Sys C) (t : StoreSys C) : Prop where
  coherent : Coherent t.store s
  holder : ∀ i, t.holder i = if s.held i then s.owner i else none
  owned : ∀ i, s.held i = true → s.owner i ≠ none
  phase : ∀ c, SamePhase {i | t.holder i = some c} (s.phase c) (t.phase c)
  completed : ∀ c, (s.completed c).map timeless = (t.completed c).map timeless

/-- A step of `c` that takes no lock from another client. -/
theorem samePhase_update {holder holder' : Inum → Option C}
    {ph ph' : C → Phase Inum ExtentCall ExtentCall.Answer Op Result}
    (h : ∀ c, SamePhase {i | holder i = some c} (ph c) (ph' c)) {c : C}
    (hkeep : ∀ c', c' ≠ c → ∀ i, holder i = some c' → holder' i = some c')
    {x y : Phase Inum ExtentCall ExtentCall.Answer Op Result}
    (hc : SamePhase {i | holder' i = some c} x y) (c' : C) :
    SamePhase {i | holder' i = some c'} (Function.update ph c x c')
      (Function.update ph' c y c') := by
  by_cases hcc : c' = c
  · subst hcc
    rw [Function.update_self, Function.update_self]
    exact hc
  · rw [Function.update_of_ne hcc, Function.update_of_ne hcc]
    exact (h c').mono (hkeep c' hcc)

omit [DecidableEq C] in
theorem refines_init (now : UInt32) :
    Refines (Sys.init C now) (Serial.Sys.init (ExtentServer.new now).contentMap) :=
  ⟨coherent_init now, fun _ => rfl, fun _ h => (by cases h), fun _ => SamePhase.idle,
    fun _ => rfl⟩

omit [DecidableEq C] in
/-- A lock that a program on the store has is the client's, and taken. -/
theorem Refines.owner_of_holder {s : Sys C} {t : StoreSys C} (h : Refines s t) {i : Inum} {c : C}
    (hi : t.holder i = some c) : s.owner i = some c ∧ s.held i = true := by
  rw [h.holder i] at hi
  split at hi
  · rename_i hheld
    exact ⟨hi, hheld⟩
  · cases hi

omit [DecidableEq C] in
/-- A lock that no thread has taken changes its owner: nothing happens on the store. -/
theorem Refines.update_owner {s s' : Sys C} {t : StoreSys C} (h : Refines s t) {lid : Inum}
    (hfree : ¬ s.held lid = true) {o : Option C} (hcoherent : Coherent t.store s')
    (howner : s'.owner = Function.update s.owner lid o) (hheld : s'.held = s.held)
    (hphase : s'.phase = s.phase) (hcompleted : s'.completed = s.completed) : Refines s' t := by
  refine ⟨hcoherent, ?_, ?_, ?_, ?_⟩
  · intro i
    rw [h.holder i, hheld, howner]
    by_cases hi : i = lid
    · rw [hi, if_neg hfree, if_neg hfree]
    · rw [Function.update_of_ne hi]
  · intro i hi
    rw [hheld] at hi
    have hil : i ≠ lid := by
      rintro rfl
      exact hfree hi
    rw [howner, Function.update_of_ne hil]
    exact h.owned i hi
  · rw [hphase]
    exact h.phase
  · rw [hcompleted]
    exact h.completed

theorem refines_acquire {s : Sys C} {t : StoreSys C} (h : Refines s t) {c : C} {lid : Inum}
    (hown : s.owner lid = some c) (hfree : t.holder lid = none) (op : Op) {p q : Prog Result}
    (hnext : TwoPhase SameAnswer SameResult (insert lid {i | t.holder i = some c}) p q) :
    Refines
      { s with
        held := Function.update s.held lid true
        phase := Function.update s.phase c (.running op p false) }
      { t with
        holder := Function.update t.holder lid (some c)
        phase := Function.update t.phase c (.running op q false) } := by
  refine ⟨h.coherent.congr rfl rfl rfl, ?_, ?_, ?_, h.completed⟩
  · intro i
    by_cases hi : i = lid
    · simp only [hi, Function.update_self, if_true, hown]
    · simp only [Function.update_of_ne hi]
      exact h.holder i
  · intro i hi
    by_cases hil : i = lid
    · simp only [hil, hown, ne_eq, reduceCtorEq, not_false_eq_true]
    · simp only [Function.update_of_ne hil] at hi
      exact h.owned i hi
  · -- Nobody had the lock, so no other client loses one.
    have hkeep : ∀ c' i, t.holder i = some c' →
        Function.update t.holder lid (some c) i = some c' := by
      intro c' i hi
      rw [Function.update_of_ne]
      · exact hi
      · rintro rfl
        rw [hfree] at hi
        cases hi
    refine samePhase_update h.phase (fun c' _ => hkeep c') (SamePhase.growing op p q ?_)
    exact hnext.mono (Set.insert_subset (Function.update_self _ _ _) (hkeep c))

theorem refines_call (clock : Nat → UInt32) {s : Sys C} {t : StoreSys C} (h : Refines s t) {c : C}
    {eid : Inum} (hi : t.holder eid = some c) (o : ExtentCall) (op : Op)
    {p q : o.Answer → Prog Result}
    (hnext : ∀ x y, SameAnswer o x y →
      TwoPhase SameAnswer SameResult {i | t.holder i = some c} (p x) (q y)) :
    let r := Cached.serve clock eid o ⟨s.client c, s.server, s.ticks⟩
    Refines
      { s with
        server := r.2.server
        ticks := r.2.ticks
        client := Function.update s.client c r.2.client
        phase := Function.update s.phase c (.running op (p r.1) false) }
      { t with
        store := (serveAt Store.act eid o t.store).2
        phase := Function.update t.phase c
          (.running op (q (Store.act o (t.store eid)).1) false) } := by
  intro r
  have hcall := coherent_call h.coherent clock (h.owner_of_holder hi).1 o
    (Function.update s.phase c (.running op (p r.1) false))
  refine ⟨hcall.2, h.holder, h.owned, ?_, h.completed⟩
  exact samePhase_update h.phase (fun _ _ _ hj => hj)
    (SamePhase.growing op _ _ (hnext _ _ hcall.1))

theorem refines_release {s : Sys C} {t : StoreSys C} (h : Refines s t) {c : C} {lid : Inum}
    (hi : t.holder lid = some c) (op : Op) {p q : Prog Result} (hnext : Releasing SameResult p q)
    (order : List (C × Op)) :
    Refines
      { s with
        held := Function.update s.held lid false
        phase := Function.update s.phase c (.running op p true) }
      { t with
        holder := Function.update t.holder lid none
        phase := Function.update t.phase c (.running op q true)
        order := order } := by
  refine ⟨h.coherent.congr rfl rfl rfl, ?_, ?_, ?_, h.completed⟩
  · intro i
    by_cases hil : i = lid
    · simp only [hil, Function.update_self, Bool.false_eq_true, if_false]
    · simp only [Function.update_of_ne hil]
      exact h.holder i
  · intro i hheld
    by_cases hil : i = lid
    · simp only [hil, Function.update_self, Bool.false_eq_true] at hheld
    · simp only [Function.update_of_ne hil] at hheld
      exact h.owned i hheld
  -- The lock was the client's own, so no other client loses one.
  · refine samePhase_update h.phase (fun c' hc' i hic => ?_) (SamePhase.leaving op p q hnext)
    change Function.update t.holder lid none i = some c'
    rw [Function.update_of_ne]
    · exact hic
    · rintro rfl
      rw [hi, Option.some.injEq] at hic
      exact hc' hic.symm

theorem refines_ret {s : Sys C} {t : StoreSys C} (h : Refines s t) (c : C) (op : Op)
    {r r' : Result} (hr : SameResult r r') (order : List (C × Op)) :
    Refines
      { s with
        phase := Function.update s.phase c .idle
        completed := Function.update s.completed c (s.completed c ++ [(op, r)]) }
      { t with
        phase := Function.update t.phase c .idle
        completed := Function.update t.completed c (t.completed c ++ [(op, r')])
        order := order } := by
  refine ⟨h.coherent.congr rfl rfl rfl, h.holder, h.owned,
    samePhase_update h.phase (fun _ _ _ hj => hj) SamePhase.idle, ?_⟩
  intro c'
  by_cases hc : c' = c
  · subst hc
    have hlast : timeless (op, r) = timeless (op, r') := congrArg (Prod.mk op) hr
    simp only [Function.update_self, List.map_append, List.map_cons, List.map_nil, hlast,
      h.completed c']
  · simp only [Function.update_of_ne hc]
    exact h.completed c'

variable (u : Uninit) (clock : Nat → UInt32)

/-- Before its first release and after it, a program gives a lock back in the same way. -/
theorem refines_exec_release {s s' : Sys C} {t : StoreSys C} (h : Refines s t) {c : C} {op : Op}
    {lid : Inum} {next next' : Prog Result} {releasing : Bool}
    (htc : t.phase c = .running op (.release lid next') releasing)
    (hnext : Releasing SameResult next next')
    (hs : s.exec clock c op releasing (.release lid next) = some s') :
    ∃ t', Serial.step Store.act (Op.prog u) t (.advance c) = some t' ∧ Refines s' t' := by
  simp only [Sys.exec] at hs
  split at hs
  · rename_i hlock
    cases hs
    have hheld : t.holder lid = some c := by
      rw [h.holder lid, hlock.2, if_pos rfl, hlock.1]
    -- The first release is where the operation takes its place in the order.
    exact ⟨_, by simp only [Serial.step, htc, Serial.Sys.exec, if_pos hheld]; rfl,
      refines_release h hheld op hnext _⟩
  · exact absurd hs (by simp only [reduceCtorEq, not_false_eq_true])

/-- A step of an operation is a step of its program on the store. -/
theorem refines_exec {s s' : Sys C} {t : StoreSys C} (h : Refines s t) {c : C} {op : Op}
    {p : Prog Result} {releasing : Bool} (hc : s.phase c = .running op p releasing)
    (hs : s.exec clock c op releasing p = some s') :
    ∃ t', Serial.step Store.act (Op.prog u) t (.advance c) = some t' ∧ Refines s' t' := by
  have hph := h.phase c
  rw [hc] at hph
  generalize htc : t.phase c = tc at hph
  -- The program on the store is at the same instruction.
  cases hph with
  | growing _ _ p' htwo =>
      cases htwo with
      | ret _ r r' hr =>
          cases hs
          exact ⟨_, by simp only [Serial.step, htc]; rfl, refines_ret h c op hr _⟩
      | acquire _ lid next next' hnext =>
          simp only [Sys.exec] at hs
          split at hs
          · rename_i hlock
            cases hs
            have hfree : t.holder lid = none := by
              rw [h.holder lid, hlock.2]
              rfl
            exact ⟨_, by simp only [Serial.step, htc, Serial.Sys.exec, if_pos hfree],
              refines_acquire h hlock.1 hfree op hnext⟩
          · exact absurd hs (by simp only [reduceCtorEq, not_false_eq_true])
      | release _ lid next next' hnext =>
          exact refines_exec_release u clock h htc hnext hs
      | call _ eid o next next' hi hnext =>
          cases hs
          exact ⟨_, by simp only [Serial.step, htc]; rfl, refines_call clock h hi o op hnext⟩
  | leaving _ _ p' hrel =>
      cases hrel with
      | ret r r' hr =>
          cases hs
          exact ⟨_, by simp only [Serial.step, htc]; rfl, refines_ret h c op hr _⟩
      | release lid next next' hnext =>
          exact refines_exec_release u clock h htc hnext hs

/-- The step of the programs on the store that a step of the clients stands for. What the
    lock service does stands for none. -/
def Action.onStore : Action C → Option (Serial.Action C Op)
  | .begin c op => some (.begin c op)
  | .advance c => some (.advance c)
  | .giveBack _ => none
  | .grant _ _ => none

/-- A step of the clients is a step of the programs on the store, or none at all. -/
theorem refines_step {s s' : Sys C} {t : StoreSys C} (h : Refines s t) (a : Action C)
    (hs : step u clock s a = some s') :
    a.onStore = none ∧ Refines s' t ∨ ∃ a' t', a.onStore = some a' ∧
      Serial.step Store.act (Op.prog u) t a' = some t' ∧ Refines s' t' := by
  cases a with
  | begin c op =>
      simp only [step] at hs
      split at hs
      · rename_i hidle
        cases hs
        have hph := h.phase c
        rw [hidle] at hph
        generalize htc : t.phase c = tc at hph
        cases hph
        refine Or.inr ⟨.begin c op, _, rfl, by simp only [Serial.step, htc]; rfl, ?_⟩
        refine ⟨h.coherent.congr rfl rfl rfl, h.holder, h.owned, ?_, h.completed⟩
        exact samePhase_update h.phase (fun _ _ _ hj => hj)
          (SamePhase.growing op _ _ (twoPhase_prog u op))
      · exact absurd hs (by simp only [reduceCtorEq, not_false_eq_true])
  | advance c =>
      simp only [step] at hs
      split at hs
      · exact absurd hs (by simp only [reduceCtorEq, not_false_eq_true])
      · rename_i op p releasing hc
        rcases refines_exec u clock h hc hs with ⟨t', ht', href⟩
        exact Or.inr ⟨.advance c, t', rfl, ht', href⟩
  -- The lock service moves locks that no thread has taken, and of these the store knows nothing.
  | giveBack lid =>
      simp only [step] at hs
      split at hs
      · exact absurd hs (by simp only [reduceCtorEq, not_false_eq_true])
      · rename_i c hown
        split at hs
        · exact absurd hs (by simp only [reduceCtorEq, not_false_eq_true])
        · rename_i hheld
          cases hs
          exact Or.inl ⟨rfl, h.update_owner hheld (coherent_giveBack h.coherent _ hown _) rfl rfl
            rfl rfl⟩
  | grant lid c =>
      simp only [step] at hs
      split at hs
      · rename_i hnone
        cases hs
        have hheld : ¬ s.held lid = true := fun hheld => h.owned lid hheld hnone
        exact Or.inl ⟨rfl,
          h.update_owner hheld (coherent_grant h.coherent hnone c) rfl rfl rfl rfl⟩
      · exact absurd hs (by simp only [reduceCtorEq, not_false_eq_true])

/-- Every run of the clients is matched by a run of the programs on the store. -/
theorem refines_run (now : UInt32) {s : Sys C}
    (h : Trace.Reaches (step u clock) Trace.Always (Sys.init C now) s) :
    ∃ t, Trace.Reaches (Serial.step Store.act (Op.prog u)) Trace.Always
      (Serial.Sys.init (ExtentServer.new now).contentMap) t ∧ Refines s t := by
  induction h with
  | init => exact ⟨_, Trace.Reaches.init, refines_init now⟩
  | step s a s' _ _ hs ih =>
      rcases ih with ⟨t, ht, href⟩
      rcases refines_step u clock href a hs with ⟨_, hsame⟩ | ⟨a', t', _, hstep, href'⟩
      · exact ⟨t, ht, hsame⟩
      · exact ⟨t', Trace.Reaches.step t a' t' ht trivial hstep, href'⟩

/-! ## From the store to a server without caches -/

theorem storeServe_eq : Store.serve = serveAt Store.act := by
  funext eid o f
  exact Store.serve_eq eid o f

omit [DecidableEq C] in
/-- Operations one after another on a server, and on the store that it holds. -/
theorem serial_timeless (order : List (C × Op)) {d : Direct} {f : Store} (hd : d.Holds f) :
    (serial (Op.prog u) (Direct.serve clock) order d).1.map (fun x => (x.1, timeless x.2))
      = (serial (Op.prog u) (serveAt Store.act) order f).1.map fun x => (x.1, timeless x.2) := by
  induction order generalizing d f with
  | nil => rfl
  | cons x rest ih =>
      -- The clocks differ, so the answers agree up to the times only; no operation depends on a
      -- time.
      rcases x with ⟨c, op⟩
      have hanswers := direct_answers clock
      rw [storeServe_eq] at hanswers
      rcases (twoPhase_prog (H := ∅) u op).run_related hanswers hd with ⟨hres, hnext⟩
      have hop : timeless (op, (op.prog u |>.run (Direct.serve clock) d).1)
          = timeless (op, (op.prog u |>.run (serveAt Store.act) f).1) :=
        congrArg (Prod.mk op) hres
      simp only [serial, List.map_cons, ih hnext, hop]

theorem SamePhase.committed_eq {H : Set Inum}
    {ph ph' : Phase Inum ExtentCall ExtentCall.Answer Op Result} (h : SamePhase H ph ph') :
    ph.committed.map timeless = ph'.committed.map timeless := by
  cases h with
  | idle => rfl
  | growing op p p' h => rfl
  | leaving op p p' h =>
      rcases h.outcome_eq with ⟨r, r', hr, hr', hres⟩
      have hop : timeless (op, r) = timeless (op, r') := congrArg (Prod.mk op) hres
      simp only [Phase.committed, hr, hr', Option.toList_some, List.map_cons, List.map_nil, hop]

/-- In every reachable state there is an order of the operations that have taken effect, those that
    have returned and those that have begun to release, such that a single server without caches
    gives each client, one operation after another, the results it has seen or is about to see. The
    results are compared without their times, which depend on when the server is asked.
    `completed_not_serial` shows that the operations that are about to return cannot be left out. -/
theorem completed_serial (clock' : Nat → UInt32) (now : UInt32) (s : Sys C)
    (h : Trace.Reaches (step u clock) Trace.Always (Sys.init C now) s) :
    ∃ order : List (C × Op), ∀ c,
      (resultsOf c (serial (Op.prog u) (Direct.serve clock') order
        ⟨ExtentServer.new now, 0⟩).1).map timeless
        = (s.completed c ++ (s.phase c).committed).map timeless := by
  rcases refines_run u clock now h with ⟨t, ht, href⟩
  have hprog : ∀ op, TwoPhase (fun _ => Eq) Eq ∅ (Op.prog u op) (Op.prog u op) :=
    fun op => (twoPhase_prog u op).right SameAnswer.refl
  have hnew : Direct.Holds ⟨ExtentServer.new now, 0⟩ (ExtentServer.new now).contentMap :=
    fun eid => ⟨ExtentServer.synced_new now eid, rfl⟩
  -- The order is that of the effects on the store.
  refine ⟨t.order, fun c => ?_⟩
  calc (resultsOf c (serial (Op.prog u) (Direct.serve clock') t.order _).1).map timeless
      = resultsOf c ((serial (Op.prog u) (Direct.serve clock') t.order _).1.map
          fun x => (x.1, timeless x.2)) := (resultsOf_map c timeless _).symm
    _ = resultsOf c ((serial (Op.prog u) (serveAt Store.act) t.order _).1.map
          fun x => (x.1, timeless x.2)) := by rw [serial_timeless u clock' t.order hnew]
    _ = (resultsOf c (serial (Op.prog u) (serveAt Store.act) t.order _).1).map timeless :=
        resultsOf_map c timeless _
    _ = (t.completed c ++ (t.phase c).committed).map timeless := by
        rw [Serial.serializable hprog _ ht c]
    _ = (s.completed c ++ (s.phase c).committed).map timeless := by
        rw [List.map_append, List.map_append, href.completed c, (href.phase c).committed_eq]

/-- One client creates a file and has released the file's lock, not yet the directory's.
    The lock passes to another client, whose `getfile` of the file returns. -/
def releasingRun : List (Action Bool) :=
  [.grant 1 false, .grant 0x80000000 false, .begin false (.create 1 [102] 0x80000000)]
    ++ List.replicate 8 (.advance false)
    ++ [.giveBack 0x80000000, .grant 0x80000000 true, .begin true (.getfile 0x80000000)]
    ++ List.replicate 4 (.advance true)

/-- In that run the file's creation comes first in the order. -/
theorem completed_serial_releasing :
    ∃ s, Trace.run (step ⟨0, 0⟩ fun _ => 0) (fun _ _ => true) (Sys.init Bool 0) releasingRun
        = some s ∧
      ∃ order : List (Bool × Op), ∀ c,
        (resultsOf c (serial (Op.prog ⟨0, 0⟩) (Direct.serve fun _ => 0) order
          ⟨ExtentServer.new 0, 0⟩).1).map timeless
          = (s.completed c ++ (s.phase c).committed).map timeless := by
  refine ⟨_, rfl, ?_⟩
  exact completed_serial ⟨0, 0⟩ (fun _ => 0) (fun _ => 0) 0 _
    (Trace.reaches_always_of_run releasingRun rfl)

/-- The operation that has returned has no order of its own: alone on a new server,
    `getfile` fails. -/
theorem completed_not_serial :
    ∃ s, Trace.run (step ⟨0, 0⟩ fun _ => 0) (fun _ _ => true) (Sys.init Bool 0) releasingRun
        = some s ∧
      ¬ ∃ order : List (Bool × Op), ∀ c,
        (resultsOf c (serial (Op.prog ⟨0, 0⟩) (Direct.serve fun _ => 0) order
          ⟨ExtentServer.new 0, 0⟩).1).map timeless = (s.completed c).map timeless := by
  have hrun : ∃ s, Trace.run (step ⟨0, 0⟩ fun _ => 0) (fun _ _ => true) (Sys.init Bool 0)
      releasingRun = some s ∧ s.completed false = [] ∧
        s.completed true = [(.getfile 0x80000000, .attr .ok (some ⟨0, 0, 0, 0⟩))] :=
    ⟨_, rfl, rfl, rfl⟩
  have halone : ((Op.prog ⟨0, 0⟩ (.getfile 0x80000000)).run (Direct.serve fun _ => 0)
      ⟨ExtentServer.new 0, 0⟩).1 = .attr .ioerr none := rfl
  rcases hrun with ⟨s, hs, hfalse, htrue⟩
  refine ⟨s, hs, ?_⟩
  rintro ⟨order, horder⟩
  have hfirst := horder false
  have hsecond := horder true
  rw [hfalse] at hfirst
  rw [htrue] at hsecond
  -- An order without operations gives no result, and the other client has returned nothing yet.
  cases order with
  | nil => cases hsecond
  | cons x rest =>
      rcases x with ⟨c, op⟩
      cases c with
      | false => simp [serial, resultsOf] at hfirst
      | true =>
          -- The first operation is the `getfile`, and the file does not exist.
          simp only [serial, resultsOf, List.filter_cons, decide_true, if_true, List.map_cons,
            List.cons.injEq] at hsecond
          have hop : op = .getfile 0x80000000 := congrArg Prod.fst hsecond.1
          subst hop
          rw [halone] at hsecond
          cases hsecond.1

end Cluster

end Yfs
