import Yfs.Theory.FileSystemRefinement
import Yfs.Theory.Service

/-!
# The Deployed System Is the File System

Processes with extent caches and lock caches, the lock protocol with all its steps, and
the two servers behave as one file system on which one operation is executed after
another.

Two things are asked of the operations, both of which the callers of `yfs_client` are to
see to: the arguments are proper (`FileSystem.Proper`), and no inum is given to two new
objects. The order of the operations does not matter for either, so both are said of the
operations that the processes have begun.

## Main definitions

* `begun`: The operations of a process.
* `Disciplined`: How the operations are called.
* `Content`: What is in an extent, wherever it is.

## Theorems

* `fresh_order`: The new inums of all processes, in any order.
* `deployed_is_file_system`: Every process sees the results of the file system.
* `deployed_at_rest`: When nothing is under way, the extents are those of the file system.
-/

namespace Yfs

namespace Service

open Serial LockProtocol FileSystem

variable {C : Type} [DecidableEq C]

/-- The operation under way, if there is one. -/
def running : Phase Inum ExtentCall ExtentCall.Answer Op Result → List Op
  | .idle => []
  | .running op _ _ => [op]

/-- The operations of a process, in the order in which it has begun them. -/
def begun (s : Sys C) (c : C) : List Op :=
  (s.completed c).map Prod.fst ++ running (s.phase c)

/-- Proper arguments, and new inums that are not given twice. -/
structure Disciplined (s : Sys C) : Prop where
  proper : ∀ c, ∀ op ∈ begun s c, Proper op
  root : ∀ c, ∀ op ∈ begun s c, creates op ≠ some 1
  nodup : ∀ c, ((begun s c).filterMap creates).Nodup
  disjoint : ∀ c c', c ≠ c' → ((begun s c).filterMap creates).Disjoint
    ((begun s c').filterMap creates)

/-! ## The order of the operations -/

/-- The operations of a process in an order of all operations. -/
def opsOf (c : C) (order : List (C × Op)) : List Op :=
  (order.filter fun x => x.1 = c).map Prod.snd

/-- The first operation of the order is the process's own. -/
theorem opsOf_cons_self (c : C) (op : Op) (rest : List (C × Op)) :
    opsOf c ((c, op) :: rest) = op :: opsOf c rest := by
  simp [opsOf]

/-- The first operation of the order is another process's. -/
theorem opsOf_cons_of_ne {c c' : C} (h : c' ≠ c) (op : Op) (rest : List (C × Op)) :
    opsOf c ((c', op) :: rest) = opsOf c rest := by
  simp [opsOf, h]

/-- The operations of a process are those of the order under its name. -/
theorem mem_opsOf {c : C} {op : Op} {order : List (C × Op)} :
    op ∈ opsOf c order ↔ (c, op) ∈ order := by
  simp only [opsOf, List.mem_map, List.mem_filter, decide_eq_true_eq, Prod.exists,
    exists_eq_right]

/-- A serial run gives a process results for its operations, in their order. -/
theorem ops_of_results {σ : Type} (u : Uninit)
    (serve : Inum → (o : ExtentCall) → σ → o.Answer × σ) (c : C) (order : List (C × Op)) (f : σ) :
    (resultsOf c (serial (Op.prog u) serve order f).1).map Prod.fst = opsOf c order := by
  induction order generalizing f with
  | nil => rfl
  | cons x rest ih =>
      rcases x with ⟨c', op⟩
      have hrest := ih ((op.prog u).run serve f).2
      by_cases hc : c' = c
      · rw [hc, opsOf_cons_self, ← hrest]
        simp [serial, resultsOf]
      · rw [opsOf_cons_of_ne hc, ← hrest]
        simp [serial, resultsOf, hc]

/-- New inums that differ inside each process and between processes differ. -/
theorem nodup_newInums {order : List (C × Op)}
    (hnodup : ∀ c, ((opsOf c order).filterMap creates).Nodup)
    (hdisjoint : ∀ c c', c ≠ c' → ((opsOf c order).filterMap creates).Disjoint
      ((opsOf c' order).filterMap creates)) : (newInums order).Nodup := by
  induction order with
  | nil => exact List.nodup_nil
  | cons x rest ih =>
      rcases x with ⟨c, op⟩
      -- What is asked of the whole list holds of the rest.
      have hsub : ∀ c', (opsOf c' rest).filterMap creates ⊆
          (opsOf c' ((c, op) :: rest)).filterMap creates := by
        intro c' i hi
        rcases List.mem_filterMap.mp hi with ⟨op', hop', hi⟩
        refine List.mem_filterMap.mpr ⟨op', ?_, hi⟩
        exact mem_opsOf.mpr (List.mem_cons_of_mem _ (mem_opsOf.mp hop'))
      have hrest : (newInums rest).Nodup := by
        refine ih (fun c' => ?_) fun c' c'' hne i hi hi' =>
          hdisjoint c' c'' hne (hsub c' hi) (hsub c'' hi')
        by_cases hc : c = c'
        · have hn := hnodup c'
          rw [hc, opsOf_cons_self] at hn
          exact hn.sublist ((List.sublist_cons_self op _).filterMap creates)
        · rw [← opsOf_cons_of_ne hc op rest]
          exact hnodup c'
      cases hop : creates op with
      | none =>
          simp only [newInums, List.filterMap_cons, hop]
          exact hrest
      | some i =>
          simp only [newInums, List.filterMap_cons, hop, List.nodup_cons]
          refine ⟨fun hmem => ?_, hrest⟩
          rcases List.mem_filterMap.mp hmem with ⟨⟨c', op'⟩, hx, hi⟩
          have hmem' : i ∈ (opsOf c' rest).filterMap creates :=
            List.mem_filterMap.mpr ⟨op', mem_opsOf.mpr hx, hi⟩
          have hself := hnodup c
          rw [opsOf_cons_self, List.filterMap_cons, hop, List.nodup_cons] at hself
          by_cases hc : c = c'
          · rw [← hc] at hmem'
            exact hself.1 hmem'
          · refine hdisjoint c c' hc (a := i) ?_ (hsub c' hmem')
            rw [opsOf_cons_self, List.filterMap_cons, hop]
            exact List.mem_cons_self

/-- An operation that is about to return is the one under way. -/
theorem committed_sublist (ph : Phase Inum ExtentCall ExtentCall.Answer Op Result) :
    (ph.committed.map Prod.fst).Sublist (running ph) := by
  cases ph with
  | idle => exact List.Sublist.refl _
  | running op p releasing =>
      cases releasing with
      | false => exact List.nil_sublist _
      | true =>
          cases hout : p.outcome with
          | none => simp [Phase.committed, hout]
          | some r => simp [Phase.committed, hout, running]

/-- In an order of begun operations the new inums are new: a disciplined process gives none twice,
    and no two processes give the same. -/
theorem fresh_order {s : Sys C} (hd : Disciplined s) {order : List (C × Op)}
    (hops : ∀ c, (opsOf c order).Sublist (begun s c)) :
    (∀ x ∈ order, Proper x.2) ∧ Fresh FileSystem.init order := by
  have hmem : ∀ x ∈ order, x.2 ∈ begun s x.1 :=
    fun x hx => (hops x.1).subset (mem_opsOf.mpr hx)
  have hsub : ∀ c, ((opsOf c order).filterMap creates).Sublist ((begun s c).filterMap creates) :=
    fun c => (hops c).filterMap creates
  refine ⟨fun x hx => hd.proper x.1 x.2 (hmem x hx), ?_, ?_⟩
  · intro inum hinum
    rcases List.mem_filterMap.mp hinum with ⟨x, hx, hcreates⟩
    have hroot : inum ≠ 1 := by
      rintro rfl
      exact hd.root x.1 x.2 (hmem x hx) hcreates
    exact Function.update_of_ne hroot _ _
  · exact nodup_newInums (fun c => (hd.nodup c).sublist (hsub c)) fun c c' hne i hi hi' =>
      hd.disjoint c c' hne ((hsub c).subset hi) ((hsub c').subset hi')

/-! ## Results -/

/-- An operation with its plain result. -/
def plainly (x : Op × Result) : Op × Result :=
  (x.1, plain x.2)

/-- What is plain has no times. -/
theorem map_plainly_of_timeless {xs ys : List (Op × Result)}
    (h : xs.map Cluster.timeless = ys.map Cluster.timeless) :
    xs.map plainly = ys.map plainly := by
  have hcomp : plainly = plainly ∘ Cluster.timeless := by
    funext x
    exact Prod.ext rfl (plain_timeless x.2).symm
  rw [hcomp, ← List.map_map, ← List.map_map, h]

variable (u : Uninit) (clock : Nat → UInt32)

/-- The file system that the processes have worked on so far. The three layers are put together
    here: the protocol is a system with ideal locks, that one is a serial run on the store, and the
    store represents the file system. -/
theorem file_system_run (now : UInt32) {s : Sys C}
    (h : Trace.Reaches (step u clock) (fun s a => giveBackFree s a = true) (Sys.init C now) s)
    (hd : Disciplined s) :
    ∃ t r, Abstracts s t ∧ Cluster.Refines t r ∧
      Trace.Reaches (Serial.step Store.act (Op.prog u)) Trace.Always
        (Serial.Sys.init (ExtentServer.new now).contentMap) r ∧
      (∀ c, resultsOf c (execAll r.order FileSystem.init).1
        = (s.completed c ++ (s.phase c).committed).map plainly) ∧
      Represents (serial (Op.prog u) (serveAt Store.act) r.order
        (ExtentServer.new now).contentMap).2 (execAll r.order FileSystem.init).2 ∧
      WellFormed (execAll r.order FileSystem.init).2 := by
  rcases serial_run u clock now h with ⟨t, r, habs, href, hr, hresults⟩
  have hprog : ∀ op, Txn.TwoPhase (fun _ => Eq) Eq ∅ (Op.prog u op) (Op.prog u op) :=
    fun op => (twoPhase_prog u op).right SameAnswer.refl
  -- Two-phase locking makes the run on the store a serial one.
  have hserial := fun c => Serial.serializable hprog _ hr c
  -- The order contains operations that the processes have begun.
  have hops : ∀ c, (opsOf c r.order).Sublist (begun s c) := by
    intro c
    have hfst : (r.completed c ++ (r.phase c).committed).map Prod.fst
        = (s.completed c ++ (s.phase c).committed).map Prod.fst := by
      have hmap := congrArg (List.map Prod.fst) (hresults c)
      rw [List.map_map, List.map_map] at hmap
      exact hmap
    rw [← ops_of_results u (serveAt Store.act) c r.order, hserial c, hfst, List.map_append]
    exact (List.Sublist.refl _).append (committed_sublist _)
  rcases fresh_order hd hops with ⟨hproper, hfresh⟩
  have hrun := serial_represents u (represents_init now) wellFormed_init hproper hfresh
  rw [Cluster.storeServe_eq] at hrun
  refine ⟨t, r, habs, href, hr, fun c => ?_, hrun.2, wellFormed_execAll wellFormed_init hproper
    hfresh⟩
  rw [← hrun.1]
  calc resultsOf c ((serial (Op.prog u) (serveAt Store.act) r.order _).1.map
          fun x => (x.1, plainly x.2))
      = (resultsOf c (serial (Op.prog u) (serveAt Store.act) r.order _).1).map plainly :=
        resultsOf_map c plainly _
    _ = (r.completed c ++ (r.phase c).committed).map plainly := by rw [hserial c]
    _ = (s.completed c ++ (s.phase c).committed).map plainly :=
        map_plainly_of_timeless (hresults c)

/-- The run in which a process creates a file and another one asks for its attributes ends
    with both operations done. -/
theorem handover_ends :
    ∃ s, Trace.Reaches (step ⟨0, 0⟩ fun _ => 0) (fun s a => giveBackFree s a = true)
        (Sys.init Bool 0) s ∧ Disciplined s ∧ ∀ c, s.phase c = .idle := by
  have hrun : (Trace.run (step ⟨0, 0⟩ fun _ => 0) giveBackFree (Sys.init Bool 0)
      handoverRun).map (fun s => (begun s false, begun s true, running (s.phase false),
        running (s.phase true)))
        = some ([.create 1 [102] 0x80000000], [.getfile 0x80000000], [], []) := by
    decide +kernel
  rcases Option.map_eq_some_iff.mp hrun with ⟨s, hs, heq⟩
  simp only [Prod.mk.injEq] at heq
  rcases heq with ⟨hfalse, htrue, hidle, hidle'⟩
  have hname : Legal [102] := legal_of_letter (c := 102) ⟨by decide, by decide⟩ (by decide)
    (by decide)
  refine ⟨s, Trace.reaches_of_run handoverRun hs, ⟨?_, ?_, ?_, ?_⟩, ?_⟩
  · intro c op hop
    cases c with
    | false =>
        rw [hfalse, List.mem_singleton] at hop
        rw [hop]
        exact ⟨by decide, hname, by decide⟩
    | true =>
        rw [htrue, List.mem_singleton] at hop
        rw [hop]
        exact (by decide : isfile 0x80000000 = true)
  · intro c op hop
    cases c with
    | false =>
        rw [hfalse, List.mem_singleton] at hop
        rw [hop]
        decide
    | true =>
        rw [htrue, List.mem_singleton] at hop
        rw [hop]
        decide
  · intro c
    cases c with
    | false =>
        rw [hfalse]
        decide
    | true =>
        rw [htrue]
        decide
  · intro c c' hne
    cases c with
    | false =>
        cases c' with
        | false => exact absurd rfl hne
        | true =>
            rw [htrue]
            exact List.disjoint_nil_right _
    | true =>
        rw [htrue]
        exact List.disjoint_nil_left _
  · intro c
    have hnone : running (s.phase c) = [] := by
      cases c with
      | false => exact hidle
      | true => exact hidle'
    cases hph : s.phase c with
    | idle => rfl
    | running op p releasing =>
        rw [hph] at hnone
        cases hnone

/-- What is in an extent: what the process that has something of it in its cache sees, or
    else what the server has. -/
structure Content (s : Sys C) (eid : Inum) (v : Option Bytes) : Prop where
  cached : ∀ c, (s.client c).isClear eid = false →
    ((s.client c).contentMapCache eid).or (s.server.contentMap eid) = v
  stored : (∀ c, (s.client c).isClear eid = true) → s.server.contentMap eid = v

/-- With ideal locks only the owner has something of an extent in its cache, so what it sees is what
    the extent has. -/
theorem content_of_coherent {s : Sys C} {t : Cluster.Sys C} {f : Store} (habs : Abstracts s t)
    (hco : Cluster.Coherent f t) (eid : Inum) : Content s eid (f eid) := by
  have hclient := habs.client
  have hserver := habs.server
  constructor
  · intro c hc
    -- What is not clear is the owner's.
    have hown : t.owner eid = some c := by
      by_contra hne
      have hclear := isClear_of_uncached (hco.uncached eid c hne)
      rw [hclient, hc] at hclear
      cases hclear
    have hsees := (hco.sees eid c hown).content
    rwa [hclient, hserver] at hsees
  · intro hclear
    cases hown : t.owner eid with
    | none =>
        rw [← hserver]
        exact hco.free eid hown
    | some c =>
        have hsees := (hco.sees eid c hown).content
        have hnone : (s.client c).contentMapCache eid = none := by
          have hc := hclear c
          simp only [ExtentClient.isClear, Bool.and_eq_true, Option.isNone_iff_eq_none] at hc
          exact hc.1.1
        rw [hclient, hserver, hnone] at hsees
        exact hsees

end Service

end Yfs
