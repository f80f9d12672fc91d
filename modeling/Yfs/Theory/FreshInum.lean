import Yfs.Core.Fuse
import Yfs.Library.Trace
import Yfs.Theory.Operations

/-!
# Fresh Inums

Whether a generated inum is new. `generate_inum` knows the numbers of its own process,
and neither the root's nor those of any other process.

As long as no value of `rand()` leads to one of those, every inum is new: each extent
that exists is the root's or belongs to an inum that some process has generated and is
done with (`Numbers.owned`), so an inum that is in no process's set names nothing. The
creation that follows then has an extent of its own, and empties no other.

Without that, two processes that draw the same number make one object of two, and the
second creation empties the first object (`inum_collides`).

## Main definitions

* `Reachable`: The objects found from the root by directory entries.
* `Fresh`, `KeepsContents`: What is to hold of a generated inum and of a creation.
* `CreationEffect`: What a creation can do to the extents.
* `NumbersApart`: The values of `rand()` that lead nowhere else.
* `Numbers`: The invariant.

## Theorems

* `generateInum_new`: What one process guarantees.
* `creation_effect`: It does one of these.
* `numbers_generate`, `numbers_perform`: One step keeps the invariant.
* `generated_fresh`: Every inum is new, in every run in which the numbers stay apart.
* `inum_collides`: A run in which they do not.
-/

namespace Yfs

namespace Fuse

open Txn

/-- The inums that the entries of reachable directories name. -/
inductive Reachable (uninit : Inum) (f : Store) : Inum → Prop where
  | root : Reachable uninit f 1
  | entry (d inum : Inum) (name entries : Bytes) (hd : Reachable uninit f d)
      (hdir : isdir d = true) (hf : f d = some entries)
      (he : (name, inum) ∈ readdirEntries uninit (split entries sep)) :
      Reachable uninit f inum

/-- Not the root, nor an existing file or directory. -/
def Fresh (uninit : Inum) (f : Store) (inum : Inum) : Prop :=
  inum ≠ 1 ∧ ¬ (Reachable uninit f inum ∧ (f inum).isSome = true)

/-- No extent with a content is emptied. -/
def KeepsContents (f f' : Store) : Prop :=
  ∀ eid buf, f eid = some buf → buf ≠ [] → ∃ buf', f' eid = some buf' ∧ buf' ≠ []

/-- No value drawn gives the root's inum, or one that another process has generated. -/
def NumbersApart {P : Type} (s : Sys P) : Action P → Prop
  | .generate p isfile rands =>
      ∀ r ∈ rands, candidate isfile r ≠ 1 ∧ ∀ q, q ≠ p → candidate isfile r ∉ s.inumSet q
  | .perform _ _ _ => True

theorem generateInum_new {isfile : Bool} {inumSet : Finset Inum} {rands rest : List Rand}
    {inum : Inum} (h : generateInum isfile inumSet rands = some (inum, rest)) :
    inum ∉ inumSet ∧ ∃ r ∈ rands, candidate isfile r = inum := by
  induction rands with
  | nil => exact absurd h (by simp only [generateInum, reduceCtorEq, not_false_eq_true])
  | cons r rs ih =>
      simp only [generateInum] at h
      -- A value that the set has is drawn again.
      split at h
      · rcases ih h with ⟨hnew, x, hx, hxe⟩
        exact ⟨hnew, x, List.mem_cons_of_mem r hx, hxe⟩
      · rename_i hr
        cases h
        exact ⟨hr, r, List.mem_cons_self, rfl⟩

/-- The extents are left alone, the new one is emptied, or an entry is added as well. -/
def CreationEffect (parent : Inum) (c : Creation) (f f' : Store) : Prop :=
  f' = f ∨ f' = Function.update f c.inum (some []) ∨
    ∃ entries, f parent = some entries ∧ c.inum ≠ parent ∧
      f' = f.withEntry parent entries c.name c.inum

theorem creation_effect (u : Uninit) (clock : Nat → UInt32) {d : Direct} {f : Store}
    (hd : d.Holds f) (parent : Inum) (c : Creation) {r : Result × Finset Inum × Direct}
    (h : ((c.op parent).prog u).runLocked (Direct.serve clock) ∅ d = some r) :
    ∃ f', r.2.2.Holds f' ∧ CreationEffect parent c f f' := by
  by_cases hne : c.inum = parent
  · -- Under the inum of its own directory a creation does not return.
    rw [creation_blocks u _ parent c hne] at h
    exact absurd h (by simp only [reduceCtorEq, not_false_eq_true])
  have hstore : ∃ r' f', ((c.op parent).prog u).runLocked Store.serve ∅ f = some (r', ∅, f') ∧
      CreationEffect parent c f f' := by
    cases hf : f parent with
    | none =>
        rcases creation_on_store_absent u hf c hne with ⟨r', hr'⟩
        exact ⟨r', _, hr', Or.inr (Or.inl rfl)⟩
    | some entries =>
        rcases creation_on_store u hf c hne with ⟨r', f', hr', hcase⟩
        refine ⟨r', f', hr', ?_⟩
        split at hcase
        · exact Or.inl hcase.2
        · exact Or.inr (Or.inr ⟨entries, hf, hne, hcase.2⟩)
  rcases hstore with ⟨r', f', hr', hcase⟩
  rcases (twoPhase_prog (H := ∅) u (c.op parent)).runLocked_of_some (direct_answers clock) hd hr'
    with ⟨r'', hr'', _, _, hholds⟩
  rw [h, Option.some.injEq] at hr''
  exact ⟨f', hr'' ▸ hholds, hcase⟩

theorem appendEntry_ne_nil (entries name : Bytes) (inum : Inum) :
    appendEntry entries name inum ≠ [] := by
  simp only [appendEntry, sep, ne_eq, List.append_eq_nil_iff, reduceCtorEq, and_false, false_and,
    not_false_eq_true]

/-- The effect of a creation under an inum that has no extent. -/
theorem keepsContents_of_effect {f f' : Store} {parent : Inum} {c : Creation}
    (hnew : f c.inum = none) (h : CreationEffect parent c f f') : KeepsContents f f' := by
  intro eid buf hbuf hne
  have heid : eid ≠ c.inum := by
    rintro rfl
    rw [hnew] at hbuf
    exact absurd hbuf (by simp only [reduceCtorEq, not_false_eq_true])
  rcases h with rfl | rfl | ⟨entries, _, _, rfl⟩
  · exact ⟨buf, hbuf, hne⟩
  · exact ⟨buf, by rw [Function.update_of_ne heid, hbuf], hne⟩
  -- The directory has an entry more, so it is not empty.
  · by_cases hp : eid = parent
    · subst hp
      exact ⟨_, Function.update_self _ _ _, appendEntry_ne_nil _ _ _⟩
    · exact ⟨buf, by rw [Store.withEntry, Function.update_of_ne hp, Function.update_of_ne heid,
        hbuf], hne⟩

/-- Only the new extent can come into being. -/
theorem isSome_of_effect {f f' : Store} {parent : Inum} {c : Creation}
    (h : CreationEffect parent c f f') {eid : Inum} (heid : (f' eid).isSome = true) :
    (f eid).isSome = true ∨ eid = c.inum := by
  by_cases hc : eid = c.inum
  · exact Or.inr hc
  · refine Or.inl ?_
    rcases h with rfl | rfl | ⟨entries, hparent, _, rfl⟩
    · exact heid
    · rwa [Function.update_of_ne hc] at heid
    · by_cases hp : eid = parent
      · rw [hp, hparent]
        rfl
      · rwa [Store.withEntry, Function.update_of_ne hp, Function.update_of_ne hc] at heid

section Invariant

variable {P : Type} [DecidableEq P] (u : Uninit) (clock : Nat → UInt32)

/-- Every extent is the root's, or belongs to an inum that one process has generated and
    is done with. -/
structure Numbers (s : Sys P) : Prop where
  holds : s.fs.Holds s.fs.server.contentMap
  owned : ∀ i, (s.fs.server.contentMap i).isSome = true →
    i = 1 ∨ ∃ p, i ∈ s.inumSet p ∧ ∀ k, s.pending p ≠ some (k, i)
  apart : ∀ p q i, i ∈ s.inumSet p → i ∈ s.inumSet q → p = q
  noRoot : ∀ p, 1 ∉ s.inumSet p
  pendingMem : ∀ p k i, s.pending p = some (k, i) → i ∈ s.inumSet p
  fresh : ∀ g ∈ s.generated, g.2 ≠ 1 ∧ g.1 g.2 = none
  kept : ∀ w ∈ s.performed, KeepsContents w.1 w.2

omit [DecidableEq P] in
theorem numbers_init (now : UInt32) : Numbers (Sys.init P now) where
  holds := fun eid => ⟨ExtentServer.synced_new now eid, rfl⟩
  owned := by
    intro i hi
    refine Or.inl ?_
    by_contra hne
    simp only [Sys.init, ExtentServer.new, Function.update_of_ne hne, Option.isSome_none,
      Bool.false_eq_true] at hi
  apart := fun _ _ _ h => absurd h (Finset.notMem_empty _)
  noRoot := fun _ => Finset.notMem_empty _
  pendingMem := fun _ _ _ h => by cases h
  fresh := fun _ h => absurd h List.not_mem_nil
  kept := fun _ h => absurd h List.not_mem_nil

omit [DecidableEq P] in
/-- An inum that is about to be used has no extent. -/
theorem Numbers.pending_new {s : Sys P} (hi : Numbers s) {p : P} {k : Bool} {i : Inum}
    (h : s.pending p = some (k, i)) : s.fs.server.contentMap i = none := by
  by_contra hne
  -- An extent is the root or has an inum that is done with.
  rcases hi.owned i (Option.isSome_iff_ne_none.mpr hne) with rfl | ⟨q, hq, hdone⟩
  · exact hi.noRoot p (hi.pendingMem p k 1 h)
  · rw [← hi.apart p q i (hi.pendingMem p k i h) hq] at hdone
    exact hdone k h

/-- An inum that no process has generated names nothing. -/
theorem numbers_generate {s : Sys P} (hi : Numbers s) {p : P} {isfile : Bool}
    {rands rest : List Rand} {inum : Inum} (hok : NumbersApart s (.generate p isfile rands))
    (hgen : generateInum isfile (s.inumSet p) rands = some (inum, rest)) :
    Numbers { s with
      inumSet := Function.update s.inumSet p (insert inum (s.inumSet p))
      pending := Function.update s.pending p (some (isfile, inum))
      generated := (s.fs.server.contentMap, inum) :: s.generated } := by
  rcases generateInum_new hgen with ⟨hown, r, hr, rfl⟩
  have hroot := (hok r hr).1
  -- The loop excludes the set of the process itself, the condition those of the others.
  have hnowhere : ∀ q, candidate isfile r ∉ s.inumSet q := by
    intro q
    by_cases hq : q = p
    · rw [hq]
      exact hown
    · exact (hok r hr).2 q hq
  have hmem : ∀ q i, i ∈ Function.update s.inumSet p (insert (candidate isfile r) (s.inumSet p)) q ↔
      i ∈ s.inumSet q ∨ q = p ∧ i = candidate isfile r := by
    intro q i
    by_cases hq : q = p
    · subst hq
      rw [Function.update_self, Finset.mem_insert]
      tauto
    · rw [Function.update_of_ne hq]
      tauto
  refine ⟨hi.holds, ?_, ?_, ?_, ?_, ?_, hi.kept⟩
  -- An extent that was done with stays so: the inum that is pending now has none.
  · intro i hsome
    rcases hi.owned i hsome with h1 | ⟨q, hq, hdone⟩
    · exact Or.inl h1
    · refine Or.inr ⟨q, (hmem q i).mpr (Or.inl hq), fun k => ?_⟩
      by_cases hqp : q = p
      · subst hqp
        simp only [Function.update_self, ne_eq, Option.some.injEq, Prod.mk.injEq, not_and]
        rintro _ rfl
        exact hown hq
      · simp only [Function.update_of_ne hqp]
        exact hdone k
  · intro q q' i hq hq'
    rcases (hmem q i).mp hq with hold | ⟨hqp, hnew⟩
    · rcases (hmem q' i).mp hq' with hold' | ⟨_, hnew'⟩
      · exact hi.apart q q' i hold hold'
      · exact absurd (hnew' ▸ hold) (hnowhere q)
    · rcases (hmem q' i).mp hq' with hold' | ⟨hqp', _⟩
      · exact absurd (hnew ▸ hold') (hnowhere q')
      · rw [hqp, hqp']
  · intro q hq
    rcases (hmem q 1).mp hq with hq | ⟨_, h1⟩
    · exact hi.noRoot q hq
    · exact hroot h1.symm
  · intro q k i hq
    refine (hmem q i).mpr ?_
    by_cases hqp : q = p
    · subst hqp
      simp only [Function.update_self, Option.some.injEq, Prod.mk.injEq] at hq
      exact Or.inr ⟨rfl, hq.2.symm⟩
    · simp only [Function.update_of_ne hqp] at hq
      exact Or.inl (hi.pendingMem q k i hq)
  -- At this moment the new inum has no extent, since every extent is somebody's.
  · intro g hg
    rcases List.mem_cons.mp hg with rfl | hg
    · refine ⟨hroot, ?_⟩
      by_contra hne
      rcases hi.owned _ (Option.isSome_iff_ne_none.mpr hne) with h1 | ⟨q, hq, _⟩
      · exact hroot h1
      · exact hnowhere q hq
    · exact hi.fresh g hg

/-- A creation under a pending inum brings only that extent into being. -/
theorem numbers_perform {s : Sys P} (hi : Numbers s) {p : P} {isfile : Bool} {inum : Inum}
    (hpend : s.pending p = some (isfile, inum)) (parent : Inum) (name : Bytes)
    {r : Result × Finset Inum × Direct}
    (hrun : ((Creation.op parent ⟨!isfile, name, inum⟩).prog u).runLocked (Direct.serve clock) ∅
      s.fs = some r) :
    Numbers { s with
      fs := r.2.2
      pending := Function.update s.pending p none
      performed := (s.fs.server.contentMap, r.2.2.server.contentMap) :: s.performed } := by
  rcases creation_effect u clock hi.holds parent _ hrun with ⟨f', hf', heffect⟩
  -- The server's content is determined by the store that it holds.
  have hcontent : r.2.2.server.contentMap = f' := funext fun eid => (hf' eid).2
  refine ⟨hcontent ▸ hf', ?_, hi.apart, hi.noRoot, ?_, hi.fresh, ?_⟩
  · intro i hsome
    rw [hcontent] at hsome
    rcases isSome_of_effect heffect hsome with hold | rfl
    · rcases hi.owned i hold with h1 | ⟨q, hq, hdone⟩
      · exact Or.inl h1
      · refine Or.inr ⟨q, hq, fun k => ?_⟩
        by_cases hqp : q = p
        · simp only [hqp, Function.update_self, ne_eq, reduceCtorEq, not_false_eq_true]
        · simp only [Function.update_of_ne hqp]
          exact hdone k
    · -- The new object: its process is done with the inum.
      refine Or.inr ⟨p, hi.pendingMem p isfile _ hpend, fun k => ?_⟩
      simp only [Function.update_self, ne_eq, reduceCtorEq, not_false_eq_true]
  · intro q k i hq
    by_cases hqp : q = p
    · simp only [hqp, Function.update_self, reduceCtorEq] at hq
    · simp only [Function.update_of_ne hqp] at hq
      exact hi.pendingMem q k i hq
  · intro w hw
    rcases List.mem_cons.mp hw with rfl | hw
    · simp only [hcontent]
      exact keepsContents_of_effect (hi.pending_new hpend) heffect
    · exact hi.kept w hw

theorem numbers_step (s : Sys P) (a : Action P) (s' : Sys P) (hi : Numbers s)
    (hok : NumbersApart s a) (h : step u clock s a = some s') : Numbers s' := by
  cases a with
  | generate p isfile rands =>
      simp only [step] at h
      split at h
      · rename_i inum _ hgen
        cases h
        exact numbers_generate hi hok hgen
      · exact absurd h (by simp only [reduceCtorEq, not_false_eq_true])
  | perform p parent name =>
      simp only [step] at h
      split at h
      · exact absurd h (by simp only [reduceCtorEq, not_false_eq_true])
      · rename_i isfile inum hpend
        rcases Option.map_eq_some_iff.mp h with ⟨r, hr, rfl⟩
        exact numbers_perform u clock hi hpend parent name hr

/-- While the numbers stay apart, every generated inum is new and no creation empties an extent. The
    condition is about the values of `rand()`: `generate_inum` compares them with what its own
    process has generated before, and with neither the root nor the inums of other processes.
    `inum_collides` is the run of two processes in which one empties the directory of the other. -/
theorem generated_fresh (now : UInt32) (s : Sys P)
    (h : Trace.Reaches (step u clock) NumbersApart (Sys.init P now) s) :
    (∀ g ∈ s.generated, Fresh u.finum g.1 g.2) ∧ ∀ w ∈ s.performed, KeepsContents w.1 w.2 := by
  have hi := Trace.invariant_of_step Numbers (numbers_init now) (numbers_step u clock) h
  refine ⟨fun g hg => ⟨(hi.fresh g hg).1, ?_⟩, hi.kept⟩
  rintro ⟨_, hsome⟩
  rw [(hi.fresh g hg).2] at hsome
  exact absurd hsome (by simp only [Option.isSome_none, Bool.false_eq_true, not_false_eq_true])

end Invariant

/-- One process makes a directory `d` in the root, under the inum 5. -/
theorem generated_fresh_mkdir :
    ∃ s : Sys Bool,
      Trace.Reaches (step ⟨0, 0⟩ fun _ => 0) NumbersApart (Sys.init Bool 0) s ∧
      s.generated.map Prod.snd = [5] ∧
      (∀ g ∈ s.generated, Fresh 0 g.1 g.2) ∧ ∀ w ∈ s.performed, KeepsContents w.1 w.2 := by
  have hgen : ∃ s₁, step ⟨0, 0⟩ (fun _ => 0) (Sys.init Bool 0) (.generate false false [5])
      = some s₁ ∧ ∃ s, step ⟨0, 0⟩ (fun _ => 0) s₁ (.perform false 1 [100]) = some s ∧
        s.generated.map Prod.snd = [5] := ⟨_, rfl, _, rfl, rfl⟩
  rcases hgen with ⟨s₁, h₁, s, h₂, hs⟩
  have hr : Trace.Reaches (step ⟨0, 0⟩ fun _ => 0) NumbersApart (Sys.init Bool 0) s := by
    have hperform : NumbersApart s₁ (.perform false 1 [100]) := True.intro
    refine Trace.Reaches.step s₁ _ s (Trace.Reaches.step _ _ s₁ Trace.Reaches.init ?_ h₁)
      hperform h₂
    intro r hr
    rw [List.mem_singleton.mp hr]
    exact ⟨by decide, fun _ _ => Finset.notMem_empty _⟩
  exact ⟨s, hr, hs, generated_fresh ⟨0, 0⟩ (fun _ => 0) 0 s hr⟩

/-- One process makes the directory 5 in the root and a file in it. Another, whose set
    does not have the 5, draws it too and makes a directory of its own. -/
def collidingRun : List (Action Bool) :=
  [.generate false false [5], .perform false 1 [100],
    .generate false true [0], .perform false 5 [102],
    .generate true false [5], .perform true 1 [101]]

/-- The inum of a reachable directory is generated again, and the directory is emptied. -/
theorem inum_collides :
    ∃ s, Trace.run (step ⟨0, 0⟩ fun _ => 0) (fun _ _ => true) (Sys.init Bool 0) collidingRun
        = some s ∧
      (∃ g ∈ s.generated, ¬ Fresh 0 g.1 g.2) ∧
      ∃ w ∈ s.performed, w.1 5 = some (filename 0x80000000 ++ sep ++ [102]) ∧ w.2 5 = some [] := by
  refine ⟨_, rfl, ⟨_, List.mem_cons_self, ?_⟩, ⟨_, List.mem_cons_self, ?_, ?_⟩⟩
  · rintro ⟨_, hnot⟩
    -- The directory 5 is an entry of the root when the 5 is drawn again.
    refine hnot ⟨Reachable.entry 1 5 [100] (filename 5 ++ sep ++ [100]) Reachable.root rfl ?_ ?_,
      ?_⟩
    · decide +kernel
    · decide +kernel
    · decide +kernel
  · decide +kernel
  · decide +kernel

end Fuse

end Yfs
