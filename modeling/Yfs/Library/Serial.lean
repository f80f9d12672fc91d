import Mathlib.Logic.Function.Basic
import Mathlib.Data.List.Basic
import Yfs.Library.Trace
import Yfs.Library.TwoPhase

/-!
# Serializability of Two-Phase Programs

Clients that run two-phase programs on shared objects, one program at a time each, and
why that is the same as running the programs one after another.

A program takes effect at its first release, or at its end if it releases nothing. The
system records the order in which programs take effect. Running them one after another
in that order gives a store `g`, which is compared with the objects as they are:

* an object that is not locked by a program in its first phase has its value in `g`;
* a program in its first phase is where it would be in a run alone, from any store that
  agrees with `g` on its locks. What it has not locked yet may still change, and it has
  not looked at it.

When the program takes effect, it is run alone from `g` in the second statement, and what
it leaves is what the first statement asks for. The only objects it has changed are
locked, so the other programs do not notice.

## Main definitions

* `Phase`, `Sys`, `Action`, `step`: Clients running programs.
* `serial`: Running programs one after another.
* `Phase.committed`: The result of a program that has taken effect and not returned.
* `Consistent`: The store and the serial run.

## Theorems

* `consistent_begin`, `consistent_acquire`, `consistent_call`, `consistent_commit`,
  `consistent_leave`: What each kind of step keeps.
* `serializable`: Every client's results are those of the serial run.
* `store_at_rest`: So are the objects, where no program is under way.
-/

namespace Yfs

namespace Serial

open Txn

/-- What a client is doing; `releasing` is set once a program has released a lock. -/
inductive Phase (I O : Type) (A : O → Type) (Q R : Type) where
  | idle
  | running (q : Q) (p : Txn I O A R) (releasing : Bool)

/-- Clients `C` running the programs of requests `Q` on objects with values `V`. -/
structure Sys (C I V O : Type) (A : O → Type) (Q R : Type) where
  store : I → V
  holder : I → Option C
  phase : C → Phase I O A Q R
  completed : C → List (Q × R)
  /-- The requests that have taken effect. -/
  order : List (C × Q)

inductive Action (C Q : Type) where
  | begin (c : C) (q : Q)
  | advance (c : C)

variable {C I V O Q R : Type} {A : O → Type}

/-- A call works on one object. -/
def serveAt [DecidableEq I] (act : (o : O) → V → A o × V) (i : I) (o : O) (f : I → V) :
    A o × (I → V) :=
  ((act o (f i)).1, Function.update f i (act o (f i)).2)

/-- The program of `q` has taken effect, if it has not before. -/
def Sys.commit (s : Sys C I V O A Q R) (c : C) (q : Q) (releasing : Bool) : List (C × Q) :=
  if releasing then s.order else s.order ++ [(c, q)]

section Step

variable [DecidableEq C] [DecidableEq I] (act : (o : O) → V → A o × V) (prog : Q → Txn I O A R)

/-- One step of a program. An acquire waits until nobody has the lock. -/
def Sys.exec (s : Sys C I V O A Q R) (c : C) (q : Q) (releasing : Bool) :
    Txn I O A R → Option (Sys C I V O A Q R)
  | .acquire i next =>
      if s.holder i = none then some { s with
        holder := Function.update s.holder i (some c)
        phase := Function.update s.phase c (.running q next releasing) }
      else none
  | .call i o next => some { s with
      store := (serveAt act i o s.store).2
      phase := Function.update s.phase c (.running q (next (act o (s.store i)).1) releasing) }
  | .release i next =>
      if s.holder i = some c then some { s with
        holder := Function.update s.holder i none
        phase := Function.update s.phase c (.running q next true)
        order := s.commit c q releasing }
      else none
  | .ret r => some { s with
      phase := Function.update s.phase c .idle
      completed := Function.update s.completed c (s.completed c ++ [(q, r)])
      order := s.commit c q releasing }

def step (s : Sys C I V O A Q R) : Action C Q → Option (Sys C I V O A Q R)
  | .begin c q => match s.phase c with
    | .idle => some { s with phase := Function.update s.phase c (.running q (prog q) false) }
    | .running _ _ _ => none
  | .advance c => match s.phase c with
    | .idle => none
    | .running q p releasing => s.exec act c q releasing p

end Step

def Sys.init (f₀ : I → V) : Sys C I V O A Q R where
  store := f₀
  holder := fun _ => none
  phase := fun _ => .idle
  completed := fun _ => []
  order := []

/-- The requests of `order` one after another, with their results. -/
def serial {σ : Type} (prog : Q → Txn I O A R) (serve : I → (o : O) → σ → A o × σ) :
    List (C × Q) → σ → List (C × Q × R) × σ
  | [], s => ([], s)
  | (c, q) :: rest, s =>
      let r := (prog q).run serve s
      let t := serial prog serve rest r.2
      ((c, q, r.1) :: t.1, t.2)

/-- One more request, at the end. -/
theorem serial_snoc {σ : Type} (prog : Q → Txn I O A R) (serve : I → (o : O) → σ → A o × σ)
    (order : List (C × Q)) (c : C) (q : Q) (s : σ) :
    serial prog serve (order ++ [(c, q)]) s
      = ((serial prog serve order s).1
          ++ [(c, q, ((prog q).run serve (serial prog serve order s).2).1)],
        ((prog q).run serve (serial prog serve order s).2).2) := by
  induction order generalizing s with
  | nil => rfl
  | cons x rest ih =>
      rcases x with ⟨c', q'⟩
      simp only [List.cons_append, serial, ih]

/-- The result of a program that has taken effect and not returned yet. -/
def Phase.committed : Phase I O A Q R → List (Q × R)
  | .running q p true => p.outcome.toList.map fun r => (q, r)
  | _ => []

section Consistent

variable [DecidableEq C] [DecidableEq I] (act : (o : O) → V → A o × V) (prog : Q → Txn I O A R)

/-- The objects that `c` has locked as they are, the others as in `σ`. -/
def overlay (holder : I → Option C) (c : C) (store σ : I → V) : I → V :=
  fun i => if holder i = some c then store i else σ i

/-- A program that has not taken effect. -/
def Phase.growing : Phase I O A Q R → Bool
  | .running _ _ false => true
  | _ => false

/-- What a client is doing, fitted to the store `g` of the serial run. -/
def Fits (g store : I → V) (holder : I → Option C) (c : C) : Phase I O A Q R → Prop
  | .idle => True
  -- Before its effect: from any store that agrees with `g` on the locks, the whole
  -- program ends as what is left of it ends.
  | .running q p false =>
      TwoPhase (fun _ => Eq) Eq {i | holder i = some c} p p ∧
        ∀ σ, (∀ i, holder i = some c → σ i = g i) →
          (prog q).run (serveAt act) σ = p.run (serveAt act) (overlay holder c store σ)
  -- After its effect: there are only releases left, and the result is decided.
  | .running _ p true => Releasing Eq p p

/-- How the objects, the locks and the programs fit `g`. -/
structure Consistent (g store : I → V) (holder : I → Option C)
    (phase : C → Phase I O A Q R) : Prop where
  off : ∀ i, (∀ c, holder i = some c → (phase c).growing = false) → store i = g i
  fits : ∀ c, Fits act prog g store holder c (phase c)

variable {act prog} {g g' store store' : I → V} {holder holder' : I → Option C}
  {phase : C → Phase I O A Q R} {c : C} {q : Q}

/-- Nothing is locked and nothing has run. -/
theorem consistent_init (f₀ : I → V) :
    Consistent act prog f₀ f₀ (fun _ => none) (fun _ : C => .idle) :=
  ⟨fun _ _ => rfl, fun _ => trivial⟩

/-- A client's program depends on the objects that the client has locked. -/
theorem Fits.congr {ph : Phase I O A Q R} (h : Fits act prog g store holder c ph)
    (hholder : ∀ i, holder' i = some c ↔ holder i = some c)
    (hsame : ∀ i, holder i = some c → store' i = store i ∧ g' i = g i) :
    Fits act prog g' store' holder' c ph := by
  cases ph with
  | idle => trivial
  | running q p releasing =>
      cases releasing with
      | true => exact h
      | false =>
          refine ⟨?_, fun σ hσ => ?_⟩
          · simp only [hholder]
            exact h.1
          · -- The overlay looks at the objects of the client, and those are the same.
            have hoverlay : overlay holder' c store' σ = overlay holder c store σ := by
              funext i
              unfold overlay
              by_cases hi : holder i = some c
              · rw [if_pos hi, if_pos ((hholder i).mpr hi), (hsame i hi).1]
              · rw [if_neg hi, if_neg (mt (hholder i).mp hi)]
            rw [hoverlay]
            refine h.2 σ fun i hi => ?_
            rw [hσ i ((hholder i).mpr hi), (hsame i hi).2]

/-- A step of `c` that leaves alone what the others have locked. -/
theorem Consistent.update (h : Consistent act prog g store holder phase)
    (ph : Phase I O A Q R)
    (hothers : ∀ c', c' ≠ c → ∀ i, (holder' i = some c' ↔ holder i = some c') ∧
      (holder i = some c' → store' i = store i ∧ g' i = g i))
    (hoff : ∀ i, holder' i = none ∨ holder' i = some c ∧ ph.growing = false → store' i = g' i)
    (hfits : Fits act prog g' store' holder' c ph) :
    Consistent act prog g' store' holder' (Function.update phase c ph) := by
  constructor
  · intro i hi
    -- An object may be ahead of `g'` only while its holder is in a first phase.
    cases hh : holder' i with
    | none => exact hoff i (Or.inl hh)
    | some c' =>
        have hgrow := hi c' hh
        by_cases hc : c' = c
        · subst hc
          rw [Function.update_self] at hgrow
          exact hoff i (Or.inr ⟨hh, hgrow⟩)
        · rw [Function.update_of_ne hc] at hgrow
          have hold := ((hothers c' hc i).1).mp hh
          have hsame := (hothers c' hc i).2 hold
          rw [hsame.1, hsame.2]
          refine h.off i fun c'' hc'' => ?_
          rw [hold, Option.some.injEq] at hc''
          rw [← hc'']
          exact hgrow
  · intro c'
    by_cases hc : c' = c
    · subst hc
      rw [Function.update_self]
      exact hfits
    · rw [Function.update_of_ne hc]
      exact (h.fits c').congr (fun i => (hothers c' hc i).1) fun i => (hothers c' hc i).2

/-- An object that nobody has locked is as in `g`. -/
theorem Consistent.off_free (h : Consistent act prog g store holder phase) {i : I}
    (hi : holder i = none) : store i = g i := by
  refine h.off i fun c hc => ?_
  rw [hi] at hc
  cases hc

/-- So is an object locked by a client that is not in a first phase. -/
theorem Consistent.off_held (h : Consistent act prog g store holder phase)
    (hc : (phase c).growing = false) {i : I} (hi : holder i = some c) : store i = g i := by
  refine h.off i fun c' hc' => ?_
  rw [hi, Option.some.injEq] at hc'
  rw [← hc']
  exact hc

/-- A program starts from where it would start alone. -/
theorem consistent_begin (h : Consistent act prog g store holder phase)
    (hidle : phase c = .idle) (hq : TwoPhase (fun _ => Eq) Eq ∅ (prog q) (prog q)) :
    Consistent act prog g store holder
      (Function.update phase c (.running q (prog q) false)) := by
  refine h.update _ (fun _ _ _ => ⟨Iff.rfl, fun _ => ⟨rfl, rfl⟩⟩) ?_ ?_
  · rintro i (hi | ⟨_, hg⟩)
    · exact h.off_free hi
    · cases hg
  · refine ⟨hq.mono (Set.empty_subset _), fun σ hσ => ?_⟩
    -- What the client has locked from earlier programs is as in `g`.
    have hsame : overlay holder c store σ = σ := by
      funext i
      unfold overlay
      split
      · rename_i hi
        rw [hσ i hi]
        exact h.off_held (by rw [hidle]; rfl) hi
      · rfl
    rw [hsame]

/-- A lock is taken. Its object is as in `g`, since nobody had the lock. -/
theorem consistent_acquire (h : Consistent act prog g store holder phase) {i : I}
    {next : Txn I O A R} (hc : phase c = .running q (.acquire i next) false)
    (hfree : holder i = none) :
    Consistent act prog g store (Function.update holder i (some c))
      (Function.update phase c (.running q next false)) := by
  have hold := h.fits c
  rw [hc] at hold
  rcases hold with ⟨htwo, halone⟩
  refine h.update _ (fun c' hc' j => ⟨?_, fun _ => ⟨rfl, rfl⟩⟩) ?_ ?_
  · by_cases hj : j = i
    · subst hj
      simp only [Function.update_self, hfree, reduceCtorEq, iff_false, Option.some.injEq]
      exact fun heq => hc' heq.symm
    · rw [Function.update_of_ne hj]
  · rintro j (hj | ⟨_, hg⟩)
    · by_cases hji : j = i
      · rw [hji, Function.update_self] at hj
        cases hj
      · rw [Function.update_of_ne hji] at hj
        exact h.off_free hj
    · cases hg
  · cases htwo with
    | acquire H i p q' hnext =>
        refine ⟨hnext.mono ?_, fun σ hσ => ?_⟩
        · intro j hj
          by_cases hji : j = i
          · rw [hji]
            exact Function.update_self _ _ _
          · change Function.update holder i (some c) j = some c
            rw [Function.update_of_ne hji]
            exact hj.resolve_left hji
        · -- The new lock's object is as in `g`, so as in `σ`.
          have hrun := halone σ fun j hj => hσ j (by
            by_cases hji : j = i
            · rw [hji, Function.update_self]
            · rw [Function.update_of_ne hji]
              exact hj)
          have hsame : overlay (Function.update holder i (some c)) c store σ
              = overlay holder c store σ := by
            funext j
            unfold overlay
            by_cases hji : j = i
            · subst hji
              rw [Function.update_self, if_pos rfl, hfree, if_neg (by simp only [reduceCtorEq,
                not_false_eq_true]), hσ j (Function.update_self _ _ _)]
              exact h.off_free hfree
            · rw [Function.update_of_ne hji]
          rw [hrun, hsame]
          rfl

/-- A call acts on the objects as it would in a run alone, since it is under the client's own
    lock. -/
theorem consistent_call (h : Consistent act prog g store holder phase) {i : I} {o : O}
    {next : A o → Txn I O A R} (hc : phase c = .running q (.call i o next) false) :
    Consistent act prog g (serveAt act i o store).2 holder
      (Function.update phase c (.running q (next (act o (store i)).1) false)) := by
  have hold := h.fits c
  rw [hc] at hold
  rcases hold with ⟨htwo, halone⟩
  cases htwo with
  | call H i o p q' hi hnext =>
      change holder i = some c at hi
      have hother : ∀ j, j ≠ i → (serveAt act i o store).2 j = store j :=
        fun j hj => Function.update_of_ne hj _ _
      refine h.update _ (fun c' hc' j => ⟨Iff.rfl, fun hj => ⟨hother j ?_, rfl⟩⟩) ?_ ?_
      · rintro rfl
        rw [hi, Option.some.injEq] at hj
        exact hc' hj.symm
      · rintro j (hj | ⟨_, hg⟩)
        · rw [hother j (by rintro rfl; rw [hi] at hj; cases hj)]
          exact h.off_free hj
        · cases hg
      · refine ⟨hnext _ _ rfl, fun σ hσ => ?_⟩
        -- The call reads and writes an object under the client's own lock.
        have hval : overlay holder c store σ i = store i := if_pos hi
        have hsame : Function.update (overlay holder c store σ) i (act o (store i)).2
            = overlay holder c (serveAt act i o store).2 σ := by
          funext j
          unfold overlay
          by_cases hji : j = i
          · subst hji
            simp only [Function.update_self, if_pos hi, serveAt]
          · rw [Function.update_of_ne hji, hother j hji]
        rw [halone σ hσ]
        simp only [run, serveAt, hval]
        rw [hsame]
        rfl

/-- Some locks of `c` are released, and no others. -/
def Released (c : C) (holder holder' : I → Option C) : Prop :=
  ∀ i, holder' i = holder i ∨ holder i = some c ∧ holder' i = none

omit [DecidableEq C] [DecidableEq I] in
theorem released_refl : Released c holder holder :=
  fun _ => Or.inl rfl

omit [DecidableEq C] in
theorem released_update {i : I} (hi : holder i = some c) :
    Released c holder (Function.update holder i none) := by
  intro j
  by_cases hj : j = i
  · subst hj
    exact Or.inr ⟨hi, Function.update_self _ _ _⟩
  · exact Or.inl (Function.update_of_ne hj _ _)

omit [DecidableEq C] [DecidableEq I] in
theorem Released.others (h : Released c holder holder') {c' : C} (hc : c' ≠ c) (i : I) :
    holder' i = some c' ↔ holder i = some c' := by
  rcases h i with heq | ⟨hi, hi'⟩
  · rw [heq]
  · rw [hi, hi', Option.some.injEq]
    exact ⟨fun hn => (by cases hn), fun heq => absurd heq.symm hc⟩

omit [DecidableEq C] [DecidableEq I] in
/-- What is free or the client's own afterwards was so before. -/
theorem Released.free_or_own (h : Released c holder holder') {i : I}
    (hi : holder' i = none ∨ holder' i = some c) : holder i = none ∨ holder i = some c := by
  rcases h i with heq | ⟨hi', _⟩
  · rw [← heq]
    exact hi
  · exact Or.inr hi'

/-- A program takes effect: its result and the store it leaves are those of running it
    alone from `g`. -/
theorem run_of_commit (h : Consistent act prog g store holder phase) {p : Txn I O A R} {r : R}
    (hc : phase c = .running q p false) (hp : p.outcome = some r) :
    (prog q).run (serveAt act) g = (r, overlay holder c store g) := by
  have hold := h.fits c
  rw [hc] at hold
  rw [hold.2 g fun _ _ => rfl, run_of_outcome hp]

/-- The store of the serial run moves on to what the program leaves. What the others have locked is
    not part of that. -/
theorem consistent_commit (h : Consistent act prog g store holder phase)
    {ph : Phase I O A Q R} (hfits : ∀ g holder, Fits act prog g store holder c ph)
    (hrel : Released c holder holder') :
    Consistent act prog (overlay holder c store g) store holder' (Function.update phase c ph) := by
  refine h.update ph (fun c' hc' i => ⟨hrel.others hc' i, fun hi => ⟨rfl, if_neg ?_⟩⟩) ?_
    (hfits _ _)
  · rw [hi, Option.some.injEq]
    exact hc'
  · intro i hi
    -- The new serial store has the store at the objects of the client, and has not moved
    -- elsewhere.
    unfold overlay
    split
    · rfl
    · rename_i hne
      rcases hrel.free_or_own (hi.imp_right And.left) with hfree | hown
      · exact h.off_free hfree
      · exact absurd hown hne

/-- A program that has taken effect releases a lock or returns. -/
theorem consistent_leave (h : Consistent act prog g store holder phase)
    {ph : Phase I O A Q R} (hc : (phase c).growing = false)
    (hfits : Fits act prog g store holder' c ph) (hrel : Released c holder holder') :
    Consistent act prog g store holder' (Function.update phase c ph) := by
  refine h.update ph (fun c' hc' i => ⟨hrel.others hc' i, fun _ => ⟨rfl, rfl⟩⟩) ?_ hfits
  intro i hi
  rcases hrel.free_or_own (hi.imp_right And.left) with hfree | hown
  · exact h.off_free hfree
  · exact h.off_held hc hown

end Consistent

section Main

variable [DecidableEq C] [DecidableEq I] (act : (o : O) → V → A o × V) (prog : Q → Txn I O A R)

/-- The results of a client in a serial run. -/
def resultsOf (c : C) (history : List (C × Q × R)) : List (Q × R) :=
  (history.filter fun x => x.1 = c).map Prod.snd

omit [DecidableEq I] in
/-- One more result in the history, for one client. -/
theorem resultsOf_snoc (c c' : C) (q : Q) (r : R) (history : List (C × Q × R)) :
    resultsOf c (history ++ [(c', q, r)])
      = resultsOf c history ++ if c' = c then [(q, r)] else [] := by
  simp only [resultsOf, List.filter_append, List.map_append]
  by_cases h : c' = c
  · simp [h]
  · simp [h]

omit [DecidableEq I] in
theorem resultsOf_map {Q' R' : Type} (c : C) (e : Q × R → Q' × R') (history : List (C × Q × R)) :
    resultsOf c (history.map fun x => (x.1, e x.2)) = (resultsOf c history).map e := by
  simp only [resultsOf, List.filter_map, List.map_map, Function.comp_def]

/-- The store fits the serial run, and each client's results are those it has seen. -/
structure Inv (f₀ : I → V) (s : Sys C I V O A Q R) : Prop where
  consistent : Consistent act prog (serial prog (serveAt act) s.order f₀).2 s.store s.holder
    s.phase
  results : ∀ c, resultsOf c (serial prog (serveAt act) s.order f₀).1
    = s.completed c ++ (s.phase c).committed

variable {act prog}

omit [DecidableEq I] in
/-- A step that is not an effect keeps the results. -/
theorem results_update {history : List (C × Q × R)} {completed : C → List (Q × R)}
    {phase : C → Phase I O A Q R}
    (h : ∀ c, resultsOf c history = completed c ++ (phase c).committed)
    {c : C} {ph : Phase I O A Q R} (hph : ph.committed = (phase c).committed) (c' : C) :
    resultsOf c' history = completed c' ++ (Function.update phase c ph c').committed := by
  by_cases hc : c' = c
  · subst hc
    rw [Function.update_self, hph]
    exact h c'
  · rw [Function.update_of_ne hc]
    exact h c'

/-- A program takes effect with result `r`. -/
theorem results_commit {f₀ : I → V} {s : Sys C I V O A Q R} (hi : Inv act prog f₀ s) {c : C}
    {q : Q} {p : Txn I O A R} (hc : s.phase c = .running q p false) {r : R}
    (hp : p.outcome = some r) (c' : C) :
    resultsOf c' (serial prog (serveAt act) (s.order ++ [(c, q)]) f₀).1
      = s.completed c' ++ if c' = c then [(q, r)] else (s.phase c').committed := by
  rw [serial_snoc, run_of_commit hi.consistent hc hp, resultsOf_snoc, hi.results c']
  by_cases h : c' = c
  · subst h
    rw [if_pos rfl, if_pos rfl, hc, Phase.committed, List.append_nil]
    exact fun _ _ h => by cases h
  · rw [if_neg h, if_neg (Ne.symm h), List.append_nil]

/-- Each instruction keeps the invariant. Before the first release it moves a program on; at the
    first release, or at a return without one, the serial run moves on; and from then on it changes
    no object. -/
theorem inv_exec {f₀ : I → V} {s s' : Sys C I V O A Q R} (hi : Inv act prog f₀ s) {c : C}
    {q : Q} {p : Txn I O A R} {releasing : Bool} (hc : s.phase c = .running q p releasing)
    (h : s.exec act c q releasing p = some s') : Inv act prog f₀ s' := by
  have hfits := hi.consistent.fits c
  rw [hc] at hfits
  cases p with
  | acquire i next =>
      simp only [Sys.exec] at h
      split at h
      · rename_i hfree
        cases h
        cases releasing with
        -- After a release there is no acquire.
        | true => cases hfits
        | false =>
            refine ⟨consistent_acquire hi.consistent hc hfree, results_update hi.results ?_⟩
            rw [hc]
            rfl
      · exact absurd h (by simp only [reduceCtorEq, not_false_eq_true])
  | call i o next =>
      cases h
      cases releasing with
      -- Nor is there a call.
      | true => cases hfits
      | false =>
          refine ⟨consistent_call hi.consistent hc, results_update hi.results ?_⟩
          rw [hc]
          rfl
  | release i next =>
      simp only [Sys.exec] at h
      split at h
      · rename_i hheld
        cases h
        cases releasing with
        | true =>
            have hnext : Releasing Eq next next := by
              cases hfits with
              | release _ _ _ hnext => exact hnext
            refine ⟨consistent_leave hi.consistent (by rw [hc]; rfl) hnext
              (released_update hheld), results_update hi.results ?_⟩
            rw [hc]
            rfl
        | false =>
            have hnext : Releasing Eq next next := by
              cases hfits.1 with
              | release _ _ _ _ hnext => exact hnext
            rcases hnext.outcome_eq with ⟨r, _, hr, _, _⟩
            -- The first release is where the program takes effect.
            have hrun := run_of_commit hi.consistent hc (p := .release i next) hr
            constructor
            · simp only [Sys.commit, Bool.false_eq_true, if_false, serial_snoc, hrun]
              exact consistent_commit hi.consistent (fun _ _ => hnext) (released_update hheld)
            · intro c'
              simp only [Sys.commit, Bool.false_eq_true, if_false]
              rw [results_commit hi hc (p := .release i next) hr]
              by_cases hcc : c' = c
              · subst hcc
                simp only [if_true, Function.update_self, Phase.committed, hr, Option.toList_some,
                  List.map_cons, List.map_nil]
              · rw [if_neg hcc, Function.update_of_ne hcc]
      · exact absurd h (by simp only [reduceCtorEq, not_false_eq_true])
  | ret r =>
      cases h
      cases releasing with
      | true =>
          refine ⟨consistent_leave hi.consistent (by rw [hc]; rfl) trivial released_refl, ?_⟩
          intro c'
          -- The effect came with the first release; now the result is seen.
          simp only [Sys.commit, if_true]
          rw [hi.results c']
          by_cases hcc : c' = c
          · subst hcc
            rw [Function.update_self, Function.update_self, hc]
            simp only [Phase.committed, outcome, Option.toList_some, List.map_cons, List.map_nil,
              List.append_nil]
          · rw [Function.update_of_ne hcc, Function.update_of_ne hcc]
      | false =>
          -- Without any release the program takes effect when it returns.
          have hrun := run_of_commit hi.consistent hc (p := .ret r) rfl
          constructor
          · simp only [Sys.commit, Bool.false_eq_true, if_false, serial_snoc, hrun]
            exact consistent_commit hi.consistent (fun _ _ => trivial) released_refl
          · intro c'
            simp only [Sys.commit, Bool.false_eq_true, if_false]
            rw [results_commit hi hc (p := .ret r) rfl]
            by_cases hcc : c' = c
            · subst hcc
              simp only [if_true, Function.update_self, Phase.committed, List.append_nil]
            · rw [if_neg hcc, Function.update_of_ne hcc, Function.update_of_ne hcc]

/-- And so does the start of a program that is two-phase. -/
theorem inv_step (hprog : ∀ q, TwoPhase (fun _ => Eq) Eq ∅ (prog q) (prog q)) (f₀ : I → V)
    (s : Sys C I V O A Q R) (a : Action C Q) (s' : Sys C I V O A Q R) (hi : Inv act prog f₀ s)
    (h : step act prog s a = some s') : Inv act prog f₀ s' := by
  cases a with
  | begin c q =>
      simp only [step] at h
      split at h
      · rename_i hidle
        cases h
        refine ⟨consistent_begin hi.consistent hidle (hprog q), results_update hi.results ?_⟩
        rw [hidle]
        rfl
      · exact absurd h (by simp only [reduceCtorEq, not_false_eq_true])
  | advance c =>
      simp only [step] at h
      split at h
      · exact absurd h (by simp only [reduceCtorEq, not_false_eq_true])
      · rename_i q p releasing hc
        exact inv_exec hi hc h

/-- In every reachable state, the results that the clients have seen, or will see of
    programs that have taken effect, are those of running the programs one after another
    in the order in which they took effect. -/
theorem serializable (hprog : ∀ q, TwoPhase (fun _ => Eq) Eq ∅ (prog q) (prog q)) (f₀ : I → V)
    {s : Sys C I V O A Q R} (h : Trace.Reaches (step act prog) Trace.Always (Sys.init f₀) s)
    (c : C) :
    resultsOf c (serial prog (serveAt act) s.order f₀).1
      = s.completed c ++ (s.phase c).committed := by
  have hi : Inv act prog f₀ s := by
    refine Trace.invariant_of_step _ ⟨consistent_init f₀, fun _ => rfl⟩ ?_ h
    exact fun s a s' hi _ hs => inv_step hprog f₀ s a s' hi hs
  exact hi.results c

/-- Where no program is in its first phase, the objects are as the serial run leaves them. -/
theorem store_at_rest (hprog : ∀ q, TwoPhase (fun _ => Eq) Eq ∅ (prog q) (prog q)) (f₀ : I → V)
    {s : Sys C I V O A Q R} (h : Trace.Reaches (step act prog) Trace.Always (Sys.init f₀) s)
    (hrest : ∀ c, (s.phase c).growing = false) :
    s.store = (serial prog (serveAt act) s.order f₀).2 := by
  have hi : Inv act prog f₀ s := by
    refine Trace.invariant_of_step _ ⟨consistent_init f₀, fun _ => rfl⟩ ?_ h
    exact fun s a s' hi _ hs => inv_step hprog f₀ s a s' hi hs
  funext i
  exact hi.consistent.off i fun c _ => hrest c

end Main

end Serial

end Yfs
