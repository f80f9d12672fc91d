import Mathlib.Data.List.Infix

/-!
# Splitting at a Separator

A scan for a separator from left to right: it takes the leftmost match, goes on behind it,
and so on. What lies between the matches are the tokens. What follows the last match is one
more if it is not empty.

A separator may overlap itself, so that it can stand at the end of the list and still not
be a match of the scan: the scan has gone past its start. `EndsInMatch` is therefore about
the scan and not about the end of the list.

Nothing is lost but one separator. The tokens do not tell whether the scan has a match at
the very end, and apart from that they determine the list (`Tokenises.join`).

## Main definitions

* `OccursAt`, `Leftmost`: Where a separator stands.
* `EndsInMatch`: The last match of the scan ends the list.
* `Tokenises`: A list and its tokens.

## Theorems

* `exists_occursAt`: A separator in a list stands somewhere.
* `endsInMatch_iff`: The first match apart.
* `Tokenises.separator_free`: No token contains the separator.
* `Tokenises.join`: Joining the tokens.
-/

namespace Yfs

namespace Scan

variable {α : Type} {sep src : List α} {p : Nat}

/-- The separator stands at this position. -/
def OccursAt (sep src : List α) (p : Nat) : Prop :=
  sep <+: src.drop p

/-- It stands at this position and at none before. -/
structure Leftmost (sep src : List α) (p : Nat) : Prop where
  occurs : OccursAt sep src p
  first : ∀ q < p, ¬ OccursAt sep src q

/-- The scan, which goes on behind every match, has one that ends the list. -/
inductive EndsInMatch (sep : List α) : List α → Prop where
  | here {src : List α} {p : Nat} : Leftmost sep src p → p + sep.length = src.length →
      EndsInMatch sep src
  | behind {src : List α} {p : Nat} : Leftmost sep src p →
      EndsInMatch sep (src.drop (p + sep.length)) → EndsInMatch sep src

/-- The tokens of a list. -/
inductive Tokenises (sep : List α) : List α → List (List α) → Prop where
  | empty : Tokenises sep [] []
  | rest {src : List α} : src ≠ [] → (∀ p, ¬ OccursAt sep src p) → Tokenises sep src [src]
  | token {src : List α} {p : Nat} {tokens : List (List α)} : Leftmost sep src p →
      Tokenises sep (src.drop (p + sep.length)) tokens →
      Tokenises sep src (src.take p :: tokens)

/-! ## Occurrences -/

/-- A separator that stands somewhere ends inside the list. -/
theorem OccursAt.le (h : OccursAt sep src p) (hsep : sep ≠ []) :
    p + sep.length ≤ src.length := by
  have hlen := h.length_le
  have hpos := List.length_pos_iff.mpr hsep
  rw [List.length_drop] at hlen
  omega

theorem OccursAt.ne_nil (h : OccursAt sep src p) (hsep : sep ≠ []) : src ≠ [] := by
  have hle := h.le hsep
  have hpos := List.length_pos_iff.mpr hsep
  exact List.length_pos_iff.mp (by omega)

/-- What is before the separator, the separator, and what is behind it. -/
theorem OccursAt.eq_append (h : OccursAt sep src p) :
    src = src.take p ++ sep ++ src.drop (p + sep.length) := by
  have hdrop := List.prefix_append_drop h
  rw [List.drop_drop] at hdrop
  rw [List.append_assoc, ← hdrop, List.take_append_drop]

/-- What contains the separator has it at a position. -/
theorem exists_occursAt (h : sep <:+: src) :
    ∃ p, OccursAt sep src p ∧ p + sep.length ≤ src.length := by
  rcases h with ⟨before, behind, rfl⟩
  refine ⟨before.length, ?_, ?_⟩
  · rw [OccursAt, List.append_assoc, List.drop_left]
    exact List.prefix_append sep behind
  · simp only [List.length_append]
    omega

/-- An occurrence in the first part of a list is one in the list. -/
theorem OccursAt.of_take {n : Nat} (h : OccursAt sep (src.take n) p) : OccursAt sep src p := by
  rw [OccursAt, List.drop_take] at h
  exact h.trans (List.take_prefix _ _)

/-- There is one leftmost occurrence. -/
theorem Leftmost.unique {q : Nat} (hp : Leftmost sep src p) (hq : Leftmost sep src q) :
    p = q := by
  rcases Nat.lt_trichotomy p q with hlt | heq | hgt
  · exact absurd hp.occurs (hq.first p hlt)
  · exact heq
  · exact absurd hq.occurs (hp.first q hgt)

/-- Before the leftmost occurrence there is none. -/
theorem Leftmost.not_infix_take (h : Leftmost sep src p) (hsep : sep ≠ []) :
    ¬ sep <:+: src.take p := by
  intro hin
  rcases exists_occursAt hin with ⟨q, hq, hle⟩
  have hpos := List.length_pos_iff.mpr hsep
  rw [List.length_take] at hle
  exact h.first q (by omega) hq.of_take

/-! ## The end of the scan -/

/-- Without an occurrence the scan does not end in one. -/
theorem not_endsInMatch (h : ∀ p, ¬ OccursAt sep src p) : ¬ EndsInMatch sep src := by
  intro hends
  cases hends with
  | here hp _ => exact h _ hp.occurs
  | behind hp _ => exact h _ hp.occurs

/-- The match ends the list, or the scan goes on behind it. -/
theorem endsInMatch_iff (h : Leftmost sep src p) (hsep : sep ≠ []) :
    EndsInMatch sep src ↔
      src.drop (p + sep.length) = [] ∨ EndsInMatch sep (src.drop (p + sep.length)) := by
  have hle := h.occurs.le hsep
  constructor
  · intro hends
    cases hends with
    | here hq hend =>
        rw [h.unique hq, List.drop_eq_nil_iff]
        exact Or.inl (Nat.le_of_eq hend.symm)
    | behind hq hbehind =>
        rw [h.unique hq]
        exact Or.inr hbehind
  · rintro (hend | hbehind)
    · rw [List.drop_eq_nil_iff] at hend
      exact EndsInMatch.here h (by omega)
    · exact EndsInMatch.behind h hbehind

/-! ## Tokens -/

namespace Tokenises

variable {tokens : List (List α)}

/-- No token contains the separator. -/
theorem separator_free (h : Tokenises sep src tokens) (hsep : sep ≠ []) :
    ∀ t ∈ tokens, ¬ sep <:+: t := by
  induction h with
  | empty => exact fun t ht => absurd ht List.not_mem_nil
  -- The last token is the rest of the list, in which there is no match.
  | rest _ hnone =>
      intro t ht hin
      rw [List.mem_singleton.mp ht] at hin
      rcases exists_occursAt hin with ⟨q, hq, _⟩
      exact hnone q hq
  | token hp _ ih =>
      intro t ht
      rcases List.mem_cons.mp ht with rfl | ht
      · exact hp.not_infix_take hsep
      · exact ih t ht

/-- Only the empty list has no tokens. -/
theorem eq_nil_iff (h : Tokenises sep src tokens) (hsep : sep ≠ []) :
    tokens = [] ↔ src = [] := by
  cases h with
  | empty => exact ⟨fun _ => rfl, fun _ => rfl⟩
  | rest hne _ => exact iff_of_false (List.cons_ne_nil _ _) hne
  | token hp _ => exact iff_of_false (List.cons_ne_nil _ _) (hp.occurs.ne_nil hsep)

/-- The list again, or without the match that ends it. -/
theorem join (h : Tokenises sep src tokens) (hsep : sep ≠ []) :
    (¬ EndsInMatch sep src → sep.intercalate tokens = src) ∧
      (EndsInMatch sep src → sep.intercalate tokens ++ sep = src) := by
  induction h with
  | empty =>
      exact ⟨fun _ => List.intercalate_nil,
        fun hends => absurd hends (not_endsInMatch fun _ hp => hp.ne_nil hsep rfl)⟩
  | rest _ hnone =>
      exact ⟨fun _ => List.intercalate_singleton,
        fun hends => absurd hends (not_endsInMatch hnone)⟩
  | @token src p tokens hp htokens ih =>
      have hsrc := hp.occurs.eq_append
      rw [endsInMatch_iff hp hsep]
      by_cases hnil : tokens = []
      · -- Nothing is behind the match.
        have hend := (htokens.eq_nil_iff hsep).mp hnil
        rw [hend, List.append_nil] at hsrc
        subst hnil
        rw [List.intercalate_singleton]
        exact ⟨fun hnot => absurd (Or.inl hend) hnot, fun _ => hsrc.symm⟩
      -- The tokens behind the match are the tokens of what is behind it.
      · have hend : src.drop (p + sep.length) ≠ [] :=
          fun hend => hnil ((htokens.eq_nil_iff hsep).mpr hend)
        rw [List.intercalate_cons_of_ne_nil hnil]
        constructor
        · intro hnot
          rw [ih.1 fun hbehind => hnot (Or.inr hbehind)]
          exact hsrc.symm
        · intro hends
          rw [List.append_assoc, ih.2 (hends.resolve_left hend)]
          exact hsrc.symm

end Tokenises

end Scan

end Yfs
