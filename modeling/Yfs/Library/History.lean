import Mathlib.Data.List.Basic

/-!
# Histories

Lists of events that grow at the end, oldest first. A law about a history speaks of
an event and of what came after it, so it is stated over splits `pre ++ e :: post`;
when one more event is recorded, a split of the longer history either ends in that
event or is a split of the shorter one.

## Theorems

* `concat_split`: The splits of a history with one more event.
* `step_split`: The splits of a history after a step that may record an event.
-/

namespace Yfs

namespace History

variable {α : Type}

/-- The event the split is at is the new one, or it was there before. -/
theorem concat_split {h pre post : List α} {e a : α} (heq : h ++ [e] = pre ++ a :: post) :
    (pre = h ∧ a = e ∧ post = []) ∨ ∃ post', post = post' ++ [e] ∧ h = pre ++ a :: post' := by
  -- The longer of the two first parts contains the shorter one.
  rcases List.append_eq_append_iff.mp heq with ⟨as, hpre, hrest⟩ | ⟨bs, hold, hrest⟩
  · cases as with
    | nil =>
        rw [List.nil_append] at hrest
        rcases List.cons.inj hrest with ⟨rfl, rfl⟩
        exact Or.inl ⟨by rw [hpre, List.append_nil], rfl, rfl⟩
    | cons c cs =>
        have hlen := congrArg List.length hrest
        simp only [List.length_cons, List.length_nil, List.length_append] at hlen
        omega
  · cases bs with
    | nil =>
        rw [List.nil_append] at hrest
        rcases List.cons.inj hrest with ⟨rfl, rfl⟩
        exact Or.inl ⟨by rw [hold, List.append_nil], rfl, rfl⟩
    | cons c cs =>
        rcases List.cons.inj hrest with ⟨rfl, hpost⟩
        exact Or.inr ⟨cs, hpost, hold⟩

/-- A step that records an event or none. -/
theorem step_split {h pre post : List α} {o : Option α} {a : α}
    (heq : h ++ o.toList = pre ++ a :: post) :
    (pre = h ∧ o = some a ∧ post = []) ∨
      ∃ post', post = post' ++ o.toList ∧ h = pre ++ a :: post' := by
  cases o with
  | none =>
      rw [Option.toList_none, List.append_nil] at heq
      exact Or.inr ⟨post, (List.append_nil post).symm, heq⟩
  | some e =>
      rcases concat_split heq with ⟨hpre, rfl, hpost⟩ | hold
      · exact Or.inl ⟨hpre, rfl, hpost⟩
      · exact Or.inr hold

end History

end Yfs
