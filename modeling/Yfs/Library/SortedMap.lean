import Mathlib.Data.List.Lex
import Mathlib.Data.Prod.Lex

/-!
# Sorted Maps

A map as the list of its entries in the strict order of their keys, which is the
order in which they are visited. Two maps with the same entries are equal, so a map
that is taken apart entry by entry and put together again in any way that inserts
each entry is the map it was; `insertAll_entries` is the case in which they are
inserted in order.

## Main definitions

* `SortedMap`: Entries whose keys increase.
* `insert`: Binding a key, replacing what it was bound to.
* `lookup`, `erase`: What a key is bound to, and binding it to nothing.
* `count`: How many keys are bound to such a value.

## Theorems

* `insert_last`: A key above all others comes last.
* `insertAll_entries`: A map is rebuilt from its entries.
* `mem_insert`, `mem_erase`, `mem_of_lookup`: The entries afterwards.
* `count_insert`: One value comes and the one it replaces goes.
-/

namespace Yfs

/-- A finite map, kept in the order of its keys. -/
structure SortedMap (α β : Type) [LinearOrder α] where
  entries : List (α × β)
  sorted : entries.Pairwise fun e e' => e.1 < e'.1

namespace SortedMap

variable {α β : Type} [LinearOrder α]

/-- The entries are all there is to a map. -/
theorem eq_of_entries {d d' : SortedMap α β} (h : d.entries = d'.entries) : d = d' := by
  cases d
  cases d'
  cases h
  rfl

def empty : SortedMap α β where
  entries := []
  sorted := List.Pairwise.nil

/-- The place of a key among entries in order. -/
def placeEntry (a : α) (b : β) : List (α × β) → List (α × β)
  | [] => [(a, b)]
  | e :: es =>
    if a < e.1 then (a, b) :: e :: es
    else if e.1 < a then e :: placeEntry a b es
    else (e.1, b) :: es

/-- A key after an insertion is the new one or was there before. -/
theorem mem_placeEntry (a : α) (b : β) (es : List (α × β)) (e : α × β)
    (h : e ∈ placeEntry a b es) : e.1 = a ∨ ∃ e' ∈ es, e'.1 = e.1 := by
  induction es with
  | nil =>
      rw [List.mem_singleton.mp h]
      exact Or.inl rfl
  | cons e₀ es ih =>
      unfold placeEntry at h
      split at h
      · rcases List.mem_cons.mp h with rfl | h
        · exact Or.inl rfl
        · exact Or.inr ⟨e, h, rfl⟩
      · split at h
        · rcases List.mem_cons.mp h with rfl | h
          · exact Or.inr ⟨e, List.mem_cons_self, rfl⟩
          · rcases ih h with ha | ⟨e', he', heq⟩
            · exact Or.inl ha
            · exact Or.inr ⟨e', List.mem_cons_of_mem e₀ he', heq⟩
        · rcases List.mem_cons.mp h with rfl | h
          · exact Or.inr ⟨e₀, List.mem_cons_self, rfl⟩
          · exact Or.inr ⟨e, List.mem_cons_of_mem e₀ h, rfl⟩

/-- An insertion keeps the order. The induction follows the walk to the place. -/
theorem pairwise_placeEntry (a : α) (b : β) (es : List (α × β))
    (h : es.Pairwise fun e e' => e.1 < e'.1) :
    (placeEntry a b es).Pairwise fun e e' => e.1 < e'.1 := by
  induction es with
  | nil => exact List.pairwise_singleton _ _
  | cons e₀ es ih =>
      rcases List.pairwise_cons.mp h with ⟨hhead, htail⟩
      unfold placeEntry
      split
      · rename_i hlt
        -- In front of the first larger key.
        refine List.pairwise_cons.mpr ⟨fun e he => ?_, h⟩
        rcases List.mem_cons.mp he with rfl | he
        · exact hlt
        · exact lt_trans hlt (hhead e he)
      · split
        · rename_i hgt
          refine List.pairwise_cons.mpr ⟨fun e he => ?_, ih htail⟩
          -- Further on: what is placed behind the head is larger than the head.
          rcases mem_placeEntry a b es e he with ha | ⟨e', he', heq⟩
          · rw [ha]
            exact hgt
          · rw [← heq]
            exact hhead e' he'
        · exact List.pairwise_cons.mpr ⟨hhead, htail⟩

/-- `d[a] = b`. -/
def insert (d : SortedMap α β) (a : α) (b : β) : SortedMap α β where
  entries := placeEntry a b d.entries
  sorted := pairwise_placeEntry a b d.entries d.sorted

/-- A key above all others goes to the end. -/
theorem placeEntry_last (a : α) (b : β) (es : List (α × β)) (h : ∀ e ∈ es, e.1 < a) :
    placeEntry a b es = es ++ [(a, b)] := by
  induction es with
  | nil => rfl
  | cons e₀ es ih =>
      have hlt := h e₀ List.mem_cons_self
      unfold placeEntry
      rw [if_neg (not_lt_of_gt hlt), if_pos hlt,
        ih fun e he => h e (List.mem_cons_of_mem e₀ he), List.cons_append]

theorem insert_last (d : SortedMap α β) (a : α) (b : β) (h : ∀ e ∈ d.entries, e.1 < a) :
    (d.insert a b).entries = d.entries ++ [(a, b)] :=
  placeEntry_last a b d.entries h

/-- Inserting the entries of a map in order, behind those that are there. Each one is the largest so
    far, so the walk always goes to the end. -/
theorem insertAll_entries (es : List (α × β)) (d : SortedMap α β)
    (h : (d.entries ++ es).Pairwise fun e e' => e.1 < e'.1) :
    (es.foldl (fun d e => d.insert e.1 e.2) d).entries = d.entries ++ es := by
  induction es generalizing d with
  | nil => rw [List.foldl_nil, List.append_nil]
  | cons e es ih =>
      have hlast : (d.insert e.1 e.2).entries = d.entries ++ [e] := by
        refine insert_last d e.1 e.2 fun e' he' => ?_
        exact (List.pairwise_append.mp h).2.2 e' he' e List.mem_cons_self
      rw [List.foldl_cons, ih, hlast, List.append_assoc, List.singleton_append]
      rw [hlast, List.append_assoc, List.singleton_append]
      exact h

/-! ## Searching -/

/-- `d.find(a)`. -/
def lookup (d : SortedMap α β) (a : α) : Option β :=
  (d.entries.find? fun e => e.1 == a).map Prod.snd

/-- `d.erase(a)`. -/
def erase (d : SortedMap α β) (a : α) : SortedMap α β where
  entries := d.entries.filter fun e => e.1 != a
  sorted := d.sorted.filter _

/-- What is found is an entry. -/
theorem mem_of_lookup {d : SortedMap α β} {a : α} {b : β} (h : d.lookup a = some b) :
    (a, b) ∈ d.entries := by
  rcases Option.map_eq_some_iff.mp h with ⟨e, he, rfl⟩
  have hkey : e.1 = a := by simpa using List.find?_some he
  rw [← hkey]
  exact List.mem_of_find?_eq_some he

/-- What is left after an erasure was there and has another key. -/
theorem mem_erase {d : SortedMap α β} {a : α} {e : α × β} (h : e ∈ (d.erase a).entries) :
    e ∈ d.entries ∧ e.1 ≠ a := by
  rcases List.mem_filter.mp h with ⟨hmem, hne⟩
  exact ⟨hmem, by simpa using hne⟩

/-- After an insertion into sorted entries the key has one value, the new one. -/
theorem mem_placeEntry_sorted (a : α) (b : β) (es : List (α × β)) (e : α × β)
    (hsorted : es.Pairwise fun e e' => e.1 < e'.1) (h : e ∈ placeEntry a b es) :
    e = (a, b) ∨ e ∈ es ∧ e.1 ≠ a := by
  induction es with
  | nil => exact Or.inl (List.mem_singleton.mp h)
  | cons e₀ es ih =>
      rcases List.pairwise_cons.mp hsorted with ⟨hhead, htail⟩
      -- Behind an entry that is not below the key there is no second chance for the key.
      have hrest : ∀ e' ∈ es, a ≤ e₀.1 → e'.1 ≠ a := fun e' he' hle =>
        ne_of_gt (lt_of_le_of_lt hle (hhead e' he'))
      unfold placeEntry at h
      split at h
      · rename_i hlt
        rcases List.mem_cons.mp h with rfl | h
        · exact Or.inl rfl
        · rcases List.mem_cons.mp h with rfl | h
          · exact Or.inr ⟨List.mem_cons_self, ne_of_gt hlt⟩
          · exact Or.inr ⟨List.mem_cons_of_mem e₀ h, hrest e h (le_of_lt hlt)⟩
      · split at h
        · rename_i hlt
          rcases List.mem_cons.mp h with rfl | h
          · exact Or.inr ⟨List.mem_cons_self, ne_of_lt hlt⟩
          · rcases ih htail h with heq | ⟨hmem, hne⟩
            · exact Or.inl heq
            · exact Or.inr ⟨List.mem_cons_of_mem e₀ hmem, hne⟩
        · rename_i hnot hnot'
          have heq : e₀.1 = a := le_antisymm (not_lt.mp hnot) (not_lt.mp hnot')
          rcases List.mem_cons.mp h with rfl | h
          · exact Or.inl (by rw [heq])
          · exact Or.inr ⟨List.mem_cons_of_mem e₀ h, hrest e h (le_of_eq heq.symm)⟩

/-- Nothing else is bound to the key. -/
theorem mem_insert {d : SortedMap α β} {a : α} {b : β} {e : α × β}
    (h : e ∈ (d.insert a b).entries) : e = (a, b) ∨ e ∈ d.entries ∧ e.1 ≠ a :=
  mem_placeEntry_sorted a b d.entries e d.sorted h

/-! ## Counting -/

/-- The number of keys that are bound to values with the property. -/
def count (d : SortedMap α β) (p : β → Bool) : Nat :=
  d.entries.countP fun e => p e.2

/-- A key that was not there is one more to count. -/
theorem countP_placeEntry_new (a : α) (b : β) (p : β → Bool) (es : List (α × β))
    (h : es.find? (fun e => e.1 == a) = none) :
    (placeEntry a b es).countP (fun e => p e.2) =
      es.countP (fun e => p e.2) + if p b then 1 else 0 := by
  induction es with
  | nil => rw [placeEntry, List.countP_singleton, List.countP_nil, Nat.zero_add]
  | cons e₀ es ih =>
      rw [List.find?_cons] at h
      split at h
      · cases h
      · rename_i hne
        unfold placeEntry
        split
        · rw [List.countP_cons]
        · rename_i hge
          have hlt : e₀.1 < a := lt_of_le_of_ne (not_lt.mp hge) (by simpa using hne)
          rw [if_pos hlt, List.countP_cons, List.countP_cons, ih h]
          omega

/-- A key that was there is where the order has it, and its value is replaced. -/
theorem countP_placeEntry_replace (a : α) (b old : β) (p : β → Bool) (es : List (α × β))
    (hsorted : es.Pairwise fun e e' => e.1 < e'.1)
    (h : (es.find? fun e => e.1 == a).map Prod.snd = some old) :
    (placeEntry a b es).countP (fun e => p e.2) + (if p old then 1 else 0) =
      es.countP (fun e => p e.2) + if p b then 1 else 0 := by
  induction es with
  | nil => cases h
  | cons e₀ es ih =>
      rcases List.pairwise_cons.mp hsorted with ⟨hhead, htail⟩
      unfold placeEntry
      by_cases heq : e₀.1 = a
      · rw [List.find?_cons_of_pos (by simpa using heq)] at h
        cases h
        rw [if_neg (heq ▸ lt_irrefl _), if_neg (heq ▸ lt_irrefl _), List.countP_cons,
          List.countP_cons]
        dsimp only
        omega
      · rw [List.find?_cons_of_neg (by simpa using heq)] at h
        -- The key is further on, so the head is below it and the walk goes past.
        have hlt : e₀.1 < a := by
          rcases Option.map_eq_some_iff.mp h with ⟨e, he, _⟩
          have hkey : e.1 = a := by simpa using List.find?_some he
          exact hkey ▸ hhead e (List.mem_of_find?_eq_some he)
        have htail := ih htail h
        rw [if_neg (not_lt_of_gt hlt), if_pos hlt, List.countP_cons, List.countP_cons]
        omega

/-- The new value is counted and the old one is not any more. -/
theorem count_insert (d : SortedMap α β) (a : α) (b : β) (p : β → Bool) :
    (d.insert a b).count p + (if (d.lookup a).any p then 1 else 0) =
      d.count p + if p b then 1 else 0 := by
  unfold count
  cases h : d.lookup a with
  | none =>
      have hnone : d.entries.find? (fun e => e.1 == a) = none := Option.map_eq_none_iff.mp h
      exact countP_placeEntry_new a b p d.entries hnone
  | some old => exact countP_placeEntry_replace a b old p d.entries d.sorted h

/-- Maps are compared entry by entry, first by the keys. -/
instance [LinearOrder β] : LinearOrder (SortedMap α β) :=
  LinearOrder.lift' (fun d => d.entries.map (toLex : α × β → α ×ₗ β)) fun _ _ h =>
    eq_of_entries (List.map_injective_iff.mpr toLex.injective h)

end SortedMap

end Yfs
