import Mathlib.Data.List.TakeWhile
import Yfs.Theory.Tokenising

/-!
# The Directory Format

What splitting a directory gives back. `render` writes a list of entries the way
`add_entry` builds it up, one after another. As long as no name contains a space,
splitting gives the inums and names in turn, so reading by parity gives the entries
(`pairs_split_render`) and appending one more is `add_entry` (`appendEntry_render`).
Inums survive the trip through their numerals.

Without that condition one thing is still true: no token contains a space
(`space_notMem_split`). So a name that contains one is never read back.

## Main definitions

* `render`: The content of a directory with given entries.
* `addEntries`: The content that `add_entry` builds.
* `tokens`: Inums and names in turn.
* `Listable`: Names that are read back.

## Theorems

* `split_append`, `split_single`: Splitting off the first token.
* `split_joined`: Splitting what `unlink` puts together.
* `space_notMem_split`: Tokens contain no separator.
* `n2i_filename`: Reading an inum's text.
* `split_render`: The tokens of a directory.
* `pairs_split_render`, `findEntry_render`, `readdirEntries_render`: Reading entries.
* `appendEntry_render`, `addEntries_eq_render`: Adding one, and all.
* `findEntry_eq_none`, `space_notMem_readdirEntries`: A name with a space is not found.
-/

namespace Yfs

/-! ## Splitting -/

theorem sep_ne_nil : sep ≠ [] :=
  List.cons_ne_nil _ _

theorem sep_isPrefixOf (c : UInt8) (cs : Bytes) : sep.isPrefixOf (c :: cs) = (32 == c) := by
  simp only [sep, List.isPrefixOf, Bool.and_true]

/-- The first separator is the one behind a token that has none. -/
theorem find_sep_append {t : Bytes} (ht : 32 ∉ t) (rest : Bytes) :
    find sep (t ++ 32 :: rest) = some t.length := by
  induction t with
  | nil => simp only [List.nil_append, find, sep_isPrefixOf, beq_self_eq_true, if_true,
      List.length_nil]
  | cons c cs ih =>
      rw [List.mem_cons, not_or] at ht
      simp only [List.cons_append, find, sep_isPrefixOf, beq_iff_eq, ht.1, if_false, ih ht.2,
        Option.map_some, List.length_cons]

/-- A string has no separator in it exactly if the search finds none. -/
theorem find_sep_eq_none {t : Bytes} : find sep t = none ↔ 32 ∉ t := by
  induction t with
  | nil => simp only [find, sep, List.isEmpty_cons, Bool.false_eq_true, if_false,
      List.not_mem_nil, not_false_eq_true]
  | cons c cs ih =>
      simp only [find, sep_isPrefixOf, beq_iff_eq, List.mem_cons, not_or]
      by_cases hc : 32 = c
      · simp only [hc, if_true, reduceCtorEq, not_true_eq_false, false_and]
      · simp only [hc, if_false, Option.map_eq_none_iff, ih, not_false_eq_true, true_and]

/-- A token with a separator behind it comes off the front. -/
theorem split_append {t : Bytes} (ht : 32 ∉ t) (rest : Bytes) :
    split (t ++ sep ++ rest) sep = t :: split rest sep := by
  have hsrc : t ++ sep ++ rest = t ++ 32 :: rest := by
    rw [List.append_assoc]
    rfl
  rw [hsrc, split_eq sep_ne_nil, find_sep_append ht]
  simp only [List.take_left]
  rw [show t.length + sep.length = t.length + 1 from rfl, List.drop_append]
  simp only [List.drop_eq_nil_of_le (Nat.le_succ t.length), Nat.add_sub_cancel_left,
    List.nil_append, List.drop_succ_cons, List.drop_zero]

/-- A string without a separator is one token. -/
theorem split_single {t : Bytes} (ht : 32 ∉ t) (hne : t ≠ []) : split t sep = [t] := by
  rw [split_eq sep_ne_nil, find_sep_eq_none.mpr ht]
  simp only [List.isEmpty_iff, hne, if_false]

/-- Tokens with a separator after each but the last are split again into these tokens. This is the
    text that `unlink` writes back. -/
theorem split_joined {ts : List Bytes} (h : ∀ t ∈ ts, t ≠ [] ∧ 32 ∉ t) :
    split ((ts.flatMap (· ++ sep)).dropLast) sep = ts := by
  induction ts with
  | nil => rfl
  | cons t ts ih =>
      have ht := h t List.mem_cons_self
      have hrest := ih fun x hx => h x (List.mem_cons_of_mem t hx)
      rw [List.flatMap_cons]
      cases ts with
      | nil =>
          rw [List.flatMap_nil, List.append_nil, sep, List.dropLast_concat]
          exact split_single ht.2 ht.1
      | cons t' ts =>
          -- The separator that goes is one of the rest.
          have hne : (t' :: ts).flatMap (· ++ sep) ≠ [] := by
            simp only [List.flatMap_cons, sep, ne_eq, List.append_eq_nil_iff, reduceCtorEq,
              and_false, false_and, not_false_eq_true]
          rw [List.dropLast_append_of_ne_nil hne, split_append ht.2, hrest]

/-- Tokens contain no separator, whatever was split. -/
theorem space_notMem_split (src : Bytes) : ∀ t ∈ split src sep, 32 ∉ t := by
  intro t ht
  rw [← List.singleton_infix_iff]
  exact (split_tokenises sep_ne_nil src).separator_free sep_ne_nil t ht

/-! ## Inums as text -/

/-- The text of an inum has digits only. -/
theorem space_notMem_filename (inum : Inum) : 32 ∉ filename inum := by
  intro h
  exact absurd (Decimal.isDigit_of_mem_numeral _ _ h) (by decide)

/-- A digit is neither white space nor a sign. -/
theorem digit_facts (c : UInt8) (h : Decimal.isDigit c = true) :
    isSpace c = false ∧ ¬ (c = 43 ∨ c = 45) := by
  have hrange : 48 ≤ c.toNat ∧ c.toNat ≤ 57 := of_decide_eq_true h
  constructor
  · simp only [isSpace, Bool.or_eq_false_iff, beq_eq_false_iff_ne, ne_eq, ← UInt8.toNat_inj,
      Bool.and_eq_false_iff, decide_eq_false_iff_not, UInt8.le_iff_toNat_le, UInt8.reduceToNat]
    omega
  · simp only [← UInt8.toNat_inj, UInt8.reduceToNat]
    omega

/-- The text of an inum is read back, whatever an uninitialised variable holds. -/
theorem n2i_filename (uninit inum : Inum) : n2i uninit (filename inum) = inum := by
  have hdigits := Decimal.isDigit_of_mem_numeral inum.toNat
  have hvalue := Decimal.value_numeral inum.toNat
  unfold filename n2i
  -- The extraction starts at the first character, which is there.
  cases hs : Decimal.numeral inum.toNat with
  | nil => exact absurd hs (Decimal.numeral_ne_nil _)
  | cons c cs =>
      rw [hs] at hdigits hvalue
      have hc := digit_facts c (hdigits c List.mem_cons_self)
      have hall : (c :: cs).takeWhile Decimal.isDigit = c :: cs :=
        List.takeWhile_eq_self_iff.mpr hdigits
      -- No white space is skipped, no sign is read, and nothing ends the digits.
      rw [List.dropWhile_cons_of_neg (by simp [hc.1])]
      simp only [hc.2, if_false, hall, hvalue]
      have hlt := inum.toNat_lt
      rw [if_neg (by omega), if_neg (fun h => hc.2 (Or.inr h)), UInt64.ofNat_toNat]

/-- Inums with the same text are the same, since the text is read back. -/
theorem filename_inj {i j : Inum} : filename i = filename j ↔ i = j := by
  refine ⟨fun h => ?_, fun h => by rw [h]⟩
  have hread := congrArg (n2i 0) h
  rwa [n2i_filename, n2i_filename] at hread

theorem filename_ne_nil (inum : Inum) : filename inum ≠ [] :=
  Decimal.numeral_ne_nil _

/-! ## Entries -/

/-- The content of a directory with the given names and inums. -/
def render : List (Bytes × Inum) → Bytes
  | [] => []
  | [(name, inum)] => filename inum ++ sep ++ name
  | (name, inum) :: e :: rest => filename inum ++ sep ++ (name ++ sep ++ render (e :: rest))

/-- The content after one `add_entry` for each pair, from an empty directory on. -/
def addEntries (es : List (Bytes × Inum)) : Bytes :=
  es.foldl (fun entries e => appendEntry entries e.1 e.2) []

def tokens (es : List (Bytes × Inum)) : List Bytes :=
  es.flatMap fun e => [filename e.2, e.1]

/-- A name that is one token. -/
def Listable (name : Bytes) : Prop :=
  name ≠ [] ∧ 32 ∉ name

theorem render_ne_nil {es : List (Bytes × Inum)} (h : es ≠ []) : render es ≠ [] := by
  match es with
  | [] => exact absurd rfl h
  | [(name, inum)] => simp only [render, sep, ne_eq, List.append_eq_nil_iff, reduceCtorEq,
      and_false, false_and, not_false_eq_true]
  | (name, inum) :: e :: rest => simp only [render, sep, ne_eq, List.append_eq_nil_iff,
      reduceCtorEq, and_false, false_and, not_false_eq_true]

theorem tokens_cons (e : Bytes × Inum) (es : List (Bytes × Inum)) :
    tokens (e :: es) = filename e.2 :: e.1 :: tokens es :=
  rfl

theorem mem_tokens {t : Bytes} {es : List (Bytes × Inum)} :
    t ∈ tokens es ↔ ∃ e ∈ es, t = filename e.2 ∨ t = e.1 := by
  simp only [tokens, List.mem_flatMap, List.mem_cons, List.not_mem_nil, or_false]

/-- The tokens of a directory are inum and name in turn, if the names are tokens. -/
theorem split_render {es : List (Bytes × Inum)} (h : ∀ e ∈ es, Listable e.1) :
    split (render es) sep = tokens es := by
  induction es using render.induct with
  | case1 => rfl
  | case2 name inum =>
      have hname : Listable name := h (name, inum) List.mem_cons_self
      rw [render, split_append (space_notMem_filename inum), split_single hname.2 hname.1]
      rfl
  | case3 name inum e rest ih =>
      have hname : Listable name := h (name, inum) List.mem_cons_self
      -- Two tokens come off, and the rest is a directory again.
      rw [render, split_append (space_notMem_filename inum), split_append hname.2,
        ih fun x hx => h x (List.mem_cons_of_mem _ hx)]
      rfl

/-- Tokens are put together again by their parity. -/
theorem pairs_tokens (es : List (Bytes × Inum)) :
    pairs (tokens es) = es.map fun e => (filename e.2, e.1) := by
  induction es with
  | nil => rfl
  | cons e es ih => rw [tokens_cons, pairs, ih, List.map_cons]

/-- Together: the entries come back as text, in their order. -/
theorem pairs_split_render {es : List (Bytes × Inum)} (h : ∀ e ∈ es, Listable e.1) :
    pairs (split (render es) sep) = es.map fun e => (filename e.2, e.1) := by
  rw [split_render h, pairs_tokens]

/-- What `add_entry` writes back has one entry more, at the end. -/
theorem appendEntry_render (es : List (Bytes × Inum)) (name : Bytes) (inum : Inum) :
    appendEntry (render es) name inum = render (es ++ [(name, inum)]) := by
  induction es using render.induct with
  | case1 => rfl
  | case2 name' inum' =>
      simp only [appendEntry, List.isEmpty_iff, render_ne_nil (List.cons_ne_nil _ _), if_false]
      simp only [render, List.cons_append, List.nil_append, List.append_assoc]
  | case3 name' inum' e rest ih =>
      simp only [appendEntry, List.isEmpty_iff, render_ne_nil (List.cons_ne_nil _ _),
        if_false] at ih ⊢
      simp only [List.cons_append] at ih ⊢
      simp only [render, ← ih, List.append_assoc]

/-- So the content after a number of additions is that of the directory with these entries. -/
theorem addEntries_eq_render (es : List (Bytes × Inum)) : addEntries es = render es := by
  unfold addEntries
  induction es using List.reverseRecOn with
  | nil => rfl
  | append_singleton es e ih =>
      rw [List.foldl_append, ih]
      exact appendEntry_render es e.1 e.2

/-- The scan of `lookup` and `unlink` finds the first entry under the name. -/
theorem findEntry_render {es : List (Bytes × Inum)} (h : ∀ e ∈ es, Listable e.1)
    (name : Bytes) :
    findEntry (render es) name
      = (es.find? fun e => name == e.1).map fun e => (filename e.2, e.1) := by
  rw [findEntry, pairs_split_render h, List.find?_map]
  rfl

theorem cstr_eq_self {s : Bytes} (h : 0 ∉ s) : cstr s = s := by
  refine List.takeWhile_eq_self_iff.mpr fun x hx => bne_iff_ne.mpr ?_
  rintro rfl
  exact h hx

/-- What `fuseserver_readdir` adds to its buffer is the entries, names and inums, if the names have
    no zero byte in them. -/
theorem readdirEntries_render (uninit : Inum) {es : List (Bytes × Inum)}
    (h : ∀ e ∈ es, Listable e.1) (hnul : ∀ e ∈ es, 0 ∉ e.1) :
    readdirEntries uninit (split (render es) sep) = es := by
  rw [readdirEntries, pairs_split_render h, List.map_map]
  calc es.map _ = es.map id := by
        refine List.map_congr_left fun e he => ?_
        simp only [Function.comp_apply, cstr_eq_self (hnul e he), n2i_filename, id]
    _ = es := List.map_id es

/-- An entry is made of two tokens. -/
theorem mem_of_mem_pairs {ts : List Bytes} {e : Bytes × Bytes} (h : e ∈ pairs ts) :
    e.1 ∈ ts ∧ e.2 ∈ ts := by
  induction ts using pairs.induct with
  | case1 inum name rest ih =>
      rcases List.mem_cons.mp h with rfl | h
      · exact ⟨List.mem_cons_self, List.mem_cons_of_mem _ List.mem_cons_self⟩
      · exact ⟨List.mem_cons_of_mem _ (List.mem_cons_of_mem _ (ih h).1),
          List.mem_cons_of_mem _ (List.mem_cons_of_mem _ (ih h).2)⟩
  | case2 ts hts =>
      rw [pairs] at h
      · exact absurd h List.not_mem_nil
      · exact hts

/-- A name found in a directory contains no space, whatever was created in it. -/
theorem findEntry_eq_none {name : Bytes} (hname : 32 ∈ name) (entries : Bytes) :
    findEntry entries name = none := by
  refine List.find?_eq_none.mpr fun e he heq => ?_
  rw [beq_iff_eq] at heq
  exact space_notMem_split entries e.2 (mem_of_mem_pairs he).2 (heq ▸ hname)

/-- Nor does a name that `fuseserver_readdir` adds to its buffer. -/
theorem space_notMem_readdirEntries (uninit : Inum) (entries : Bytes) :
    ∀ e ∈ readdirEntries uninit (split entries sep), 32 ∉ e.1 := by
  intro e he
  rcases List.mem_map.mp he with ⟨x, hx, rfl⟩
  intro hmem
  exact space_notMem_split entries x.2 (mem_of_mem_pairs hx).2
    ((List.takeWhile_sublist _).subset hmem)

end Yfs
