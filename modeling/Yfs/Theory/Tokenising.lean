import Yfs.Core.Positions
import Yfs.Library.Scan

/-!
# Tokenising

What `yfs_client::split` does with any string and any separator that is not empty: it
returns the tokens of the scan from left to right, as `Scan.Tokenises` has them.

The scan is modelled twice. `split`, which the directories are read with, works on what is
left of the string and has no positions. `Positions.split` has those of the source. In a
string shorter than `2 ^ 31` every position fits an `int`, and so does the length of a
separator that is found at all, so that the two agree and the loop of the source ends
(`positions_split_eq`). A longer separator is never found, and what its length becomes as
an `int` does not matter.

## Theorems

* `find_leftmost`, `find_none`: `find` is the leftmost occurrence.
* `splitLoop_fuel`: The loop ends before its fuel does.
* `split_eq`: One iteration of the loop.
* `split_tokenises`: The result is the tokens of the scan.
* `positions_split_eq`: The loop over positions has the same result.
* `split_lossless`: The tokens and what can be had back from them.
-/

namespace Yfs

/-! ## The search -/

theorem find_leftmost {pat src : Bytes} {i : Nat} (h : find pat src = some i) :
    Scan.Leftmost pat src i := by
  induction src generalizing i with
  | nil =>
      simp only [find, Option.ite_none_right_eq_some, Option.some.injEq] at h
      rcases h with ⟨hp, rfl⟩
      rw [List.isEmpty_iff.mp hp]
      exact ⟨List.nil_prefix, fun q hq => absurd hq (Nat.not_lt_zero q)⟩
  | cons c cs ih =>
      simp only [find] at h
      split at h
      · rename_i hp
        rw [← Option.some.inj h]
        exact ⟨List.isPrefixOf_iff_prefix.mp hp, fun q hq => absurd hq (Nat.not_lt_zero q)⟩
      · rename_i hp
        rcases Option.map_eq_some_iff.mp h with ⟨j, hj, rfl⟩
        refine ⟨(ih hj).occurs, fun q hq => ?_⟩
        -- Not here, and behind this byte by induction.
        cases q with
        | zero => exact fun hocc => hp (List.isPrefixOf_iff_prefix.mpr hocc)
        | succ q => exact (ih hj).first q (by omega)

theorem find_none {pat src : Bytes} (hpat : pat ≠ []) (h : find pat src = none) (p : Nat) :
    ¬ Scan.OccursAt pat src p := by
  induction src generalizing p with
  | nil => exact fun hocc => hocc.ne_nil hpat rfl
  | cons c cs ih =>
      simp only [find] at h
      split at h
      · exact absurd h (by simp only [reduceCtorEq, not_false_eq_true])
      · rename_i hp
        cases p with
        | zero => exact fun hocc => hp (List.isPrefixOf_iff_prefix.mpr hocc)
        | succ p => exact ih (Option.map_eq_none_iff.mp h) p

theorem find_le {pat src : Bytes} {i : Nat} (hpat : pat ≠ []) (h : find pat src = some i) :
    i + pat.length ≤ src.length :=
  (find_leftmost h).occurs.le hpat

/-! ## The loop -/

/-- Every iteration passes a separator, so the loop ends before its fuel does. -/
theorem splitLoop_fuel {pat : Bytes} (hpat : pat ≠ []) (fuel : Nat) (src : Bytes)
    (h : src.length < fuel) : splitLoop pat fuel src = split src pat := by
  have hlen : 0 < pat.length := List.length_pos_iff.mpr hpat
  -- Any two amounts of fuel that are enough give the same.
  suffices ∀ n m src, src.length < n → src.length < m →
      splitLoop pat n src = splitLoop pat m src from
    this fuel (src.length + 1) src h (Nat.lt_succ_self _)
  intro n
  induction n with
  | zero => exact fun m src hn => absurd hn (Nat.not_lt_zero _)
  | succ n ih =>
      intro m src hn hm
      cases m with
      | zero => exact absurd hm (Nat.not_lt_zero _)
      | succ m =>
          simp only [splitLoop]
          cases hfind : find pat src with
          | none => rfl
          | some i =>
              have hle := find_le hpat hfind
              -- What is left is shorter by the separator at least.
              have hdrop : (src.drop (i + pat.length)).length < n ∧
                  (src.drop (i + pat.length)).length < m := by
                rw [List.length_drop]
                omega
              simp only
              rw [ih m _ hdrop.1 hdrop.2]

/-- One iteration of the loop. -/
theorem split_eq {pat : Bytes} (hpat : pat ≠ []) (src : Bytes) :
    split src pat = match find pat src with
      | some i => src.take i :: split (src.drop (i + pat.length)) pat
      | none => if src.isEmpty then [] else [src] := by
  have hlen : 0 < pat.length := List.length_pos_iff.mpr hpat
  rw [split, splitLoop]
  cases hfind : find pat src with
  | none => rfl
  | some i =>
      have hle := find_le hpat hfind
      simp only
      rw [splitLoop_fuel hpat _ _ (by rw [List.length_drop]; omega)]

/-- The result is the tokens of the scan. -/
theorem split_tokenises {pat : Bytes} (hpat : pat ≠ []) (src : Bytes) :
    Scan.Tokenises pat src (split src pat) := by
  have hlen : 0 < pat.length := List.length_pos_iff.mpr hpat
  -- By induction on the length: every token shortens the string.
  induction hn : src.length using Nat.strong_induction_on generalizing src with
  | h n ih =>
      rw [split_eq hpat]
      cases hfind : find pat src with
      | none =>
          by_cases hnil : src = []
          · rw [hnil]
            exact Scan.Tokenises.empty
          · simp only [List.isEmpty_iff, hnil, if_false]
            exact Scan.Tokenises.rest hnil (find_none hpat hfind)
      | some i =>
          have hle := find_le hpat hfind
          refine Scan.Tokenises.token (find_leftmost hfind) (ih _ ?_ _ rfl)
          rw [List.length_drop]
          omega

/-! ## The positions -/

namespace Positions

theorem toInt_of_lt {n : Nat} (h : n < 2 ^ 31) : toInt n = n := by
  unfold toInt
  rw [Int.bmod_eq_of_le] <;> omega

theorem toSize_natCast {n : Nat} (h : n < 2 ^ 31) : toSize n = n := by
  unfold toSize
  omega

theorem checked_natCast {n : Nat} (h : n < 2 ^ 31) : checked n = some (n : Int) := by
  unfold checked
  rw [if_pos (by omega)]

section

variable {src pat : Bytes} {pos : Nat} (hsrc : src.length < 2 ^ 31) (hpat : pat ≠ [])
  (hpos : pos ≤ src.length) (fuel : Nat) (strs : List Bytes)

include hsrc hpos

theorem findFrom_none (hfind : find pat (src.drop pos) = none) :
    findFrom src pat (toSize pos) = npos := by
  rw [toSize_natCast (by omega), findFrom, if_neg (by omega), hfind]

theorem findFrom_some {i : Nat} (hfind : find pat (src.drop pos) = some i) :
    findFrom src pat (toSize pos) = pos + i := by
  rw [toSize_natCast (by omega), findFrom, if_neg (by omega), hfind]

theorem substr_toSize {n : Nat} (hn : n < 2 ^ 31) :
    substr src (toSize pos) (toSize n) = some ((src.drop pos).take n) := by
  rw [toSize_natCast (by omega), toSize_natCast hn, substr, if_pos hpos]

theorem substr_npos : substr src (toSize pos) npos = some (src.drop pos) := by
  have hall : (src.drop pos).take npos = src.drop pos :=
    List.take_of_length_le (by rw [List.length_drop, npos]; omega)
  rw [toSize_natCast (by omega), substr, if_pos hpos, hall]

/-- The last iteration: `npos` is `-1`, and the rest of the string is a token. -/
theorem loop_last (hfind : find pat (src.drop pos) = none) :
    loop src pat (toInt pat.length) (fuel + 1) pos strs
      = some (if (src.drop pos).isEmpty then strs else strs ++ [src.drop pos]) := by
  have hend : toInt npos = -1 := by decide
  rw [loop, findFrom_none hsrc hpos hfind]
  simp only [hend, if_true, substr_npos hsrc hpos, Option.bind_eq_bind, Option.bind_some]

include hpat in
/-- Every other: nothing overflows, and the next position is in the string. -/
theorem loop_token {i : Nat} (hfind : find pat (src.drop pos) = some i) :
    loop src pat (toInt pat.length) (fuel + 1) pos strs
      = loop src pat (toInt pat.length) fuel ((pos + (i + pat.length) : Nat) : Int)
        (strs ++ [(src.drop pos).take i]) := by
  have hle := find_le hpat hfind
  rw [List.length_drop] at hle
  have hindex : toInt (pos + i) = ((pos + i : Nat) : Int) := toInt_of_lt (by omega)
  have hn : checked (((pos + i : Nat) : Int) - pos) = some (i : Int) := by
    rw [show ((pos + i : Nat) : Int) - pos = (i : Nat) by omega]
    exact checked_natCast (by omega)
  have hnext : checked (((pos + i : Nat) : Int) + toInt pat.length)
      = some ((pos + (i + pat.length) : Nat) : Int) := by
    rw [toInt_of_lt (by omega), ← Nat.cast_add, Nat.add_assoc]
    exact checked_natCast (by omega)
  rw [loop, findFrom_some hsrc hpos hfind]
  simp only [hindex]
  rw [if_neg (by omega), hn, hnext]
  simp only [substr_toSize hsrc hpos (show i < 2 ^ 31 by omega), Option.bind_eq_bind,
    Option.bind_some]

end

/-- From a position in the string the loop appends the tokens of what follows it. -/
theorem loop_eq {src pat : Bytes} (hsrc : src.length < 2 ^ 31) (hpat : pat ≠ []) (fuel : Nat)
    {pos : Nat} (hpos : pos ≤ src.length) (hfuel : src.length - pos < fuel)
    (strs : List Bytes) :
    loop src pat (toInt pat.length) fuel pos strs
      = some (strs ++ Yfs.split (src.drop pos) pat) := by
  have hlen : 0 < pat.length := List.length_pos_iff.mpr hpat
  induction fuel generalizing pos strs with
  | zero => omega
  -- One more iteration; the fuel is counted by what is left of the string.
  | succ fuel ih =>
      rw [split_eq hpat]
      cases hfind : find pat (src.drop pos) with
      | none =>
          rw [loop_last hsrc hpos fuel strs hfind]
          by_cases hnil : (src.drop pos).isEmpty = true
          · simp only [hnil, if_true, List.append_nil]
          · simp only [hnil, Bool.false_eq_true, if_false]
      | some i =>
          have hle := find_le hpat hfind
          rw [List.length_drop] at hle
          rw [loop_token hsrc hpat hpos fuel strs hfind, ih (by omega) (by omega),
            List.append_assoc, List.singleton_append]
          simp only [List.drop_drop]

end Positions

/-- Enough fuel for one iteration a byte, and the loop over positions has ended. -/
theorem positions_split_eq {src pat : Bytes} (hsrc : src.length < 2 ^ 31) (hpat : pat ≠ [])
    {fuel : Nat} (hfuel : src.length < fuel) :
    Positions.split fuel src pat = some (split src pat) := by
  have h := Positions.loop_eq hsrc hpat fuel (Nat.zero_le _) (by omega) []
  rw [List.nil_append, List.drop_zero] at h
  exact h

/-- `split` ends, no token contains the separator, and joined by it the tokens are the string again,
    but for a separator that the scan matches at the very end: the source drops an empty last token.
    The positions of the source are `int`s, so the string has to be shorter than `2 ^ 31`. -/
theorem split_lossless {src pat : Bytes} (hsrc : src.length < 2 ^ 31) (hpat : pat ≠ []) :
    ∃ tokens, (∀ fuel, src.length < fuel → Positions.split fuel src pat = some tokens) ∧
      (∀ t ∈ tokens, ¬ pat <:+: t) ∧
      (¬ Scan.EndsInMatch pat src → pat.intercalate tokens = src) ∧
      (Scan.EndsInMatch pat src → pat.intercalate tokens ++ pat = src) := by
  have htokens := split_tokenises hpat src
  exact ⟨split src pat, fun fuel hfuel => positions_split_eq hsrc hpat hfuel,
    htokens.separator_free hpat, htokens.join hpat⟩

/-- `aaaXaaa` split at `aa`. The string ends in `aa`, but the last match is one byte before,
    and the byte that follows it is a token. -/
theorem split_lossless_overlap :
    ¬ Scan.EndsInMatch [97, 97] ([97, 97, 97, 88, 97, 97, 97] : Bytes) ∧
      ∃ tokens : List Bytes,
        Positions.split 8 [97, 97, 97, 88, 97, 97, 97] [97, 97] = some tokens ∧
        tokens.getLast? = some [97] ∧
        List.intercalate [97, 97] tokens = [97, 97, 97, 88, 97, 97, 97] := by
  have hne : ([97, 97] : Bytes) ≠ [] := List.cons_ne_nil _ _
  have hnot : ¬ Scan.EndsInMatch [97, 97] ([97, 97, 97, 88, 97, 97, 97] : Bytes) := by
    -- The matches are at 0 and, behind it, at 2.
    rw [Scan.endsInMatch_iff (find_leftmost (show find _ _ = some 0 from rfl)) hne,
      Scan.endsInMatch_iff (find_leftmost (show find _ _ = some 2 from rfl)) hne]
    rintro (h | h | h)
    · cases h
    · cases h
    · exact Scan.not_endsInMatch (find_none hne rfl) h
  have hlen : ([97, 97, 97, 88, 97, 97, 97] : Bytes).length < 2 ^ 31 := by decide
  rcases split_lossless hlen hne with ⟨tokens, hsplit, _, hjoin, _⟩
  refine ⟨hnot, tokens, hsplit 8 (by decide), ?_, hjoin hnot⟩
  have hsame := (hsplit 8 (by decide)).symm.trans (positions_split_eq hlen hne (by decide))
  rw [Option.some.inj hsame]
  rfl

end Yfs
