import Mathlib.Data.List.Basic
import Mathlib.Data.List.TakeDrop

/-!
# Framed Streams

A stream that carries frames one after another. The writer of the stream may stop
anywhere, so the stream is a prefix of the concatenated frames; a reader that is at
offset `i` of frame number `j` has consumed the frames before it and `i` more
elements. What it reads next is then what frame `j` has there, however the stream
was cut when it was written and however it is cut when it is read.

## Theorems

* `flatten_take_succ`: One more frame.
* `exists_frame`: A stream that goes on has another frame.
* `slice_eq`: A piece of the stream inside a frame is a piece of the frame.
-/

namespace Yfs

namespace Stream

variable {α : Type}

theorem flatten_take_succ {frames : List (List α)} {j : Nat} {f : List α}
    (hf : frames[j]? = some f) :
    (frames.take (j + 1)).flatten = (frames.take j).flatten ++ f := by
  rw [List.take_add_one, hf, Option.toList_some, List.flatten_append, List.flatten_singleton]

/-- A stream longer than its first `j` frames carries a frame number `j`. -/
theorem exists_frame {frames : List (List α)} {stream : List α} {j : Nat}
    (h : stream <+: frames.flatten) (hlt : (frames.take j).flatten.length < stream.length) :
    ∃ f, frames[j]? = some f := by
  by_cases hj : j < frames.length
  · exact ⟨frames[j], List.getElem?_eq_getElem hj⟩
  · rw [List.take_of_length_le (by omega)] at hlt
    have hle := h.length_le
    omega

/-- What comes behind a list does not change a piece of it. -/
theorem slice_append {l more : List α} {a n : Nat} (h : a + n ≤ l.length) :
    ((l ++ more).drop a).take n = (l.drop a).take n := by
  rw [List.drop_append_of_le_length (by omega)]
  exact List.take_append_of_le_length (by rw [List.length_drop]; omega)

/-- Reading inside a frame. -/
theorem slice_eq {frames : List (List α)} {stream f : List α} {j i n : Nat}
    (h : stream <+: frames.flatten) (hf : frames[j]? = some f) (hi : i + n ≤ f.length)
    (hn : (frames.take j).flatten.length + i + n ≤ stream.length) :
    (stream.drop ((frames.take j).flatten.length + i)).take n = (f.drop i).take n := by
  rcases h with ⟨more, hmore⟩
  -- The frames before, the frame itself, and what comes behind it.
  have hsplit : frames.flatten
      = (frames.take j).flatten ++ (f ++ (frames.drop (j + 1)).flatten) := by
    rw [← List.append_assoc, ← flatten_take_succ hf, ← List.flatten_append, List.take_append_drop]
  calc (stream.drop ((frames.take j).flatten.length + i)).take n
      = ((stream ++ more).drop ((frames.take j).flatten.length + i)).take n :=
        (slice_append hn).symm
    _ = ((f ++ (frames.drop (j + 1)).flatten).drop i).take n := by
        rw [hmore, hsplit, List.drop_length_add_append]
    _ = (f.drop i).take n := slice_append hi

end Stream

end Yfs
