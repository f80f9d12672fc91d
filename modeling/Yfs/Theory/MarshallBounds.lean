import Yfs.Theory.Containers

/-!
# The Bounds of the Marshall Buffer

Any sequence of calls on a fresh `marshall`: single bytes, blocks of bytes, values and
headers, in any order.

A store beyond the capacity is not defined in the model, and neither is a capacity that
is no `int`, so that all calls of a sequence succeed says that every byte was stored
below the capacity of that moment. What is kept between calls is `Holds`: the write
position is between the end of the header area and the capacity, and the bytes between
them are what has been written. A header goes below that area and leaves it alone.

The bound on what is written counts the header area. The capacity reaches `2 ^ 30` with
24 bytes less written, and a capacity of `2 ^ 30` cannot be doubled.

## Main definitions

* `MarshallCall.written`: What a call adds to the content.
* `Holds`: The buffer between two calls.

## Theorems

* `perform_holds`: One call.
* `buffer_bounds`: All of them.
* `rawbytes_overflow`: Two blocks that are too long with the header area.
-/

namespace Yfs

open Marshall

/-- What a call adds to the content. -/
def MarshallCall.written : MarshallCall → List UInt8
  | .rawbyte x => [x]
  | .rawbytes p => p
  | .put v => v.1.wire v.2
  | .pack _ => []

namespace Marshall

/-- The buffer between two calls, with its content behind the header area. -/
structure Holds (m : Marshall) (content : List UInt8) : Prop where
  good : m.Good
  header : rpcHeaderSz ≤ m.ind
  content : m.buf.drop rpcHeaderSz = content

theorem new_holds : new.Holds [] :=
  ⟨new_good, Nat.le_refl _, rfl⟩

/-- The write position is behind the header area and the content. -/
theorem Holds.ind_eq {m : Marshall} {content : List UInt8} (h : m.Holds content) :
    m.ind = rpcHeaderSz + content.length := by
  have hlen := congrArg List.length h.content
  have hind := h.header
  rw [List.length_drop, h.good.length] at hlen
  omega

/-- Writing behind the content. The header area is in front of it and stays as it is. -/
theorem Holds.appends {m m' : Marshall} {content p : List UInt8} (h : m.Holds content)
    (ha : Appends m m' p) : m'.Holds (content ++ p) := by
  have hind := h.header
  refine ⟨ha.good, ?_, ?_⟩
  · rw [ha.ind_eq h.good]
    omega
  · rw [ha.buf, List.drop_append_of_le_length (by rw [h.good.length]; exact hind), h.content]

/-- A header changes neither the write position nor what is behind the header area: it is written
    from the front of the buffer, and its words fit into the area. -/
theorem packHeader_good (m : Marshall) (hm : m.Good) (hind : rpcHeaderSz ≤ m.ind) (h : Header) :
    ∃ m', m.packHeader h = some m' ∧ m'.Good ∧ m'.ind = m.ind ∧
      m'.buf.drop rpcHeaderSz = m.buf.drop rpcHeaderSz := by
  rw [packHeader_eq]
  exact packWords_good m hm hind h.words h.length_words

/-- One call, within the bound. The buffer grows by its capacity or by what is to be written,
    whichever is more, and below `2 ^ 30` the new capacity is still an `int`. -/
theorem perform_holds (m : Marshall) (content : List UInt8) (h : m.Holds content)
    (call : MarshallCall) (hfits : m.ind + call.written.length ≤ 2 ^ 30) :
    ∃ m', m.perform call = some m' ∧ m'.Holds (content ++ call.written) := by
  have hpos : 0 < m.ind := Nat.lt_of_lt_of_le (by decide) h.header
  cases call with
  | rawbyte x =>
      rcases rawbyte_fits m h.good hpos x hfits with ⟨m', hm'⟩
      exact ⟨m', hm', h.appends (rawbyte_appends m h.good x m' hm')⟩
  | rawbytes p =>
      rcases rawbytes_fits p m h.good hfits with ⟨m', hm', ha⟩
      exact ⟨m', hm', h.appends ha⟩
  | put v =>
      rcases (Ty.codes v.1).puts m v.2 h.good hpos hfits with ⟨m', hm', ha⟩
      exact ⟨m', hm', h.appends ha⟩
  | pack hd =>
      rcases packHeader_good m h.good h.header hd with ⟨m', hm', hgood, hind, hdrop⟩
      refine ⟨m', hm', hgood, ?_, ?_⟩
      · rw [hind]
        exact h.header
      · rw [hdrop, h.content]
        exact (List.append_nil content).symm

/-- Calls one after another. The induction carries the content so far, from which the write position
    follows. -/
theorem performAll_holds (calls : List MarshallCall) (m : Marshall) (content : List UInt8)
    (h : m.Holds content)
    (hfits : m.ind + (calls.flatMap MarshallCall.written).length ≤ 2 ^ 30) :
    ∃ m', m.performAll calls = some m' ∧
      m'.Holds (content ++ calls.flatMap MarshallCall.written) := by
  induction calls generalizing m content with
  | nil => exact ⟨m, rfl, by rw [List.flatMap_nil, List.append_nil]; exact h⟩
  | cons call calls ih =>
      rw [List.flatMap_cons, List.length_append] at hfits
      rcases perform_holds m content h call (by omega) with ⟨m₁, h₁, hh₁⟩
      -- What is left to write is counted from the position after the first call.
      have hind := h.ind_eq
      have hind₁ := hh₁.ind_eq
      rw [List.length_append] at hind₁
      rcases ih m₁ _ hh₁ (by omega) with ⟨m', h', hh'⟩
      refine ⟨m', ?_, ?_⟩
      · rw [performAll, h₁, Option.bind_eq_bind, Option.bind_some, h']
      · rw [List.flatMap_cons, ← List.append_assoc]
        exact hh'

/-- Every sequence of calls that writes no more than `2 ^ 30` bytes, the header area
    included, is carried out. Afterwards the write position is between the header area
    and the capacity, the content is all that was written, and packing a header changes
    neither. -/
theorem buffer_bounds (calls : List MarshallCall)
    (hfits : rpcHeaderSz + (calls.flatMap MarshallCall.written).length ≤ 2 ^ 30) :
    ∃ m, Marshall.new.performAll calls = some m ∧ rpcHeaderSz ≤ m.ind ∧ m.ind ≤ m.capa ∧
      m.pdu.drop rpcHeaderSz = calls.flatMap MarshallCall.written ∧
      ∀ h, ∃ m', m.packHeader h = some m' ∧ m'.ind = m.ind ∧
        m'.buf.drop rpcHeaderSz = m.buf.drop rpcHeaderSz := by
  rcases performAll_holds calls new [] new_holds hfits with ⟨m, hm, hh⟩
  refine ⟨m, hm, hh.header, hh.good.capa, ?_, ?_⟩
  · rw [pdu, ← hh.good.length, List.take_length, hh.content, List.nil_append]
  · intro h
    rcases packHeader_good m hh.good hh.header h with ⟨m', hm', _, hind, hdrop⟩
    exact ⟨m', hm', hind, hdrop⟩

theorem buffer_bounds_three_calls :
    ∃ m, Marshall.new.performAll [.rawbyte 7, .rawbytes [1, 2], .pack (.reply ⟨1, 0⟩)] = some m ∧
      rpcHeaderSz ≤ m.ind ∧ m.ind ≤ m.capa ∧ m.pdu.drop rpcHeaderSz = [7, 1, 2] ∧
      ∀ h, ∃ m', m.packHeader h = some m' ∧ m'.ind = m.ind ∧
        m'.buf.drop rpcHeaderSz = m.buf.drop rpcHeaderSz :=
  buffer_bounds [.rawbyte 7, .rawbytes [1, 2], .pack (.reply ⟨1, 0⟩)] (by decide)

/-- A block that makes the capacity exactly `2 ^ 30`, and one that is a byte too long for
    what is left. -/
theorem rawbytes_rawbytes_overflow (p q : List UInt8) (hp : p.length = 2 ^ 30 - 1024)
    (hq : q.length = 1001) : Marshall.new.performAll [.rawbytes p, .rawbytes q] = none := by
  have hfirst : ∃ m, Marshall.new.rawbytes p = some m ∧ m.ind = 2 ^ 30 - 1000 ∧
      m.capa = 2 ^ 30 := by
    have hres : new.reserveBytes p.length = some { new with capa := 2 ^ 30 } := by
      unfold reserveBytes
      rw [hp, if_neg (by decide), if_pos (by decide), if_neg (by decide), grow,
        if_pos (by decide)]
      rfl
    have hroom : rpcHeaderSz + p.length ≤ 2 ^ 30 := by
      rw [hp]
      decide
    have hgood : Good { new with capa := 2 ^ 30 } := ⟨new_good.length, by decide, by decide⟩
    rcases store_of_room { new with capa := 2 ^ 30 } p hroom with ⟨m, hm⟩
    rcases store_appends _ hgood p m hm with ⟨ha, hcapa⟩
    refine ⟨m, ?_, ?_, hcapa⟩
    · rw [rawbytes, hres, Option.bind_eq_bind, Option.bind_some, hm]
    · rw [ha.ind_eq hgood, hp]
      rfl
  rcases hfirst with ⟨m, hm, hind, hcapa⟩
  have hsecond : m.rawbytes q = none := by
    rw [rawbytes, reserveBytes, hq, hind, hcapa, if_neg (by decide), if_pos (by decide),
      if_pos (by decide), grow, if_neg (by decide)]
    rfl
  rw [performAll, perform, hm, Option.bind_eq_bind, Option.bind_some, performAll, perform,
    hsecond]
  rfl

/-- `2 ^ 30 - 23` bytes that cannot be written. -/
theorem rawbytes_overflow :
    ∃ calls : List MarshallCall, (calls.flatMap MarshallCall.written).length < 2 ^ 30 ∧
      Marshall.new.performAll calls = none := by
  refine ⟨[.rawbytes (List.replicate (2 ^ 30 - 1024) 0), .rawbytes (List.replicate 1001 0)],
    ?_, ?_⟩
  · rw [List.flatMap_cons, List.flatMap_cons, List.flatMap_nil, List.append_nil,
      List.length_append, MarshallCall.written, MarshallCall.written, List.length_replicate,
      List.length_replicate]
    decide
  · exact rawbytes_rawbytes_overflow _ _ List.length_replicate List.length_replicate

end Marshall

end Yfs
