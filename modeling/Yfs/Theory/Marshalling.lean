import Yfs.Core.Marshall

/-!
# Marshalling Round Trip

What the writer leaves in the buffer and what the reader takes out of it. Both
sides are stated over the bytes of a value on the wire (`WireVal.wire`): a write
that succeeds appends them (`put_appends`), whatever reallocation it went through,
and a reader whose next bytes they are returns the value and stops behind them
(`get_rest`).

`Good` is what holds of the output buffer between two calls. A header is packed
behind the writer's back, over bytes that were reserved for it, so it is the one
write that does not append; `rawbyteAll_overwrite` covers it.

## Main definitions

* `WireVal.wire`: The bytes of a value.
* `Marshall.Good`, `Marshall.Appends`: The output buffer between calls, and one
  write.
* `Unmarshall.rest`, `Unmarshall.skip`: What is left to read, and reading past it.

## Theorems

* `put_appends`, `putAll_appends`: A write that succeeds appends the wire bytes.
* `packWords_eq`, `packWords_good`: A header does not disturb the payload.
* `get_rest`, `getAll_rest`: Wire bytes are read back.
* `getAll_types`: What is read has the types it is read at.
-/

namespace Yfs

/-- The bytes of a value on the wire. -/
def WireVal.wire : WireVal → List UInt8
  | .bool x => [if x then 1 else 0]
  | .char x => [x.toUInt8]
  | .uchar x => [x]
  | .short x => Word.be16 x.toUInt16
  | .ushort x => Word.be16 x
  | .int x => Word.be32 x.toUInt32
  | .uint x => Word.be32 x
  | .ull x => Word.be64 x
  | .string s => Word.be32 (UInt32.ofNat s.length) ++ s
  | .attr a => Word.be32 a.atime ++ Word.be32 a.mtime ++ Word.be32 a.ctime ++ Word.be32 a.size

namespace Marshall

/-- Between two calls the write position is the end of what was written, inside
    the capacity. -/
structure Good (m : Marshall) : Prop where
  length : m.buf.length = m.ind
  capa : m.ind ≤ m.capa
  int : m.capa < 2 ^ 31

/-- `m'` is `m` with `p` written after it. -/
structure Appends (m m' : Marshall) (p : List UInt8) : Prop where
  good : m'.Good
  buf : m'.buf = m.buf ++ p

/-- What is written one after the other is one piece. -/
theorem Appends.trans {m m₁ m₂ : Marshall} {p q : List UInt8} (h₁ : Appends m m₁ p)
    (h₂ : Appends m₁ m₂ q) : Appends m m₂ (p ++ q) :=
  ⟨h₂.good, by rw [h₂.buf, h₁.buf, List.append_assoc]⟩

theorem new_good : new.Good := by
  refine ⟨?_, ?_, ?_⟩ <;> decide

/-- A store with room behind a good buffer appends. -/
theorem store_appends (m : Marshall) (hm : m.Good) (p : List UInt8) (m' : Marshall)
    (h : m.store p = some m') : Appends m m' p ∧ m'.capa = m.capa := by
  simp only [store] at h
  split at h
  · rename_i hle
    cases h
    have hlen := hm.length
    refine ⟨⟨⟨?_, hle, hm.int⟩, ?_⟩, rfl⟩
    · simp only [List.length_append, List.length_take, List.length_drop]
      omega
    · -- The write position is the end, so nothing is kept behind it.
      rw [← hlen, List.take_length, List.drop_eq_nil_of_le (by omega), List.append_nil]
  · exact absurd h (by simp only [reduceCtorEq, not_false_eq_true])

theorem store_of_room (m : Marshall) (p : List UInt8) (hle : m.ind + p.length ≤ m.capa) :
    ∃ m', m.store p = some m' :=
  ⟨_, if_pos hle⟩

theorem grow_iff (m : Marshall) (capa : Nat) (m' : Marshall) :
    m.grow capa = some m' ↔ capa < 2 ^ 31 ∧ m' = { m with capa := capa } := by
  rw [grow, Option.ite_none_right_eq_some, Option.some.injEq]
  exact and_congr_right fun _ => eq_comm

/-- A larger allocation keeps what was written. -/
theorem grow_good (m : Marshall) (hm : m.Good) (capa : Nat) (hle : m.ind ≤ capa) (m' : Marshall)
    (h : m.grow capa = some m') : m'.Good ∧ m'.buf = m.buf := by
  rcases (grow_iff m capa m').mp h with ⟨hint, rfl⟩
  exact ⟨⟨hm.length, hle, hint⟩, rfl⟩

theorem reserveByte_good (m : Marshall) (hm : m.Good) (m' : Marshall)
    (h : m.reserveByte = some m') : m'.Good ∧ m'.buf = m.buf := by
  have hcapa := hm.capa
  simp only [reserveByte] at h
  split at h
  · exact grow_good m hm _ (by omega) m' h
  · cases h
    exact ⟨hm, rfl⟩

/-- Reserving keeps what was written, whether the allocation doubles or grows by the request. -/
theorem reserveBytes_good (m : Marshall) (hm : m.Good) (n : Nat) (m' : Marshall)
    (h : m.reserveBytes n = some m') : m'.Good ∧ m'.buf = m.buf := by
  have hcapa := hm.capa
  simp only [reserveBytes] at h
  split at h
  · exact absurd h (by simp only [reduceCtorEq, not_false_eq_true])
  · split at h
    · exact grow_good m hm _ (by split <;> omega) m' h
    · cases h
      exact ⟨hm, rfl⟩

/-- The reserved room is enough. -/
theorem reserveBytes_room (m : Marshall) (hm : m.Good) (n : Nat) (m' : Marshall)
    (h : m.reserveBytes n = some m') : m'.ind + n ≤ m'.capa := by
  have hcapa := hm.capa
  simp only [reserveBytes] at h
  split at h
  · cases h
  · split at h
    · have hgrow := (grow_iff m _ m').mp h
      rw [hgrow.2]
      simp only
      -- Doubling is enough where it is chosen.
      split <;> omega
    · cases h
      omega

theorem rawbyte_appends (m : Marshall) (hm : m.Good) (x : UInt8) (m' : Marshall)
    (h : m.rawbyte x = some m') : Appends m m' [x] := by
  simp only [rawbyte, Option.bind_eq_bind, Option.bind_eq_some_iff] at h
  rcases h with ⟨m₁, h₁, h₂⟩
  rcases reserveByte_good m hm m₁ h₁ with ⟨hg, hb⟩
  have ha := (store_appends m₁ hg [x] m' h₂).1
  exact ⟨ha.good, by rw [ha.buf, hb]⟩

theorem rawbytes_appends (m : Marshall) (hm : m.Good) (p : List UInt8) (m' : Marshall)
    (h : m.rawbytes p = some m') : Appends m m' p := by
  simp only [rawbytes, Option.bind_eq_bind, Option.bind_eq_some_iff] at h
  rcases h with ⟨m₁, h₁, h₂⟩
  rcases reserveBytes_good m hm p.length m₁ h₁ with ⟨hg, hb⟩
  have ha := (store_appends m₁ hg p m' h₂).1
  exact ⟨ha.good, by rw [ha.buf, hb]⟩

/-- Byte by byte, with a reservation in front of each. -/
theorem rawbyteAll_appends (xs : List UInt8) (m : Marshall) (hm : m.Good) (m' : Marshall)
    (h : m.rawbyteAll xs = some m') : Appends m m' xs := by
  induction xs generalizing m with
  | nil =>
      cases h
      exact ⟨hm, (List.append_nil _).symm⟩
  | cons x xs ih =>
      simp only [rawbyteAll, Option.bind_eq_bind, Option.bind_eq_some_iff] at h
      rcases h with ⟨m₁, h₁, h₂⟩
      have ha := rawbyte_appends m hm x m₁ h₁
      exact ha.trans (ih m₁ ha.good h₂)

/-- A list of bytes can be written in two parts. -/
theorem rawbyteAll_append (xs ys : List UInt8) (m : Marshall) :
    m.rawbyteAll (xs ++ ys) = (m.rawbyteAll xs).bind fun m' => m'.rawbyteAll ys := by
  induction xs generalizing m with
  | nil => rfl
  | cons x xs ih =>
      simp only [List.cons_append, rawbyteAll, Option.bind_eq_bind, Option.bind_assoc]
      congr 1
      funext m'
      exact ih m'

/-- Everything but a string is written byte by byte. A string is copied behind its length, and can
    therefore reserve more than it needs. -/
theorem put_eq_rawbyteAll (m : Marshall) (v : WireVal) (hv : v.type ≠ .string) :
    m.put v = m.rawbyteAll v.wire := by
  have hone : ∀ x, m.rawbyte x = m.rawbyteAll [x] := fun x => by
    simp only [rawbyteAll, Option.bind_eq_bind, Option.bind_fun_some]
  cases v with
  | bool x => exact hone _
  | char x => exact hone _
  | uchar x => exact hone _
  | ull x =>
      simp only [put, putUint, WireVal.wire, Word.be64, rawbyteAll_append, Option.bind_eq_bind]
  | attr a =>
      simp only [put, putUint, WireVal.wire, rawbyteAll_append, Option.bind_eq_bind,
        Option.bind_assoc]
  | string s => exact absurd rfl hv
  | _ => rfl

/-- A value that is written is written as its wire bytes. Nothing is said here of when it can be
    written. -/
theorem put_appends (m : Marshall) (hm : m.Good) (v : WireVal) (m' : Marshall)
    (h : m.put v = some m') : Appends m m' v.wire := by
  by_cases hv : v.type = .string
  · cases v with
    | string s =>
        simp only [put, Option.bind_eq_bind, Option.bind_eq_some_iff] at h
        rcases h with ⟨m₁, h₁, h₂⟩
        have ha := rawbyteAll_appends _ m hm m₁ h₁
        exact ha.trans (rawbytes_appends m₁ ha.good s m' h₂)
    | _ => cases hv
  · rw [put_eq_rawbyteAll m v hv] at h
    exact rawbyteAll_appends _ m hm m' h

/-- And values are written one behind the other. -/
theorem putAll_appends (vs : List WireVal) (m : Marshall) (hm : m.Good) (m' : Marshall)
    (h : m.putAll vs = some m') : Appends m m' (vs.flatMap WireVal.wire) := by
  induction vs generalizing m with
  | nil =>
      cases h
      exact ⟨hm, (List.append_nil _).symm⟩
  | cons v vs ih =>
      simp only [putAll, Option.bind_eq_bind, Option.bind_eq_some_iff] at h
      rcases h with ⟨m₁, h₁, h₂⟩
      have ha := put_appends m hm v m₁ h₁
      rw [List.flatMap_cons]
      exact ha.trans (ih m₁ ha.good h₂)

/-- Bytes for which there is room are written without a reallocation. -/
theorem rawbyteAll_room (xs : List UInt8) (m : Marshall) (hm : m.Good)
    (hroom : m.ind + xs.length ≤ m.capa) :
    ∃ m', m.rawbyteAll xs = some m' ∧ m'.capa = m.capa ∧ m'.ind = m.ind + xs.length := by
  induction xs generalizing m with
  | nil => exact ⟨m, rfl, rfl, rfl⟩
  | cons x xs ih =>
      rw [List.length_cons] at hroom
      -- The byte fits, so the reservation in front of it does nothing.
      have hres : m.reserveByte = some m := if_neg (by omega)
      rcases store_of_room m [x] (by rw [List.length_singleton]; omega) with ⟨m₁, h₁⟩
      rcases store_appends m hm [x] m₁ h₁ with ⟨ha, hc⟩
      have hind : m₁.ind = m.ind + 1 := by
        rw [← ha.good.length, ha.buf, List.length_append, hm.length, List.length_singleton]
      rcases ih m₁ ha.good (by omega) with ⟨m', h', hc', hi'⟩
      refine ⟨m', ?_, by rw [hc', hc], by rw [hi', hind, List.length_cons]; omega⟩
      simp only [rawbyteAll, rawbyte, hres, Option.bind_eq_bind, Option.bind_some, h₁, h']

/-- Bytes written over earlier ones replace them. -/
theorem rawbyteAll_overwrite (xs : List UInt8) (m : Marshall)
    (hin : m.ind + xs.length ≤ m.buf.length) (hcapa : m.buf.length ≤ m.capa) :
    m.rawbyteAll xs = some { m with
      buf := m.buf.take m.ind ++ xs ++ m.buf.drop (m.ind + xs.length)
      ind := m.ind + xs.length } := by
  induction xs generalizing m with
  | nil =>
      simp only [rawbyteAll, List.append_nil, List.length_nil, Nat.add_zero,
        List.take_append_drop]
  | cons x xs ih =>
      rw [List.length_cons] at hin
      have hres : m.reserveByte = some m := if_neg (by omega)
      have hstore : m.store [x] = some { m with
          buf := m.buf.take m.ind ++ [x] ++ m.buf.drop (m.ind + 1), ind := m.ind + 1 } :=
        if_pos (by rw [List.length_singleton]; omega)
      have htake : (m.buf.take m.ind).length = m.ind := List.length_take_of_le (by omega)
      have hlen : (m.buf.take m.ind ++ [x] ++ m.buf.drop (m.ind + 1)).length = m.buf.length := by
        simp only [List.length_append, htake, List.length_singleton, List.length_drop]
        omega
      simp only [rawbyteAll, rawbyte, hres, Option.bind_eq_bind, Option.bind_some, hstore]
      rw [ih _ (by rw [hlen]; simp only; omega) (by rw [hlen]; exact hcapa)]
      -- One byte further on: the part in front has grown by it, the tail is the same.
      have hfront : (m.buf.take m.ind ++ [x] ++ m.buf.drop (m.ind + 1)).take (m.ind + 1)
          = m.buf.take m.ind ++ [x] :=
        List.take_left' (by rw [List.length_append, htake, List.length_singleton])
      have hback : (m.buf.take m.ind ++ [x] ++ m.buf.drop (m.ind + 1)).drop
          (m.ind + 1 + xs.length) = m.buf.drop (m.ind + 1 + xs.length) := by
        rw [← List.drop_drop, List.drop_left' (by
          rw [List.length_append, htake, List.length_singleton]), List.drop_drop]
      simp only [hfront, hback]
      rw [List.length_cons, show m.ind + 1 + xs.length = m.ind + (xs.length + 1) by omega,
        List.append_assoc (m.buf.take m.ind) [x] xs, List.singleton_append]

theorem length_flatMap_be32 (ws : List UInt32) :
    (ws.flatMap Word.be32).length = 4 * ws.length := by
  induction ws with
  | nil => rfl
  | cons w ws ih =>
      rw [List.flatMap_cons, List.length_append, ih, List.length_cons]
      simp only [Word.be32, List.length_cons, List.length_nil]
      omega

/-- Words that fit the header area replace what is behind the size field. -/
theorem packWords_eq (m : Marshall) (hm : m.Good) (hind : rpcHeaderSz ≤ m.ind)
    (ws : List UInt32) (hws : ws.length ≤ 5) :
    m.packWords ws = some { m with
      buf := m.buf.take rpcSzSz ++ ws.flatMap Word.be32
        ++ m.buf.drop (rpcSzSz + 4 * ws.length) } := by
  have hlen := length_flatMap_be32 ws
  have hsz : rpcHeaderSz = 24 := rfl
  have hsz' : rpcSzSz = 4 := rfl
  have hl := hm.length
  have hc := hm.capa
  have hover := rawbyteAll_overwrite (ws.flatMap Word.be32) { m with ind := rpcSzSz }
    (by simp only [hlen]; omega) (by simp only; omega)
  simp only [hlen] at hover
  simp only [packWords, hover, Option.bind_eq_bind, Option.bind_some]

/-- Packing a header that fits the header area leaves what follows it alone. The write position goes
    back to the size field and is put where it was. -/
theorem packWords_good (m : Marshall) (hm : m.Good) (hind : rpcHeaderSz ≤ m.ind)
    (ws : List UInt32) (hws : ws.length ≤ 5) :
    ∃ m', m.packWords ws = some m' ∧ m'.Good ∧ m'.ind = m.ind ∧
      m'.buf.drop rpcHeaderSz = m.buf.drop rpcHeaderSz := by
  have hlen := length_flatMap_be32 ws
  have hsz : rpcHeaderSz = 24 := rfl
  have hsz' : rpcSzSz = 4 := rfl
  have hl := hm.length
  refine ⟨_, packWords_eq m hm hind ws hws, ⟨?_, hm.capa, hm.int⟩, rfl, ?_⟩
  · simp only [List.length_append, List.length_take, List.length_drop, hlen]
    omega
  · have hfront : (m.buf.take rpcSzSz ++ ws.flatMap Word.be32).length
        = rpcSzSz + 4 * ws.length := by
      rw [List.length_append, hlen, List.length_take_of_le (by omega)]
    -- The words end inside the header area.
    obtain ⟨d, hd⟩ : ∃ d, rpcHeaderSz = rpcSzSz + 4 * ws.length + d :=
      ⟨rpcHeaderSz - (rpcSzSz + 4 * ws.length), by omega⟩
    rw [hd, ← List.drop_drop, List.drop_left' hfront, List.drop_drop]

end Marshall

namespace Unmarshall

/-- The reader `n` bytes further on. -/
def skip (u : Unmarshall) (n : Nat) : Unmarshall :=
  { u with ind := u.ind + n }

/-- What is left to read. -/
def rest (u : Unmarshall) : List UInt8 :=
  u.buf.drop u.ind

theorem skip_skip (u : Unmarshall) (m n : Nat) : (u.skip m).skip n = u.skip (m + n) := by
  simp only [skip, Nat.add_assoc]

/-- After a piece is read, what follows it is left to read. -/
theorem rest_skip (u : Unmarshall) (p q : List UInt8) (h : u.rest = p ++ q) :
    (u.skip p.length).rest = q := by
  have hd : (u.skip p.length).rest = u.rest.drop p.length := by
    simp only [rest, skip, List.drop_drop]
  rw [hd, h, List.drop_left]

/-- The byte that comes next is read. -/
theorem rawbyte_rest (u : Unmarshall) (b : UInt8) (q : List UInt8) (h : u.rest = b :: q) :
    u.rawbyte = (Word.widen b, u.skip 1) := by
  have hb : u.buf[u.ind]? = some b := by
    have h0 : u.rest[0]? = some b := by rw [h]; rfl
    rw [rest, List.getElem?_drop, Nat.add_zero] at h0
    exact h0
  simp only [rawbyte, hb, skip]

theorem getUshort_rest (u : Unmarshall) (x : UInt16) (q : List UInt8)
    (h : u.rest = Word.be16 x ++ q) : u.getUshort = (x, u.skip 2) := by
  have h₁ := rawbyte_rest u _ _ h
  have h₂ := rawbyte_rest (u.skip 1) _ _ (rest_skip u [_] _ h)
  simp only [getUshort, h₁, h₂, skip_skip, Word.ofBe16_be16]

/-- A word that comes next is read from its four bytes, the high one first. -/
theorem getUint_rest (u : Unmarshall) (x : UInt32) (q : List UInt8)
    (h : u.rest = Word.be32 x ++ q) : u.getUint = (x, u.skip 4) := by
  have h₁ := rawbyte_rest u _ _ h
  have h₂ := rawbyte_rest (u.skip 1) _ _ (rest_skip u [_] _ h)
  have h₃ := rawbyte_rest (u.skip 2) _ _ (rest_skip u [_, _] _ h)
  have h₄ := rawbyte_rest (u.skip 3) _ _ (rest_skip u [_, _, _] _ h)
  simp only [getUint, h₁, h₂, skip_skip, h₃, h₄, Word.ofBe32_be32]

/-- A piece that is left to read ends inside the buffer. The empty one may lie behind it. -/
theorem ind_add_le (u : Unmarshall) (p q : List UInt8) (hp : p ≠ []) (h : u.rest = p ++ q) :
    u.ind + p.length ≤ u.buf.length := by
  have hl := congrArg List.length h
  have hpos := List.length_pos_iff.mpr hp
  simp only [rest, List.length_drop, List.length_append] at hl
  omega

/-- Reading a word that is there only moves the reader. -/
theorem getUint_skip (u : Unmarshall) (h : u.ind + 4 ≤ u.buf.length) :
    u.getUint.2 = u.skip 4 := by
  have hbyte : ∀ n < 4, (u.skip n).rawbyte.2 = u.skip (n + 1) := by
    intro n hn
    have hlt : (u.skip n).ind < (u.skip n).buf.length := by
      simp only [skip]
      omega
    simp only [rawbyte, List.getElem?_eq_getElem hlt]
    rfl
  have h₀ : u.rawbyte.2 = u.skip 1 := hbyte 0 (by decide)
  simp only [getUint, h₀, hbyte 1 (by decide), hbyte 2 (by decide), hbyte 3 (by decide)]

/-- A string that is there is read whole: the guard's sum does not wrap. -/
theorem rawbytes_rest (u : Unmarshall) (s q : List UInt8) (hlen : u.buf.length < 2 ^ 32)
    (hind : u.ind ≤ u.buf.length) (h : u.rest = s ++ q) :
    u.rawbytes (UInt32.ofNat s.length) = some (s, u.skip s.length) := by
  have hl := congrArg List.length h
  simp only [rest, List.length_drop, List.length_append] at hl
  have hs : (UInt32.ofNat s.length).toNat = s.length := by
    rw [UInt32.toNat_ofNat']
    exact Nat.mod_eq_of_lt (by omega)
  have htake : (u.buf.drop u.ind).take s.length = s := by
    rw [show u.buf.drop u.ind = s ++ q from h, List.take_left]
  simp only [rawbytes, hs]
  -- The sum is below `2 ^ 32`, so both guards compare the same number.
  rw [if_neg (by rw [Nat.mod_eq_of_lt (by omega)]; omega), if_pos (by omega), htake]
  rfl

/-- A value whose bytes come next is read back, and the reader stands behind it. One case for each
    type; a string is the one case in which the reader looks at the length of the buffer. -/
theorem get_rest (u : Unmarshall) (v : WireVal) (q : List UInt8) (hok : u.ok = true)
    (hlen : u.buf.length < 2 ^ 32) (h : u.rest = v.wire ++ q) :
    u.get v.type = some (v, u.skip v.wire.length) := by
  cases v with
  | bool x =>
      simp only [get, WireVal.type, rawbyte_rest u _ q h]
      cases x <;> rfl
  | char x =>
      simp only [get, WireVal.type, rawbyte_rest u _ q h, Word.widen_toUInt8]
      rfl
  | uchar x =>
      simp only [get, WireVal.type, rawbyte_rest u _ q h, Word.widen_toUInt8]
      rfl
  | short x =>
      simp only [get, WireVal.type, getUshort_rest u _ q h]
      rfl
  | ushort x =>
      simp only [get, WireVal.type, getUshort_rest u _ q h]
      rfl
  | int x =>
      simp only [get, WireVal.type, getUint_rest u _ q h]
      rfl
  | uint x =>
      simp only [get, WireVal.type, getUint_rest u _ q h]
      rfl
  | ull x =>
      have h₁ : u.rest = Word.be32 (x >>> 32).toUInt32 ++ (Word.be32 x.toUInt32 ++ q) := by
        rw [h, WireVal.wire, Word.be64, List.append_assoc]
      have h₂ := rest_skip u _ _ h₁
      simp only [get, WireVal.type, getUint_rest u _ _ h₁, getUint_rest (u.skip 4) _ q h₂,
        Word.ofBe64_be64, skip_skip]
      rfl
  | string s =>
      have h₁ : u.rest = Word.be32 (UInt32.ofNat s.length) ++ (s ++ q) := by
        rw [h, WireVal.wire, List.append_assoc]
      have h₂ := rest_skip u _ _ h₁
      -- Behind the length the reader is still inside the buffer.
      have hind := ind_add_le u _ _ (List.cons_ne_nil _ _) h₁
      simp only [get, WireVal.type, getUint_rest u _ _ h₁]
      rw [if_pos (show (u.skip 4).ok = true from hok), rawbytes_rest (u.skip 4) s q hlen hind h₂]
      simp only [Option.bind_eq_bind, Option.bind_some, skip_skip]
      rw [WireVal.wire, List.length_append]
      rfl
  | attr a =>
      have h₁ : u.rest = Word.be32 a.atime ++ (Word.be32 a.mtime ++ (Word.be32 a.ctime ++
          (Word.be32 a.size ++ q))) := by
        rw [h, WireVal.wire]
        simp only [List.append_assoc]
      have h₂ := rest_skip u _ _ h₁
      have h₃ := rest_skip (u.skip 4) _ _ h₂
      have h₄ := rest_skip ((u.skip 4).skip 4) _ _ h₃
      simp only [get, WireVal.type, getUint_rest u _ _ h₁, getUint_rest (u.skip 4) _ _ h₂,
        getUint_rest ((u.skip 4).skip 4) _ _ h₃,
        getUint_rest (((u.skip 4).skip 4).skip 4) _ _ h₄]
      rw [skip_skip, skip_skip, skip_skip]
      rfl

/-- Values that come next are read back in order. -/
theorem getAll_rest (vs : List WireVal) (u : Unmarshall) (q : List UInt8) (hok : u.ok = true)
    (hlen : u.buf.length < 2 ^ 32) (h : u.rest = vs.flatMap WireVal.wire ++ q) :
    u.getAll (vs.map WireVal.type) = some (vs, u.skip (vs.flatMap WireVal.wire).length) := by
  induction vs generalizing u with
  | nil => rfl
  | cons v vs ih =>
      rw [List.flatMap_cons, List.append_assoc] at h
      have hget := get_rest u v _ hok hlen h
      have hrec := ih (u.skip v.wire.length) hok hlen (rest_skip u _ _ h)
      simp only [List.map_cons, getAll, hget, Option.bind_eq_bind, Option.bind_some, hrec,
        skip_skip, List.flatMap_cons, List.length_append]

/-- What is read has the types it is read at. -/
theorem get_type (u : Unmarshall) (t : WireType) (v : WireVal) (u' : Unmarshall)
    (h : u.get t = some (v, u')) : v.type = t := by
  cases t with
  | string =>
      simp only [get] at h
      split at h
      · simp only [Option.bind_eq_bind, Option.bind_eq_some_iff] at h
        rcases h with ⟨⟨s, u₁⟩, _, h₂⟩
        cases h₂
        rfl
      · cases h
        rfl
  | _ =>
      simp only [get, Option.some.injEq, Prod.mk.injEq] at h
      rw [← h.1]
      rfl

/-- What is read of a list of types has these types. -/
theorem getAll_types (ts : List WireType) (u : Unmarshall) (vs : List WireVal) (u' : Unmarshall)
    (h : u.getAll ts = some (vs, u')) : vs.map WireVal.type = ts := by
  induction ts generalizing u vs with
  | nil =>
      cases h
      rfl
  | cons t ts ih =>
      simp only [getAll, Option.bind_eq_bind, Option.bind_eq_some_iff] at h
      rcases h with ⟨⟨v, u₁⟩, h₁, ⟨ws, u₂⟩, h₂, h₃⟩
      cases h₃
      rw [List.map_cons, get_type u t v u₁ h₁, ih u₁ ws h₂]

end Unmarshall

end Yfs
