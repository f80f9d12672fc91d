import Yfs.Core.Containers
import Yfs.Theory.Marshalling

/-!
# Containers Round Trip

Values of every type that the container templates generate are read back as they
were written, together with the header, wherever it was packed.

`Codes` is what one type's pair of operators has to satisfy: a value is written
whenever the buffer stays within `2 ^ 30` bytes, and what is written is read back.
The templates keep it (`Codes.vector`, `Codes.map`), so it holds of every type by
induction on how the type is built. A value takes at least one byte, so the number of
elements in front of a container does not wrap around.

The bound is about the buffer, the header area included. The capacity is an `int`
that is doubled when the buffer is full, and with `2 ^ 30` bytes in the buffer it
cannot be doubled again.

## Main definitions

* `Ty.wire`, `wires`: The bytes of a value and of a sequence of values.
* `Codes`: A pair of operators that belong together.

## Theorems

* `rawbyteAll_fits`, `rawbytes_fits`: Writes up to `2 ^ 30` bytes succeed.
* `Codes.vector`, `Codes.map`, `Ty.codes`: Every type.
* `values_round_trip`: Headers and values.
* `uchars_overflow`: A vector that is too long with the header area.
-/

namespace Yfs

open Marshall Unmarshall

/-! ## Room -/

namespace Marshall

theorem Appends.ind_eq {m m' : Marshall} {p : List UInt8} (hm : m.Good) (h : Appends m m' p) :
    m'.ind = m.ind + p.length := by
  rw [← h.good.length, h.buf, List.length_append, hm.length]

theorem rawbyte_fits (m : Marshall) (hm : m.Good) (hpos : 0 < m.ind) (x : UInt8)
    (h : m.ind + 1 ≤ 2 ^ 30) : ∃ m', m.rawbyte x = some m' := by
  have hcapa := hm.capa
  -- A buffer that is full has a capacity below `2 ^ 30`, which can be doubled.
  have hres : ∃ m₁, m.reserveByte = some m₁ ∧ m₁.ind + 1 ≤ m₁.capa := by
    by_cases hfull : m.capa ≤ m.ind
    · refine ⟨{ m with capa := 2 * m.capa }, ?_, ?_⟩
      · rw [reserveByte, if_pos hfull, grow, if_pos (by omega)]
      · dsimp only
        omega
    · exact ⟨m, if_neg hfull, by omega⟩
  rcases hres with ⟨m₁, h₁, hroom⟩
  rcases store_of_room m₁ [x] hroom with ⟨m', h'⟩
  exact ⟨m', by rw [rawbyte, h₁, Option.bind_eq_bind, Option.bind_some, h']⟩

theorem rawbyteAll_fits (xs : List UInt8) (m : Marshall) (hm : m.Good) (hpos : 0 < m.ind)
    (h : m.ind + xs.length ≤ 2 ^ 30) :
    ∃ m', m.rawbyteAll xs = some m' ∧ Appends m m' xs := by
  induction xs generalizing m with
  | nil => exact ⟨m, rfl, hm, (List.append_nil _).symm⟩
  | cons x xs ih =>
      rw [List.length_cons] at h
      rcases rawbyte_fits m hm hpos x (by omega) with ⟨m₁, h₁⟩
      have ha := rawbyte_appends m hm x m₁ h₁
      have hind := ha.ind_eq hm
      rw [List.length_singleton] at hind
      rcases ih m₁ ha.good (by omega) (by omega) with ⟨m', h', ha'⟩
      refine ⟨m', ?_, ha.trans ha'⟩
      rw [rawbyteAll, h₁, Option.bind_eq_bind, Option.bind_some, h']

theorem rawbytes_fits (p : List UInt8) (m : Marshall) (hm : m.Good)
    (h : m.ind + p.length ≤ 2 ^ 30) : ∃ m', m.rawbytes p = some m' ∧ Appends m m' p := by
  -- The sum stays an `int`, and so does the new capacity: at most it is doubled, or the block is
  -- added to it.
  have hres : ∃ m₁, m.reserveBytes p.length = some m₁ := by
    unfold reserveBytes
    rw [if_neg (by omega)]
    by_cases hfull : m.capa < m.ind + p.length
    · rw [if_pos hfull, grow, if_pos (by split <;> omega)]
      exact ⟨_, rfl⟩
    · exact ⟨m, if_neg hfull⟩
  rcases hres with ⟨m₁, h₁⟩
  rcases store_of_room m₁ p (reserveBytes_room m hm p.length m₁ h₁) with ⟨m', h'⟩
  have hput : m.rawbytes p = some m' := by
    rw [rawbytes, h₁, Option.bind_eq_bind, Option.bind_some, h']
  exact ⟨m', hput, rawbytes_appends m hm p m' hput⟩

/-- Every value of a wire type fits while the buffer stays within `2 ^ 30` bytes. A string is the
    only one that is not written byte by byte. -/
theorem put_fits (v : WireVal) (m : Marshall) (hm : m.Good) (hpos : 0 < m.ind)
    (h : m.ind + v.wire.length ≤ 2 ^ 30) : ∃ m', m.put v = some m' ∧ Appends m m' v.wire := by
  -- A string has its length in front and is copied as a block.
  by_cases hv : v.type = .string
  · cases v with
    | string s =>
        rw [WireVal.wire, List.length_append] at h
        rcases rawbyteAll_fits (Word.be32 (UInt32.ofNat s.length)) m hm hpos (by omega) with
          ⟨m₁, h₁, ha₁⟩
        have hind := ha₁.ind_eq hm
        rcases rawbytes_fits s m₁ ha₁.good (by omega) with ⟨m', h', ha'⟩
        refine ⟨m', ?_, ha₁.trans ha'⟩
        rw [put, putUint, h₁, Option.bind_eq_bind, Option.bind_some, h']
    | _ => cases hv
  · rw [put_eq_rawbyteAll m v hv]
    exact rawbyteAll_fits v.wire m hm hpos h

end Marshall

/-! ## Types -/

/-- A count and the elements. -/
def countedWire {α : Type} (wire : α → List UInt8) (vs : List α) : List UInt8 :=
  Word.be32 (UInt32.ofNat vs.length) ++ vs.flatMap wire

/-- The entries of a map are counted like the elements of a vector. -/
def mapWire {α β : Type} [LinearOrder α] (wire : α → List UInt8) (wireVal : β → List UInt8)
    (d : SortedMap α β) : List UInt8 :=
  countedWire (fun e => wire e.1 ++ wireVal e.2) d.entries

/-- The bytes of a value. -/
def Ty.wire : (t : Ty) → t.Val → List UInt8
  | .base _, v => v.1.wire
  | .vector t, v => countedWire t.wire v
  | .map k v, d => mapWire k.wire v.wire (d : SortedMap k.Val v.Val)

/-- Two operators that write and read the same bytes, at least one for each value. -/
structure Codes {α : Type} (put : Marshall → α → Option Marshall)
    (get : Unmarshall → Option (α × Unmarshall)) (wire : α → List UInt8) : Prop where
  nonempty : ∀ v, 1 ≤ (wire v).length
  puts : ∀ m v, m.Good → 0 < m.ind → m.ind + (wire v).length ≤ 2 ^ 30 →
    ∃ m', put m v = some m' ∧ Appends m m' (wire v)
  gets : ∀ u v q, u.ok = true → u.buf.length < 2 ^ 32 → u.rest = wire v ++ q →
    get u = some (v, u.skip (wire v).length)

section Templates

variable {α β : Type} {put : Marshall → α → Option Marshall}
  {get : Unmarshall → Option (α × Unmarshall)} {wire : α → List UInt8}
  {putVal : Marshall → β → Option Marshall} {getVal : Unmarshall → Option (β × Unmarshall)}
  {wireVal : β → List UInt8}

theorem one_le_countedWire (wire : α → List UInt8) (vs : List α) :
    1 ≤ (countedWire wire vs).length := by
  rw [countedWire, List.length_append]
  exact Nat.le_trans (by decide : 1 ≤ 4) (Nat.le_add_right 4 _)

theorem Codes.length_le (hc : Codes put get wire) (vs : List α) :
    vs.length ≤ (vs.flatMap wire).length := by
  induction vs with
  | nil => exact Nat.le_refl 0
  | cons v vs ih =>
      have := hc.nonempty v
      rw [List.length_cons, List.flatMap_cons, List.length_append]
      omega

theorem Codes.putAll (hc : Codes put get wire) (vs : List α) (m : Marshall) (hm : m.Good)
    (hpos : 0 < m.ind) (h : m.ind + (vs.flatMap wire).length ≤ 2 ^ 30) :
    ∃ m', vs.foldlM put m = some m' ∧ Appends m m' (vs.flatMap wire) := by
  induction vs generalizing m with
  | nil => exact ⟨m, rfl, hm, (List.append_nil _).symm⟩
  | cons v vs ih =>
      rw [List.flatMap_cons, List.length_append] at h
      rcases hc.puts m v hm hpos (by omega) with ⟨m₁, h₁, ha₁⟩
      have hind := ha₁.ind_eq hm
      rcases ih m₁ ha₁.good (by omega) (by omega) with ⟨m', h', ha'⟩
      refine ⟨m', ?_, ?_⟩
      · rw [List.foldlM_cons, h₁, Option.bind_eq_bind, Option.bind_some, h']
      · rw [List.flatMap_cons]
        exact ha₁.trans ha'

/-- The count in front of the elements, and the elements. -/
theorem Codes.putCounted (hc : Codes put get wire) (vs : List α) (m : Marshall) (hm : m.Good)
    (hpos : 0 < m.ind)
    (h : m.ind + (countedWire wire vs).length ≤ 2 ^ 30) :
    ∃ m₁ m', m.putUint (UInt32.ofNat vs.length) = some m₁ ∧ vs.foldlM put m₁ = some m' ∧
      Appends m m' (countedWire wire vs) := by
  rw [countedWire, List.length_append] at h
  rcases rawbyteAll_fits (Word.be32 (UInt32.ofNat vs.length)) m hm hpos (by omega) with
    ⟨m₁, h₁, ha₁⟩
  have hind := ha₁.ind_eq hm
  rcases hc.putAll vs m₁ ha₁.good (by omega) (by omega) with ⟨m', h', ha'⟩
  exact ⟨m₁, m', h₁, h', ha₁.trans ha'⟩

/-- The count is read back: it does not wrap around. -/
theorem Codes.getCount (hc : Codes put get wire) (vs : List α) (u : Unmarshall) (q : List UInt8)
    (hlen : u.buf.length < 2 ^ 32)
    (h : u.rest = countedWire wire vs ++ q) :
    u.getUint = (UInt32.ofNat vs.length, u.skip 4) ∧
      (UInt32.ofNat vs.length).toNat = vs.length ∧
      (u.skip 4).rest = vs.flatMap wire ++ q := by
  rw [countedWire, List.append_assoc] at h
  -- Every element takes a byte at least, so a count that wraps around would need more bytes than a
  -- buffer has.
  have hle := hc.length_le vs
  have hl := congrArg List.length h
  simp only [rest, List.length_drop, List.length_append] at hl
  refine ⟨getUint_rest u _ _ h, ?_, rest_skip u _ _ h⟩
  rw [UInt32.toNat_ofNat']
  exact Nat.mod_eq_of_lt (by omega)

theorem Codes.getAll (hc : Codes put get wire) (vs : List α) (u : Unmarshall) (v : List α)
    (q : List UInt8) (hok : u.ok = true) (hlen : u.buf.length < 2 ^ 32)
    (h : u.rest = vs.flatMap wire ++ q) :
    getElements get vs.length u v = some (v ++ vs, u.skip (vs.flatMap wire).length) := by
  induction vs generalizing u v with
  | nil => rw [List.append_nil]; rfl
  | cons z vs ih =>
      -- The first element is read, and the reader skips to the second.
      rw [List.flatMap_cons, List.append_assoc] at h
      rw [List.length_cons, getElements, hc.gets u z _ hok hlen h, Option.bind_eq_bind,
        Option.bind_some]
      dsimp only
      rw [ih (u.skip (wire z).length) (v ++ [z]) hok hlen (rest_skip u _ _ h), skip_skip,
        List.flatMap_cons, List.length_append, List.append_assoc, List.singleton_append]

/-- `std::vector`. -/
theorem Codes.vector (hc : Codes put get wire) :
    Codes (fun m v => m.putVector put v) (fun u => u.getVector get []) (countedWire wire) where
  nonempty := fun v => one_le_countedWire wire v
  puts := by
    intro m v hm hpos h
    rcases hc.putCounted v m hm hpos h with ⟨m₁, m', h₁, h', ha⟩
    refine ⟨m', ?_, ha⟩
    rw [putVector, h₁, Option.bind_eq_bind, Option.bind_some, h']
  gets := by
    intro u v q hok hlen h
    rcases hc.getCount v u q hlen h with ⟨hn, hcount, hrest⟩
    rw [getVector, hn]
    dsimp only
    rw [hcount, hc.getAll v (u.skip 4) [] q hok hlen hrest, skip_skip, List.nil_append,
      countedWire, List.length_append]
    rfl

/-- A key and its value, one after the other. -/
theorem Codes.pair (hc : Codes put get wire) (hv : Codes putVal getVal wireVal) :
    Codes (fun m (e : α × β) => do
        let m ← put m e.1
        putVal m e.2)
      (fun u => do
        let (a, u) ← get u
        let (b, u) ← getVal u
        some ((a, b), u))
      (fun e => wire e.1 ++ wireVal e.2) where
  nonempty := by
    intro e
    have := hc.nonempty e.1
    rw [List.length_append]
    omega
  puts := by
    intro m e hm hpos h
    rw [List.length_append] at h
    rcases hc.puts m e.1 hm hpos (by omega) with ⟨m₁, h₁, ha₁⟩
    have hind := ha₁.ind_eq hm
    rcases hv.puts m₁ e.2 ha₁.good (by omega) (by omega) with ⟨m', h', ha'⟩
    refine ⟨m', ?_, ha₁.trans ha'⟩
    rw [h₁, Option.bind_eq_bind, Option.bind_some, h']
  gets := by
    intro u e q hok hlen h
    rw [List.append_assoc] at h
    have hrest := rest_skip u _ _ h
    rw [hc.gets u e.1 _ hok hlen h, Option.bind_eq_bind, Option.bind_some]
    dsimp only
    rw [hv.gets (u.skip (wire e.1).length) e.2 q hok hlen hrest, Option.bind_eq_bind,
      Option.bind_some, skip_skip,
      List.length_append]

variable [LinearOrder α]

theorem Codes.getEntries (hc : Codes put get wire) (hv : Codes putVal getVal wireVal)
    (es : List (α × β)) (u : Unmarshall) (d : SortedMap α β) (q : List UInt8)
    (hok : u.ok = true) (hlen : u.buf.length < 2 ^ 32)
    (h : u.rest = (es.flatMap fun e => wire e.1 ++ wireVal e.2) ++ q) :
    Unmarshall.getEntries get getVal es.length u d =
      some (es.foldl (fun d e => d.insert e.1 e.2) d,
        u.skip (es.flatMap fun e => wire e.1 ++ wireVal e.2).length) := by
  induction es generalizing u d with
  | nil => rfl
  | cons e es ih =>
      rw [List.flatMap_cons, List.append_assoc, List.append_assoc] at h
      have h₁ := rest_skip u _ _ h
      have h₂ := rest_skip (u.skip (wire e.1).length) _ _ h₁
      rw [List.length_cons, Unmarshall.getEntries, hc.gets u e.1 _ hok hlen h,
        Option.bind_eq_bind, Option.bind_some]
      dsimp only
      rw [hv.gets (u.skip (wire e.1).length) e.2 _ hok hlen h₁, Option.bind_eq_bind,
        Option.bind_some]
      dsimp only
      rw [skip_skip] at h₂ ⊢
      rw [ih (u.skip ((wire e.1).length + (wireVal e.2).length)) (d.insert e.1 e.2) hok hlen h₂,
        skip_skip, List.foldl_cons, List.flatMap_cons, List.length_append, List.length_append]

/-- `std::map`: the entries are written in the order of their keys, and inserted one by one. -/
theorem Codes.map (hc : Codes put get wire) (hv : Codes putVal getVal wireVal) :
    Codes (fun m (d : SortedMap α β) => m.putMap put putVal d) (fun u => u.getMap get getVal)
      (mapWire wire wireVal) where
  nonempty := fun d => one_le_countedWire _ d.entries
  puts := by
    intro m d hm hpos h
    rcases (hc.pair hv).putCounted d.entries m hm hpos h with ⟨m₁, m', h₁, h', ha⟩
    refine ⟨m', ?_, ha⟩
    rw [putMap, h₁, Option.bind_eq_bind, Option.bind_some]
    exact h'
  gets := by
    intro u d q hok hlen h
    rcases (hc.pair hv).getCount d.entries u q hlen h with ⟨hn, hcount, hrest⟩
    -- The entries come in the order of their keys.
    have hsame : d.entries.foldl (fun d e => d.insert e.1 e.2) SortedMap.empty = d :=
      SortedMap.eq_of_entries (SortedMap.insertAll_entries d.entries SortedMap.empty d.sorted)
    rw [getMap, hn]
    dsimp only
    rw [hcount, hc.getEntries hv d.entries (u.skip 4) SortedMap.empty q hok hlen hrest, hsame,
      skip_skip, mapWire, countedWire, List.length_append]
    rfl

end Templates

theorem WireVal.one_le_length_wire (v : WireVal) : 1 ≤ v.wire.length := by
  cases v with
  | string s =>
      rw [wire, List.length_append]
      exact Nat.le_trans (by decide : 1 ≤ 4) (Nat.le_add_right 4 _)
  | _ => exact Nat.succ_pos _

/-- A wire type. -/
theorem Ty.codes_base (t : WireType) :
    Codes (Ty.base t).put (Ty.base t).get (Ty.base t).wire where
  nonempty := fun v => v.1.one_le_length_wire
  puts := fun m v hm hpos h => put_fits v.1 m hm hpos h
  gets := by
    rintro u ⟨v, rfl⟩ q hok hlen h
    have hget := get_rest u v q hok hlen h
    rw [Ty.get, hget, Option.bind_eq_bind, Option.bind_some]
    exact dif_pos rfl

/-- Every type that the templates generate, by induction on how it is built: a template adds a count
    to what its element types write. -/
theorem Ty.codes (t : Ty) : Codes t.put t.get t.wire := by
  induction t with
  | base t => exact Ty.codes_base t
  | vector t ih => exact ih.vector
  | map k v ihk ihv => exact ihk.map ihv

/-! ## Sequences of values -/

/-- The bytes of a sequence of values. -/
def wires (vs : List TypedVal) : List UInt8 :=
  vs.flatMap fun v => v.1.wire v.2

theorem Marshall.putValues_fits (vs : List TypedVal) (m : Marshall) (hm : m.Good)
    (hpos : 0 < m.ind) (h : m.ind + (wires vs).length ≤ 2 ^ 30) :
    ∃ m', m.putValues vs = some m' ∧ Appends m m' (wires vs) := by
  induction vs generalizing m with
  | nil => exact ⟨m, rfl, hm, (List.append_nil _).symm⟩
  | cons v vs ih =>
      rw [wires, List.flatMap_cons, List.length_append] at h
      rcases v.1.codes.puts m v.2 hm hpos (by omega) with ⟨m₁, h₁, ha₁⟩
      have hind := ha₁.ind_eq hm
      rcases ih m₁ ha₁.good (by omega) (by rw [wires]; omega) with ⟨m', h', ha'⟩
      refine ⟨m', ?_, ?_⟩
      · rw [putValues, h₁, Option.bind_eq_bind, Option.bind_some, h']
      · rw [wires, List.flatMap_cons]
        exact ha₁.trans ha'

theorem Unmarshall.getValues_rest (vs : List TypedVal) (u : Unmarshall) (q : List UInt8)
    (hok : u.ok = true) (hlen : u.buf.length < 2 ^ 32) (h : u.rest = wires vs ++ q) :
    u.getValues (vs.map Sigma.fst) = some (vs, u.skip (wires vs).length) := by
  induction vs generalizing u with
  | nil => rfl
  | cons v vs ih =>
      rw [wires, List.flatMap_cons, List.append_assoc] at h
      have hrest := rest_skip u _ _ h
      rw [List.map_cons, getValues, v.1.codes.gets u v.2 _ hok hlen h, Option.bind_eq_bind,
        Option.bind_some]
      dsimp only
      rw [ih (u.skip (v.1.wire v.2).length) hok hlen hrest, Option.bind_eq_bind, Option.bind_some,
        skip_skip, wires, wires, List.flatMap_cons, List.length_append]

theorem length_le_wires (vs : List TypedVal) : vs.length ≤ (wires vs).length := by
  induction vs with
  | nil => exact Nat.le_refl 0
  | cons v vs ih =>
      have := v.1.codes.nonempty v.2
      rw [wires] at ih ⊢
      rw [List.length_cons, List.flatMap_cons, List.length_append]
      omega

/-! ## Headers -/

/-- The words of a header. -/
def Header.words : Header → List UInt32
  | .req h => [h.xid, h.proc, h.cltNonce, h.srvNonce, h.xidRep]
  | .reply h => [h.xid, h.ret.toUInt32]

theorem Header.length_words (h : Header) : h.words.length ≤ 5 := by
  cases h with
  | req h => exact Nat.le_refl 5
  | reply h => exact (by decide : 2 ≤ 5)

theorem Marshall.packHeader_eq (m : Marshall) (h : Header) :
    m.packHeader h = m.packWords h.words := by
  cases h <;> rfl

/-- One word of a header, and what is behind it. -/
theorem Unmarshall.getUint_at (pdu : List UInt8) (n : Nat) (x : UInt32) (q : List UInt8)
    (h : pdu.drop n = Word.be32 x ++ q) :
    (Unmarshall.mk pdu n true).getUint = (x, Unmarshall.mk pdu (n + 4) true) ∧
      pdu.drop (n + 4) = q := by
  refine ⟨getUint_rest ⟨pdu, n, true⟩ x q h, ?_⟩
  rw [← List.drop_drop, h]
  exact List.drop_left' rfl

/-- A header is unpacked from the words behind the size field. -/
theorem Unmarshall.unpackHeader_words (pdu : List UInt8) (h : Header) (tail : List UInt8)
    (hw : pdu.drop rpcSzSz = h.words.flatMap Word.be32 ++ tail) :
    (Unmarshall.new pdu).unpackHeader h.kind = (h, ⟨pdu, rpcHeaderSz, true⟩) := by
  cases h with
  | req h =>
      simp only [Header.words, List.flatMap_cons, List.flatMap_nil, List.append_nil,
        List.append_assoc] at hw
      rcases getUint_at pdu _ _ _ hw with ⟨h₁, hw₁⟩
      rcases getUint_at pdu _ _ _ hw₁ with ⟨h₂, hw₂⟩
      rcases getUint_at pdu _ _ _ hw₂ with ⟨h₃, hw₃⟩
      rcases getUint_at pdu _ _ _ hw₃ with ⟨h₄, hw₄⟩
      rcases getUint_at pdu _ _ _ hw₄ with ⟨h₅, -⟩
      simp only [Header.kind, unpackHeader, unpackReqHeader, Unmarshall.new, h₁, h₂, h₃, h₄, h₅]
  | reply h =>
      simp only [Header.words, List.flatMap_cons, List.flatMap_nil, List.append_nil,
        List.append_assoc] at hw
      rcases getUint_at pdu _ _ _ hw with ⟨h₁, hw₁⟩
      rcases getUint_at pdu _ _ _ hw₁ with ⟨h₂, -⟩
      simp only [Header.kind, unpackHeader, unpackReplyHeader, Unmarshall.new, h₁, h₂,
        Int32.toInt32_toUInt32]

/-- A buffer with values, a header packed among them, and more values. -/
theorem packed_pdu (vs₁ vs₂ : List TypedVal) (h : Header)
    (hlen : rpcHeaderSz + (wires vs₁ ++ wires vs₂).length ≤ 2 ^ 30) :
    ∃ m₁ m₂ m₃, Marshall.new.putValues vs₁ = some m₁ ∧ m₁.packHeader h = some m₂ ∧
      m₂.putValues vs₂ = some m₃ ∧
      (∃ tail, m₃.pdu.drop rpcSzSz = h.words.flatMap Word.be32 ++ tail) ∧
      m₃.pdu.drop rpcHeaderSz = wires vs₁ ++ wires vs₂ ∧ rpcHeaderSz ≤ m₃.pdu.length := by
  have hsz : rpcHeaderSz = 24 := rfl
  have hsz' : rpcSzSz = 4 := rfl
  have hnew : Marshall.new.ind = rpcHeaderSz := rfl
  rw [List.length_append] at hlen
  rcases putValues_fits vs₁ Marshall.new new_good (by decide) (by omega) with ⟨m₁, h₁, ha₁⟩
  have hi₁ := ha₁.ind_eq new_good
  have hbuf₁ : m₁.buf = List.replicate rpcHeaderSz 0 ++ wires vs₁ := ha₁.buf
  -- The header goes into the area in front, and moves nothing behind it.
  rcases packWords_good m₁ ha₁.good (by omega) h.words h.length_words with ⟨m₂, h₂, hg₂, hi₂, hd₂⟩
  have hbuf₂ : m₂.buf = m₁.buf.take rpcSzSz ++ h.words.flatMap Word.be32
      ++ m₁.buf.drop (rpcSzSz + 4 * h.words.length) := by
    have hpack := packWords_eq m₁ ha₁.good (by omega) h.words h.length_words
    rw [h₂, Option.some.injEq] at hpack
    rw [hpack]
  rcases putValues_fits vs₂ m₂ hg₂ (by omega) (by omega) with ⟨m₃, h₃, ha₃⟩
  have hi₃ := ha₃.ind_eq hg₂
  have hlen₁ := ha₁.good.length
  have hlen₂ := hg₂.length
  have hlen₃ := ha₃.good.length
  have hpdu : m₃.pdu = m₃.buf := by rw [pdu, ← hlen₃, List.take_length]
  refine ⟨m₁, m₂, m₃, h₁, by rw [packHeader_eq]; exact h₂, h₃,
    ⟨m₁.buf.drop (rpcSzSz + 4 * h.words.length) ++ wires vs₂, ?_⟩, ?_, by rw [hpdu]; omega⟩
  · rw [hpdu, ha₃.buf, hbuf₂, List.append_assoc, List.append_assoc]
    exact List.drop_left' (List.length_take_of_le (by omega))
  · -- The payload is the values, whatever was packed in front of it.
    rw [hpdu, ha₃.buf, List.drop_append_of_le_length (by omega), hd₂, hbuf₁,
      List.drop_left' List.length_replicate]

/-- Whatever the types and wherever the header is packed: as long as the buffer stays
    within `2 ^ 30` bytes, the header and the values are read back, and `okdone()`
    holds exactly behind the last value. -/
theorem values_round_trip (vs₁ vs₂ : List TypedVal) (h : Header)
    (hlen : rpcHeaderSz + (wires (vs₁ ++ vs₂)).length ≤ 2 ^ 30) :
    ∃ m₁ m₂ m₃, Marshall.new.putValues vs₁ = some m₁ ∧ m₁.packHeader h = some m₂ ∧
      m₂.putValues vs₂ = some m₃ ∧
      ∃ u₀, (Unmarshall.new m₃.pdu).unpackHeader h.kind = (h, u₀) ∧
        ∀ front back, vs₁ ++ vs₂ = front ++ back →
          ∃ u, u₀.getValues (front.map Sigma.fst) = some (front, u) ∧
            (u.okdone = true ↔ back = []) := by
  have happ : ∀ vs vs' : List TypedVal, wires (vs ++ vs') = wires vs ++ wires vs' :=
    fun _ _ => List.flatMap_append
  rw [happ] at hlen
  rcases packed_pdu vs₁ vs₂ h hlen with ⟨m₁, m₂, m₃, h₁, h₂, h₃, ⟨tail, hwords⟩, hpay, hle⟩
  refine ⟨m₁, m₂, m₃, h₁, h₂, h₃, ⟨m₃.pdu, rpcHeaderSz, true⟩,
    unpackHeader_words m₃.pdu h tail hwords, fun front back hsplit => ?_⟩
  rw [← happ, hsplit, happ] at hpay
  rw [← happ, hsplit, happ] at hlen
  have hplen := congrArg List.length hpay
  rw [List.length_drop] at hplen
  refine ⟨_, getValues_rest front ⟨m₃.pdu, rpcHeaderSz, true⟩ _ rfl (by dsimp only; omega) hpay, ?_⟩
  -- The reader is at the end exactly if no byte is left.
  have hback := length_le_wires back
  rw [List.length_append] at hplen
  simp only [okdone, skip, Bool.true_and, beq_iff_eq]
  constructor
  · intro hend
    refine List.eq_nil_of_length_eq_zero ?_
    omega
  · rintro rfl
    rw [show wires [] = [] from rfl, List.length_nil] at hplen
    omega

/-- A map with one entry. -/
def smallMap : (Ty.map (.base .uchar) (.base .string)).Val :=
  (SortedMap.empty.insert (⟨.uchar 3, rfl⟩ : BaseVal .uchar) (⟨.string [7], rfl⟩ : BaseVal .string)
    : SortedMap (Ty.base .uchar).Val (Ty.base .string).Val)

/-- A vector of two maps. -/
def nestedValues : List TypedVal :=
  [⟨.vector (.map (.base .uchar) (.base .string)), [smallMap, smallMap]⟩]

theorem values_round_trip_nested :
    (wires (nestedValues ++ nestedValues)).length = 48 ∧
    ∃ m₁ m₂ m₃, Marshall.new.putValues nestedValues = some m₁ ∧
      m₁.packHeader (.req ⟨1, 2, 3, 4, 5⟩) = some m₂ ∧ m₂.putValues nestedValues = some m₃ ∧
      ∃ u₀, (Unmarshall.new m₃.pdu).unpackHeader .req = (.req ⟨1, 2, 3, 4, 5⟩, u₀) ∧
        ∀ front back, nestedValues ++ nestedValues = front ++ back →
          ∃ u, u₀.getValues (front.map Sigma.fst) = some (front, u) ∧
            (u.okdone = true ↔ back = []) :=
  ⟨by decide, values_round_trip nestedValues nestedValues (.req ⟨1, 2, 3, 4, 5⟩) (by decide)⟩

/-! ## The bound -/

namespace Marshall

theorem rawbyte_capa (m m' : Marshall) (hm : m.Good) (x : UInt8) (h : m.rawbyte x = some m') :
    m'.capa = m.capa ∨ m'.capa = 2 * m.capa := by
  unfold rawbyte at h
  rcases Option.bind_eq_some_iff.mp h with ⟨m₁, h₁, h₂⟩
  have hstore := (store_appends m₁ (reserveByte_good m hm m₁ h₁).1 [x] m' h₂).2
  unfold reserveByte at h₁
  split at h₁
  · rcases (grow_iff m _ m₁).mp h₁ with ⟨-, rfl⟩
    exact Or.inr hstore
  · rw [Option.some.injEq] at h₁
    subst h₁
    exact Or.inl hstore

/-- Bytes written one by one only double the capacity. -/
theorem rawbyteAll_capa (xs : List UInt8) (m m' : Marshall) (hm : m.Good) (j : Nat)
    (hj : m.capa = 2 ^ j) (h : m.rawbyteAll xs = some m') : ∃ j', m'.capa = 2 ^ j' := by
  induction xs generalizing m j with
  | nil =>
      rw [rawbyteAll, Option.some.injEq] at h
      subst h
      exact ⟨j, hj⟩
  | cons x xs ih =>
      rcases Option.bind_eq_some_iff.mp h with ⟨m₁, h₁, h₂⟩
      have hg := (rawbyte_appends m hm x m₁ h₁).good
      rcases rawbyte_capa m m₁ hm x h₁ with hc | hc
      · exact ih m₁ hg j (by rw [hc, hj]) h₂
      · exact ih m₁ hg (j + 1) (by rw [hc, hj, Nat.pow_succ, Nat.mul_comm]) h₂

/-- So there is no room for more than `2 ^ 30` of them, the header area included. -/
theorem rawbyteAll_overflow (xs : List UInt8) (h : 2 ^ 30 < rpcHeaderSz + xs.length) :
    Marshall.new.rawbyteAll xs = none := by
  cases hput : Marshall.new.rawbyteAll xs with
  | none => rfl
  | some m =>
      have ha := rawbyteAll_appends xs Marshall.new new_good m hput
      have hind := ha.ind_eq new_good
      have hnew : Marshall.new.ind = rpcHeaderSz := rfl
      have hcapa := ha.good.capa
      have hint := ha.good.int
      rcases rawbyteAll_capa xs Marshall.new m new_good 10 rfl hput with ⟨j, hj⟩
      -- A power of two below `2 ^ 31` is at most `2 ^ 30`.
      have hlt : j < 31 := (Nat.pow_lt_pow_iff_right (by decide)).mp (hj ▸ hint)
      have hle : 2 ^ j ≤ 2 ^ 30 := Nat.pow_le_pow_right (by decide) (by omega)
      omega

/-- Elements that are no strings are written byte by byte. -/
theorem foldlM_put_eq (t : WireType) (ht : t ≠ .string) (vs : List (Ty.base t).Val)
    (m : Marshall) : vs.foldlM (Ty.base t).put m = m.rawbyteAll (vs.flatMap (Ty.base t).wire) := by
  induction vs generalizing m with
  | nil => rfl
  | cons v vs ih =>
      have hput : (Ty.base t).put m v = m.rawbyteAll ((Ty.base t).wire v) :=
        put_eq_rawbyteAll m (v : BaseVal t).1 (by rw [(v : BaseVal t).2]; exact ht)
      rw [List.foldlM_cons, List.flatMap_cons, rawbyteAll_append, hput]
      congr 1
      funext m'
      exact ih m'

end Marshall

/-- `n` unsigned characters take `n + 4` bytes. -/
theorem length_wire_uchars (n : Nat) (c : (Ty.base .uchar).Val) :
    (countedWire (Ty.base .uchar).wire (List.replicate n c)).length = n + 4 := by
  have hone : ∀ v : BaseVal .uchar, ((Ty.base .uchar).wire v).length = 1 := by
    rintro ⟨v, hv⟩
    cases v with
    | uchar x => rfl
    | _ => cases hv
  have hflat : ((List.replicate n c).flatMap (Ty.base .uchar).wire).length = n := by
    induction n with
    | zero => rfl
    | succ n ih =>
        rw [List.replicate_succ, List.flatMap_cons, List.length_append, ih, hone c, Nat.add_comm]
  rw [countedWire, List.length_append, hflat, Nat.add_comm]
  rfl

/-- A vector that does not fit the buffer with the header area aborts. -/
theorem put_uchars_overflow (n : Nat) (c : (Ty.base .uchar).Val)
    (h : 2 ^ 30 < rpcHeaderSz + (n + 4)) :
    Marshall.new.putValues [⟨.vector (.base .uchar), List.replicate n c⟩] = none := by
  have hput : Marshall.new.putVector (Ty.base .uchar).put (List.replicate n c)
      = Marshall.new.rawbyteAll (countedWire (Ty.base .uchar).wire (List.replicate n c)) := by
    rw [countedWire, rawbyteAll_append, putVector, putUint]
    congr 1
    funext m
    exact foldlM_put_eq .uchar (by decide) _ m
  rw [rawbyteAll_overflow _ (by rw [length_wire_uchars]; exact h)] at hput
  rw [putValues, Option.bind_eq_bind, Option.bind_eq_none_iff]
  intro m hm
  rw [show (Ty.vector (.base .uchar)).put Marshall.new (List.replicate n c) = none from hput] at hm
  cases hm

/-- An encoding of `2 ^ 30 - 1` bytes that cannot be written. -/
theorem uchars_overflow :
    ∃ v : (Ty.vector (.base .uchar)).Val, ((Ty.vector (.base .uchar)).wire v).length < 2 ^ 30 ∧
      Marshall.new.putValues [⟨.vector (.base .uchar), v⟩] = none := by
  refine ⟨List.replicate (2 ^ 30 - 5) (⟨.uchar 0, rfl⟩ : BaseVal .uchar), ?_, ?_⟩
  · exact lt_of_eq_of_lt (length_wire_uchars (2 ^ 30 - 5) _) (by omega)
  · exact put_uchars_overflow (2 ^ 30 - 5) _ (by rw [rpcHeaderSz]; omega)

end Yfs
