import Yfs.Core.RecvBuffer
import Yfs.Theory.Canonical

/-!
# Bounds of Received Bytes

Two numbers that come from the peer decide how far the receiving side reads and writes:
the length prefix of a PDU, and the length in front of a string inside it. This module
says for which of them the code stays inside its buffers.

The prefix is checked against an upper bound only. A prefix below 4 makes `sz - solong`
negative from the start: between -4 and 3 the block is there but the size passed to
`read` is not a size any more, and below -4 the allocation fails and the process ends.
For the other prefixes `4 ≤ solong ≤ sz` is an invariant of the reads that follow.

The guard of `rawbytes` adds the read position and the length as `unsigned int`s. It is
exact unless the sum wraps around, and then to a position inside the buffer.

## Main definitions

* `RecvBuf.Inside`: Every store so far was inside the block.
* `PrefixSafe`: What `readpdu` should do with a prefix.
* `Unmarshall.Extracted`: What the extraction of a string should do.
* `Unmarshall.WrapsInto`: The sum in the guard wraps around into the buffer.

## Theorems

* `inside_more`: One more read.
* `Connection.readpdu_in_memory`: The connection of the model without memory does the
  same.
* `prefixSafe_iff`: The prefixes that are handled.
* `string_extraction_iff`: The lengths that are handled.
-/

namespace Yfs

/-! ## The length prefix -/

theorem sizeT_of_nonneg {x : Int} (h0 : 0 ≤ x) (h1 : x < 2 ^ 64) : sizeT x = x.toNat := by
  rw [sizeT, Int.emod_eq_of_lt h0 h1]

namespace RecvBuf

/-- The stores are inside the block, and the position is between the prefix and the
    end of the PDU. -/
structure Inside (b : RecvBuf) : Prop where
  stores : ∃ k, b.block = some k ∧ ∀ st ∈ b.stores, 0 ≤ st.1 ∧ st.1 + st.2 ≤ (k : Int)
  lower : 4 ≤ b.solong
  upper : b.solong ≤ b.sz

/-- The PDU fits into the block with the room of another prefix behind it. -/
structure Sized (b : RecvBuf) : Prop where
  block : b.block = some (b.sz + 4).toNat
  limit : b.sz ≤ maxPdu

/-- One more read of a PDU that is inside its block: it asks for no more than is missing, so the
    stores stay in the block and the position does not pass the end. -/
theorem inside_readBody (b b' : RecvBuf) (r : ReadResult) (hi : b.Inside) (hs : b.Sized)
    (h : b.readBody r = some (.returned true b')) : b'.Inside ∧ b'.Sized := by
  have hlo := hi.lower
  have hhi := hi.upper
  have hmax := hs.limit
  -- The difference is not negative, so the conversion to `size_t` keeps it.
  have hsz : sizeT (b.sz - b.solong) = (b.sz - b.solong).toNat := by
    unfold maxPdu at hmax
    exact sizeT_of_nonneg (by omega) (by omega)
  cases r with
  | got n =>
      simp only [readBody, hsz] at h
      split at h
      · rename_i hn
        simp only [Option.some.injEq, Outcome.returned.injEq, true_and] at h
        subst h
        refine ⟨⟨⟨_, hs.block, fun st hst => ?_⟩, ?_, ?_⟩, hs.block, hs.limit⟩
        · rcases List.mem_cons.mp hst with rfl | hst
          · dsimp only
            omega
          · rcases hi.stores with ⟨k, hk, hall⟩
            rw [hs.block, Option.some.injEq] at hk
            rw [hk]
            exact hall st hst
        · dsimp only
          omega
        · dsimp only
          omega
      · cases h
  | eof eagain =>
      cases eagain
      · cases h
      · cases h
        exact ⟨hi, hs⟩
  | failed eagain =>
      cases eagain
      · cases h
      · cases h
        exact ⟨hi, hs⟩

/-- The second `read` gives up and frees the buffer, or keeps it. -/
theorem readBody_cases (b : RecvBuf) (r : ReadResult) (out : Outcome)
    (h : b.readBody r = some out) :
    out = .returned false empty ∨ ∃ b', out = .returned true b' := by
  cases r with
  | got n =>
      simp only [readBody] at h
      split at h
      · cases h
        exact Or.inr ⟨_, rfl⟩
      · cases h
  | eof eagain => cases eagain <;> cases h <;> simp
  | failed eagain => cases eagain <;> cases h <;> simp

/-- Later calls for the same PDU keep the buffer as the first one has left it, but for what they
    read. -/
theorem inside_more (b b' : RecvBuf) (r : ReadResult) (hi : b.Inside ∧ b.Sized)
    (h : b.more r = some b') : b'.Inside ∧ b'.Sized := by
  unfold more at h
  split at h
  · split at h
    · rename_i heq
      cases h
      exact inside_readBody b _ r hi.1 hi.2 heq
    · cases h
  · cases h

end RecvBuf

/-- With the prefix `sz1`, a call of `readpdu` gives up without a buffer, or keeps one in
    which this call and all later ones stay. -/
def PrefixSafe (sz1 : Bytes) : Prop :=
  ∀ r out, RecvBuf.empty.readpdu sz1 (.got 4) r = some out →
    (∃ b, out = .returned false b ∧ b.block = none) ∨
    ∃ b, out = .returned true b ∧
      ∀ b', Trace.Reaches RecvBuf.more Trace.Always b b' → b'.Inside

/-- The first call, with a prefix that is not refused. -/
theorem readpdu_empty (sz1 : Bytes) (r : ReadResult) (h : ¬ maxPdu < ntohl sz1) :
    RecvBuf.empty.readpdu sz1 (.got 4) r = match malloc (sizeT (ntohl sz1 + 4)) with
      | none => some .aborted
      | some k => RecvBuf.readBody ⟨some k, ntohl sz1, 4, [(0, 4)]⟩ r := by
  simp only [RecvBuf.readpdu, RecvBuf.empty, ne_eq, not_true_eq_false, if_false, false_or, h,
    Option.isSome_none, Bool.false_eq_true]
  rfl

/-- A length of at least 4 that is not refused: the block is there and holds the prefix. -/
theorem inside_first (sz1 : Bytes) (hlo : 4 ≤ ntohl sz1) (hhi : ¬ maxPdu < ntohl sz1) :
    malloc (sizeT (ntohl sz1 + 4)) = some (ntohl sz1 + 4).toNat ∧
    RecvBuf.Inside ⟨some (ntohl sz1 + 4).toNat, ntohl sz1, 4, [(0, 4)]⟩ ∧
    RecvBuf.Sized ⟨some (ntohl sz1 + 4).toNat, ntohl sz1, 4, [(0, 4)]⟩ := by
  have hmax : ntohl sz1 ≤ 10 * 2 ^ 20 := Int.not_lt.mp hhi
  refine ⟨?_, ⟨⟨_, rfl, fun st hst => ?_⟩, Int.le_refl 4, hlo⟩, rfl, Int.not_lt.mp hhi⟩
  · rw [sizeT_of_nonneg (by omega) (by omega), malloc, if_pos (by omega)]
  · rw [List.mem_singleton.mp hst]
    dsimp only
    omega

/-- The prefixes that are handled are those that are refused and those of a PDU that has room for
    its own prefix. A length is a signed number that counts its own four bytes, and nothing tests
    that it is at least 4. Below that the second `read` is given a negative difference as its size,
    and below -4 the allocation is for a size close to `2 ^ 64`. -/
theorem prefixSafe_iff (a b c d : UInt8) :
    PrefixSafe [a, b, c, d] ↔ maxPdu < ntohl [a, b, c, d] ∨ 4 ≤ ntohl [a, b, c, d] := by
  generalize [a, b, c, d] = sz1
  -- A length above the limit is refused before anything is allocated.
  by_cases hmax : maxPdu < ntohl sz1
  · refine ⟨fun _ => Or.inl hmax, fun _ r out h => Or.inl ⟨RecvBuf.empty, ?_, rfl⟩⟩
    simp only [RecvBuf.readpdu, RecvBuf.empty, ne_eq, not_true_eq_false, if_false, hmax,
      or_true, if_true] at h
    cases h
    rfl
  · refine ⟨fun hsafe => Or.inr ?_, fun hor => ?_⟩
    · -- With `EAGAIN` after the prefix the buffer is kept, with `solong` at 4.
      have heq := readpdu_empty sz1 (.failed true) hmax
      cases hblock : malloc (sizeT (ntohl sz1 + 4)) with
      | none =>
          rw [hblock] at heq
          rcases hsafe _ _ heq with ⟨_, hout, _⟩ | ⟨_, hout, _⟩ <;> cases hout
      | some k =>
          rw [hblock] at heq
          rcases hsafe _ _ heq with ⟨_, hout, _⟩ | ⟨_, hout, hall⟩
          · cases hout
          · cases hout
            exact (hall _ Trace.Reaches.init).upper
    -- The first call leaves the PDU inside its block, and every later one keeps it there.
    · have hlo : 4 ≤ ntohl sz1 := hor.resolve_left hmax
      rcases inside_first sz1 hlo hmax with ⟨hblock, hinside⟩
      intro r out h
      rw [readpdu_empty sz1 r hmax, hblock] at h
      rcases RecvBuf.readBody_cases _ r out h with rfl | ⟨b', rfl⟩
      · exact Or.inl ⟨RecvBuf.empty, rfl, rfl⟩
      · refine Or.inr ⟨b', rfl, fun b'' hr => ?_⟩
        have hfirst := RecvBuf.inside_readBody _ b' r hinside.1 hinside.2 h
        exact (Trace.invariant_of_step (fun b => b.Inside ∧ b.Sized) hfirst
          (fun b r b' hi _ hs => RecvBuf.inside_more b b' r hi hs) hr).1

/-- A negative prefix: the allocation fails, and the process with it. -/
theorem negative_prefix_aborts :
    ¬ PrefixSafe [0x80, 0, 0, 0] ∧ RecvBuf.empty.readpdu [0x80, 0, 0, 0] (.got 4) (.got 1) =
      some .aborted := by
  have habort : RecvBuf.empty.readpdu [0x80, 0, 0, 0] (.got 4) (.got 1) = some .aborted := by
    decide
  refine ⟨fun hsafe => ?_, habort⟩
  rcases hsafe _ _ habort with ⟨_, hout, _⟩ | ⟨_, hout, _⟩ <;> cases hout

/-- A prefix of 3: bytes are stored behind the block of 7. -/
example : RecvBuf.empty.readpdu [0, 0, 0, 3] (.got 4) (.got 100) =
    some (.returned true ⟨some 7, 3, 104, [(4, 100), (0, 4)]⟩) := by
  decide

/-! ## The connection of the model without memory -/

/-- The same `rpdu_`, apart from the bytes and the block. -/
structure RecvBuf.Of (b : RecvBuf) (p : Charbuf) : Prop where
  block : b.block.isSome = p.buf.isSome
  sz : b.sz = p.sz
  solong : b.solong = p.solong

/-- The second `read` of the two models: the connection reads bytes of the stream, and the buffer
    says where they are stored. -/
theorem Connection.readBody_in_memory {T : Type} (c c' : Connection T) (stream : Bytes)
    (r : ReadResult) (succ : Bool) (b : RecvBuf) (hof : b.Of c.rpdu) (hlo : 4 ≤ b.solong)
    (hhi : b.sz ≤ maxPdu) (h : c.readBody stream r = some (succ, c')) :
    ∃ b', b.readBody r = some (.returned succ b') ∧ b'.Of c'.rpdu := by
  have hsz := hof.sz
  have hsolong := hof.solong
  unfold maxPdu at hhi
  cases r with
  | got n =>
      simp only [Connection.readBody] at h
      split at h
      · rename_i hn
        have hsize : sizeT (b.sz - b.solong) = (b.sz - b.solong).toNat :=
          sizeT_of_nonneg (by omega) (by omega)
        simp only [Connection.read, Option.some.injEq, Prod.mk.injEq] at h
        rcases h with ⟨rfl, rfl⟩
        refine ⟨_, by rw [RecvBuf.readBody, if_pos ⟨hn.1, by omega, by omega⟩], ?_⟩
        exact ⟨by rw [hof.block, Option.isSome_map], hsz, by dsimp only; rw [hsolong]⟩
      · cases h
  | eof eagain =>
      cases eagain <;> simp only [Connection.readBody] at h <;> cases h
      · exact ⟨_, rfl, rfl, rfl, rfl⟩
      · exact ⟨b, rfl, hof⟩
  | failed eagain =>
      cases eagain <;> simp only [Connection.readBody] at h <;> cases h
      · exact ⟨_, rfl, rfl, rfl, rfl⟩
      · exact ⟨b, rfl, hof⟩

/-- `Connection.readpdu` leaves the memory out. For prefixes of at least 4 it does what `readpdu`
    does, so what is proved about connections is about the code as far as the stream has such
    prefixes. -/
theorem Connection.readpdu_in_memory {T : Type} (c c' : Connection T) (stream : Bytes)
    (r₁ r₂ : ReadResult) (succ : Bool) (b : RecvBuf) (hof : b.Of c.rpdu)
    (hread : b.sz ≠ 0 → 4 ≤ b.solong ∧ b.sz ≤ maxPdu)
    (hroom : 4 ≤ ntohl ((stream.drop c.consumed).take 4))
    (h : c.readpdu stream r₁ r₂ = some (succ, c')) :
    ∃ b', b.readpdu ((stream.drop c.consumed).take 4) r₁ r₂ = some (.returned succ b') ∧
      b'.Of c'.rpdu := by
  unfold Connection.readpdu at h
  unfold RecvBuf.readpdu
  rw [hof.sz] at hread ⊢
  -- A PDU is being read, or the next one starts with its prefix.
  by_cases hsz : c.rpdu.sz ≠ 0
  · rw [if_pos hsz] at h ⊢
    exact Connection.readBody_in_memory c c' stream r₂ succ b hof (hread hsz).1
      (hof.sz ▸ (hread hsz).2) h
  · rw [if_neg hsz] at h ⊢
    cases r₁ with
    | eof eagain =>
        cases h
        exact ⟨b, rfl, hof⟩
    | failed eagain =>
        cases eagain
        · cases h
          exact ⟨b, rfl, hof⟩
        · cases h
    | got n =>
        dsimp only at h ⊢
        split at h
        · rename_i hn
          have hread : c.read stream n = ((stream.drop c.consumed).take n,
            { c with consumed := c.consumed + n }) := rfl
          rw [hread] at h
          dsimp only at h
          rw [if_pos ⟨hn.1, hn.2.1⟩]
          -- A prefix that comes in parts is given up by both.
          by_cases hfour : n = 4
          · subst hfour
            by_cases hgo : (4 : Nat) ≠ 4 ∨ maxPdu < ntohl ((stream.drop c.consumed).take 4)
            · rw [if_pos hgo] at h ⊢
              cases h
              exact ⟨b, rfl, hof⟩
            · rw [if_neg hgo] at h ⊢
              rw [hof.block]
              by_cases hbuf : c.rpdu.buf.isSome = true
              · rw [if_pos hbuf] at h
                cases h
              · rw [if_neg hbuf] at h ⊢
                have hmax := (not_or.mp hgo).2
                rw [(inside_first _ hroom hmax).1]
                exact Connection.readBody_in_memory _ c' stream r₂ succ _ ⟨rfl, rfl, rfl⟩
                  (Int.le_refl 4) (Int.not_lt.mp hmax) h
          · rw [if_pos (Or.inl hfour)] at h ⊢
            cases h
            exact ⟨b, rfl, hof⟩
        · cases h

/-! ## Strings -/

namespace Unmarshall

/-- `s` and `u'` are the string and the reader after `n` bytes have been taken from
    `u`, or the reader has been marked as bad since they are not there. -/
structure Extracted (u : Unmarshall) (n : UInt32) (s : List UInt8) (u' : Unmarshall) :
    Prop where
  buf : u'.buf = u.buf
  mono : u.ind ≤ u'.ind
  short : u.buf.length < u.ind + n.toNat → u'.ok = false
  full : u.ind + n.toNat ≤ u.buf.length → s = (u.buf.drop u.ind).take n.toNat ∧
    s.length = n.toNat ∧ u'.ind = u.ind + n.toNat ∧ u'.ok = u.ok

/-- The sum in the guard of `rawbytes` wraps around to a position in the buffer. -/
def WrapsInto (u : Unmarshall) (n : UInt32) : Prop :=
  2 ^ 32 ≤ u.ind + n.toNat ∧ u.ind + n.toNat - 2 ^ 32 ≤ u.buf.length

/-- `rawbytes` does what it should unless the sum in its guard wraps around into the buffer. The sum
    of an `int` and an `unsigned` is an `unsigned`. -/
theorem rawbytes_extracted_iff (u : Unmarshall) (n : UInt32)
    (hsz : u.buf.length ≤ 10 * 2 ^ 20) (hind : u.ind < 2 ^ 31) :
    (∃ s u', u.rawbytes n = some (s, u') ∧ u.Extracted n s u') ↔ ¬ u.WrapsInto n := by
  have hn : n.toNat < 2 ^ 32 := n.toNat_lt
  unfold WrapsInto rawbytes
  by_cases hwrap : 2 ^ 32 ≤ u.ind + n.toNat
  · -- The sum loses `2 ^ 32`, and the guard compares what is left.
    have hmod : (u.ind + n.toNat) % 2 ^ 32 = u.ind + n.toNat - 2 ^ 32 := by omega
    rw [hmod]
    by_cases hin : u.ind + n.toNat - 2 ^ 32 ≤ u.buf.length
    · rw [if_neg (by omega), if_neg (by omega)]
      refine ⟨fun ⟨s, u', h, _⟩ => (by cases h), fun h => absurd ⟨hwrap, hin⟩ h⟩
    · rw [if_pos (by omega)]
      refine ⟨fun _ h => hin h.2, fun _ => ⟨_, _, rfl, rfl, Nat.le_refl _, fun _ => rfl, ?_⟩⟩
      intro hle
      omega
  · rw [Nat.mod_eq_of_lt (by omega)]
    refine ⟨fun _ h => hwrap h.1, fun _ => ?_⟩
    by_cases hfit : u.ind + n.toNat ≤ u.buf.length
    · rw [if_neg (by omega), if_pos hfit]
      refine ⟨_, _, rfl, rfl, Nat.le_add_right _ _, fun h => by omega, fun _ => ⟨rfl, ?_, rfl, rfl⟩⟩
      rw [List.length_take, List.length_drop]
      omega
    · rw [if_pos (by omega)]
      exact ⟨_, _, rfl, rfl, Nat.le_refl _, fun _ => rfl, fun h => absurd h hfit⟩

/-- From `u` to `u'` the position has moved inside the buffer, if it has moved. -/
structure Moved (u u' : Unmarshall) : Prop where
  buf : u'.buf = u.buf
  mono : u.ind ≤ u'.ind
  limit : u'.ind ≤ max u.ind u.buf.length

/-- Reads one after another. -/
theorem Moved.trans {u u₁ u₂ : Unmarshall} (h₁ : u.Moved u₁) (h₂ : u₁.Moved u₂) :
    u.Moved u₂ := by
  have hmono₁ := h₁.mono
  have hmono₂ := h₂.mono
  have hlimit₁ := h₁.limit
  have hlimit₂ := h₂.limit
  rw [h₁.buf] at hlimit₂
  exact ⟨h₂.buf.trans h₁.buf, by omega, by omega⟩

/-- A byte is taken, or the reader is marked as bad and stays where it is. -/
theorem rawbyte_moved (u : Unmarshall) : u.Moved u.rawbyte.2 := by
  unfold rawbyte
  split
  · rename_i c hc
    have hlt := (List.getElem?_eq_some_iff.mp hc).1
    refine ⟨rfl, ?_, ?_⟩ <;> dsimp only <;> omega
  · exact ⟨rfl, Nat.le_refl _, Nat.le_max_left _ _⟩

/-- The length of a string is read byte by byte. -/
theorem getUint_moved (u : Unmarshall) : u.Moved u.getUint.2 :=
  (((rawbyte_moved u).trans (rawbyte_moved _)).trans (rawbyte_moved _)).trans (rawbyte_moved _)

/-- Of `operator>>` for strings, the length is read first and decides the rest. -/
theorem get_string_eq (u : Unmarshall) : u.get .string =
    if u.getUint.2.ok then (u.getUint.2.rawbytes u.getUint.1).map fun p => (.string p.1, p.2)
    else some (.string [], u.getUint.2) := by
  simp only [get]
  by_cases hok : u.getUint.2.ok = true
  · rw [if_pos hok, if_pos hok]
    cases u.getUint.2.rawbytes u.getUint.1 <;> rfl
  · rw [if_neg hok, if_neg hok]

/-- A string is extracted from inside the buffer, or the reader is marked as bad, unless the
    position and the length add up to a sum that wraps around into the buffer. For `operator>>` the
    length and the position are those behind the length. -/
theorem string_extraction_iff (u : Unmarshall) (n : UInt32)
    (hsz : u.buf.length ≤ 10 * 2 ^ 20) (hind : u.ind < 2 ^ 31) :
    ((∃ s u', u.rawbytes n = some (s, u') ∧ u.Extracted n s u') ↔ ¬ u.WrapsInto n) ∧
    ((∃ s u', u.get .string = some (.string s, u') ∧ u.ind ≤ u'.ind ∧
        if u.getUint.2.ok then u.getUint.2.Extracted u.getUint.1 s u' else u'.ok = false) ↔
      (u.getUint.2.ok = true → ¬ u.getUint.2.WrapsInto u.getUint.1)) := by
  have hmoved := getUint_moved u
  have hlimit := hmoved.limit
  refine ⟨rawbytes_extracted_iff u n hsz hind, ?_⟩
  rw [get_string_eq]
  -- Without a length nothing is extracted, and the mark is the result.
  by_cases hok : u.getUint.2.ok = true
  · have hiff := rawbytes_extracted_iff u.getUint.2 u.getUint.1 (hmoved.buf ▸ hsz) (by omega)
    simp only [hok, if_true, forall_true_left, ← hiff]
    constructor
    · rintro ⟨s, u', heq, _, hex⟩
      rcases Option.map_eq_some_iff.mp heq with ⟨⟨s₁, u₁⟩, hraw, hpair⟩
      rcases Prod.mk.inj hpair with ⟨hs, rfl⟩
      rw [WireVal.string.injEq] at hs
      subst hs
      exact ⟨s₁, u₁, hraw, hex⟩
    · rintro ⟨s, u', hraw, hex⟩
      exact ⟨s, u', by rw [hraw]; rfl, Nat.le_trans hmoved.mono hex.mono, hex⟩
  · simp only [if_neg hok]
    exact ⟨fun _ h => absurd h hok,
      fun _ => ⟨[], _, rfl, hmoved.mono, Bool.eq_false_iff.mpr hok⟩⟩

/-- A two-byte string in a buffer of six. -/
theorem string_extraction_two_bytes :
    ∃ s u', (Unmarshall.new [0, 0, 0, 2, 65, 66]).get .string = some (.string s, u') ∧
      u'.ind = 6 := by
  have hex := ((string_extraction_iff (Unmarshall.new [0, 0, 0, 2, 65, 66]) 0 (by decide)
    (by decide)).2.mpr (by unfold WrapsInto; decide))
  rcases hex with ⟨s, u', heq, _, hcond⟩
  rw [if_pos (by decide)] at hcond
  exact ⟨s, u', heq, (hcond.full (by decide)).2.2.1⟩

/-- A length of `2 ^ 32 - 1` passes the guard, and the string would be read from far
    behind the buffer. -/
theorem string_read_outside :
    (Unmarshall.new [0xff, 0xff, 0xff, 0xff]).get .string = none ∧
    (Unmarshall.new [0xff, 0xff, 0xff, 0xff]).getUint =
      (0xffffffff, ⟨[0xff, 0xff, 0xff, 0xff], 4, true⟩) := by
  decide

end Unmarshall

end Yfs
