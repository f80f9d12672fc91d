import Yfs.Theory.Containers
import Yfs.Theory.WireAgreement

/-!
# Canonical Requests

The converse of the round trip. A request that a handler accepts, whoever sent it,
is the one that a client would have sent with the arguments that were read from it.

`Reads` is what a read that succeeds did: the reader was good before it, and the bytes
it moved over are the wire bytes of what it returned. It composes, so a whole list of
arguments accounts for all the bytes behind the header if the reader ends at the end.
The exception is `bool`, which reads every byte but 0 as `true`.

A buffer that has been received is no longer than `maxPdu`, far below the `2 ^ 30`
bytes within which a request can be marshalled.

## Main definitions

* `Unmarshall.Reads`: A read that succeeded.

## Theorems

* `rawbyte_reads`, `getUint_reads`, `get_reads`, `getAll_reads`: What was read.
* `handlerArgs_reads`: The two parts of an accepted request.
* `request_canonical`: Accepted requests are the clients' own.
-/

namespace Yfs

open Marshall Unmarshall

namespace Unmarshall

/-- The reader went from `u` to `u'` over the bytes `p` and is still good. -/
structure Reads (u u' : Unmarshall) (p : List UInt8) : Prop where
  before : u.ok = true
  after : u'.ok = true
  buf : u'.buf = u.buf
  ind : u'.ind = u.ind + p.length
  rest : u.rest = p ++ u'.rest

theorem Reads.refl (u : Unmarshall) (h : u.ok = true) : u.Reads u [] :=
  ⟨h, h, rfl, rfl, rfl⟩

theorem Reads.trans {u u₁ u₂ : Unmarshall} {p q : List UInt8} (h₁ : u.Reads u₁ p)
    (h₂ : u₁.Reads u₂ q) : u.Reads u₂ (p ++ q) :=
  ⟨h₁.before, h₂.after, h₂.buf.trans h₁.buf,
    by rw [h₂.ind, h₁.ind, List.length_append, Nat.add_assoc],
    by rw [h₁.rest, h₂.rest, List.append_assoc]⟩

/-- A reader that is good after a byte has read one. -/
theorem rawbyte_reads (u u' : Unmarshall) (c : UInt32) (h : u.rawbyte = (c, u'))
    (hok : u'.ok = true) : ∃ b, c = Word.widen b ∧ u.Reads u' [b] := by
  unfold rawbyte at h
  split at h
  · rename_i b hb
    rcases Prod.mk.inj h with ⟨rfl, rfl⟩
    refine ⟨b, rfl, hok, hok, rfl, rfl, ?_⟩
    rcases List.getElem?_eq_some_iff.mp hb with ⟨hlt, hget⟩
    rw [Unmarshall.rest, List.drop_eq_getElem_cons hlt, hget]
    rfl
  · rcases Prod.mk.inj h with ⟨rfl, rfl⟩
    cases hok

theorem getUshort_reads (u u' : Unmarshall) (x : UInt16) (h : u.getUshort = (x, u'))
    (hok : u'.ok = true) : u.Reads u' (Word.be16 x) := by
  unfold getUshort at h
  rcases h₁ : u.rawbyte with ⟨a, u₁⟩
  rcases h₂ : u₁.rawbyte with ⟨b, u₂⟩
  rw [h₁] at h
  dsimp only at h
  rw [h₂] at h
  rcases Prod.mk.inj h with ⟨rfl, rfl⟩
  rcases rawbyte_reads u₁ u₂ b h₂ hok with ⟨b', rfl, hr₂⟩
  rcases rawbyte_reads u u₁ a h₁ hr₂.before with ⟨a', rfl, hr₁⟩
  rw [Word.be16_ofBe16]
  exact hr₁.trans hr₂

theorem getUint_reads (u u' : Unmarshall) (x : UInt32) (h : u.getUint = (x, u'))
    (hok : u'.ok = true) : u.Reads u' (Word.be32 x) := by
  unfold getUint at h
  rcases h₁ : u.rawbyte with ⟨a, u₁⟩
  rcases h₂ : u₁.rawbyte with ⟨b, u₂⟩
  rcases h₃ : u₂.rawbyte with ⟨c, u₃⟩
  rcases h₄ : u₃.rawbyte with ⟨d, u₄⟩
  simp only [h₁, h₂, h₃, h₄] at h
  rcases Prod.mk.inj h with ⟨rfl, rfl⟩
  -- The reader was good after the last byte, so it was after each of them.
  rcases rawbyte_reads u₃ u₄ d h₄ hok with ⟨d', rfl, hr₄⟩
  rcases rawbyte_reads u₂ u₃ c h₃ hr₄.before with ⟨c', rfl, hr₃⟩
  rcases rawbyte_reads u₁ u₂ b h₂ hr₃.before with ⟨b', rfl, hr₂⟩
  rcases rawbyte_reads u u₁ a h₁ hr₂.before with ⟨a', rfl, hr₁⟩
  rw [Word.be32_ofBe32]
  exact ((hr₁.trans hr₂).trans hr₃).trans hr₄

theorem rawbytes_reads (u u' : Unmarshall) (n : UInt32) (s : List UInt8) (hu : u.ok = true)
    (h : u.rawbytes n = some (s, u')) (hok : u'.ok = true) :
    u.Reads u' s ∧ UInt32.ofNat s.length = n := by
  unfold rawbytes at h
  split at h
  · rw [Option.some.injEq, Prod.mk.injEq] at h
    rcases h with ⟨rfl, rfl⟩
    cases hok
  · split at h
    · rename_i hin
      rw [Option.some.injEq, Prod.mk.injEq] at h
      rcases h with ⟨rfl, rfl⟩
      have hlen : ((u.buf.drop u.ind).take n.toNat).length = n.toNat := by
        rw [List.length_take, List.length_drop]
        omega
      refine ⟨⟨hu, hok, rfl, by rw [hlen], ?_⟩, by rw [hlen, UInt32.ofNat_toNat]⟩
      rw [Unmarshall.rest, Unmarshall.rest, ← List.drop_drop, List.take_append_drop]
    · cases h

/-- One byte, as the type that it is returned in. -/
theorem rawbyte_reads_toUInt8 (u : Unmarshall) (hok : u.rawbyte.2.ok = true) :
    u.Reads u.rawbyte.2 [u.rawbyte.1.toUInt8] := by
  rcases rawbyte_reads u u.rawbyte.2 u.rawbyte.1 rfl hok with ⟨b, hb, hr⟩
  rw [hb, Word.widen_toUInt8]
  exact hr

/-- A value that needs no check is what the reader it is built from has read. -/
theorem reads_of_some {u u₁ u' : Unmarshall} {w v : WireVal} (h : some (w, u₁) = some (v, u'))
    (hok : u'.ok = true) (hr : u₁.ok = true → u.Reads u₁ w.wire) : u.Reads u' v.wire := by
  rw [Option.some.injEq, Prod.mk.injEq] at h
  rcases h with ⟨rfl, rfl⟩
  exact hr hok

/-- A value that was read well is written as the bytes it was read from. -/
theorem get_reads (u u' : Unmarshall) (t : WireType) (v : WireVal) (ht : t ≠ .bool)
    (h : u.get t = some (v, u')) (hok : u'.ok = true) : u.Reads u' v.wire := by
  cases t with
  | bool => exact absurd rfl ht
  | char => exact reads_of_some h hok (rawbyte_reads_toUInt8 u)
  | uchar => exact reads_of_some h hok (rawbyte_reads_toUInt8 u)
  | short => exact reads_of_some h hok (getUshort_reads u _ _ rfl)
  | ushort => exact reads_of_some h hok (getUshort_reads u _ _ rfl)
  | int => exact reads_of_some h hok (getUint_reads u _ _ rfl)
  | uint => exact reads_of_some h hok (getUint_reads u _ _ rfl)
  -- Two words, the upper one first; the reader is good after the second, so it was after the first.
  | ull =>
      rcases h₁ : u.getUint with ⟨x, u₁⟩
      rcases h₂ : u₁.getUint with ⟨y, u₂⟩
      simp only [get, h₁, h₂, Option.some.injEq, Prod.mk.injEq] at h
      rcases h with ⟨rfl, rfl⟩
      have hr₂ := getUint_reads u₁ u₂ y h₂ hok
      rw [WireVal.wire, Word.be64_ofBe64]
      exact (getUint_reads u u₁ x h₁ hr₂.before).trans hr₂
  -- The length is the number of bytes that were taken, so it is written again as it was read.
  | string =>
      rcases h₁ : u.getUint with ⟨n, u₁⟩
      simp only [get, h₁] at h
      split at h
      · rename_i hok₁
        rcases Option.bind_eq_some_iff.mp h with ⟨⟨s, u₂⟩, h₂, h⟩
        rw [Option.some.injEq, Prod.mk.injEq] at h
        rcases h with ⟨rfl, rfl⟩
        rcases rawbytes_reads u₁ u₂ n s hok₁ h₂ hok with ⟨hr, hn⟩
        rw [WireVal.wire, hn]
        exact (getUint_reads u u₁ n h₁ hok₁).trans hr
      · rename_i hbad
        rw [Option.some.injEq, Prod.mk.injEq] at h
        rcases h with ⟨rfl, rfl⟩
        exact absurd hok hbad
  | attr =>
      rcases h₁ : u.getUint with ⟨x, u₁⟩
      rcases h₂ : u₁.getUint with ⟨y, u₂⟩
      rcases h₃ : u₂.getUint with ⟨z, u₃⟩
      rcases h₄ : u₃.getUint with ⟨w, u₄⟩
      simp only [get, h₁, h₂, h₃, h₄, Option.some.injEq, Prod.mk.injEq] at h
      rcases h with ⟨rfl, rfl⟩
      have hr₄ := getUint_reads u₃ u₄ w h₄ hok
      have hr₃ := getUint_reads u₂ u₃ z h₃ hr₄.before
      have hr₂ := getUint_reads u₁ u₂ y h₂ hr₃.before
      have hr₁ := getUint_reads u u₁ x h₁ hr₂.before
      exact ((hr₁.trans hr₂).trans hr₃).trans hr₄

theorem getAll_reads (ts : List WireType) (u u' : Unmarshall) (vs : List WireVal)
    (hts : .bool ∉ ts) (h : u.getAll ts = some (vs, u')) (hok : u'.ok = true) :
    u.Reads u' (vs.flatMap WireVal.wire) := by
  induction ts generalizing u vs with
  | nil =>
      rw [getAll, Option.some.injEq, Prod.mk.injEq] at h
      rcases h with ⟨rfl, rfl⟩
      exact Reads.refl u hok
  | cons t ts ih =>
      rw [List.mem_cons, not_or] at hts
      rcases Option.bind_eq_some_iff.mp h with ⟨⟨v, u₁⟩, h₁, h⟩
      rcases Option.bind_eq_some_iff.mp h with ⟨⟨vs', u₂⟩, h₂, h⟩
      rw [Option.some.injEq, Prod.mk.injEq] at h
      rcases h with ⟨rfl, rfl⟩
      have hr₂ := ih u₁ vs' hts.2 h₂
      rw [List.flatMap_cons]
      exact (get_reads u u₁ t v (Ne.symm hts.1) h₁ hr₂.before).trans hr₂

/-- The words of a request header that was read well. -/
theorem unpackReqHeader_reads (pdu : List UInt8) (h : ReqHeader) (u : Unmarshall)
    (hu : (Unmarshall.new pdu).unpackReqHeader = (h, u)) (hok : u.ok = true) :
    u = ⟨pdu, rpcHeaderSz, true⟩ ∧
      pdu.drop rpcSzSz = (Header.req h).words.flatMap Word.be32 ++ pdu.drop rpcHeaderSz := by
  unfold unpackReqHeader at hu
  rcases h₁ : (Unmarshall.mk pdu rpcSzSz true).getUint with ⟨xid, u₁⟩
  rcases h₂ : u₁.getUint with ⟨proc, u₂⟩
  rcases h₃ : u₂.getUint with ⟨cltNonce, u₃⟩
  rcases h₄ : u₃.getUint with ⟨srvNonce, u₄⟩
  rcases h₅ : u₄.getUint with ⟨xidRep, u₅⟩
  simp only [Unmarshall.new, h₁, h₂, h₃, h₄, h₅, Prod.mk.injEq] at hu
  rcases hu with ⟨rfl, rfl⟩
  have hr₅ := getUint_reads u₄ u₅ xidRep h₅ hok
  have hr₄ := getUint_reads u₃ u₄ srvNonce h₄ hr₅.before
  have hr₃ := getUint_reads u₂ u₃ cltNonce h₃ hr₄.before
  have hr₂ := getUint_reads u₁ u₂ proc h₂ hr₃.before
  have hr₁ := getUint_reads _ u₁ xid h₁ hr₂.before
  have hr := (((hr₁.trans hr₂).trans hr₃).trans hr₄).trans hr₅
  have hind : u₅.ind = rpcHeaderSz := hr.ind
  refine ⟨?_, ?_⟩
  · rw [show u₅.buf = pdu from hr.buf, show u₅.ok = true from hok]
  · have hrest := hr.rest
    rw [Unmarshall.rest, Unmarshall.rest, hr.buf, hind] at hrest
    simp only [Header.words, List.flatMap_cons, List.flatMap_nil, List.append_nil,
      List.append_assoc] at hrest ⊢
    exact hrest

end Unmarshall

/-- An accepted request is its header and its arguments, and nothing else. -/
theorem handlerArgs_reads (sig : Signature) (pdu : List UInt8) (vs : List WireVal)
    (hts : .bool ∉ sig.args) (h : handlerArgs sig pdu = some (vs, true)) :
    pdu.drop rpcSzSz = (Header.req (Unmarshall.new pdu).unpackReqHeader.1).words.flatMap Word.be32
        ++ vs.flatMap WireVal.wire ∧
      pdu.drop rpcHeaderSz = vs.flatMap WireVal.wire := by
  unfold handlerArgs at h
  rcases hu : (Unmarshall.new pdu).unpackReqHeader with ⟨hd, u⟩
  rw [hu] at h
  rcases Option.bind_eq_some_iff.mp h with ⟨⟨vs', u'⟩, hget, h⟩
  rw [Option.some.injEq, Prod.mk.injEq] at h
  rcases h with ⟨rfl, hdone⟩
  simp only [okdone, Bool.and_eq_true, beq_iff_eq] at hdone
  have hr := getAll_reads sig.args u u' vs' hts hget hdone.1
  rcases unpackReqHeader_reads pdu hd u hu hr.before with ⟨rfl, hwords⟩
  -- The reader ends at the end of the buffer.
  have hpay : pdu.drop rpcHeaderSz = vs'.flatMap WireVal.wire := by
    have hrest := hr.rest
    rw [Unmarshall.rest, Unmarshall.rest, hdone.2, List.drop_length, List.append_nil] at hrest
    exact hrest
  rw [hwords, hpay]
  exact ⟨rfl, rfl⟩

theorem Marshall.putAll_fits (vs : List WireVal) (m : Marshall) (hm : m.Good) (hpos : 0 < m.ind)
    (h : m.ind + (vs.flatMap WireVal.wire).length ≤ 2 ^ 30) : ∃ m', m.putAll vs = some m' := by
  induction vs generalizing m with
  | nil => exact ⟨m, rfl⟩
  | cons v vs ih =>
      rw [List.flatMap_cons, List.length_append] at h
      rcases put_fits v m hm hpos (by omega) with ⟨m₁, h₁, ha₁⟩
      have hind := ha₁.ind_eq hm
      rcases ih m₁ ha₁.good (by omega) (by omega) with ⟨m', h'⟩
      exact ⟨m', by rw [putAll, h₁, Option.bind_eq_bind, Option.bind_some, h']⟩

/-- A request is its header and its arguments. -/
theorem request_words (h : ReqHeader) (vs : List WireVal)
    (hlen : rpcHeaderSz + (vs.flatMap WireVal.wire).length ≤ 2 ^ 30) :
    ∃ pdu, request h vs = some pdu ∧
      pdu.drop rpcSzSz
        = (Header.req h).words.flatMap Word.be32 ++ vs.flatMap WireVal.wire := by
  have hsz : rpcSzSz = 4 := rfl
  have hsz' : rpcHeaderSz = 24 := rfl
  rcases putAll_fits vs Marshall.new new_good (by decide) hlen with ⟨m, hm⟩
  have ha := putAll_appends vs Marshall.new new_good m hm
  have hind : rpcHeaderSz ≤ m.ind := by
    rw [ha.ind_eq new_good]
    exact Nat.le_add_right rpcHeaderSz _
  rcases packWords_good m ha.good hind (Header.req h).words (Header.length_words _) with
    ⟨m', h', hg, -, -⟩
  have hpack := packWords_eq m ha.good hind (Header.req h).words (Header.length_words _)
  rw [h', Option.some.injEq] at hpack
  have hlength := ha.good.length
  have hpdu : m'.pdu = m'.buf := by rw [pdu, ← hg.length, List.take_length]
  refine ⟨m'.pdu, ?_, ?_⟩
  · rw [request, hm, Option.bind_eq_bind, Option.bind_some,
      show m.packReqHeader h = some m' from h', Option.bind_some]
  · -- Behind the words comes what was behind the header area.
    have htail : m.buf.drop (rpcSzSz + 4 * (Header.req h).words.length)
        = vs.flatMap WireVal.wire := by
      rw [ha.buf]
      exact List.drop_left' rfl
    rw [hpdu, hpack, htail, List.append_assoc]
    exact List.drop_left' (List.length_take_of_le (by omega))

/-- A request that is accepted is what marshalling its header and its arguments gives, and other
    payloads give other arguments. So no two requests that differ behind their size are taken for
    the same call. `bool` is left out: any byte that is not zero is read as true, and true is
    written as 1. -/
theorem request_canonical (sig : Signature) (pdu : List UInt8) (vs : List WireVal)
    (hlen : pdu.length ≤ 2 ^ 30) (hts : .bool ∉ sig.args)
    (h : handlerArgs sig pdu = some (vs, true)) :
    (∃ pdu', request (Unmarshall.new pdu).unpackReqHeader.1 vs = some pdu' ∧
      pdu'.drop rpcSzSz = pdu.drop rpcSzSz) ∧
    ∀ sig' pdu', .bool ∉ sig'.args → handlerArgs sig' pdu' = some (vs, true) →
      pdu'.drop rpcHeaderSz = pdu.drop rpcHeaderSz := by
  rcases handlerArgs_reads sig pdu vs hts h with ⟨hall, hpay⟩
  refine ⟨?_, fun sig' pdu' hts' h' => ?_⟩
  · have hroom : rpcHeaderSz + (vs.flatMap WireVal.wire).length ≤ 2 ^ 30 := by
      have hl := congrArg List.length hall
      rw [List.length_drop, List.length_append, length_flatMap_be32] at hl
      have hsz : rpcSzSz = 4 := rfl
      have hsz' : rpcHeaderSz = 24 := rfl
      have hw : (Header.req (Unmarshall.new pdu).unpackReqHeader.1).words.length = 5 := rfl
      omega
    rcases request_words (Unmarshall.new pdu).unpackReqHeader.1 vs hroom with ⟨pdu', h', hw'⟩
    exact ⟨pdu', h', by rw [hw', hall]⟩
  · rw [(handlerArgs_reads sig' pdu' vs hts' h').2, hpay]

/-- A request for the extent server's `put`, with a string of two bytes. -/
def putRequest : List UInt8 :=
  [9, 9, 9, 9, 0, 0, 0, 7, 0, 0, 0x60, 1, 0, 0, 0, 5, 0, 0, 0, 6, 0, 0, 0, 3,
    0, 0, 0, 0, 0, 0, 0, 2, 0, 0, 0, 2, 97, 0]

theorem request_canonical_put :
    handlerArgs ⟨[.ull, .string], .int⟩ putRequest = some ([.ull 2, .string [97, 0]], true) ∧
    ∃ pdu', request (Unmarshall.new putRequest).unpackReqHeader.1 [.ull 2, .string [97, 0]]
      = some pdu' ∧ pdu'.drop rpcSzSz = putRequest.drop rpcSzSz := by
  have h : handlerArgs ⟨[.ull, .string], .int⟩ putRequest
      = some ([.ull 2, .string [97, 0]], true) := by decide
  exact ⟨h, (request_canonical ⟨[.ull, .string], .int⟩ putRequest _ (by decide) (by decide) h).1⟩

end Yfs
