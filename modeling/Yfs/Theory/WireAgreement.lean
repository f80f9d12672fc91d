import Yfs.Core.Stubs
import Yfs.Theory.Marshalling

/-!
# Wire Agreement

Whether the two ends of a remote call read what the other end wrote. `Agrees` is
the whole exchange for one call: the handler registered under the stub's procedure
number reads exactly the arguments that were sent, the stub reads exactly the
result that was returned, and `okdone()` holds after each.

Where the two signatures are equal this is the round trip of `Theory.Marshalling`,
and the only thing left to go wrong is a string whose length does not leave room
for the buffer in an `int`. The signatures differ in three places. `lock_client`
sends the client's nonce and the lock id, and `lock_smain` registers handlers that
take the lock id alone (`stat`) or the lock id and a string (`acquire` and
`release`). What a handler reads has the types it is registered with
(`getAll_types`), so on those three no argument agrees.

## Main definitions

* `Stub.Agrees`: The exchange of one call.
* `WireVal.Fits`: A string leaves room in an `int` capacity.
* `Stub.ofLockClient`: The stubs of `lock_client` itself.

## Theorems

* `request_payload`, `reply_payload`: What follows the header of a PDU.
* `handlerArgs_payload`, `result_payload`: A payload of the right types is read.
* `agrees_iff`: Exactly which calls agree.
* `lockClientStat_refused`: A call that does not.
-/

namespace Yfs

open Marshall Unmarshall

/-- A buffer with the header packed: the payload is what was appended. -/
theorem packWords_payload (m : Marshall) (p : List UInt8) (hm : Appends Marshall.new m p)
    (ws : List UInt32) (hws : ws.length ≤ 5) :
    ∃ m', m.packWords ws = some m' ∧ rpcHeaderSz ≤ m'.pdu.length ∧ m'.pdu.length < 2 ^ 31 ∧
      m'.pdu.drop rpcHeaderSz = p := by
  have hbuf : m.buf = List.replicate rpcHeaderSz 0 ++ p := hm.buf
  have hind : rpcHeaderSz ≤ m.ind := by
    rw [← hm.good.length, hbuf, List.length_append, List.length_replicate]
    exact Nat.le_add_right _ _
  rcases packWords_good m hm.good hind ws hws with ⟨m', h', hg, hi, hd⟩
  -- The write position is back at the end, so the PDU is the whole buffer.
  have hpdu : m'.pdu = m'.buf := by
    rw [pdu, ← hg.length, List.take_length]
  refine ⟨m', h', ?_, ?_, ?_⟩
  · rw [hpdu, hg.length, hi]
    exact hind
  · rw [hpdu, hg.length]
    exact Nat.lt_of_le_of_lt hg.capa hg.int
  · rw [hpdu, hd, hbuf, List.drop_left' List.length_replicate]

/-- The payload of a request is the arguments. -/
theorem request_payload (h : ReqHeader) (args : List WireVal) (m : Marshall)
    (hm : Marshall.new.putAll args = some m) :
    ∃ pdu, request h args = some pdu ∧ rpcHeaderSz ≤ pdu.length ∧ pdu.length < 2 ^ 31 ∧
      pdu.drop rpcHeaderSz = args.flatMap WireVal.wire := by
  have ha := putAll_appends args Marshall.new new_good m hm
  rcases packWords_payload m _ ha [h.xid, h.proc, h.cltNonce, h.srvNonce, h.xidRep]
    (Nat.le_refl 5) with ⟨m', h', hpdu⟩
  refine ⟨m'.pdu, ?_, hpdu⟩
  simp only [request, hm, packReqHeader, h', Option.bind_eq_bind, Option.bind_some]

/-- The payload of a reply is the result. -/
theorem reply_payload (h : ReplyHeader) (r : WireVal) (m : Marshall)
    (hm : Marshall.new.put r = some m) :
    ∃ pdu, reply h r = some pdu ∧ rpcHeaderSz ≤ pdu.length ∧ pdu.length < 2 ^ 31 ∧
      pdu.drop rpcHeaderSz = r.wire := by
  have ha := put_appends Marshall.new new_good r m hm
  rcases packWords_payload m _ ha [h.xid, h.ret.toUInt32]
    (by simp only [List.length_cons, List.length_nil]; omega) with ⟨m', h', hpdu⟩
  refine ⟨m'.pdu, ?_, hpdu⟩
  simp only [reply, hm, packReplyHeader, h', Option.bind_eq_bind, Option.bind_some]

/-- The header of a PDU leaves the reader at its payload. -/
theorem unpackReqHeader_snd (pdu : List UInt8) (h : rpcHeaderSz ≤ pdu.length) :
    (Unmarshall.new pdu).unpackReqHeader.2 = ⟨pdu, rpcHeaderSz, true⟩ := by
  have hsz : rpcHeaderSz = 24 := rfl
  -- Five words lead from the size field to the payload.
  have hword : ∀ n, n + 4 ≤ 24 →
      (Unmarshall.mk pdu n true).getUint.2 = Unmarshall.mk pdu (n + 4) true :=
    fun n hn => getUint_skip ⟨pdu, n, true⟩ (by simp only; omega)
  simp only [unpackReqHeader, Unmarshall.new, rpcSzSz, hword 4 (by decide), hword 8 (by decide),
    hword 12 (by decide), hword 16 (by decide), hword 20 (by decide)]

/-- A payload of the handler's types is read by the handler. -/
theorem handlerArgs_payload (sig : Signature) (pdu : List UInt8) (vs : List WireVal)
    (hts : vs.map WireVal.type = sig.args) (hle : rpcHeaderSz ≤ pdu.length)
    (hlt : pdu.length < 2 ^ 31) (hp : pdu.drop rpcHeaderSz = vs.flatMap WireVal.wire) :
    handlerArgs sig pdu = some (vs, true) := by
  have hlen := congrArg List.length hp
  rw [List.length_drop] at hlen
  have hget := getAll_rest vs ⟨pdu, rpcHeaderSz, true⟩ [] rfl (by simp only; omega)
    (by rw [List.append_nil]; exact hp)
  simp only [handlerArgs, unpackReqHeader_snd pdu hle, ← hts, hget, Option.bind_eq_bind,
    Option.bind_some, okdone, skip, Bool.true_and, Option.some.injEq, Prod.mk.injEq, true_and,
    beq_iff_eq]
  omega

/-- A payload of the stub's result type is read by the stub. -/
theorem result_payload (st : Stub) (pdu : List UInt8) (r : WireVal) (ht : r.type = st.sig.ret)
    (hle : rpcHeaderSz ≤ pdu.length) (hlt : pdu.length < 2 ^ 31)
    (hp : pdu.drop rpcHeaderSz = r.wire) : st.result pdu = some (r, true) := by
  have hlen := congrArg List.length hp
  rw [List.length_drop] at hlen
  have hu : Unmarshall.takeIn pdu = ⟨pdu, rpcHeaderSz, true⟩ := by
    simp only [takeIn, hle, decide_true]
  have hget := get_rest ⟨pdu, rpcHeaderSz, true⟩ r [] rfl (by simp only; omega)
    (by rw [List.append_nil]; exact hp)
  simp only [Stub.result, hu, ← ht, hget, Option.bind_eq_bind, Option.bind_some, okdone, skip,
    Bool.true_and, Option.some.injEq, Prod.mk.injEq, true_and, beq_iff_eq]
  omega

/-- The exchange of one call: the arguments reach the handler and its result
    reaches the stub. -/
def Stub.Agrees (st : Stub) (h : ReqHeader) (rh : ReplyHeader) (args : List WireVal)
    (r : WireVal) : Prop :=
  ∃ sig, st.handler = some sig ∧
    (∃ pdu, request h args = some pdu ∧ handlerArgs sig pdu = some (args, true)) ∧
    (∃ pdu, reply rh r = some pdu ∧ st.result pdu = some (r, true))

/-- The capacity that a string asks for is an `int`. -/
def WireVal.Fits : WireVal → Prop
  | .string s => s.length + defaultRpcSz < 2 ^ 31
  | _ => True

/-- The stubs of `lock_client` itself. -/
def Stub.ofLockClient : Stub → Bool
  | .lockClientStat => true
  | .lockClientAcquire => true
  | .lockClientRelease => true
  | _ => false

/-- A value with room is written, unless it is a string. -/
theorem put_of_room (m : Marshall) (hm : m.Good) (v : WireVal) (hv : v.type ≠ .string)
    (hroom : m.ind + v.wire.length ≤ m.capa) :
    ∃ m', m.put v = some m' ∧ m'.Good ∧ m'.capa = m.capa ∧ m'.ind = m.ind + v.wire.length := by
  rcases rawbyteAll_room v.wire m hm hroom with ⟨m', h', hc, hi⟩
  exact ⟨m', by rw [put_eq_rawbyteAll m v hv, h'], (rawbyteAll_appends _ m hm m' h').good, hc, hi⟩

/-- The capacity asked for on top of the default one has to be an `int`. -/
theorem reserveBytes_iff (m : Marshall) (hcapa : m.capa = defaultRpcSz) (hind : m.ind ≤ m.capa)
    (hpos : 0 < m.ind) (n : Nat) :
    (∃ m', m.reserveBytes n = some m') ↔ n + defaultRpcSz < 2 ^ 31 := by
  have hsz : defaultRpcSz = 1024 := rfl
  -- The buffer doubles or grows by the request, whichever is more; only the request can be too
  -- large.
  simp only [reserveBytes]
  split
  · simp only [reduceCtorEq, exists_false, false_iff]
    omega
  · split
    · simp only [grow_iff, exists_and_left, exists_eq, and_true]
      split <;> omega
    · exact ⟨fun _ => by omega, fun _ => ⟨m, rfl⟩⟩

/-- A string is written into a buffer of the default capacity exactly if it fits. -/
theorem put_string_iff (m : Marshall) (hm : m.Good) (hcapa : m.capa = defaultRpcSz)
    (hind : m.ind + 4 ≤ m.capa) (s : List UInt8) :
    (∃ m', m.put (.string s) = some m') ↔ (WireVal.string s).Fits := by
  -- There is room for the length; it is the reservation for the bytes that can fail.
  rcases rawbyteAll_room (Word.be32 (UInt32.ofNat s.length)) m hm hind with ⟨m₁, h₁, hc₁, hi₁⟩
  have hg₁ := (rawbyteAll_appends _ m hm m₁ h₁).good
  have hpos : 0 < m₁.ind := by
    rw [hi₁]
    exact Nat.lt_of_lt_of_le (by decide : 0 < 4) (Nat.le_add_left 4 m.ind)
  have hput : m.put (.string s) = m₁.rawbytes s := by
    simp only [put, putUint, h₁, Option.bind_eq_bind, Option.bind_some]
  have hres := reserveBytes_iff m₁ (by rw [hc₁, hcapa]) hg₁.capa hpos s.length
  rw [hput, WireVal.Fits, ← hres]
  constructor
  · rintro ⟨m', h'⟩
    simp only [Marshall.rawbytes, Option.bind_eq_bind, Option.bind_eq_some_iff] at h'
    rcases h' with ⟨m₂, h₂, _⟩
    exact ⟨m₂, h₂⟩
  · rintro ⟨m₂, h₂⟩
    rcases store_of_room m₂ s (reserveBytes_room m₁ hg₁ s.length m₂ h₂) with ⟨m', h'⟩
    exact ⟨m', by simp only [Marshall.rawbytes, h₂, Option.bind_eq_bind, Option.bind_some, h']⟩

/-- The largest value that is not a string is a set of attributes. -/
theorem wire_length_le (v : WireVal) (hv : v.type ≠ .string) : v.wire.length ≤ 16 := by
  cases v with
  | string s => exact absurd rfl hv
  | _ => simp [WireVal.wire, Word.be16, Word.be32, Word.be64]

theorem fits_of_not_string (v : WireVal) (hv : v.type ≠ .string) : v.Fits := by
  cases v with
  | string s => exact absurd rfl hv
  | _ => trivial

/-- A single value is written exactly if it fits. -/
theorem put_new_iff (v : WireVal) (m : Marshall) (hm : m.Good) (hcapa : m.capa = defaultRpcSz)
    (hind : m.ind + 16 ≤ m.capa) : (∃ m', m.put v = some m') ↔ v.Fits := by
  by_cases hv : v.type = .string
  · cases v with
    | string s => exact put_string_iff m hm hcapa (by omega) s
    | _ => cases hv
  · have hlen := wire_length_le v hv
    rcases put_of_room m hm v hv (by omega) with ⟨m', h', _⟩
    exact ⟨fun _ => fits_of_not_string v hv, fun _ => ⟨m', h'⟩⟩

/-- The argument lists of the stubs: one value, or one that is not a string and
    then another one. -/
theorem putAll_new_iff (args : List WireVal)
    (hargs : (∃ v, args = [v]) ∨ ∃ v w, args = [v, w] ∧ v.type ≠ .string) :
    (∃ m, Marshall.new.putAll args = some m) ↔ ∀ v ∈ args, v.Fits := by
  have hcapa : Marshall.new.capa = defaultRpcSz := rfl
  rcases hargs with ⟨v, rfl⟩ | ⟨v, w, rfl, hv⟩
  · simp only [putAll, Option.bind_eq_bind, Option.bind_fun_some, List.mem_singleton, forall_eq]
    exact put_new_iff v Marshall.new new_good hcapa (by decide)
  · have hlen := wire_length_le v hv
    have hroom : Marshall.new.ind + 32 ≤ Marshall.new.capa := by decide
    rcases put_of_room Marshall.new new_good v hv (by omega) with ⟨m, hm, hg, hc, hi⟩
    have hw := put_new_iff w m hg (by rw [hc]; rfl) (by omega)
    simp only [putAll, hm, Option.bind_eq_bind, Option.bind_some, Option.bind_fun_some,
      List.mem_cons, List.not_mem_nil, or_false, forall_eq_or_imp, forall_eq, hw,
      iff_and_self]
    exact fun _ => fits_of_not_string v hv

/-- Outside `lock_client` the two ends of a call have the same signature. -/
theorem handler_eq_sig (st : Stub) (hst : st.ofLockClient = false) :
    st.handler = some st.sig := by
  cases st with
  | bind srv => cases srv <;> rfl
  | lockClientStat => cases hst
  | lockClientAcquire => cases hst
  | lockClientRelease => cases hst
  | _ => rfl

theorem handler_ne_sig (st : Stub) (hst : st.ofLockClient = true) (sig : Signature)
    (h : st.handler = some sig) : sig.args ≠ st.sig.args := by
  cases st with
  | lockClientStat => cases h; decide
  | lockClientAcquire => cases h; decide
  | lockClientRelease => cases h; decide
  | _ => cases hst

/-- A stub passes one or two arguments, and a string only in the second place. -/
theorem sig_args_shape (st : Stub) (args : List WireVal)
    (hargs : args.map WireVal.type = st.sig.args) :
    (∃ v, args = [v]) ∨ ∃ v w, args = [v, w] ∧ v.type ≠ .string := by
  -- The two shapes are read off the table of the stubs.
  have hsig : (∃ t, st.sig.args = [t]) ∨ ∃ t t', st.sig.args = [t, t'] ∧ t ≠ .string := by
    cases st with
    | bind srv => exact Or.inl ⟨_, rfl⟩
    | revoke => exact Or.inl ⟨_, rfl⟩
    | retry => exact Or.inl ⟨_, rfl⟩
    | extentGet => exact Or.inl ⟨_, rfl⟩
    | extentGetattr => exact Or.inl ⟨_, rfl⟩
    | _ => exact Or.inr ⟨_, _, rfl, by decide⟩
  rcases hsig with ⟨t, ht⟩ | ⟨t, t', ht, hne⟩
  · rw [ht, List.map_eq_singleton_iff] at hargs
    rcases hargs with ⟨v, hv, _⟩
    exact Or.inl ⟨v, hv⟩
  · rw [ht, List.map_eq_cons_iff] at hargs
    rcases hargs with ⟨v, vs, rfl, hv, hvs⟩
    rw [List.map_eq_singleton_iff] at hvs
    rcases hvs with ⟨w, rfl, _⟩
    exact Or.inr ⟨v, w, rfl, by rw [hv]; exact hne⟩

/-- Exactly which calls agree: those of stubs outside `lock_client` whose strings fit. The stubs of
    `lock_client` pass the client's id in front of the lock's, which no handler of `lock_smain`
    takes; all others have the signature of their handler. A string fits if the capacity that it
    asks for is an `int`. -/
theorem agrees_iff (st : Stub) (h : ReqHeader) (rh : ReplyHeader) (args : List WireVal)
    (r : WireVal) (hargs : args.map WireVal.type = st.sig.args) (hr : r.type = st.sig.ret) :
    st.Agrees h rh args r ↔ st.ofLockClient = false ∧ (∀ v ∈ args, v.Fits) ∧ r.Fits := by
  have hput := putAll_new_iff args (sig_args_shape st args hargs)
  have hret := put_new_iff r Marshall.new new_good rfl (by decide)
  constructor
  · rintro ⟨sig, hsig, ⟨pdu, hreq, hread⟩, ⟨pdu', hrep, _⟩⟩
    refine ⟨?_, hput.mp ?_, hret.mp ?_⟩
    · cases hst : st.ofLockClient with
      | false => rfl
      | true =>
          -- What the handler reads has the handler's types.
          simp only [handlerArgs, Option.bind_eq_bind, Option.bind_eq_some_iff] at hread
          rcases hread with ⟨⟨vs, u⟩, hget, hvs⟩
          have htypes := getAll_types _ _ _ _ hget
          rw [show vs = args from (Prod.mk.inj (Option.some.inj hvs)).1, hargs] at htypes
          exact absurd htypes.symm (handler_ne_sig st hst sig hsig)
    · simp only [request, Option.bind_eq_bind, Option.bind_eq_some_iff] at hreq
      rcases hreq with ⟨m, hm, _⟩
      exact ⟨m, hm⟩
    · simp only [reply, Option.bind_eq_bind, Option.bind_eq_some_iff] at hrep
      rcases hrep with ⟨m, hm, _⟩
      exact ⟨m, hm⟩
  · rintro ⟨hst, hfit, hrfit⟩
    -- With equal signatures both directions are round trips.
    rcases hput.mpr hfit with ⟨m, hm⟩
    rcases hret.mpr hrfit with ⟨m', hm'⟩
    rcases request_payload h args m hm with ⟨pdu, hreq, hle, hlt, hp⟩
    rcases reply_payload rh r m' hm' with ⟨pdu', hrep, hle', hlt', hp'⟩
    exact ⟨st.sig, handler_eq_sig st hst,
      ⟨pdu, hreq, handlerArgs_payload st.sig pdu args hargs hle hlt hp⟩,
      ⟨pdu', hrep, result_payload st pdu' r hr hle' hlt' hp'⟩⟩

theorem agrees_extentPut :
    Stub.extentPut.Agrees ⟨5, 0x6001, 77, 88, 4⟩ ⟨5, 0⟩ [.ull 0x80000001, .string [104, 105]]
      (.int 0) :=
  (agrees_iff .extentPut _ _ _ _ rfl rfl).mpr
    ⟨rfl, by simp [WireVal.Fits, defaultRpcSz], trivial⟩

/-- `stat` of lock 1 from the client with nonce 5: the handler takes the first
    eight of the twelve bytes for the lock id, and `okdone()` is false. -/
theorem lockClientStat_refused :
    (request ⟨2, 0x7003, 5, 9, 1⟩ [.uint 5, .ull 1]).bind (handlerArgs ⟨[.ull], .int⟩)
        = some ([.ull 0x500000000], false) ∧
      ¬ Stub.lockClientStat.Agrees ⟨2, 0x7003, 5, 9, 1⟩ ⟨2, 0⟩ [.uint 5, .ull 1] (.int 0) := by
  have hread : (request ⟨2, 0x7003, 5, 9, 1⟩ [.uint 5, .ull 1]).bind
      (handlerArgs ⟨[.ull], .int⟩) = some ([.ull 0x500000000], false) := by decide +kernel
  refine ⟨hread, ?_⟩
  rintro ⟨sig, hsig, ⟨pdu, hreq, hargs⟩, _⟩
  cases hsig
  rw [hreq, Option.bind_some, hargs] at hread
  cases hread

end Yfs
