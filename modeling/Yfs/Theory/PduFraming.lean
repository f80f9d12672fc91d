import Yfs.Core.Connection
import Yfs.Library.Stream

/-!
# PDUs Survive the Byte Stream

What one end hands to its manager is what the other end's senders were given, in
the order in which they got `wpdu_`.

The bytes between the two ends are a prefix of the frames of these PDUs, a frame
being the PDU with its size over the first four bytes. On the writing side this is
an invariant of one end alone (`Wire`): while the connection is alive and `wpdu_` is
taken, everything before the current PDU has been written and `solong` bytes of its
frame have. On the reading side (`Reading`) `rpdu_` is the first `solong` bytes of
the frame that comes after the accepted ones; by `Stream.slice_eq` the next read
continues that frame, and at its start the four bytes are its size. A connection
that is dead neither takes a PDU to write nor reads, so nothing is needed of it but
what it has done already.

## Main definitions

* `frame`, `stamped`: A PDU on the wire, and as it is handed over.
* `Writing`, `Attempt`, `Wire`, `Holders`: The writing side.
* `Within`, `Position`, `AfterRead`, `Reading`: The reading side.

## Theorems

* `ntohl_htonl`: A size below `2 ^ 31` is read back.
* `writing_writepdu`, `sending_sendLoop`, `wire_writeCb`: The writing side.
* `position_readpdu`, `reading_offer`, `reading_readCb`: The reading side.
* `act_inv`, `linkInv_step`: One action.
* `accepted_prefix_obtained`: Every run.
-/

namespace Yfs

namespace Connection

variable {T : Type}

/-- A PDU as it is written. -/
def frame (b : Bytes) : Bytes :=
  htonl b.length ++ b.drop 4

/-- A PDU as it is handed over. -/
def stamped (b : Bytes) : Bytes × Int :=
  (frame b, b.length)

/-- `size()` of a `marshall`, an `int`. -/
def Sized (b : Bytes) : Prop :=
  24 ≤ b.length ∧ b.length < 2 ^ 31

theorem toUInt32_and (b : UInt8) : b.toUInt32 &&& 0xff = b.toUInt32 := by
  rw [← Word.widen_and, UInt32.and_assoc, UInt32.and_self]

/-- A size survives the two conversions. It is an `int`, so below `2 ^ 31`. -/
theorem ntohl_htonl (n : Nat) (h : n < 2 ^ 31) : ntohl (htonl n) = n := by
  -- The four bytes are those of the word, so what comes back is the word read as an `int`.
  have hword : ntohl (htonl n) = (UInt32.ofNat n).toInt32.toInt := by
    have hbe := Word.ofBe32_be32 (UInt32.ofNat n)
    unfold Word.ofBe32 at hbe
    simp only [Word.widen_and] at hbe
    simp only [htonl, ntohl, Word.be32, Word.ofBe32, toUInt32_and, Int.toNat_natCast]
    rw [hbe]
  rw [hword, UInt32.toInt32_ofNat', Int32.toInt_ofNat_of_lt h]

/-- The size replaces four bytes by four. -/
theorem length_frame (b : Bytes) (h : 24 ≤ b.length) : (frame b).length = b.length := by
  unfold frame htonl Word.be32
  rw [List.length_append, List.length_drop]
  simp only [List.length_cons, List.length_nil]
  omega

theorem take_frame (b : Bytes) : (frame b).take 4 = htonl b.length := by
  unfold frame
  exact List.take_left' rfl

/-! ## Writing -/

/-- The number of the PDU that a thread has in `wpdu_`. -/
def holds : SendPc → Option Nat
  | .completing k => some k
  | .removing k => some k
  | _ => none

/-- The frames of everything that got `wpdu_`, one after another. -/
def sent (c : Connection T) : Bytes :=
  (c.obtained.map frame).flatten

/-- `i` bytes of the last PDU `b` have been written, and all that came before it.
    The caller's buffer is stamped at the first attempt. -/
structure Writing (c : Connection T) (olds : List Bytes) (b p : Bytes) (i : Nat) : Prop where
  obtained : c.obtained = olds ++ [b]
  buf : c.wpdu.buf = some p
  sz : c.wpdu.sz = b.length
  solong : c.wpdu.solong = i
  le : i ≤ b.length
  body : p.drop 4 = b.drop 4
  stamp : i ≠ 0 → p = frame b
  written : c.written = (olds.map frame).flatten ++ (frame b).take i

/-- The bytes written so far. -/
structure Wire (c : Connection T) : Prop where
  sizes : ∀ b ∈ c.obtained, Sized b
  stream : c.written <+: c.sent
  free : c.dead = false → c.wpdu.buf = none → c.written = c.sent
  taken : c.dead = false → c.wpdu.buf ≠ none → ∃ olds b p i, c.Writing olds b p i
  returned : ∀ k, (some k, true) ∈ c.returned →
    k < c.obtained.length ∧ ((c.obtained.take (k + 1)).map frame).flatten <+: c.written

/-- The threads inside `send`. At most one has `wpdu_`. -/
structure Holders (c : Connection T) : Prop where
  waiting : ∀ t b, c.thread t = .waiting b → Sized b
  taken : ∀ t k, holds (c.thread t) = some k → c.wpdu.buf ≠ none ∧ c.obtained.length = k + 1
  alone : ∀ t t' k k', holds (c.thread t) = some k → holds (c.thread t') = some k' → t = t'
  removing : ∀ t k, c.thread t = .removing k → c.dead = true

/-- The fields that only `send` and `write_cb` change are the same. -/
structure SameWrite (c c' : Connection T) : Prop where
  wpdu : c'.wpdu = c.wpdu
  thread : c'.thread = c.thread
  obtained : c'.obtained = c.obtained
  written : c'.written = c.written
  returned : c'.returned = c.returned

/-- The fields that only `read_cb` changes are the same. -/
structure SameRead (c c' : Connection T) : Prop where
  rpdu : c'.rpdu = c.rpdu
  consumed : c'.consumed = c.consumed
  accepted : c'.accepted = c.accepted

/-- What has been written is the beginning of what is to be. -/
theorem Writing.prefix_sent {c : Connection T} {olds : List Bytes} {b p : Bytes} {i : Nat}
    (h : c.Writing olds b p i) : c.written <+: c.sent := by
  unfold sent
  rw [h.written, h.obtained, List.map_append, List.flatten_append, List.map_singleton,
    List.flatten_singleton]
  exact (List.prefix_append_right_inj _).mpr (List.take_prefix i (frame b))

/-- Once the whole size has been written, so has everything. -/
theorem Writing.complete {c : Connection T} {olds : List Bytes} {b p : Bytes} {i : Nat}
    (h : c.Writing olds b p i) (hb : Sized b) (hdone : c.wpdu.solong = c.wpdu.sz) :
    c.written = c.sent := by
  -- The position has come to the end of the PDU.
  have hi : i = b.length := by
    have := h.solong
    have := h.sz
    omega
  unfold sent
  rw [h.written, h.obtained, List.map_append, List.flatten_append, List.map_singleton,
    List.flatten_singleton, hi, ← length_frame b hb.1, List.take_length]

/-- From `c` to `c'` by one attempt to write, which goes on with the frame or fails and
    writes nothing. -/
structure Attempt (c c' : Connection T) (olds : List Bytes) (b : Bytes) (ok : Bool) : Prop where
  dead : c'.dead = c.dead
  thread : c'.thread = c.thread
  obtained : c'.obtained = c.obtained
  returned : c'.returned = c.returned
  read : c.SameRead c'
  buf : c'.wpdu.buf ≠ none
  written : c.written <+: c'.written
  good : ok = true → ∃ p i, c'.Writing olds b p i
  bad : ok = false → c'.written = c.written

/-- One attempt: the size goes into the buffer before the first byte is written, and `write` takes
    some of what is left of the frame. -/
theorem writing_writepdu (c c' : Connection T) (w : WriteResult) (ok : Bool)
    (olds : List Bytes) (b p : Bytes) (i : Nat) (hw : c.Writing olds b p i)
    (h : c.writepdu w = some (ok, c')) : c.Attempt c' olds b ok := by
  have hsol := hw.solong
  have hsz := hw.sz
  unfold writepdu at h
  rw [if_neg (by omega), hw.buf] at h
  split at h
  · -- Everything had been written before.
    rw [Option.some.injEq, Prod.mk.injEq] at h
    rcases h with ⟨rfl, rfl⟩
    refine ⟨rfl, rfl, rfl, rfl, ⟨rfl, rfl, rfl⟩, ?_, List.prefix_refl _, fun _ => ⟨p, i, hw⟩,
      fun hf => by cases hf⟩
    rw [hw.buf]
    exact Option.some_ne_none p
  · dsimp only at h
    -- The buffer is stamped now, or has been.
    have hstamp : (if c.wpdu.solong = 0 then htonl c.wpdu.sz ++ p.drop 4 else p) = frame b := by
      split
      · rw [hsz, hw.body]
        rfl
      · exact hw.stamp (by omega)
    rw [hstamp] at h
    have hbody : (frame b).drop 4 = b.drop 4 := List.drop_left' rfl
    cases w with
    -- The bytes that are written go on where the last `write` has ended.
    | wrote n =>
        dsimp only at h
        split at h
        · rename_i hn
          rw [Option.some.injEq, Prod.mk.injEq] at h
          rcases h with ⟨rfl, rfl⟩
          refine ⟨rfl, rfl, rfl, rfl, ⟨rfl, rfl, rfl⟩, Option.some_ne_none _,
            List.prefix_append _ _, fun _ => ⟨frame b, i + n, ?_⟩, fun hf => by cases hf⟩
          refine ⟨hw.obtained, rfl, hsz, ?_, ?_, hbody, fun _ => rfl, ?_⟩
          · dsimp only
            omega
          · omega
          · dsimp only
            rw [hw.written, hsol, Int.toNat_natCast, List.append_assoc, List.take_add]
        · cases h
    -- Nothing is written, but the buffer has its size now.
    | eagain =>
        rw [Option.some.injEq, Prod.mk.injEq] at h
        rcases h with ⟨rfl, rfl⟩
        refine ⟨rfl, rfl, rfl, rfl, ⟨rfl, rfl, rfl⟩, Option.some_ne_none _, List.prefix_refl _,
          fun _ => ⟨frame b, i, ?_⟩, fun hf => by cases hf⟩
        exact ⟨hw.obtained, rfl, hsz, hsol, hw.le, hbody, fun _ => rfl, hw.written⟩
    -- `wpdu_` is left with a position of -1, and nobody goes on with it.
    | failed =>
        rw [Option.some.injEq, Prod.mk.injEq] at h
        rcases h with ⟨rfl, rfl⟩
        exact ⟨rfl, rfl, rfl, rfl, ⟨rfl, rfl, rfl⟩, Option.some_ne_none _, List.prefix_refl _,
          (fun hf => by cases hf), fun _ => rfl⟩

/-- What `send` and `write_cb` leave of the past. -/
structure Grows (c c' : Connection T) : Prop where
  obtained : c.obtained <+: c'.obtained
  written : c.written <+: c'.written
  read : c.SameRead c'
  dead : c.dead = true → c'.dead = true

/-- An action that does nothing. -/
theorem Grows.refl (c : Connection T) : c.Grows c :=
  ⟨List.prefix_refl _, List.prefix_refl _, ⟨rfl, rfl, rfl⟩, id⟩

theorem Grows.of_eq {c c' d : Connection T} (hg : c.Grows c') (ho : d.obtained = c'.obtained)
    (hw : d.written = c'.written) (hr : d.rpdu = c'.rpdu) (hc : d.consumed = c'.consumed)
    (ha : d.accepted = c'.accepted) (hd : c'.dead = true → d.dead = true) : c.Grows d :=
  ⟨by rw [ho]; exact hg.obtained, by rw [hw]; exact hg.written,
    ⟨hr.trans hg.read.rpdu, hc.trans hg.read.consumed, ha.trans hg.read.accepted⟩,
    fun h => hd (hg.dead h)⟩

/-- What has been written stays written. -/
theorem Wire.returned_mono {c c' : Connection T} (hw : c.Wire) (hg : c.Grows c') (k : Nat)
    (h : (some k, true) ∈ c.returned) :
    k < c'.obtained.length ∧ ((c'.obtained.take (k + 1)).map frame).flatten <+: c'.written := by
  rcases hw.returned k h with ⟨hlt, hpre⟩
  rcases hg.obtained with ⟨more, hmore⟩
  refine ⟨Nat.lt_of_lt_of_le hlt hg.obtained.length_le, ?_⟩
  -- The PDUs up to this one are the same, and what was written begins as it did.
  rw [← hmore, List.take_append_of_le_length hlt]
  exact hpre.trans hg.written

/-- A state whose writer is in the middle of a PDU. -/
theorem wire_of_writing {c c' : Connection T} {olds : List Bytes} {b p : Bytes} {i : Nat}
    (hw : c.Wire) (hg : c.Grows c') (hr : c'.returned = c.returned)
    (hs : ∀ b ∈ c'.obtained, Sized b) (h : c'.Writing olds b p i) : c'.Wire where
  sizes := hs
  stream := h.prefix_sent
  free := by
    intro _ hnone
    rw [h.buf] at hnone
    cases hnone
  taken := fun _ _ => ⟨olds, b, p, i, h⟩
  returned := by
    rw [hr]
    exact hw.returned_mono hg

/-- A state whose connection is dead. -/
theorem wire_of_dead {c c' : Connection T} (hw : c.Wire) (hg : c.Grows c')
    (hd : c'.dead = true) (hr : ∀ k, (some k, true) ∈ c'.returned → (some k, true) ∈ c.returned)
    (hs : ∀ b ∈ c'.obtained, Sized b) (h : c'.written <+: c'.sent) : c'.Wire where
  sizes := hs
  stream := h
  free := by
    intro hf
    rw [hd] at hf
    cases hf
  taken := by
    intro hf
    rw [hd] at hf
    cases hf
  returned := fun k hk => hw.returned_mono hg k (hr k hk)

/-- The writing side depends on its own fields, and death asks for less. -/
theorem wire_congr {c c' : Connection T} (hw : c.Wire) (hp : c'.wpdu = c.wpdu)
    (ho : c'.obtained = c.obtained) (hs : c'.written = c.written)
    (hr : c'.returned = c.returned) (hd : c'.dead = false → c.dead = false) : c'.Wire := by
  have hsent : c'.sent = c.sent := by rw [sent, ho, sent]
  refine ⟨?_, ?_, ?_, ?_, ?_⟩
  · rw [ho]
    exact hw.sizes
  · rw [hs, hsent]
    exact hw.stream
  · rw [hp, hs, hsent]
    exact fun hf => hw.free (hd hf)
  · intro hf hb
    rw [hp] at hb
    rcases hw.taken (hd hf) hb with ⟨olds, b, p, i, h⟩
    exact ⟨olds, b, p, i, ho.trans h.obtained, by rw [hp, h.buf], by rw [hp, h.sz],
      by rw [hp, h.solong], h.le, h.body, h.stamp, hs.trans h.written⟩
  · rw [hr, ho, hs]
    exact hw.returned

/-- Which thread has `wpdu_` depends on these fields. -/
theorem holders_congr {c c' : Connection T} (hh : c.Holders) (ht : c'.thread = c.thread)
    (hp : c'.wpdu = c.wpdu) (ho : c'.obtained = c.obtained)
    (hd : c.dead = true → c'.dead = true) : c'.Holders := by
  refine ⟨?_, ?_, ?_, ?_⟩
  · rw [ht]
    exact hh.waiting
  · rw [ht, hp, ho]
    exact hh.taken
  · rw [ht]
    exact hh.alone
  · rw [ht]
    exact fun t k h => hd (hh.removing t k h)

/-- Only one thread, if any, has `wpdu_`. -/
theorem holders_of_only {c : Connection T} (t : T)
    (hothers : ∀ t', t' ≠ t → holds (c.thread t') = none)
    (hwait : ∀ t' b, c.thread t' = .waiting b → Sized b)
    (hself : ∀ k, holds (c.thread t) = some k → c.wpdu.buf ≠ none ∧ c.obtained.length = k + 1)
    (hrem : ∀ k, c.thread t = .removing k → c.dead = true) : c.Holders := by
  -- Whoever has `wpdu_` is the one thread.
  have honly : ∀ t' k, holds (c.thread t') = some k → t' = t := by
    intro t' k h
    by_contra hne
    rw [hothers t' hne] at h
    cases h
  refine ⟨hwait, ?_, ?_, ?_⟩
  · intro t' k h
    rw [honly t' k h] at h
    exact hself k h
  · intro t₁ t₂ k₁ k₂ h₁ h₂
    rw [honly t₁ k₁ h₁, honly t₂ k₂ h₂]
  · intro t' k h
    have ht := honly t' k (by rw [h, holds])
    rw [ht] at h
    exact hrem k h

/-- `write_cb` goes on with the PDU in `wpdu_`. The thread that sends it is not involved; it sees
    the position when it is woken. -/
theorem wire_writeCb (c c' : Connection T) (w : WriteResult) (hw : c.Wire) (hh : c.Holders)
    (h : c.writeCb w = some c') : c'.Wire ∧ c'.Holders ∧ c.Grows c' := by
  unfold writeCb at h
  split at h
  · cases h
  · rename_i hdead
    split at h
    · rw [Option.some.injEq] at h
      subst h
      exact ⟨hw, hh, Grows.refl c⟩
    · rename_i hsz
      rcases Option.bind_eq_some_iff.mp h with ⟨⟨ok, c₁⟩, hwrite, h⟩
      dsimp only at h
      by_cases hbuf : c.wpdu.buf = none
      · -- Without a PDU there is nothing to write.
        unfold writepdu at hwrite
        rw [hbuf] at hwrite
        split at hwrite
        · cases hwrite
        · split at hwrite
          · rw [Option.some.injEq, Prod.mk.injEq] at hwrite
            rcases hwrite with ⟨rfl, rfl⟩
            rw [if_pos rfl, Option.some.injEq] at h
            subst h
            exact ⟨hw, hh, Grows.refl c⟩
          · cases hwrite
      · have hlive : c.dead = false := Bool.eq_false_iff.mpr hdead
        rcases hw.taken hlive hbuf with ⟨olds, b, p, i, hwr⟩
        have hatt := writing_writepdu c c₁ w ok olds b p i hwr hwrite
        have hg : c.Grows c₁ :=
          ⟨by rw [hatt.obtained], hatt.written, hatt.read, fun h => hatt.dead.trans h⟩
        have hs₁ : ∀ b ∈ c₁.obtained, Sized b := by
          rw [hatt.obtained]
          exact hw.sizes
        -- Nobody else has come to hold `wpdu_`.
        have hhold : ∀ d : Connection T, d.thread = c₁.thread → d.wpdu.buf ≠ none →
            d.obtained = c₁.obtained → (c₁.dead = true → d.dead = true) → d.Holders := by
          intro d hdt hdb hdo hdd
          rw [hatt.thread] at hdt
          refine ⟨by rw [hdt]; exact hh.waiting, ?_, by rw [hdt]; exact hh.alone, ?_⟩
          · rw [hdt, hdo, hatt.obtained]
            exact fun t k hk => ⟨hdb, (hh.taken t k hk).2⟩
          · rw [hdt]
            exact fun t k hk => hdd (hatt.dead.trans (hh.removing t k hk))
        cases ok with
        | true =>
            rw [if_pos rfl, Option.some.injEq] at h
            subst h
            rcases hatt.good rfl with ⟨p', i', hwr'⟩
            exact ⟨wire_of_writing hw hg hatt.returned hs₁ hwr', hhold c₁ rfl hatt.buf rfl id, hg⟩
        -- The `write` has failed: the connection is dead, and the sender finds that out.
        | false =>
            rw [if_neg (by decide), Option.some.injEq] at h
            subst h
            have hg' : c.Grows { c₁ with dead := true } :=
              hg.of_eq rfl rfl rfl rfl rfl fun _ => rfl
            refine ⟨wire_of_dead hw hg' rfl ?_ hs₁ ?_, hhold _ rfl hatt.buf rfl fun _ => rfl, hg'⟩
            · intro k hk
              rwa [hatt.returned] at hk
            · unfold sent
              dsimp only
              rw [hatt.bad rfl, hatt.obtained]
              exact hw.stream

section Send

variable [DecidableEq T]

/-- One thread moves. -/
theorem thread_setThread (c : Connection T) (t t' : T) (pc : SendPc) :
    (c.setThread t pc).thread t' = if t' = t then pc else c.thread t' := by
  unfold setThread
  dsimp only
  rw [Function.update_apply]

/-- A thread that comes to rest without `wpdu_`. -/
theorem holders_setThread {c : Connection T} (hh : c.Holders) (t : T) (pc : SendPc)
    (hnot : holds pc = none) (hwait : ∀ b, pc = .waiting b → Sized b) :
    (c.setThread t pc).Holders := by
  -- Whoever has `wpdu_` after the step had it before.
  have hold : ∀ t' k, holds ((c.setThread t pc).thread t') = some k →
      holds (c.thread t') = some k := by
    intro t' k h
    rw [thread_setThread] at h
    split at h
    · rw [hnot] at h
      cases h
    · exact h
  refine ⟨?_, ?_, ?_, ?_⟩
  · intro t' b h
    rw [thread_setThread] at h
    split at h
    · exact hwait b h
    · exact hh.waiting t' b h
  · exact fun t' k h => hh.taken t' k (hold t' k h)
  · exact fun t₁ t₂ k₁ k₂ h₁ h₂ => hh.alone t₁ t₂ k₁ k₂ (hold t₁ k₁ h₁) (hold t₂ k₂ h₂)
  · intro t' k h
    rw [thread_setThread] at h
    split at h
    · rw [h] at hnot
      cases hnot
    · exact hh.removing t' k h

/-- A thread that comes to hold `wpdu_` where nobody did. -/
theorem holders_take {c : Connection T} (t : T) (pc : SendPc) {k : Nat}
    (hnone : ∀ t', holds (c.thread t') = none)
    (hwait : ∀ t' b, c.thread t' = .waiting b → Sized b) (hbuf : c.wpdu.buf ≠ none)
    (hlen : c.obtained.length = k + 1) (hpc : holds pc = some k)
    (hrem : ∀ k, pc = .removing k → c.dead = true) : (c.setThread t pc).Holders := by
  refine holders_of_only t ?_ ?_ ?_ ?_
  · intro t' hne
    rw [thread_setThread, if_neg hne]
    exact hnone t'
  · intro t' b h
    rw [thread_setThread] at h
    split at h
    · rw [h] at hpc
      cases hpc
    · exact hwait t' b h
  · intro k' hk
    rw [thread_setThread, if_pos rfl, hpc, Option.some.injEq] at hk
    exact ⟨hbuf, hk ▸ hlen⟩
  · intro k' hk
    rw [thread_setThread, if_pos rfl] at hk
    exact hrem k' hk

/-- `wpdu_` is given back, and `true` is returned only for a PDU that is written. On a dead
    connection `false` is returned, and nothing has to hold. -/
theorem wire_finishSend {c : Connection T} (hw : c.Wire) (t : T) (k : Nat)
    (hk : c.obtained.length = k + 1) (hbuf : c.wpdu.buf ≠ none)
    (hdone : c.dead = false → c.wpdu.solong = c.wpdu.sz) : (c.finishSend t k).Wire := by
  -- On a connection that is alive, all of the PDU has been written.
  have hall : c.dead = false → c.written = c.sent := by
    intro hlive
    rcases hw.taken hlive hbuf with ⟨olds, b, p, i, hwr⟩
    refine hwr.complete (hw.sizes b ?_) (hdone hlive)
    rw [hwr.obtained]
    exact List.mem_append_right _ (List.mem_singleton.mpr rfl)
  refine ⟨hw.sizes, hw.stream, fun hlive _ => hall hlive, fun _ hb => absurd rfl hb, ?_⟩
  intro k' hmem
  rcases List.mem_append.mp hmem with hmem | hmem
  · exact hw.returned k' hmem
  · rw [List.mem_singleton, Prod.mk.injEq, Option.some.injEq] at hmem
    rcases hmem with ⟨rfl, htrue⟩
    have hlive : c.dead = false := by
      cases hd : c.dead with
      | false => rfl
      | true =>
          rw [hd] at htrue
          cases htrue
    unfold finishSend setThread
    dsimp only
    refine ⟨by omega, ?_⟩
    rw [List.take_of_length_le (by omega), hall hlive]
    exact List.prefix_refl _

theorem holders_finishSend {c : Connection T} (t : T) (k : Nat)
    (hothers : ∀ t', t' ≠ t → holds (c.thread t') = none)
    (hwait : ∀ t' b, c.thread t' = .waiting b → Sized b) : (c.finishSend t k).Holders := by
  have hthread : ∀ t', (c.finishSend t k).thread t' = if t' = t then .idle else c.thread t' :=
    fun t' => thread_setThread c t t' .idle
  refine holders_of_only t ?_ ?_ ?_ ?_
  · intro t' hne
    rw [hthread, if_neg hne]
    exact hothers t' hne
  · intro t' b h
    rw [hthread] at h
    split at h
    · cases h
    · exact hwait t' b h
  · intro k' h
    rw [hthread, if_pos rfl] at h
    cases h
  · intro k' h
    rw [hthread, if_pos rfl] at h
    cases h

/-- A thread gets `wpdu_` and makes its first attempt. -/
theorem sending_obtain (c c' : Connection T) (t : T) (b : Bytes) (w : WriteResult) (hw : c.Wire)
    (hh : c.Holders) (hb : Sized b) (hlive : c.dead = false) (hfree : c.wpdu.buf = none)
    (h : c.obtain t b w = some c') : c'.Wire ∧ c'.Holders ∧ c.Grows c' := by
  unfold obtain at h
  rcases Option.bind_eq_some_iff.mp h with ⟨⟨ok, c₁⟩, hwrite, h⟩
  dsimp only at h
  -- `wpdu_` was free and the connection alive, so everything before this PDU has been written.
  have hwr : Connection.Writing { c with
      wpdu := { buf := some b, sz := b.length, solong := 0 }
      obtained := c.obtained ++ [b] } c.obtained b b 0 := by
    refine ⟨rfl, rfl, rfl, rfl, Nat.zero_le _, rfl, fun hne => absurd rfl hne, ?_⟩
    dsimp only
    rw [hw.free hlive hfree, List.take_zero, List.append_nil]
    rfl
  have hatt := writing_writepdu _ c₁ w ok c.obtained b b 0 hwr hwrite
  have ho : c₁.obtained = c.obtained ++ [b] := hatt.obtained
  have ht : c₁.thread = c.thread := hatt.thread
  have hr : c₁.returned = c.returned := hatt.returned
  have hg : c.Grows c₁ :=
    ⟨by rw [ho]; exact List.prefix_append _ _, hatt.written,
      ⟨hatt.read.rpdu, hatt.read.consumed, hatt.read.accepted⟩, fun h => hatt.dead.trans h⟩
  have hs₁ : ∀ b' ∈ c₁.obtained, Sized b' := by
    intro b' hmem
    rw [ho] at hmem
    rcases List.mem_append.mp hmem with hmem | hmem
    · exact hw.sizes b' hmem
    · rw [List.mem_singleton.mp hmem]
      exact hb
  have hlen : c₁.obtained.length = c.obtained.length + 1 := by
    rw [ho, List.length_append, List.length_singleton]
  -- `wpdu_` was free, so no thread had it.
  have hnone : ∀ t', holds (c₁.thread t') = none := by
    intro t'
    rw [ht]
    cases hk : holds (c.thread t') with
    | none => rfl
    | some k => exact absurd hfree (hh.taken t' k hk).1
  have hwait : ∀ t' b', c₁.thread t' = .waiting b' → Sized b' := by
    rw [ht]
    exact hh.waiting
  cases ok with
  | false =>
      rw [if_pos rfl, Option.some.injEq] at h
      subst h
      have hg' : c.Grows ({ c₁ with dead := true }.setThread t (.removing c.obtained.length)) :=
        hg.of_eq rfl rfl rfl rfl rfl fun _ => rfl
      refine ⟨wire_of_dead hw hg' rfl ?_ hs₁ ?_,
        holders_take t _ hnone hwait hatt.buf hlen rfl fun _ _ => rfl, hg'⟩
      · intro k hk
        rwa [setThread, hr] at hk
      · have hkept : c₁.written = c.written := hatt.bad rfl
        unfold sent setThread
        dsimp only
        rw [hkept, ho, List.map_append, List.flatten_append]
        exact hw.stream.trans (List.prefix_append _ _)
  -- The PDU is written as a whole, or the thread waits for `write_cb` to go on.
  | true =>
      rw [if_neg (by decide)] at h
      rcases hatt.good rfl with ⟨p', i', hwr'⟩
      have hw₁ : c₁.Wire := wire_of_writing hw hg hr hs₁ hwr'
      split at h
      · rename_i hdone
        rw [Option.some.injEq] at h
        subst h
        refine ⟨wire_finishSend hw₁ t _ hlen hatt.buf fun _ => hdone, ?_,
          hg.of_eq rfl rfl rfl rfl rfl id⟩
        exact holders_finishSend t _ (fun t' _ => hnone t') hwait
      · rw [Option.some.injEq] at h
        subst h
        refine ⟨wire_congr hw₁ rfl rfl rfl rfl id, ?_, hg.of_eq rfl rfl rfl rfl rfl id⟩
        exact holders_take t _ hnone hwait hatt.buf hlen rfl fun _ hpc => by cases hpc

/-- The loop in which a thread waits for `wpdu_`: the connection is dead, or `wpdu_` is taken, or
    the thread gets it. -/
theorem sending_sendLoop (c c' : Connection T) (t : T) (b : Bytes) (w : WriteResult)
    (hw : c.Wire) (hh : c.Holders) (hb : Sized b) (h : c.sendLoop t b w = some c') :
    c'.Wire ∧ c'.Holders ∧ c.Grows c' := by
  have hrefl := Grows.refl c
  unfold sendLoop at h
  split at h
  -- `send` returns `false` on a dead connection without having touched `wpdu_`.
  · rename_i hdead
    rw [Option.some.injEq] at h
    subst h
    refine ⟨wire_of_dead hw (hrefl.of_eq rfl rfl rfl rfl rfl id) hdead ?_ hw.sizes hw.stream, ?_,
      hrefl.of_eq rfl rfl rfl rfl rfl id⟩
    · intro k hk
      rcases List.mem_append.mp hk with hk | hk
      · exact hk
      · cases List.mem_singleton.mp hk
    · have hset := holders_setThread hh t .idle rfl fun _ hpc => by cases hpc
      exact holders_congr hset rfl rfl rfl id
  · rename_i hlive
    split at h
    · rw [Option.some.injEq] at h
      subst h
      refine ⟨wire_congr hw rfl rfl rfl rfl id, ?_, hrefl.of_eq rfl rfl rfl rfl rfl id⟩
      refine holders_setThread hh t _ rfl fun b' hpc => ?_
      rw [SendPc.waiting.injEq] at hpc
      rw [← hpc]
      exact hb
    · rename_i hfree
      rw [Bool.not_eq_true, Option.isSome_eq_false_iff, Option.isNone_iff_eq_none] at hfree
      exact sending_obtain c c' t b w hw hh hb (Bool.eq_false_iff.mpr hlive) hfree h

/-- The thread that has `wpdu_` returns. -/
theorem sending_finishSend {c : Connection T} (hw : c.Wire) (hh : c.Holders) (t : T) (k : Nat)
    (hk : holds (c.thread t) = some k) (hdone : c.dead = false → c.wpdu.solong = c.wpdu.sz) :
    (c.finishSend t k).Wire ∧ (c.finishSend t k).Holders ∧ c.Grows (c.finishSend t k) := by
  rcases hh.taken t k hk with ⟨hbuf, hlen⟩
  refine ⟨wire_finishSend hw t k hlen hbuf hdone, ?_,
    (Grows.refl c).of_eq rfl rfl rfl rfl rfl id⟩
  refine holders_finishSend t k (fun t' hne => ?_) hh.waiting
  cases hk' : holds (c.thread t') with
  | none => rfl
  | some k' => exact absurd (hh.alone t' t k' k hk' hk) hne

end Send

/-! ## Reading -/

/-- The bytes of the PDUs that have been accepted. -/
def behind (obtained : List Bytes) (c : Connection T) : Nat :=
  ((obtained.map frame).take c.accepted.length).flatten.length

/-- `p` is the beginning of the frame behind the accepted ones. -/
structure Within (obtained : List Bytes) (c : Connection T) (b p : Bytes) : Prop where
  next : obtained[c.accepted.length]? = some b
  sz : c.rpdu.sz = b.length
  solong : c.rpdu.solong = p.length
  size : 4 ≤ p.length
  le : p.length ≤ b.length
  eq : p = (frame b).take p.length
  consumed : c.consumed = behind obtained c + p.length

/-- Where a reader is that is alive: between two frames or within one. -/
structure Position (obtained : List Bytes) (c : Connection T) : Prop where
  between : c.rpdu.buf = none → c.rpdu.sz = 0 ∧ c.consumed = behind obtained c
  within : ∀ p, c.rpdu.buf = some p → ∃ b, Within obtained c b p

/-- The reading side, against what the other end was given and has written. -/
structure Reading (obtained : List Bytes) (stream : Bytes) (c : Connection T) : Prop where
  accepted : c.accepted = (obtained.take c.accepted.length).map stamped
  bound : c.consumed ≤ stream.length
  live : c.dead = false → Position obtained c

/-- What the writing side keeps true of the stream. -/
structure Framed (obtained : List Bytes) (stream : Bytes) : Prop where
  sizes : ∀ b ∈ obtained, Sized b
  stream : stream <+: (obtained.map frame).flatten

/-- From `c` to `c'` by an attempt to read: the reader is at a position again, or the
    attempt fails and `rpdu_` is empty. -/
structure AfterRead (obtained : List Bytes) (stream : Bytes) (c c' : Connection T)
    (succ : Bool) : Prop where
  write : c.SameWrite c'
  dead : c'.dead = c.dead
  accepted : c'.accepted = c.accepted
  bound : c'.consumed ≤ stream.length
  good : succ = true → Position obtained c'
  bad : succ = false → c'.rpdu.buf = none

/-- Nothing has been read, and the reader is where it was. -/
theorem afterRead_stay {obtained : List Bytes} {stream : Bytes} {c : Connection T}
    (hp : Position obtained c) (hbound : c.consumed ≤ stream.length) :
    AfterRead obtained stream c c true :=
  ⟨⟨rfl, rfl, rfl, rfl, rfl⟩, rfl, rfl, hbound, fun _ => hp, fun hf => by cases hf⟩

/-- The attempt fails and leaves `rpdu_` empty. -/
theorem afterRead_failed {obtained : List Bytes} {stream : Bytes} {c c' : Connection T}
    (hw : c.SameWrite c') (hd : c'.dead = c.dead) (ha : c'.accepted = c.accepted)
    (hbound : c'.consumed ≤ stream.length) (hbuf : c'.rpdu.buf = none) :
    AfterRead obtained stream c c' false :=
  ⟨hw, hd, ha, hbound, (fun hf => by cases hf), fun _ => hbuf⟩

/-- A read inside a frame is a piece of it. The stream may end before the frame does. -/
theorem read_within {obtained : List Bytes} {stream : Bytes} {c : Connection T} {b : Bytes}
    {i n : Nat} (hf : Framed obtained stream) (hb : obtained[c.accepted.length]? = some b)
    (hc : c.consumed = behind obtained c + i) (hi : i + n ≤ b.length)
    (hn : c.consumed + n ≤ stream.length) :
    (stream.drop c.consumed).take n = ((frame b).drop i).take n := by
  have hsize := (hf.sizes b (List.mem_of_getElem? hb)).1
  rw [hc]
  refine Stream.slice_eq hf.stream ?_ ?_ ?_
  · rw [List.getElem?_map, hb, Option.map_some]
  · rw [length_frame b hsize]
    exact hi
  · rw [hc] at hn
    exact hn

/-- The rest of a PDU, as far as it is there: a read, nothing yet, or the end of the connection. -/
theorem position_readBody (obtained : List Bytes) (stream : Bytes) (c c' : Connection T)
    (r : ReadResult) (succ : Bool) (hf : Framed obtained stream) (p b : Bytes)
    (hbuf : c.rpdu.buf = some p) (hw : Within obtained c b p) (hbound : c.consumed ≤ stream.length)
    (h : c.readBody stream r = some (succ, c')) : AfterRead obtained stream c c' succ := by
  have hstay : Position obtained c := by
    refine ⟨fun hnone => ?_, fun p' hp' => ?_⟩
    · rw [hbuf] at hnone
      cases hnone
    · rw [hbuf, Option.some.injEq] at hp'
      rw [← hp']
      exact ⟨b, hw⟩
  -- Nothing was read: the PDU waits for more, or it is given up.
  have hnothing : ∀ eagain : Bool,
      (if eagain then some (true, c) else some (false, { c with rpdu := Charbuf.empty }))
        = some (succ, c') → AfterRead obtained stream c c' succ := by
    intro eagain h
    split at h
    · rw [Option.some.injEq, Prod.mk.injEq] at h
      rcases h with ⟨rfl, rfl⟩
      exact afterRead_stay hstay hbound
    · rw [Option.some.injEq, Prod.mk.injEq] at h
      rcases h with ⟨rfl, rfl⟩
      exact afterRead_failed ⟨rfl, rfl, rfl, rfl, rfl⟩ rfl rfl hbound rfl
  cases r with
  | eof eagain => exact hnothing eagain h
  | failed eagain => exact hnothing eagain h
  | got n =>
      simp only [readBody, read] at h
      split at h
      · rename_i hn
        rcases hn with ⟨h1, hroom, havail⟩
        rw [Option.some.injEq, Prod.mk.injEq] at h
        rcases h with ⟨rfl, rfl⟩
        have hsz := hw.sz
        have hsol := hw.solong
        have hfour := hw.size
        have hsize := (hf.sizes b (List.mem_of_getElem? hw.next)).1
        have hlen := length_frame b hsize
        -- What `read` gets is the next piece of the frame.
        have hpiece := read_within hf hw.next hw.consumed (by omega) havail
        refine ⟨⟨rfl, rfl, rfl, rfl, rfl⟩, rfl, rfl, havail, fun _ => ⟨fun hnone => ?_, ?_⟩,
          fun hf => by cases hf⟩
        · dsimp only at hnone
          rw [hbuf] at hnone
          cases hnone
        · intro q hq
          dsimp only at hq
          rw [hbuf, Option.map_some, Option.some.injEq, hpiece] at hq
          -- The piece goes on where the bytes read so far end.
          have hjoin : q = (frame b).take (p.length + n) := by
            rw [← hq, List.take_add, ← hw.eq]
          have hqlen : q.length = p.length + n := by
            rw [hjoin, List.length_take]
            omega
          refine ⟨b, hw.next, hsz, ?_, ?_, ?_, ?_, ?_⟩
          · dsimp only
            omega
          · omega
          · omega
          · rw [hqlen]
            exact hjoin
          · have hcons := hw.consumed
            unfold behind at hcons ⊢
            dsimp only
            omega
      · cases h

/-- At the start of a frame the next four bytes are its size. -/
theorem within_size {obtained : List Bytes} {stream : Bytes} {c : Connection T}
    (hf : Framed obtained stream) (hc : c.consumed = behind obtained c)
    (hn : c.consumed + 4 ≤ stream.length) :
    ∃ b, obtained[c.accepted.length]? = some b ∧
      (stream.drop c.consumed).take 4 = htonl b.length ∧
      ntohl ((stream.drop c.consumed).take 4) = b.length := by
  -- There are bytes behind the accepted frames, so there is a frame that they belong to.
  have hmore : ((obtained.map frame).take c.accepted.length).flatten.length < stream.length := by
    unfold behind at hc
    omega
  rcases Stream.exists_frame hf.stream hmore with ⟨f, hget⟩
  rw [List.getElem?_map, Option.map_eq_some_iff] at hget
  rcases hget with ⟨b, hb, -⟩
  have hsize := hf.sizes b (List.mem_of_getElem? hb)
  have hpiece := read_within (i := 0) hf hb hc (by have := hsize.1; omega) hn
  rw [List.drop_zero, take_frame] at hpiece
  exact ⟨b, hb, hpiece, by rw [hpiece, ntohl_htonl _ hsize.2]⟩

/-- An attempt to read: first the four bytes of the size, if a PDU is to be begun, and then the
    rest. A size that is too large or not read as a whole ends the connection. -/
theorem position_readpdu (obtained : List Bytes) (stream : Bytes) (c c' : Connection T)
    (r₁ r₂ : ReadResult) (succ : Bool) (hf : Framed obtained stream) (hp : Position obtained c)
    (hbound : c.consumed ≤ stream.length) (h : c.readpdu stream r₁ r₂ = some (succ, c')) :
    AfterRead obtained stream c c' succ := by
  unfold readpdu at h
  split at h
  · -- In the middle of a PDU.
    rename_i hsz
    cases hbuf : c.rpdu.buf with
    | none => exact absurd (hp.between hbuf).1 hsz
    | some p =>
        rcases hp.within p hbuf with ⟨b, hw⟩
        exact position_readBody obtained stream c c' r₂ succ hf p b hbuf hw hbound h
  · rename_i hsz
    -- A PDU that has been begun has a size.
    have hnone : c.rpdu.buf = none := by
      cases hbuf : c.rpdu.buf with
      | none => rfl
      | some p =>
          rcases hp.within p hbuf with ⟨b, hw⟩
          have := hw.sz
          have := hw.size
          have := hw.le
          omega
    -- Without a size the attempt fails, and `rpdu_` is as empty as it was.
    have hgiveUp : ∀ n, n ≤ stream.length →
        some (false, { c with consumed := n }) = some (succ, c') →
        AfterRead obtained stream c c' succ := by
      intro n hn heq
      rw [Option.some.injEq, Prod.mk.injEq] at heq
      rcases heq with ⟨rfl, rfl⟩
      exact afterRead_failed ⟨rfl, rfl, rfl, rfl, rfl⟩ rfl rfl hn hnone
    cases r₁ with
    | eof e => exact hgiveUp c.consumed hbound h
    | failed eagain =>
        dsimp only at h
        split at h
        · cases h
        · exact hgiveUp c.consumed hbound h
    | got n =>
        dsimp only at h
        split at h
        · rename_i hn
          have hread : c.read stream n = ((stream.drop c.consumed).take n,
            { c with consumed := c.consumed + n }) := rfl
          rw [hread] at h
          dsimp only at h
          by_cases hgo : n ≠ 4 ∨ maxPdu < ntohl ((stream.drop c.consumed).take n)
          · rw [if_pos hgo] at h
            exact hgiveUp (c.consumed + n) hn.2.2 h
          · rw [if_neg hgo, hnone] at h
            have hfour : n = 4 := by
              by_contra hne
              exact hgo (Or.inl hne)
            subst hfour
            have hcons := (hp.between hnone).2
            rcases within_size hf hcons hn.2.2 with ⟨b, hb, hbytes, hsize⟩
            rw [hsize, hbytes] at h
            have hbsize := (hf.sizes b (List.mem_of_getElem? hb)).1
            -- The size is known and four bytes have been read; the rest is read as in the middle of
            -- a PDU.
            have hw : Within obtained
                { c with
                  consumed := c.consumed + 4
                  rpdu := { buf := some (htonl b.length), sz := b.length, solong := 4 } }
                b (htonl b.length) := by
              refine ⟨hb, rfl, rfl, Nat.le_refl _, ?_, (take_frame b).symm, ?_⟩
              · exact Nat.le_trans (by decide : 4 ≤ 24) hbsize
              · dsimp only
                rw [hcons]
                rfl
            have hbody := position_readBody obtained stream _ c' r₂ succ hf (htonl b.length) b rfl
              hw hn.2.2 h
            have hsw := hbody.write
            exact ⟨⟨hsw.wpdu, hsw.thread, hsw.obtained, hsw.written, hsw.returned⟩, hbody.dead,
              hbody.accepted, hbody.bound, hbody.good, hbody.bad⟩
        · cases h

/-- A complete PDU that is accepted is the next one. -/
theorem reading_offer (obtained : List Bytes) (stream : Bytes) (c : Connection T)
    (consumes : Bool) (hf : Framed obtained stream)
    (ha : c.accepted = (obtained.take c.accepted.length).map stamped)
    (hbound : c.consumed ≤ stream.length) (hp : Position obtained c) :
    Reading obtained stream (c.offer consumes) := by
  unfold offer
  cases hbuf : c.rpdu.buf with
  | none => exact ⟨ha, hbound, fun _ => hp⟩
  | some p =>
      dsimp only
      split
      · rename_i hdone
        rcases hp.within p hbuf with ⟨b, hw⟩
        have hsz := hw.sz
        have hsol := hw.solong
        have hlen := length_frame b (hf.sizes b (List.mem_of_getElem? hw.next)).1
        -- A PDU whose position has come to its size is the whole frame.
        have hpb : p = frame b := by
          rw [hw.eq, List.take_of_length_le]
          omega
        have hlength : (c.accepted ++ [(p, c.rpdu.sz)]).length = c.accepted.length + 1 :=
          List.length_append
        refine ⟨?_, hbound, fun _ => ⟨fun _ => ⟨rfl, ?_⟩, fun q hq => by cases hq⟩⟩
        · dsimp only
          rw [hlength, List.take_add_one, hw.next, Option.toList_some, List.map_append, ← ha,
            List.map_singleton, stamped, hpb, hsz]
        · have hget : (obtained.map frame)[c.accepted.length]? = some (frame b) := by
            rw [List.getElem?_map, hw.next, Option.map_some]
          have hcons := hw.consumed
          unfold behind at hcons ⊢
          dsimp only
          rw [hlength, Stream.flatten_take_succ hget, List.length_append, hcons, hpb]
      · exact ⟨ha, hbound, fun _ => hp⟩

/-- `read_cb` reads if there is anything missing, and offers the PDU if it is complete. One that is
    refused stays where it is, and is offered again. -/
theorem reading_readCb (obtained : List Bytes) (stream : Bytes) (c c' : Connection T)
    (r₁ r₂ : ReadResult) (consumes : Bool) (hf : Framed obtained stream)
    (hr : Reading obtained stream c) (h : c.readCb stream r₁ r₂ consumes = some c') :
    Reading obtained stream c' ∧ c.SameWrite c' ∧ (c.dead = true → c'.dead = true) := by
  have hoffer : ∀ d : Connection T, d.SameWrite (d.offer consumes) ∧
      (d.offer consumes).dead = d.dead := by
    intro d
    unfold offer
    split
    · exact ⟨⟨rfl, rfl, rfl, rfl, rfl⟩, rfl⟩
    · split
      · exact ⟨⟨rfl, rfl, rfl, rfl, rfl⟩, rfl⟩
      · exact ⟨⟨rfl, rfl, rfl, rfl, rfl⟩, rfl⟩
  unfold readCb at h
  split at h
  · rename_i hdead
    rw [Option.some.injEq] at h
    subst h
    exact ⟨hr, ⟨rfl, rfl, rfl, rfl, rfl⟩, id⟩
  · rename_i hdead
    have hp := hr.live (Bool.eq_false_iff.mpr hdead)
    split at h
    · rcases Option.bind_eq_some_iff.mp h with ⟨⟨succ, c₁⟩, hread, h⟩
      rw [Option.some.injEq] at h
      have hafter := position_readpdu obtained stream c c₁ r₁ r₂ succ hf hp hr.bound hread
      have hsw := hafter.write
      have hacc : c₁.accepted = (obtained.take c₁.accepted.length).map stamped := by
        rw [hafter.accepted]
        exact hr.accepted
      cases succ with
      | true =>
          rw [if_pos rfl] at h
          subst h
          refine ⟨reading_offer obtained stream c₁ consumes hf hacc hafter.bound (hafter.good rfl),
            ?_, ?_⟩
          · rcases (hoffer c₁).1 with ⟨h1, h2, h3, h4, h5⟩
            exact ⟨h1.trans hsw.wpdu, h2.trans hsw.thread, h3.trans hsw.obtained,
              h4.trans hsw.written, h5.trans hsw.returned⟩
          · rw [(hoffer c₁).2, hafter.dead]
            exact id
      | false =>
          -- The connection is dead, and `rpdu_` holds nothing to hand over.
          rw [if_neg (by decide)] at h
          unfold offer at h
          dsimp only at h
          rw [hafter.bad rfl] at h
          subst h
          exact ⟨⟨hacc, hafter.bound, fun hf => by cases hf⟩,
            ⟨hsw.wpdu, hsw.thread, hsw.obtained, hsw.written, hsw.returned⟩, fun _ => rfl⟩
    · rw [Option.some.injEq] at h
      subst h
      refine ⟨reading_offer obtained stream c consumes hf hr.accepted hr.bound hp, (hoffer c).1, ?_⟩
      rw [(hoffer c).2]
      exact id

/-- What the other end does later leaves the reading side as it is. -/
theorem reading_mono {obtained obtained' : List Bytes} {stream stream' : Bytes}
    {c : Connection T} (hr : Reading obtained stream c) (ho : obtained <+: obtained')
    (hs : stream <+: stream') : Reading obtained' stream' c := by
  have hlen : c.accepted.length ≤ obtained.length := by
    have := congrArg List.length hr.accepted
    rw [List.length_map, List.length_take] at this
    omega
  rcases ho with ⟨more, rfl⟩
  -- The frames that have been accepted are the first ones, whatever is sent behind them.
  have hbehind : behind (obtained ++ more) c = behind obtained c := by
    unfold behind
    rw [List.map_append, List.take_append_of_le_length (by rw [List.length_map]; exact hlen)]
  refine ⟨?_, Nat.le_trans hr.bound hs.length_le, fun hlive => ⟨?_, ?_⟩⟩
  · rw [List.take_append_of_le_length hlen]
    exact hr.accepted
  · rw [hbehind]
    exact (hr.live hlive).between
  · intro p hp
    rcases (hr.live hlive).within p hp with ⟨b, hw⟩
    refine ⟨b, ?_, hw.sz, hw.solong, hw.size, hw.le, hw.eq, by rw [hbehind]; exact hw.consumed⟩
    have hlt := (List.getElem?_eq_some_iff.mp hw.next).1
    rw [List.getElem?_append_left hlt]
    exact hw.next

/-- The reading side depends on these fields. -/
theorem reading_congr {obtained : List Bytes} {stream : Bytes} {c c' : Connection T}
    (hr : Reading obtained stream c) (hs : c.SameRead c')
    (hd : c'.dead = false → c.dead = false) : Reading obtained stream c' := by
  have hbehind : behind obtained c' = behind obtained c := by
    unfold behind
    rw [hs.accepted]
  refine ⟨?_, ?_, fun hlive => ⟨?_, ?_⟩⟩
  · rw [hs.accepted]
    exact hr.accepted
  · rw [hs.consumed]
    exact hr.bound
  · rw [hs.rpdu, hs.consumed, hbehind]
    exact (hr.live (hd hlive)).between
  · intro p hp
    rw [hs.rpdu] at hp
    rcases (hr.live (hd hlive)).within p hp with ⟨b, hw⟩
    exact ⟨b, by rw [hs.accepted]; exact hw.next, by rw [hs.rpdu]; exact hw.sz,
      by rw [hs.rpdu]; exact hw.solong, hw.size, hw.le, hw.eq,
      by rw [hs.consumed, hbehind]; exact hw.consumed⟩

/-! ## The two ends -/

variable [DecidableEq T]

omit [DecidableEq T] in
/-- Death is for good. -/
theorem live_of_live {c c' : Connection T} (hd : c.dead = true → c'.dead = true)
    (hlive : c'.dead = false) : c.dead = false := by
  by_contra hdead
  rw [hd (Bool.not_eq_false _ ▸ hdead)] at hlive
  cases hlive

/-- One action at an end keeps both of its sides. Each side has fields of its own, and they share
    whether the connection is dead. -/
theorem act_inv (obtained : List Bytes) (stream : Bytes) (c c' : Connection T) (a : EndAction T)
    (hf : Framed obtained stream) (hw : c.Wire) (hh : c.Holders)
    (hr : Reading obtained stream c) (hsized : ∀ t b w, a = .send t b w → Sized b)
    (h : c.act stream a = some c') :
    c'.Wire ∧ c'.Holders ∧ Reading obtained stream c' ∧ c.obtained <+: c'.obtained ∧
      c.written <+: c'.written := by
  -- `send` and `write_cb` leave the reading side.
  have hsend : c'.Wire ∧ c'.Holders ∧ c.Grows c' →
      c'.Wire ∧ c'.Holders ∧ Reading obtained stream c' ∧ c.obtained <+: c'.obtained ∧
        c.written <+: c'.written := by
    rintro ⟨hw', hh', hg⟩
    exact ⟨hw', hh', reading_congr hr hg.read (live_of_live hg.dead), hg.obtained, hg.written⟩
  cases a with
  | send t b w =>
      simp only [act] at h
      split at h
      · exact hsend (sending_sendLoop c c' t b w hw hh (hsized t b w rfl) h)
      · cases h
  | sendWait t w =>
      simp only [act] at h
      split at h
      · rename_i b hpc
        exact hsend (sending_sendLoop c c' t b w hw hh (hh.waiting t b hpc) h)
      · cases h
  -- `send` goes on when the PDU is written or the connection is dead.
  | sendComplete t =>
      simp only [act] at h
      split at h
      · rename_i k hpc
        split at h
        · cases h
        · rename_i hover
          rw [Option.some.injEq] at h
          subst h
          have hk : holds (c.thread t) = some k := by rw [hpc, holds]
          refine hsend (sending_finishSend hw hh t k hk fun hlive => ?_)
          rcases hw.taken hlive (hh.taken t k hk).1 with ⟨olds, b, p, i, hwr⟩
          have hsol := hwr.solong
          have hsz := hwr.sz
          have hle := hwr.le
          by_contra hne
          exact hover ⟨hlive, by omega, by omega⟩
      · cases h
  -- A sender that removes the object has seen its `write` fail, so the connection is dead.
  | removed t =>
      simp only [act] at h
      split at h
      · rename_i k hpc
        rw [Option.some.injEq] at h
        subst h
        refine hsend (sending_finishSend hw hh t k (by rw [hpc, holds]) fun hlive => ?_)
        rw [hh.removing t k hpc] at hlive
        cases hlive
      · cases h
  | writeCb w => exact hsend (wire_writeCb c c' w hw hh h)
  | readCb r₁ r₂ consumes =>
      rcases reading_readCb obtained stream c c' r₁ r₂ consumes hf hr h with ⟨hr', hs, hd⟩
      exact ⟨wire_congr hw hs.wpdu hs.obtained hs.written hs.returned (live_of_live hd),
        holders_congr hh hs.thread hs.wpdu hs.obtained hd, hr', by rw [hs.obtained],
        by rw [hs.written]⟩
  | closeconn =>
      rw [act, Option.some.injEq] at h
      subst h
      refine ⟨wire_congr hw rfl rfl rfl rfl ?_, holders_congr hh rfl rfl rfl fun _ => rfl,
        reading_congr hr ⟨rfl, rfl, rfl⟩ ?_, List.prefix_refl _, List.prefix_refl _⟩
      · intro hlive
        cases hlive
      · intro hlive
        cases hlive

/-- Both ends, each reading what the other writes. -/
def LinkInv (s : Bool → Connection T) : Prop :=
  ∀ e, (s e).Wire ∧ (s e).Holders ∧ Reading (s (!e)).obtained (s (!e)).written (s e)

omit [DecidableEq T] in
/-- Two new ends. -/
theorem linkInv_new : LinkInv (fun _ => (Connection.new : Connection T)) := by
  intro e
  refine ⟨⟨?_, ?_, ?_, ?_, ?_⟩, ⟨?_, ?_, ?_, ?_⟩, ⟨rfl, Nat.le_refl _, fun _ => ⟨?_, ?_⟩⟩⟩
  · exact fun _ h => absurd h List.not_mem_nil
  · exact List.prefix_refl _
  · exact fun _ _ => rfl
  · exact fun _ h => absurd rfl h
  · exact fun _ h => absurd h List.not_mem_nil
  · exact fun _ _ h => by cases h
  · exact fun _ _ h => by cases h
  · exact fun _ _ _ _ h => by cases h
  · exact fun _ _ h => by cases h
  · exact fun _ => ⟨rfl, rfl⟩
  · exact fun _ h => by cases h

/-- An action at one end keeps its own sides, and what the other end reads only grows. -/
theorem linkInv_step (s : Bool → Connection T) (a : Bool × EndAction T)
    (s' : Bool → Connection T) (hi : LinkInv s) (hok : marshalled s a = true)
    (h : step s a = some s') : LinkInv s' := by
  rcases a with ⟨e, a⟩
  rcases Option.map_eq_some_iff.mp h with ⟨c', hact, rfl⟩
  rcases hi e with ⟨hw, hh, hr⟩
  rcases hi (!e) with ⟨hwp, hhp, hrp⟩
  have hsized : ∀ t b w, a = .send t b w → Sized b := by
    rintro t b w rfl
    simp only [marshalled, decide_eq_true_eq] at hok
    exact hok
  rcases act_inv (s (!e)).obtained (s (!e)).written (s e) c' a ⟨hwp.sizes, hwp.stream⟩ hw hh hr
    hsized hact with ⟨hw', hh', hr', ho, hs⟩
  have hself : Function.update s e c' e = c' := Function.update_self e c' s
  have hother : Function.update s e c' (!e) = s (!e) :=
    Function.update_of_ne (Bool.not_ne_self e) c' s
  intro f
  -- The end that acts, and the one that does not.
  by_cases hfe : f = e
  · rw [hfe]
    dsimp only
    rw [hself, hother]
    exact ⟨hw', hh', hr'⟩
  · have hf : f = !e := Bool.eq_not.mpr hfe
    rw [hf]
    dsimp only
    rw [Bool.not_not, hself, hother]
    rw [Bool.not_not] at hrp
    exact ⟨hwp, hhp, reading_mono hrp ho hs⟩

/-- In every run of the two ends, what an end hands over and its manager accepts are the first of
    the PDUs that got `wpdu_` at the other end, in that order, each with its size in its first four
    bytes; and `send` returned `true` only for a PDU that has been written, with all that came
    before it. Nothing is assumed about how many bytes a `read` or a `write` moves. -/
theorem accepted_prefix_obtained (s : Bool → Connection T)
    (h : Trace.Reaches step (fun s a => marshalled s a = true) (fun _ => Connection.new) s)
    (e : Bool) :
    (s (!e)).accepted <+:
        (s e).obtained.map (fun b => (htonl b.length ++ b.drop 4, (b.length : Int))) ∧
    ∀ k, (some k, true) ∈ (s e).returned → k < (s e).obtained.length ∧
      (((s e).obtained.take (k + 1)).map fun b => htonl b.length ++ b.drop 4).flatten
        <+: (s e).written := by
  have hi := Trace.invariant_of_step LinkInv linkInv_new
    (fun s a s' hi hok hs => linkInv_step s a s' hi hok hs) h
  refine ⟨?_, fun k hk => (hi e).1.returned k hk⟩
  have hacc := (hi (!e)).2.2.accepted
  rw [Bool.not_not, List.map_take] at hacc
  rw [hacc]
  exact List.take_prefix _ _

/-- Two threads send at one end. The first PDU is written in two pieces, read in two
    pieces and refused once; the second thread waits for `wpdu_` meanwhile. -/
def twoSenders : List (Bool × EndAction Bool) :=
  [(false, .send true (List.replicate 24 1) (.wrote 10)),
    (false, .send false (List.replicate 25 2) .eagain),
    (true, .readCb (.got 4) (.got 6) true), (false, .writeCb .eagain),
    (false, .writeCb (.wrote 14)), (true, .readCb (.got 4) (.got 14) false),
    (false, .sendComplete true), (false, .sendWait false (.wrote 25)),
    (true, .readCb (.got 4) (.got 1) true), (true, .readCb (.got 4) (.got 21) true)]

theorem accepted_prefix_obtained_twoSenders :
    ∃ s : Bool → Connection Bool,
      Trace.Reaches step (fun s a => marshalled s a = true) (fun _ => Connection.new) s ∧
      (s true).accepted = [(htonl 24 ++ List.replicate 20 1, 24),
        (htonl 25 ++ List.replicate 21 2, 25)] ∧
      (s false).returned = [(some 0, true), (some 1, true)] ∧
      (s true).accepted <+:
        (s false).obtained.map (fun b => (htonl b.length ++ b.drop 4, (b.length : Int))) := by
  have hrun : Trace.Reaches step (fun s a => marshalled s a = true)
      (fun _ => (Connection.new : Connection Bool)) _ := Trace.reaches_of_run twoSenders rfl
  exact ⟨_, hrun, rfl, rfl, (accepted_prefix_obtained _ hrun false).1⟩

end Connection

end Yfs
