import Yfs.Core.Messages
import Yfs.Theory.Canonical
import Yfs.Theory.PduFraming
import Yfs.Theory.WireAgreement

/-!
# Messages over a Connection

What is called at one end of a connection is what is served at the other.

Three formats are on top of each other. Values are marshalled behind the space for a header,
the header is packed into that space (`Packed`), and `writepdu` stamps the size over the first
four bytes, which neither of the two has used (`Packed.frame`). The connection is given PDUs
by any number of threads and hands PDUs over; that the second are the first of the first, each
with its size, is `LinkInv`. Here the ends are a client, whose threads make calls, and a server
that answers, and what they read is compared with what was meant.

The stubs of `lock_client` itself are not among the calls: the server that they talk to reads
other types than they write. A PDU of more than `MAX_PDU` bytes ends the connection, and then
nothing behind it is received either.

## Main definitions

* `Packed`: A PDU with its header and its payload.
* `Connection.Made`: All PDUs of an end are of some kind.
* `Call.Proper`, `Answer.Proper`: What the ends send.
* `Message`, `Speaks`: A client at one end and a server at the other.

## Theorems

* `packed_call`, `packed_answer`: What `send` is given.
* `receive_call`, `receive_answer`: What is read from it.
* `made_step`: Where the PDUs come from.
* `messages_delivered`: Every run.
-/

namespace Yfs

open Marshall Unmarshall Connection

/-! ## Formats -/

/-- A PDU that a `marshall` has built: the size is not in it yet. -/
structure Packed (b : Bytes) (h : Header) (p : Bytes) : Prop where
  sized : Sized b
  words : ∃ tail, b.drop rpcSzSz = h.words.flatMap Word.be32 ++ tail
  payload : b.drop rpcHeaderSz = p

/-- Packing a header behind which `p` has been marshalled. -/
theorem packed_packHeader {m : Marshall} {p : Bytes} (hm : Appends Marshall.new m p)
    (h : Header) : ∃ m', m.packHeader h = some m' ∧ Packed m'.pdu h p := by
  have hsz : rpcSzSz = 4 := rfl
  have hsz' : rpcHeaderSz = 24 := rfl
  have hind : rpcHeaderSz ≤ m.ind := by
    rw [hm.ind_eq new_good]
    exact Nat.le_add_right rpcHeaderSz _
  rcases packWords_payload m p hm h.words h.length_words with ⟨m', h', hle, hlt, hp⟩
  have hpack := packWords_eq m hm.good hind h.words h.length_words
  rw [h', Option.some.injEq] at hpack
  refine ⟨m', by rw [packHeader_eq, h'], ⟨⟨hle, hlt⟩, ?_, hp⟩⟩
  have hlength := hm.good.length
  -- The write position is at the end of the buffer, so the PDU is all of it.
  have hpdu : m'.pdu = m'.buf := by
    rcases packWords_good m hm.good hind h.words h.length_words with ⟨m'', h'', hg, -, -⟩
    rw [h', Option.some.injEq] at h''
    rw [h'', pdu, ← hg.length, List.take_length]
  refine ⟨m.buf.drop (rpcSzSz + 4 * h.words.length), ?_⟩
  rw [hpdu, hpack, List.append_assoc]
  exact List.drop_left' (List.length_take_of_le (by omega))

/-- The size is stamped where nothing else is. -/
theorem Packed.frame {b : Bytes} {h : Header} {p : Bytes} (hb : Packed b h p) :
    Packed (frame b) h p := by
  have hdrop : ∀ n, 4 ≤ n → (Connection.frame b).drop n = b.drop n := by
    intro n hn
    have hlen : (htonl b.length).length = 4 := rfl
    rw [Connection.frame, List.drop_append, List.drop_eq_nil_of_le (by omega), List.nil_append,
      List.drop_drop, hlen]
    congr 1
    omega
  have hlength := length_frame b hb.sized.1
  refine ⟨?_, ?_, ?_⟩
  · rw [Sized, hlength]
    exact hb.sized
  · rw [hdrop rpcSzSz (Nat.le_refl 4)]
    exact hb.words
  · rw [hdrop rpcHeaderSz (by decide)]
    exact hb.payload

/-- What a stub hands to `send`: the header of the call and its arguments on the wire. -/
theorem packed_call {c : Call} {b : Bytes} (h : c.pdu = some b) :
    Packed b (.req c.header) (c.args.flatMap WireVal.wire) := by
  rcases Option.bind_eq_some_iff.mp h with ⟨m, hm, h⟩
  rcases Option.bind_eq_some_iff.mp h with ⟨m', hm', h⟩
  rcases packed_packHeader (putAll_appends c.args Marshall.new new_good m hm) (.req c.header) with
    ⟨m'', hm'', hpacked⟩
  rw [show m.packHeader (.req c.header) = some m' from hm', Option.some.injEq] at hm''
  rw [Option.some.injEq] at h
  rw [← h, hm'']
  exact hpacked

/-- What `dispatch` hands to `send`: the header of the answer and the result, if there is one. -/
theorem packed_answer {a : Answer} {b : Bytes} (h : a.pdu = some b) :
    Packed b (.reply a.header) (a.result.elim [] WireVal.wire) := by
  rcases a with ⟨st, hd, _ | r⟩
  -- A failure is a header alone.
  · simp only [Answer.pdu] at h
    rcases Option.map_eq_some_iff.mp h with ⟨m, hm, h⟩
    rcases packed_packHeader ⟨new_good, (List.append_nil _).symm⟩ (.reply hd) with
      ⟨m', hm', hpacked⟩
    rw [show Marshall.new.packHeader (.reply hd) = some m from hm, Option.some.injEq] at hm'
    rw [← h, hm']
    exact hpacked
  · rcases Option.bind_eq_some_iff.mp h with ⟨m, hm, h⟩
    rcases Option.bind_eq_some_iff.mp h with ⟨m', hm', h⟩
    rcases packed_packHeader (put_appends Marshall.new new_good r m hm) (.reply hd) with
      ⟨m'', hm'', hpacked⟩
    rw [show m.packHeader (.reply hd) = some m' from hm', Option.some.injEq] at hm''
    rw [Option.some.injEq] at h
    rw [← h, hm'']
    exact hpacked

/-! ## Reading -/

/-- A call that a server has a handler for, with the arguments of its stub. -/
structure Call.Proper (srv : Server) (c : Call) : Prop where
  server : c.stub.server = srv
  agrees : c.stub.ofLockClient = false
  proc : c.header.proc.toNat = c.stub.proc
  args : c.args.map WireVal.type = c.stub.sig.args

/-- An answer with a result of the right type, or with the code of a failure. -/
structure Answer.Proper (a : Answer) : Prop where
  failed : a.result = none → a.header.ret < 0
  result : ∀ r, a.result = some r → ¬ a.header.ret < 0 ∧ r.type = a.stub.sig.ret

/-- A server reads from a packed call what the client has put into it. The header names a procedure
    that the server has registered with the types of the stub, so the handler reads the arguments to
    their end. -/
theorem receive_call {srv : Server} {c : Call} {b : Bytes} (hc : c.Proper srv)
    (hb : Packed b (.req c.header) (c.args.flatMap WireVal.wire)) :
    srv.receive b = some (c.header, c.args) := by
  rcases hb.words with ⟨tail, htail⟩
  have hheader : (Unmarshall.new b).unpackReqHeader = (c.header, ⟨b, rpcHeaderSz, true⟩) := by
    have hunpack := unpackHeader_words b (.req c.header) tail htail
    rcases hu : (Unmarshall.new b).unpackReqHeader with ⟨hd, u⟩
    simp only [Header.kind, unpackHeader, hu, Prod.mk.injEq, Header.req.injEq] at hunpack
    rw [hunpack.1, hunpack.2]
  -- Stub and handler agree on the types, except for the stubs of `lock_client`.
  have hhandler : srv.handlers.lookup c.header.proc.toNat = some c.stub.sig := by
    rw [hc.proc, ← hc.server]
    exact handler_eq_sig c.stub hc.agrees
  have hargs : handlerArgs c.stub.sig b = some (c.args, true) :=
    handlerArgs_payload c.stub.sig b c.args hc.args hb.sized.1 hb.sized.2 hb.payload
  simp [Server.receive, hheader, hhandler, hargs]

/-- A client reads from a packed answer what the server has put into it. If the header has the code
    of a failure, `call_m` does not look at the rest. -/
theorem receive_answer {a : Answer} {b : Bytes} (ha : a.Proper)
    (hb : Packed b (.reply a.header) (a.result.elim [] WireVal.wire)) :
    a.stub.receive b = some (a.header, a.result) := by
  rcases hb.words with ⟨tail, htail⟩
  have hheader : (Unmarshall.new b).unpackReplyHeader = (a.header, ⟨b, rpcHeaderSz, true⟩) := by
    have hunpack := unpackHeader_words b (.reply a.header) tail htail
    rcases hu : (Unmarshall.new b).unpackReplyHeader with ⟨hd, u⟩
    simp only [Header.kind, unpackHeader, hu, Prod.mk.injEq, Header.reply.injEq] at hunpack
    rw [hunpack.1, hunpack.2]
  cases hr : a.result with
  | none => simp [Stub.receive, hheader, ha.failed hr]
  | some r =>
      rcases ha.result r hr with ⟨hret, htype⟩
      have hpayload : b.drop rpcHeaderSz = r.wire := by
        rw [hb.payload, hr, Option.elim_some]
      have hresult : a.stub.result b = some (r, true) :=
        result_payload a.stub b r htype hb.sized.1 hb.sized.2 hpayload
      simp [Stub.receive, hheader, hret, hresult]

/-! ## Where PDUs come from -/

namespace Connection

variable {T : Type} {P : Bytes → Prop} {c c' : Connection T}

/-- The PDUs that got `wpdu_`, and those that wait for it. -/
structure Made (P : Bytes → Prop) (c : Connection T) : Prop where
  obtained : ∀ b ∈ c.obtained, P b
  waiting : ∀ t b, c.thread t = .waiting b → P b

/-- The property speaks of the list and of the threads that wait, and of nothing else. -/
theorem Made.congr (h : Made P c) (hobtained : c'.obtained = c.obtained)
    (hthread : c'.thread = c.thread) : Made P c' := by
  refine ⟨?_, ?_⟩
  · rw [hobtained]
    exact h.obtained
  · rw [hthread]
    exact h.waiting

/-- An attempt to write changes neither the list nor the threads. -/
theorem writepdu_frame {w : WriteResult} {ok : Bool} (h : c.writepdu w = some (ok, c')) :
    c'.obtained = c.obtained ∧ c'.thread = c.thread := by
  unfold writepdu at h
  split at h
  · cases h
  · split at h
    · cases h
      exact ⟨rfl, rfl⟩
    · split at h
      · cases h
      · cases w with
        | wrote n =>
            rcases Option.ite_none_right_eq_some.mp h with ⟨-, h⟩
            cases h
            exact ⟨rfl, rfl⟩
        | eagain =>
            cases h
            exact ⟨rfl, rfl⟩
        | failed =>
            cases h
            exact ⟨rfl, rfl⟩

/-- A write callback goes on with the PDU that is being written. -/
theorem made_writeCb {w : WriteResult} (h : Made P c) (hs : c.writeCb w = some c') :
    Made P c' := by
  unfold writeCb at hs
  split at hs
  · cases hs
  · split at hs
    · cases hs
      exact h
    · rcases Option.bind_eq_some_iff.mp hs with ⟨⟨ok, c₁⟩, hw, hs⟩
      rcases writepdu_frame hw with ⟨ho, ht⟩
      cases ok with
      | true =>
          cases hs
          exact h.congr ho ht
      | false =>
          cases hs
          exact h.congr ho ht

variable [DecidableEq T]

/-- A thread that waits waits with a PDU that it was given. -/
theorem made_setThread (h : Made P c) (t : T) (pc : SendPc) (hpc : ∀ b, pc = .waiting b → P b) :
    Made P (c.setThread t pc) := by
  refine ⟨h.obtained, fun t' b hb => ?_⟩
  rw [thread_setThread] at hb
  split at hb
  · exact hpc b hb
  · exact h.waiting t' b hb

/-- A thread that leaves `send` has nothing to wait for. -/
theorem made_finishSend (h : Made P c) (t : T) (k : Nat) : Made P (c.finishSend t k) :=
  (made_setThread h t .idle nofun).congr rfl rfl

/-- A turn of the loop in `send`: the PDU is refused, waits, or is the next one in the list. -/
theorem made_sendLoop {t : T} {b : Bytes} {w : WriteResult} (h : Made P c) (hb : P b)
    (hs : c.sendLoop t b w = some c') : Made P c' := by
  unfold sendLoop at hs
  split at hs
  · cases hs
    exact (made_setThread h t .idle nofun).congr rfl rfl
  · split at hs
    · cases hs
      refine made_setThread h t (.waiting b) fun b' hb' => ?_
      cases hb'
      exact hb
    · rcases Option.bind_eq_some_iff.mp hs with ⟨⟨ok, c₁⟩, hw, hs⟩
      rcases writepdu_frame hw with ⟨ho, ht⟩
      -- It has got `wpdu_` and is the last in the list.
      have hnew : Made P c₁ := by
        refine ⟨fun b' hb' => ?_, fun t' b' hb' => ?_⟩
        · rw [ho] at hb'
          rcases List.mem_append.mp hb' with hold | hnew
          · exact h.obtained b' hold
          · rw [List.mem_singleton.mp hnew]
            exact hb
        · rw [ht] at hb'
          exact h.waiting t' b' hb'
      dsimp only at hs
      by_cases hok : ok = false
      · rw [if_pos hok] at hs
        cases hs
        exact (made_setThread hnew t (.removing _) nofun).congr rfl rfl
      · rw [if_neg hok] at hs
        split at hs
        · cases hs
          exact made_finishSend hnew t _
        · cases hs
          exact made_setThread hnew t (.completing _) nofun

/-- What an end is given by its threads is all that it ever sends: no action makes up a PDU, and one
    that waits enters the list as it was given. -/
theorem made_act {obtained : List Bytes} {stream : Bytes} {a : EndAction T} (h : Made P c)
    (hf : Framed obtained stream) (hr : Reading obtained stream c)
    (ha : ∀ t b w, a = .send t b w → P b) (hs : c.act stream a = some c') : Made P c' := by
  cases a with
  | send t b w =>
      rcases Option.ite_none_right_eq_some.mp hs with ⟨-, hs⟩
      exact made_sendLoop h (ha t b w rfl) hs
  | sendWait t w =>
      simp only [act] at hs
      split at hs
      · rename_i b hpc
        exact made_sendLoop h (h.waiting t b hpc) hs
      · cases hs
  | sendComplete t =>
      simp only [act] at hs
      split at hs
      · rcases Option.ite_none_left_eq_some.mp hs with ⟨-, hs⟩
        cases hs
        exact made_finishSend h t _
      · cases hs
  | removed t =>
      simp only [act] at hs
      split at hs
      · cases hs
        exact made_finishSend h t _
      · cases hs
  | writeCb w => exact made_writeCb h hs
  | readCb r₁ r₂ consumes =>
      have hsame := (reading_readCb obtained stream c c' r₁ r₂ consumes hf hr hs).2.1
      exact h.congr hsame.obtained hsame.thread
  | closeconn =>
      cases hs
      exact h.congr rfl rfl

end Connection

/-! ## A client and a server -/

/-- What is sent at the client's end, `false`, and at the server's. -/
def Message (srv : Server) : Bool → Bytes → Prop
  | false, b => ∃ c : Call, c.Proper srv ∧ c.pdu = some b
  | true, b => ∃ a : Answer, a.Proper ∧ a.pdu = some b

/-- The threads at the two ends send messages. -/
def Speaks {T : Type} (srv : Server) (_ : Bool → Connection T) (a : Bool × EndAction T) : Prop :=
  ∀ t b w, a.2 = .send t b w → Message srv a.1 b

/-- A message has a header, and its length is an `int`; this is what the framing asks of a PDU. -/
theorem sized_message {srv : Server} {e : Bool} {b : Bytes} (h : Message srv e b) : Sized b := by
  cases e with
  | false =>
      rcases h with ⟨c, -, hc⟩
      exact (packed_call hc).sized
  | true =>
      rcases h with ⟨a, -, ha⟩
      exact (packed_answer ha).sized

variable {T : Type}

/-- Ends that send messages send what `marshall` has built. -/
theorem marshalled_of_speaks {srv : Server} {s : Bool → Connection T} {a : Bool × EndAction T}
    (h : Speaks srv s a) : marshalled s a = true := by
  rcases a with ⟨e, a⟩
  cases a with
  | send t b w =>
      have hsized := sized_message (h t b w rfl)
      simpa [marshalled, Sized] using hsized
  | _ => rfl

variable [DecidableEq T]

/-- A step at one end. What that end reads is framed by what the other one has sent, and the other
    one does not move. -/
theorem made_step {srv : Server} {s s' : Bool → Connection T} {a : Bool × EndAction T}
    (hlink : LinkInv s) (h : ∀ e, Made (Message srv e) (s e)) (ha : Speaks srv s a)
    (hs : Connection.step s a = some s') (e : Bool) : Made (Message srv e) (s' e) := by
  rcases a with ⟨e', a⟩
  rcases Option.map_eq_some_iff.mp hs with ⟨c', hact, rfl⟩
  by_cases he : e = e'
  · subst he
    rw [Function.update_self]
    have hpeer := (hlink (!e)).1
    exact made_act (h e) ⟨hpeer.sizes, hpeer.stream⟩ (hlink e).2.2 ha hact
  · rw [Function.update_of_ne he]
    exact h e

omit [DecidableEq T] in
/-- The messages behind a list of PDUs, one for each and in the same order. -/
theorem exists_messages {M : Type} {R : M → Bytes → Prop} (bs : List Bytes)
    (h : ∀ b ∈ bs, ∃ m, R m b) : ∃ ms, List.Forall₂ R ms bs := by
  induction bs with
  | nil => exact ⟨[], .nil⟩
  | cons b bs ih =>
      rcases h b List.mem_cons_self with ⟨m, hm⟩
      rcases ih fun b' hb' => h b' (List.mem_cons_of_mem b hb') with ⟨ms, hms⟩
      exact ⟨m :: ms, .cons hm hms⟩

omit [DecidableEq T] in
/-- Whatever is read from the frame of a message is read from the PDU that is accepted. An end has
    accepted the frames of the first PDUs of the other end, and `accepted` counts them. -/
theorem read_accepted {M : Type} {R S : M → Bytes → Prop} {obtained : List Bytes} {stream : Bytes}
    {c : Connection T} {ms : List M} (hr : Reading obtained stream c)
    (hms : List.Forall₂ R ms obtained) (hread : ∀ m b, R m b → S m (frame b)) :
    List.Forall₂ (fun m p => S m p.1) (ms.take c.accepted.length) c.accepted := by
  rw [hr.accepted, List.forall₂_map_right_iff, ← hr.accepted]
  exact (List.forall₂_take c.accepted.length hms).imp hread

/-- In every run of the two ends: the PDUs that got `wpdu_` at the client's end are those of some
    calls, and the server receives the first of these calls, in this order, with their headers and
    their arguments; the PDUs that got `wpdu_` at the server's end are those of some answers, and
    the client receives the first of these. The two ends interleave freely, and writes and reads may
    be cut anywhere. -/
theorem messages_delivered (srv : Server) (s : Bool → Connection T)
    (h : Trace.Reaches Connection.step (Speaks srv) (fun _ => Connection.new) s) :
    ∃ (calls : List Call) (answers : List Answer),
      List.Forall₂ (fun c b => c.Proper srv ∧ c.pdu = some b) calls (s false).obtained ∧
      List.Forall₂ (fun c p => srv.receive p.1 = some (c.header, c.args))
        (calls.take (s true).accepted.length) (s true).accepted ∧
      List.Forall₂ (fun a b => a.Proper ∧ a.pdu = some b) answers (s true).obtained ∧
      List.Forall₂ (fun a p => a.stub.receive p.1 = some (a.header, a.result))
        (answers.take (s false).accepted.length) (s false).accepted := by
  -- Two invariants side by side: the framing of the bytes, and where the PDUs come from.
  have hinv : LinkInv s ∧ ∀ e, Made (Message srv e) (s e) := by
    refine Trace.invariant_of_step
      (fun s => LinkInv s ∧ ∀ e, Made (Message srv e) (s e))
      ⟨linkInv_new, fun e => ⟨nofun, nofun⟩⟩ ?_ h
    intro s a s' hi ha hs
    exact ⟨linkInv_step s a s' hi.1 (marshalled_of_speaks ha) hs, made_step hi.1 hi.2 ha hs⟩
  rcases hinv with ⟨hlink, hmade⟩
  rcases exists_messages (s false).obtained (hmade false).obtained with ⟨calls, hcalls⟩
  rcases exists_messages (s true).obtained (hmade true).obtained with ⟨answers, hanswers⟩
  refine ⟨calls, answers, hcalls, ?_, hanswers, ?_⟩
  · refine read_accepted (S := fun c b => srv.receive b = some (c.header, c.args))
      (hlink true).2.2 hcalls ?_
    rintro c b ⟨hproper, hpdu⟩
    exact receive_call hproper (packed_call hpdu).frame
  · refine read_accepted (S := fun a b => a.stub.receive b = some (a.header, a.result))
      (hlink false).2.2 hanswers ?_
    rintro a b ⟨hproper, hpdu⟩
    exact receive_answer hproper (packed_answer hpdu).frame

/-- A `put` of two bytes and the answer to it, with the PDUs that are given to `send`. -/
def smallCall : Call :=
  ⟨.extentPut, ⟨2, 0x6001, 5, 9, 1⟩, [.ull 3, .string [104, 105]]⟩

def smallAnswer : Answer :=
  ⟨.extentPut, ⟨2, 0⟩, some (.int 0)⟩

def smallCallPdu : Bytes :=
  [0, 0, 0, 0, 0, 0, 0, 2, 0, 0, 0x60, 1, 0, 0, 0, 5, 0, 0, 0, 9, 0, 0, 0, 1,
    0, 0, 0, 0, 0, 0, 0, 3, 0, 0, 0, 2, 104, 105]

def smallAnswerPdu : Bytes :=
  [0, 0, 0, 0, 0, 0, 0, 2, 0, 0, 0, 0, 0, 0, 0, 0, 0, 0, 0, 0, 0, 0, 0, 0, 0, 0, 0, 0]

/-- The two PDUs are those of a proper call and a proper answer. -/
theorem message_small : Message .extent false smallCallPdu ∧ Message .extent true smallAnswerPdu :=
  ⟨⟨smallCall, ⟨rfl, rfl, rfl, rfl⟩, by decide +kernel⟩,
    ⟨smallAnswer, ⟨nofun, fun r hr => by cases hr; exact ⟨by decide, rfl⟩⟩, by decide +kernel⟩⟩

def smallSays (_ : Bool → Connection Unit) : Bool × EndAction Unit → Bool
  | (false, .send _ b _) => decide (b = smallCallPdu)
  | (true, .send _ b _) => decide (b = smallAnswerPdu)
  | _ => true

/-- Ends that send only these two speak as they should. -/
theorem speaks_small {s : Bool → Connection Unit} {a : Bool × EndAction Unit}
    (h : smallSays s a = true) : Speaks .extent s a := by
  intro t b w hsend
  rcases a with ⟨e, a⟩
  cases hsend
  cases e with
  | false => exact (of_decide_eq_true h : b = smallCallPdu) ▸ message_small.1
  | true => exact (of_decide_eq_true h : b = smallAnswerPdu) ▸ message_small.2

/-- The call is written in two pieces, and the answer is read in two. -/
theorem messages_delivered_put : ∃ s : Bool → Connection Unit,
    (s true).accepted.map (fun p => Server.extent.receive p.1)
        = [some (smallCall.header, smallCall.args)] ∧
      (s false).accepted.map (fun p => Stub.extentPut.receive p.1)
        = [some (smallAnswer.header, smallAnswer.result)] ∧
      ∃ calls : List Call,
        List.Forall₂ (fun c b => c.Proper .extent ∧ c.pdu = some b) calls (s false).obtained ∧
        List.Forall₂ (fun c p => Server.extent.receive p.1 = some (c.header, c.args))
          (calls.take (s true).accepted.length) (s true).accepted := by
  have hrun : (Trace.run Connection.step smallSays (fun _ => Connection.new)
      [(false, .send () smallCallPdu (.wrote 10)), (false, .writeCb (.wrote 28)),
        (true, .readCb (.got 4) (.got 34) true), (true, .send () smallAnswerPdu (.wrote 28)),
        (false, .readCb (.got 4) (.got 20) true), (false, .readCb (.got 4) (.got 4) true)]).map
      (fun s => decide ((s true).accepted.map (fun p => Server.extent.receive p.1)
          = [some (smallCall.header, smallCall.args)]) &&
        decide ((s false).accepted.map (fun p => Stub.extentPut.receive p.1)
          = [some (smallAnswer.header, smallAnswer.result)])) = some true := by
    decide +kernel
  rcases Option.map_eq_some_iff.mp hrun with ⟨s, hs, heq⟩
  rw [Bool.and_eq_true, decide_eq_true_eq, decide_eq_true_eq] at heq
  have hreach := Trace.reaches_weaken (fun _ _ => speaks_small) (Trace.reaches_of_run _ hs)
  rcases messages_delivered .extent s hreach with ⟨calls, -, hcalls, hreceived, -, -⟩
  exact ⟨s, heq.1, heq.2, calls, hcalls, hreceived⟩

end Yfs
