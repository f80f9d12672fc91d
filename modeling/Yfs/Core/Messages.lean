import Yfs.Core.Stubs

/-!
# Messages

Calls and their answers as the two ends of a connection see them, above the bytes.

A call is what `rpcc::call` makes of a stub's arguments, with the header that `call1` packs.
`dispatch` answers with the result of a handler, or with a header alone if it has not called
one: the code in the header is then negative.

`receive` is what becomes of a PDU. At a server it goes through `dispatch`, which looks at the
header first, and then through the `fn` of the procedure that is registered; at a client it
goes through `got_pdu` and `call_m`, and the stub is that of the call that the answer is for. A
PDU that is dropped there, or at which a `VERIFY` fails, is received as `none`.

## Main definitions

* `Call`, `Answer`: The messages.
* `Call.pdu`, `Answer.pdu`: What is given to `send`.
* `Server.receive`, `Stub.receive`: What is read from a PDU.
-/

namespace Yfs

structure Call where
  stub : Stub
  header : ReqHeader
  args : List WireVal
  deriving DecidableEq, Repr

structure Answer where
  stub : Stub
  header : ReplyHeader
  result : Option WireVal
  deriving DecidableEq, Repr

def Call.pdu (c : Call) : Option Bytes :=
  request c.header c.args

def Answer.pdu (a : Answer) : Option Bytes :=
  match a.result with
  | some r => reply a.header r
  | none => (Marshall.new.packReplyHeader a.header).map Marshall.pdu

/-- `rpcs::dispatch` and the `fn` that it calls. -/
def Server.receive (srv : Server) (pdu : Bytes) : Option (ReqHeader × List WireVal) :=
  let (h, u) := (Unmarshall.new pdu).unpackReqHeader
  if u.ok then do
    let sig ← srv.handlers.lookup h.proc.toNat
    let (args, okdone) ← handlerArgs sig pdu
    -- A handler whose arguments do not end the PDU is not called.
    if okdone then some (h, args) else none
  else none

/-- `rpcc::got_pdu` and `call_m`. -/
def Stub.receive (st : Stub) (pdu : Bytes) : Option (ReplyHeader × Option WireVal) :=
  let (h, u) := (Unmarshall.new pdu).unpackReplyHeader
  if u.ok then
    if h.ret < 0 then some (h, none)
    else do
      let (r, okdone) ← st.result pdu
      if okdone then some (h, some r) else none
  else none

end Yfs
