import Yfs.Core.Protocol
import Yfs.Library.Word

/-!
# Marshalling

The byte buffers of the RPC layer, `marshall` and `unmarshall`, with the operators
for the wire types and the packing of the two headers.

A `marshall` writes at `_ind` into a buffer that it reallocates, so a write is
fallible here: `none` is a store beyond the capacity or an `int` that overflows.
Of the buffer only the bytes written so far are kept. The header area at its front
is reserved from the start, and packing a header moves `_ind` back and restores it.

An `unmarshall` reads at `_ind` and clears `_ok` at the end of the buffer. A string
is read in one piece under a guard that the source computes in 32-bit arithmetic;
`none` is a read outside the buffer that the guard let through.

## Main definitions

* `Marshall`, `rawbyte`, `rawbytes`: The output buffer.
* `Unmarshall`, `rawbyte`, `rawbytes`: The input buffer.
* `WireType`, `WireVal`: The types with an `operator<<` and their values.
* `Marshall.put`, `Unmarshall.get`: `operator<<` and `operator>>`.
* `packReqHeader`, `packReplyHeader` and their readers.
-/

namespace Yfs

/-- `RPC_HEADER_SZ`: five words of a request header after the size of the PDU. -/
def rpcHeaderSz : Nat := 24

/-- `DEFAULT_RPC_SZ`. -/
def defaultRpcSz : Nat := 1024

/-- `sizeof(rpc_sz_t)`. -/
def rpcSzSz : Nat := 4

structure ReqHeader where
  xid : UInt32
  proc : UInt32
  cltNonce : UInt32
  srvNonce : UInt32
  xidRep : UInt32
  deriving DecidableEq, Repr

structure ReplyHeader where
  xid : UInt32
  ret : Int32
  deriving DecidableEq, Repr

/-- The types that a stub or a handler passes to the stream operators. -/
inductive WireType where
  | bool
  | char
  | uchar
  | short
  | ushort
  | int
  | uint
  | ull
  | string
  | attr
  deriving DecidableEq, Repr

/-- A value of one of them. -/
inductive WireVal where
  | bool (x : Bool)
  | char (x : Int8)
  | uchar (x : UInt8)
  | short (x : Int16)
  | ushort (x : UInt16)
  | int (x : Int32)
  | uint (x : UInt32)
  | ull (x : UInt64)
  | string (s : List UInt8)
  | attr (a : Attr)
  deriving DecidableEq, Repr

def WireVal.type : WireVal → WireType
  | .bool _ => .bool
  | .char _ => .char
  | .uchar _ => .uchar
  | .short _ => .short
  | .ushort _ => .ushort
  | .int _ => .int
  | .uint _ => .uint
  | .ull _ => .ull
  | .string _ => .string
  | .attr _ => .attr

/-- `marshall`: the bytes written so far, the allocated capacity and the write
    position. -/
structure Marshall where
  buf : List UInt8
  capa : Nat
  ind : Nat
  deriving DecidableEq, Repr

namespace Marshall

/-- The constructor: the header area is reserved. -/
def new : Marshall where
  buf := List.replicate rpcHeaderSz 0
  capa := defaultRpcSz
  ind := rpcHeaderSz

/-- The bytes of the PDU, `cstr()` up to `size()`. -/
def pdu (m : Marshall) : List UInt8 :=
  m.buf.take m.ind

/-- `realloc` to an `int` capacity. -/
def grow (m : Marshall) (capa : Nat) : Option Marshall :=
  if capa < 2 ^ 31 then some { m with capa := capa } else none

/-- Store `p` at the write position and advance it. -/
def store (m : Marshall) (p : List UInt8) : Option Marshall :=
  if m.ind + p.length ≤ m.capa then
    some { m with
      buf := m.buf.take m.ind ++ p ++ m.buf.drop (m.ind + p.length)
      ind := m.ind + p.length }
  else none

/-- A full buffer is doubled. -/
def reserveByte (m : Marshall) : Option Marshall :=
  if m.capa ≤ m.ind then m.grow (2 * m.capa) else some m

def rawbyte (m : Marshall) (x : UInt8) : Option Marshall := do
  let m ← m.reserveByte
  m.store [x]

/-- Room for `n` more bytes, `n` being an `int`. -/
def reserveBytes (m : Marshall) (n : Nat) : Option Marshall :=
  -- `_ind + n` has to be an `int`.
  if 2 ^ 31 ≤ m.ind + n then none
  else if m.capa < m.ind + n then
    m.grow (if n < m.capa then 2 * m.capa else m.capa + n)
  else some m

def rawbytes (m : Marshall) (p : List UInt8) : Option Marshall := do
  let m ← m.reserveBytes p.length
  m.store p

/-- A run of `rawbyte` calls. -/
def rawbyteAll (m : Marshall) : List UInt8 → Option Marshall
  | [] => some m
  | x :: xs => do
    let m ← m.rawbyte x
    m.rawbyteAll xs

/-- `operator<<` for `unsigned int`, most significant byte first. -/
def putUint (m : Marshall) (x : UInt32) : Option Marshall :=
  m.rawbyteAll (Word.be32 x)

/-- `operator<<`. Signed values go through the unsigned type of their width. -/
def put (m : Marshall) : WireVal → Option Marshall
  | .bool x => m.rawbyte (if x then 1 else 0)
  | .char x => m.rawbyte x.toUInt8
  | .uchar x => m.rawbyte x
  | .short x => m.rawbyteAll (Word.be16 x.toUInt16)
  | .ushort x => m.rawbyteAll (Word.be16 x)
  | .int x => m.putUint x.toUInt32
  | .uint x => m.putUint x
  | .ull x => do
    let m ← m.putUint (x >>> 32).toUInt32
    m.putUint x.toUInt32
  | .string s => do
    let m ← m.putUint (UInt32.ofNat s.length)
    m.rawbytes s
  | .attr a => do
    let m ← m.putUint a.atime
    let m ← m.putUint a.mtime
    let m ← m.putUint a.ctime
    m.putUint a.size

/-- `m << a1; m << a2; …`. -/
def putAll (m : Marshall) : List WireVal → Option Marshall
  | [] => some m
  | v :: vs => do
    let m ← m.put v
    m.putAll vs

/-- Write words behind the size field, then put the write position back. -/
def packWords (m : Marshall) (ws : List UInt32) : Option Marshall := do
  let m' ← Marshall.rawbyteAll { m with ind := rpcSzSz } (ws.flatMap Word.be32)
  some { m' with ind := m.ind }

def packReqHeader (m : Marshall) (h : ReqHeader) : Option Marshall :=
  m.packWords [h.xid, h.proc, h.cltNonce, h.srvNonce, h.xidRep]

def packReplyHeader (m : Marshall) (h : ReplyHeader) : Option Marshall :=
  m.packWords [h.xid, h.ret.toUInt32]

end Marshall

/-- `unmarshall`: `_sz` is the length of the buffer. -/
structure Unmarshall where
  buf : List UInt8
  ind : Nat
  ok : Bool
  deriving DecidableEq, Repr

namespace Unmarshall

/-- The constructor that takes a PDU. -/
def new (b : List UInt8) : Unmarshall where
  buf := b
  ind := 0
  ok := true

/-- `take_in`, into a fresh object. -/
def takeIn (b : List UInt8) : Unmarshall where
  buf := b
  ind := rpcHeaderSz
  ok := decide (rpcHeaderSz ≤ b.length)

def okdone (u : Unmarshall) : Bool :=
  u.ok && u.ind == u.buf.length

/-- The next byte, widened from `char`; `0` and `_ok` cleared at the end. -/
def rawbyte (u : Unmarshall) : UInt32 × Unmarshall :=
  match u.buf[u.ind]? with
  | some c => (Word.widen c, { u with ind := u.ind + 1 })
  | none => (0, { u with ok := false })

/-- The next `n` bytes; `_ind + n` is computed as an `unsigned int`. -/
def rawbytes (u : Unmarshall) (n : UInt32) : Option (List UInt8 × Unmarshall) :=
  if u.buf.length < (u.ind + n.toNat) % 2 ^ 32 then
    some ([], { u with ok := false })
  else if u.ind + n.toNat ≤ u.buf.length then
    some ((u.buf.drop u.ind).take n.toNat, { u with ind := u.ind + n.toNat })
  else none

/-- Two bytes, most significant first. -/
def getUshort (u : Unmarshall) : UInt16 × Unmarshall :=
  let (a, u) := u.rawbyte
  let (b, u) := u.rawbyte
  (Word.ofBe16 a b, u)

/-- Four bytes, most significant first; also `unpack`. -/
def getUint (u : Unmarshall) : UInt32 × Unmarshall :=
  let (a, u) := u.rawbyte
  let (b, u) := u.rawbyte
  let (c, u) := u.rawbyte
  let (d, u) := u.rawbyte
  (Word.ofBe32 a b c d, u)

/-- `operator>>`. A string whose length could not be read is left empty. -/
def get (u : Unmarshall) : WireType → Option (WireVal × Unmarshall)
  | .bool =>
    let (c, u) := u.rawbyte
    some (.bool (c != 0), u)
  | .char =>
    let (c, u) := u.rawbyte
    some (.char c.toUInt8.toInt8, u)
  | .uchar =>
    let (c, u) := u.rawbyte
    some (.uchar c.toUInt8, u)
  | .short =>
    let (x, u) := u.getUshort
    some (.short x.toInt16, u)
  | .ushort =>
    let (x, u) := u.getUshort
    some (.ushort x, u)
  | .int =>
    let (x, u) := u.getUint
    some (.int x.toInt32, u)
  | .uint =>
    let (x, u) := u.getUint
    some (.uint x, u)
  | .ull =>
    let (h, u) := u.getUint
    let (l, u) := u.getUint
    some (.ull (Word.ofBe64 h l), u)
  | .string =>
    let (n, u) := u.getUint
    if u.ok then do
      -- `_ok` has been looked at after the length was read.
      let (s, u) ← u.rawbytes n
      some (.string s, u)
    else some (.string [], u)
  | .attr =>
    let (atime, u) := u.getUint
    let (mtime, u) := u.getUint
    let (ctime, u) := u.getUint
    let (size, u) := u.getUint
    some (.attr ⟨atime, mtime, ctime, size⟩, u)

/-- `args >> a1; args >> a2; …`. -/
def getAll (u : Unmarshall) : List WireType → Option (List WireVal × Unmarshall)
  | [] => some ([], u)
  | t :: ts => do
    let (v, u) ← u.get t
    let (vs, u) ← u.getAll ts
    some (v :: vs, u)

def unpackReqHeader (u : Unmarshall) : ReqHeader × Unmarshall :=
  let u := { u with ind := rpcSzSz }
  let (xid, u) := u.getUint
  let (proc, u) := u.getUint
  let (cltNonce, u) := u.getUint
  let (srvNonce, u) := u.getUint
  let (xidRep, u) := u.getUint
  (⟨xid, proc, cltNonce, srvNonce, xidRep⟩, { u with ind := rpcHeaderSz })

def unpackReplyHeader (u : Unmarshall) : ReplyHeader × Unmarshall :=
  let u := { u with ind := rpcSzSz }
  let (xid, u) := u.getUint
  let (ret, u) := u.getUint
  (⟨xid, ret.toInt32⟩, { u with ind := rpcHeaderSz })

end Unmarshall

end Yfs
