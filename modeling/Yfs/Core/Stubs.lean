import Yfs.Core.Marshall

/-!
# Stubs and Handlers

Every remote call of the repository, from both ends: what the stub passes to
`rpcc::call`, and what the server that the stub talks to has registered under that
procedure number. The two are typed independently. The template arguments of
`call` fix how the stub marshals its arguments and reads the result; the
parameters of the member function passed to `reg` fix how the handler reads its
arguments and marshals the result.

`lock_client` and its subclass `lock_client_cache` both have stubs for `acquire`
and `release`. `stat` exists only in `lock_client`, and the subclass inherits it.

## Main definitions

* `Server`, `handlers`: What each deployed server registers.
* `Stub`: The call sites.
* `Stub.request`, `handlerArgs`: The arguments, written and read.
* `reply`, `Stub.result`: The result, written and read.
-/

namespace Yfs

/-- The types on one side of a call. -/
structure Signature where
  args : List WireType
  ret : WireType
  deriving DecidableEq, Repr

/-- The programs that own an `rpcs`: `lock_smain`, every `lock_client_cache` (for
    the callbacks) and `extent_smain`. -/
inductive Server where
  | lock
  | rlock
  | extent
  deriving DecidableEq, Repr

/-- `rpcbind`, registered by the constructor of `rpcs`. -/
def rpcbindHandler : Nat × Signature := (RpcConst.bind, ⟨[.int], .int⟩)

/-- The `reg` calls of each server. -/
def Server.handlers : Server → List (Nat × Signature)
  | .lock => [rpcbindHandler, (Proc.stat, ⟨[.ull], .int⟩), (Proc.acquire, ⟨[.ull, .string], .int⟩),
      (Proc.release, ⟨[.ull, .string], .int⟩)]
  | .rlock => [rpcbindHandler, (Proc.revoke, ⟨[.ull], .int⟩), (Proc.retry, ⟨[.ull], .int⟩)]
  | .extent => [rpcbindHandler, (Proc.get, ⟨[.ull], .string⟩), (Proc.getattr, ⟨[.ull], .attr⟩),
      (Proc.put, ⟨[.ull, .string], .int⟩), (Proc.remove, ⟨[.ull], .int⟩)]

/-- The call sites of `rpcc::call`. -/
inductive Stub where
  | bind (srv : Server)
  | lockClientStat
  | lockClientAcquire
  | lockClientRelease
  | lockClientCacheAcquire
  | lockClientCacheRelease
  | revoke
  | retry
  | extentGet
  | extentGetattr
  | extentPut
  deriving DecidableEq, Repr

namespace Stub

def server : Stub → Server
  | .bind srv => srv
  | .lockClientStat => .lock
  | .lockClientAcquire => .lock
  | .lockClientRelease => .lock
  | .lockClientCacheAcquire => .lock
  | .lockClientCacheRelease => .lock
  | .revoke => .rlock
  | .retry => .rlock
  | .extentGet => .extent
  | .extentGetattr => .extent
  | .extentPut => .extent

def proc : Stub → Nat
  | .bind _ => RpcConst.bind
  | .lockClientStat => Proc.stat
  | .lockClientAcquire => Proc.acquire
  | .lockClientRelease => Proc.release
  | .lockClientCacheAcquire => Proc.acquire
  | .lockClientCacheRelease => Proc.release
  | .revoke => Proc.revoke
  | .retry => Proc.retry
  | .extentGet => Proc.get
  | .extentGetattr => Proc.getattr
  | .extentPut => Proc.put

/-- The template arguments at the call site. The stubs of `lock_client` send
    `cl->id()`, an `unsigned int`, and the lock id. -/
def sig : Stub → Signature
  | .bind _ => ⟨[.int], .int⟩
  | .lockClientStat => ⟨[.uint, .ull], .int⟩
  | .lockClientAcquire => ⟨[.uint, .ull], .int⟩
  | .lockClientRelease => ⟨[.uint, .ull], .int⟩
  | .lockClientCacheAcquire => ⟨[.ull, .string], .int⟩
  | .lockClientCacheRelease => ⟨[.ull, .string], .int⟩
  | .revoke => ⟨[.ull], .int⟩
  | .retry => ⟨[.ull], .int⟩
  | .extentGet => ⟨[.ull], .string⟩
  | .extentGetattr => ⟨[.ull], .attr⟩
  | .extentPut => ⟨[.ull, .string], .int⟩

/-- The handler that the stub's server has under the stub's procedure number. -/
def handler (st : Stub) : Option Signature :=
  st.server.handlers.lookup st.proc

end Stub

/-- `rpcc::call` up to the send: the arguments, then the header in front. -/
def request (h : ReqHeader) (args : List WireVal) : Option (List UInt8) := do
  let m ← Marshall.new.putAll args
  let m ← m.packReqHeader h
  some m.pdu

/-- `rpcs::dispatch` and the `fn` that `reg` builds: the arguments as the handler
    reads them, and whether `okdone()` holds after them. -/
def handlerArgs (sig : Signature) (pdu : List UInt8) : Option (List WireVal × Bool) := do
  let (_, u) := (Unmarshall.new pdu).unpackReqHeader
  -- What is left behind the arguments is not read, and `okdone()` sees it.
  let (vs, u) ← u.getAll sig.args
  some (vs, u.okdone)

/-- The handler's result and the reply header. -/
def reply (h : ReplyHeader) (r : WireVal) : Option (List UInt8) := do
  let m ← Marshall.new.put r
  let m ← m.packReplyHeader h
  some m.pdu

/-- `call_m` after `call1`: the result as the stub reads it, and whether
    `okdone()` holds after it. -/
def Stub.result (st : Stub) (pdu : List UInt8) : Option (WireVal × Bool) := do
  let (r, u) ← (Unmarshall.takeIn pdu).get st.sig.ret
  some (r, u.okdone)

end Yfs
