import Mathlib.Data.UInt

/-!
# Wire Constants

The procedure numbers, the failure codes and the extent attributes that both ends
of the remote calls share.

## Main definitions

* `Bytes`, `Inum`: Byte strings, and the numbers of locks and extents.
* `RpcConst`: The reserved procedure and the failures of the RPC layer.
* `Proc`: The procedure numbers of the lock, callback and extent protocols.
* `Attr`: `extent_protocol::attr`.
-/

namespace Yfs

/-- A `std::string`. -/
abbrev Bytes := List UInt8

/-- `yfs_client::inum`, which is also the id of the extent and of its lock. -/
abbrev Inum := UInt64

namespace RpcConst

/-- The handler number reserved for bind. -/
def bind : Nat := 1

def timeoutFailure : Int := -1

def atmostonceFailure : Int := -4

def oldsrvFailure : Int := -5

def bindFailure : Int := -6

def cancelFailure : Int := -7

end RpcConst

namespace Proc

/-- `lock_protocol::rpc_numbers`. -/
def acquire : Nat := 0x7001

def release : Nat := 0x7002

def stat : Nat := 0x7003

/-- `rlock_protocol::rpc_numbers`. -/
def revoke : Nat := 0x8001

def retry : Nat := 0x8002

/-- `extent_protocol::rpc_numbers`. -/
def put : Nat := 0x6001

def get : Nat := 0x6002

def getattr : Nat := 0x6003

def remove : Nat := 0x6004

end Proc

/-- `extent_protocol::attr`. -/
structure Attr where
  atime : UInt32
  mtime : UInt32
  ctime : UInt32
  size : UInt32
  deriving DecidableEq, Repr

end Yfs
