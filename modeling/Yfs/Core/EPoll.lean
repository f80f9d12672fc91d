import Yfs.Core.PollMgr

/-!
# The Other Way to Wait

`EPollAIO`, the second implementation of `aio_mgr`, which `PollMgr` could be given instead of
`SelectAIO`.

What is watched is kept twice, in `fdstatus_` as the union of the flags and in the kernel, which
`epoll_ctl` tells of every change. Which of its three operations is called depends on whether
`fdstatus_` is zero, and whether the operation fits what the kernel has is for the kernel to say.
The result is tested by `VERIFY`; a failed one is `none`.

The kernel is not part of the program, so it is a parameter: what `epoll_create` returns, what
`epoll_ctl` makes of an instance, and the events that an instance has for a descriptor. Nothing
is said here about how the three hang together.

## Main definitions

* `PollFlag.bits`, `events`: The flags, and the events that they stand for.
* `CtlOp`, `Kernel`: The kernel, as the calls see it.
* `EPollAio`, `watchFd`, `unwatchFd`, `isWatched`: The implementation.
* `SelectAio.isWatched`: The same question to the other one.
* `EPollAio.perform`, `SelectAio.answer`, `answerAll`: Calls, with what they return.
-/

namespace Yfs

/-- The values of `poll_flag`. -/
def PollFlag.bits : PollFlag → UInt32
  | .none => 0x0
  | .rdonly => 0x1
  | .wronly => 0x10
  | .rdwr => 0x11
  | .mask => ~~~0x11

namespace EPoll

def epollin : UInt32 := 0x1
def epollout : UInt32 := 0x4
def epollet : UInt32 := 0x80000000

inductive CtlOp where
  | add
  | mod
  | del
  deriving DecidableEq, Repr

/-- The kernel's side of `epoll`, with `K` for its instances: `epoll_create`, `epoll_ctl` and the
    events that an instance has for each descriptor. An error is `none`. -/
structure Kernel (K : Type) where
  create : Option K
  ctl : K → CtlOp → Nat → UInt32 → Option K
  interest : K → Nat → Option UInt32

/-- The events for the flags of a descriptor. -/
def events (status : UInt32) : UInt32 :=
  let ev := epollet
  let ev := if status &&& PollFlag.rdonly.bits ≠ 0 then ev ||| epollin else ev
  if status &&& PollFlag.wronly.bits ≠ 0 then ev ||| epollout else ev

end EPoll

open EPoll

/-- `EPollAIO`; `pollfd` is the instance. -/
structure EPollAio (K : Type) where
  fdstatus : Nat → UInt32
  pollfd : K

namespace EPollAio

variable {K : Type} (k : Kernel K)

def new : Option (EPollAio K) :=
  k.create.map fun pollfd => ⟨fun _ => 0, pollfd⟩

/-- `watch_fd`. -/
def watchFd (a : EPollAio K) (fd : Nat) (flag : PollFlag) : Option (EPollAio K) :=
  if maxPollFds ≤ fd then none
  else
    -- A descriptor that has flags already is in the set of the kernel.
    let op := if a.fdstatus fd ≠ 0 then CtlOp.mod else CtlOp.add
    let status := a.fdstatus fd ||| flag.bits
    if flag = .rdwr ∧ events status ≠ epollet ||| epollin ||| epollout then none
    else (k.ctl a.pollfd op fd (events status)).map fun pollfd =>
      ⟨Function.update a.fdstatus fd status, pollfd⟩

/-- `unwatch_fd`, with its result. -/
def unwatchFd (a : EPollAio K) (fd : Nat) (flag : PollFlag) : Option (Bool × EPollAio K) :=
  if maxPollFds ≤ fd then none
  else
    let status := a.fdstatus fd &&& ~~~flag.bits
    -- Without flags left it leaves the set.
    let op := if status ≠ 0 then CtlOp.mod else CtlOp.del
    if flag = .rdwr ∧ op ≠ .del then none
    else (k.ctl a.pollfd op fd (events status)).map fun pollfd =>
      (op == .del, ⟨Function.update a.fdstatus fd status, pollfd⟩)

/-- `is_watched`. -/
def isWatched (a : EPollAio K) (fd : Nat) (flag : PollFlag) : Option Bool :=
  if maxPollFds ≤ fd then none
  -- The mask is the complement of the two flags: they are taken out before the comparison.
  else some (a.fdstatus fd &&& PollFlag.mask.bits == flag.bits)

/-- A call, with what `unwatch_fd` returns. -/
def perform (a : EPollAio K) : AioCall → Option (Option Bool × EPollAio K)
  | .watch fd flag => (a.watchFd k fd flag).map fun a => (none, a)
  | .unwatch fd flag => (a.unwatchFd k fd flag).map fun r => (some r.1, r.2)

end EPollAio

namespace SelectAio

/-- `is_watched`. As in `watchFd`, another flag is both. -/
def isWatched (a : SelectAio) (fd : Nat) : PollFlag → Bool
  | .rdonly => a.rfds fd
  | .wronly => a.wfds fd
  | _ => a.rfds fd && a.wfds fd

/-- A call, with what `unwatch_fd` returns. -/
def answer (a : SelectAio) : AioCall → Option (Option Bool × SelectAio)
  | .watch fd flag => some (none, a.watchFd fd flag)
  | .unwatch fd flag => (a.unwatchFd fd flag).map fun r => (some r.1, r.2)

end SelectAio

/-- Calls one after another. -/
def answerAll {S : Type} (perform : S → AioCall → Option (Option Bool × S)) :
    List AioCall → S → Option (List (Option Bool) × S)
  | [], s => some ([], s)
  | c :: rest, s => do
    let r ← perform s c
    let t ← answerAll perform rest r.2
    return (r.1 :: t.1, t.2)

end Yfs
