import Mathlib.Logic.Function.Basic

/-!
# The Poll Loop

`PollMgr` over `SelectAIO`: threads that register and remove callbacks, and the thread in
`wait_loop` that calls them.

A descriptor is a number below `MAX_POLL_FDS`; the functions that index `callbacks_` are
not defined for others. What `callbacks_` holds is a pointer to a callback object, of any
type `K`. Sections under the mutexes are one action each. A failed `VERIFY` is `none`.

`block_remove_fd` is two sections, up to the wait and after it. The wait is ended by the
broadcast of `wait_loop` and by nothing else, and a thread that has been woken goes on at
any time later.

`wait_loop` takes its mutex at the top of the loop only. `wait_ready` copies the sets,
`select` returns any part of the copy, and the descriptors found are gone through without
a lock: those that can be read first. `callbacks_[fd]` is read twice for each, once for
the test and once for the call; a null pointer in the second read is a call that is not
defined. The byte that is written to the pipe to wake `select` is left out: `select`
returns when it does.

## Main definitions

* `PollFlag`, `SelectAio`: What is watched.
* `AioCall`, `SelectAio.perform`: The calls that change it.
* `LoopPc`, `RemovePc`, `PollMgr`: The callbacks, the loop and the threads that remove.
* `LoopAction`, `PollAction`, `PollMgr.step`: Any of them.
* `PollEvent`, `PollRun`: A run with what happened in it.
-/

namespace Yfs

/-- `poll_flag`. -/
inductive PollFlag where
  | none
  | rdonly
  | wronly
  | rdwr
  | mask
  deriving DecidableEq, Repr

/-- `SelectAIO`; `pipefd` is the end of the pipe that is read. -/
structure SelectAio where
  rfds : Nat → Bool
  wfds : Nat → Bool
  highfds : Nat
  pipefd : Nat

namespace SelectAio

def new (pipefd : Nat) : SelectAio where
  rfds := Function.update (fun _ => false) pipefd true
  wfds := fun _ => false
  highfds := pipefd
  pipefd

/-- `watch_fd`. A flag that is neither of the first two is both. -/
def watchFd (a : SelectAio) (fd : Nat) (flag : PollFlag) : SelectAio :=
  let a := { a with highfds := if a.highfds ≤ fd then fd else a.highfds }
  match flag with
  | .rdonly => { a with rfds := Function.update a.rfds fd true }
  | .wronly => { a with wfds := Function.update a.wfds fd true }
  | _ => { a with
      rfds := Function.update a.rfds fd true
      wfds := Function.update a.wfds fd true }

/-- The first part of `unwatch_fd`. -/
def clear (a : SelectAio) (fd : Nat) : PollFlag → Option SelectAio
  | .rdonly => some { a with rfds := Function.update a.rfds fd false }
  | .wronly => some { a with wfds := Function.update a.wfds fd false }
  | .rdwr => some { a with
      wfds := Function.update a.wfds fd false
      rfds := Function.update a.rfds fd false }
  | _ => none

/-- The loop that looks for the highest descriptor. -/
def newHigh (a : SelectAio) : Nat :=
  -- From 0 upwards without a `break`, so the last hit counts.
  (List.range (a.highfds + 1)).foldl (fun newh i =>
    if a.rfds i then i else if a.wfds i then i else newh) a.pipefd

/-- `unwatch_fd`, with its result. -/
def unwatchFd (a : SelectAio) (fd : Nat) (flag : PollFlag) : Option (Bool × SelectAio) :=
  (a.clear fd flag).map fun a =>
    -- The highest descriptor is looked for again only when it is the one that is gone.
    let gone := !a.rfds fd && !a.wfds fd
    (gone, if gone && fd == a.highfds then { a with highfds := a.newHigh } else a)

end SelectAio

/-- A call that changes what is watched. -/
inductive AioCall where
  | watch (fd : Nat) (flag : PollFlag)
  | unwatch (fd : Nat) (flag : PollFlag)
  deriving DecidableEq, Repr

/-- The descriptor of a call. -/
def AioCall.fd : AioCall → Nat
  | .watch fd _ => fd
  | .unwatch fd _ => fd

def SelectAio.perform (a : SelectAio) : AioCall → Option SelectAio
  | .watch fd flag => some (a.watchFd fd flag)
  | .unwatch fd flag => (a.unwatchFd fd flag).map Prod.snd

/-- Where the thread in `wait_loop` is. -/
inductive LoopPc (K : Type) where
  | top
  | copy
  | select (trfds twfds : Nat → Bool) (high : Nat)
  | ready (readable writable : List Nat)
  | tested (write : Bool) (fd : Nat) (readable writable : List Nat)
  | loaded (write : Bool) (fd : Nat) (ch : K) (readable writable : List Nat)

/-- Where a thread is in `block_remove_fd`. -/
inductive RemovePc where
  | idle
  | waiting (fd : Nat)
  | woken (fd : Nat)
  deriving DecidableEq, Repr

/-- `pthread_cond_broadcast`. -/
def RemovePc.wake : RemovePc → RemovePc
  | .waiting fd => .woken fd
  | pc => pc

structure PollMgr (K T : Type) where
  aio : SelectAio
  callbacks : Nat → Option K
  pendingChange : Bool
  remover : T → RemovePc
  loop : LoopPc K

/-- `MAX_POLL_FDS`. -/
def maxPollFds : Nat := 128

/-- The next action of `wait_loop`; `selected` comes with what `select` reports. -/
inductive LoopAction where
  | top
  | copy
  | selected (r w : Nat → Bool)
  | test
  | load
  | invoke

inductive PollAction (K T : Type) where
  | addCallback (fd : Nat) (flag : PollFlag) (ch : K)
  | delCallback (fd : Nat) (flag : PollFlag)
  | blockRemove (t : T) (fd : Nat)
  | removed (t : T)
  | loop (a : LoopAction)

namespace PollMgr

variable {K T : Type}

def new (K T : Type) (pipefd : Nat) : PollMgr K T where
  aio := SelectAio.new pipefd
  callbacks := fun _ => none
  pendingChange := false
  remover := fun _ => .idle
  loop := .top

/-- `add_callback`. -/
def addCallback [DecidableEq K] (s : PollMgr K T) (fd : Nat) (flag : PollFlag) (ch : K) :
    Option (PollMgr K T) :=
  if fd < maxPollFds ∧ (s.callbacks fd = none ∨ s.callbacks fd = some ch) then
    some { s with
      aio := s.aio.watchFd fd flag
      callbacks := Function.update s.callbacks fd (some ch) }
  else none

/-- `del_callback`. -/
def delCallback (s : PollMgr K T) (fd : Nat) (flag : PollFlag) : Option (PollMgr K T) :=
  if fd < maxPollFds then
    (s.aio.unwatchFd fd flag).map fun (gone, aio) => { s with
      aio
      callbacks := if gone then Function.update s.callbacks fd none else s.callbacks }
  else none

/-- `block_remove_fd`, up to the wait. -/
def blockRemove [DecidableEq T] (s : PollMgr K T) (t : T) (fd : Nat) : Option (PollMgr K T) :=
  if fd < maxPollFds then
    (s.aio.unwatchFd fd .rdwr).map fun (_, aio) => { s with
      aio
      pendingChange := true
      remover := Function.update s.remover t (.waiting fd) }
  else none

/-- `block_remove_fd`, after the wait. -/
def removed [DecidableEq T] (s : PollMgr K T) (t : T) (fd : Nat) : PollMgr K T :=
  { s with
    callbacks := Function.update s.callbacks fd none
    remover := Function.update s.remover t .idle }

/-- The section at the top of the loop. -/
def loopTop (s : PollMgr K T) : PollMgr K T :=
  -- The broadcast wakes all threads in `block_remove_fd`; the callbacks of the last round are over.
  if s.pendingChange then
    { s with pendingChange := false, remover := fun t => (s.remover t).wake, loop := .copy }
  else { s with loop := .copy }

/-- The rest of `wait_ready` after `select`, which reports part of what it was given. -/
def found (pipefd high : Nat) (r w : Nat → Bool) : LoopPc K :=
  -- A byte in the pipe is read here, and the pipe is not reported.
  .ready ((List.range (high + 1)).filter fun fd => !(fd == pipefd && r fd) && r fd)
    ((List.range (high + 1)).filter fun fd => !(fd == pipefd && r fd) && w fd)

/-- The next descriptor, and the test of its callback. -/
def test (s : PollMgr K T) : List Nat → List Nat → LoopPc K
  | fd :: readable, writable =>
    if (s.callbacks fd).isSome then .tested false fd readable writable
    else .ready readable writable
  | [], fd :: writable =>
    if (s.callbacks fd).isSome then .tested true fd [] writable else .ready [] writable
  | [], [] => .top

/-- The thread in `wait_loop`, if this action is next. -/
def stepLoop (s : PollMgr K T) : LoopAction → Option (PollMgr K T)
  | .top => match s.loop with
    | .top => some s.loopTop
    | _ => none
  | .copy => match s.loop with
    | .copy => some { s with loop := .select s.aio.rfds s.aio.wfds s.aio.highfds }
    | _ => none
  | .selected r w => match s.loop with
    | .select trfds twfds high => some { s with
        loop := found s.aio.pipefd high (fun fd => trfds fd && r fd) (fun fd => twfds fd && w fd) }
    | _ => none
  -- From here on the source reads `callbacks_` without the mutex: the test and the call read it
  -- twice.
  | .test => match s.loop with
    | .ready readable writable => some { s with loop := s.test readable writable }
    | _ => none
  -- If the callback has become null since the test, the source calls a null pointer: no step.
  | .load => match s.loop with
    | .tested write fd readable writable => (s.callbacks fd).map fun ch =>
        { s with loop := .loaded write fd ch readable writable }
    | _ => none
  | .invoke => match s.loop with
    | .loaded _ _ _ readable writable => some { s with loop := .ready readable writable }
    | _ => none

variable [DecidableEq K] [DecidableEq T]

def step (s : PollMgr K T) : PollAction K T → Option (PollMgr K T)
  | .addCallback fd flag ch => s.addCallback fd flag ch
  | .delCallback fd flag => s.delCallback fd flag
  | .blockRemove t fd => if s.remover t = .idle then s.blockRemove t fd else none
  | .removed t => match s.remover t with
    | .woken fd => some (s.removed t fd)
    | _ => none
  | .loop a => s.stepLoop a

end PollMgr

/-! ## Runs -/

/-- What a run is judged by: registrations, the calls of `block_remove_fd` with the object
    that is registered then, their returns, and the calls of the loop. -/
inductive PollEvent (K T : Type) where
  | added (fd : Nat) (ch : K)
  | called (t : T) (fd : Nat) (ch : Option K)
  | returned (t : T)
  | invoked (write : Bool) (fd : Nat) (ch : K)
  deriving DecidableEq, Repr

/-- A `PollMgr` and what has happened, oldest first. -/
structure PollRun (K T : Type) where
  mgr : PollMgr K T
  events : List (PollEvent K T)

namespace PollRun

variable {K T : Type}

def event (s : PollMgr K T) : PollAction K T → Option (PollEvent K T)
  | .addCallback fd _ ch => some (.added fd ch)
  | .blockRemove t fd => some (.called t fd (s.callbacks fd))
  | .removed t => some (.returned t)
  | .loop .invoke => match s.loop with
    | .loaded write fd ch _ _ => some (.invoked write fd ch)
    | _ => none
  | _ => none

def new (K T : Type) (pipefd : Nat) : PollRun K T where
  mgr := PollMgr.new K T pipefd
  events := []

def step [DecidableEq K] [DecidableEq T] (s : PollRun K T) (a : PollAction K T) :
    Option (PollRun K T) :=
  (s.mgr.step a).map fun mgr => ⟨mgr, s.events ++ (event s.mgr a).toList⟩

end PollRun

end Yfs
