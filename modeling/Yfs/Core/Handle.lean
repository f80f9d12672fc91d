import Mathlib.Logic.Function.Basic
import Mathlib.Algebra.Order.Ring.Int

/-!
# Handles

`handle` and `handle_mgr`: a cache of RPC clients, one for each destination, shared by
the handles for that destination.

An `hinfo` is addressed by a number; numbers are not used twice, and `heap` has nothing
at the address of an `hinfo` that was deleted. A handle is its pointer, which is null if
`get_handle` found an `hinfo` that is to be deleted. Handles with one pointer are not
told apart.

The sections under `handle_mutex` are one action each, except that of `get_handle` when
the destination is known. It tests `del` and then increments `refcnt`, and `safebind` sets
`del` under another mutex, `cl_mutex`: `construct` is the test, and `finishGet` what
follows it. Between the two `getting` is set, and no other section under `handle_mutex`
runs.

`safebind` binds outside of `handle_mutex`, under the `cl_mutex` of the `hinfo`
(`binding`), with any outcome. The handle it is called on is not destroyed meanwhile.

`created` and `removed` are not fields of the source. They list the `hinfo`s that a handle
was created on with the value of `del` at that moment, and the `hinfo`s that were removed
with their `refcnt`, oldest first.

## Main definitions

* `HInfo`, `HandleMgr`: The cache and the handles.
* `construct`, `finishGet`, `endBind`, `doneHandle`, `deleteHandleWo`: The sections.
* `HandleAction`, `HandleMgr.step`: Any of them.
-/

namespace Yfs

/-- `struct hinfo`. `cl` says whether the pointer is set. -/
structure HInfo (N : Type) where
  cl : Bool
  refcnt : Int
  del : Bool
  m : N
  deriving DecidableEq, Repr

structure HandleMgr (N : Type) where
  heap : Nat → Option (HInfo N)
  next : Nat
  hmap : N → Option Nat
  getting : Option Nat
  handles : List (Option Nat)
  binding : Nat → Bool
  created : List (Nat × Bool)
  removed : List (Nat × Int)

inductive HandleAction (N : Type) where
  | construct (m : N)
  | finishGet
  | beginBind (a : Nat)
  | endBind (a : Nat) (succ : Bool)
  | destroy (h : Option Nat)
  | deleteHandle (m : N)

namespace HandleMgr

variable {N : Type}

def new (N : Type) : HandleMgr N where
  heap := fun _ => none
  next := 0
  hmap := fun _ => none
  getting := none
  handles := []
  binding := fun _ => false
  created := []
  removed := []

def setInfo (s : HandleMgr N) (a : Nat) (i : Option (HInfo N)) : HandleMgr N :=
  { s with heap := Function.update s.heap a i }

/-- The rest of `get_handle`. The counter is an `int`. -/
def finishGet (s : HandleMgr N) (a : Nat) : Option (HandleMgr N) := do
  let i ← s.heap a
  if i.refcnt + 1 < 2 ^ 31 then
    some { s.setInfo a (some { i with refcnt := i.refcnt + 1 }) with
      getting := none
      handles := s.handles ++ [some a]
      created := s.created ++ [(a, i.del)] }
  else none

/-- `safebind`, up to the call of `bind`. -/
def beginBind (s : HandleMgr N) (a : Nat) : Option (HandleMgr N) := do
  let i ← s.heap a
  if s.binding a || i.del || i.cl then none
  else some { s with binding := Function.update s.binding a true }

/-- `safebind`, when `bind` has returned. -/
def endBind (s : HandleMgr N) (a : Nat) (succ : Bool) : Option (HandleMgr N) := do
  let i ← s.heap a
  let i := if succ then { i with cl := true } else { i with del := true }
  some { s.setInfo a (some i) with binding := Function.update s.binding a false }

variable [DecidableEq N]

/-- `handle::handle` with `get_handle`, up to the test of `del`. -/
def construct (s : HandleMgr N) (m : N) : Option (HandleMgr N) :=
  match s.hmap m with
  | none =>
    some { s.setInfo s.next (some ⟨false, 1, false, m⟩) with
      next := s.next + 1
      hmap := Function.update s.hmap m (some s.next)
      handles := s.handles ++ [some s.next]
      created := s.created ++ [(s.next, false)] }
  | some a => (s.heap a).map fun i =>
    if i.del then { s with handles := s.handles ++ [none] }
    else { s with getting := some a }

/-- `delete_handle_wo`. -/
def deleteHandleWo (s : HandleMgr N) (m : N) : Option (HandleMgr N) :=
  match s.hmap m with
  | none => some s
  | some a => (s.heap a).map fun i =>
    if i.refcnt = 0 then
      { s.setInfo a none with
        hmap := Function.update s.hmap m none
        removed := s.removed ++ [(a, i.refcnt)] }
    else s.setInfo a (some { i with del := true })

/-- `~handle` with `done_handle`. -/
def doneHandle (s : HandleMgr N) (a : Nat) : Option (HandleMgr N) := do
  let i ← s.heap a
  let s := { s.setInfo a (some { i with refcnt := i.refcnt - 1 }) with
    handles := s.handles.erase (some a) }
  if i.refcnt - 1 = 0 ∧ i.del = true then s.deleteHandleWo i.m else some s

def step (s : HandleMgr N) : HandleAction N → Option (HandleMgr N)
  | .construct m => if s.getting = none then s.construct m else none
  | .finishGet => s.getting.bind s.finishGet
  | .beginBind a => if some a ∈ s.handles then s.beginBind a else none
  | .endBind a succ => if s.binding a then s.endBind a succ else none
  | .destroy none =>
    if none ∈ s.handles then some { s with handles := s.handles.erase none } else none
  | .destroy (some a) =>
    -- One of the handles is in `safebind` if `cl_mutex` is held.
    if s.getting = none ∧ (if s.binding a then 1 else 0) < s.handles.count (some a) then
      s.doneHandle a
    else none
  | .deleteHandle m => if s.getting = none then s.deleteHandleWo m else none

end HandleMgr

end Yfs
