import Yfs.Core.YfsClient

/-!
# Inums of New Objects

How a FUSE process picks the inum of a new file or directory, and any number of such
processes on one file system.

`generate_inum` draws from `rand()`, sets or clears bit 31 for the kind of object, and
draws again while the result is in `inum_set`. That set is a global of the process: it
starts empty and holds what this process has generated. The values that `rand()`
returns are an argument; the loop has not ended when they are used up.

A process serves one request at a time. A creation is two steps of it, since other
processes can run in between: `generate` is the call of `generate_inum`, and `perform`
the `yfs_client::create` or `mymkdir` under the inum it returned. The operations on the
extents are executed one after another on the extent server.

`generated` and `performed` are there to be spoken about: they record the contents of
the extents when an inum was returned, and before and after an object was made.

## Main definitions

* `Rand`, `candidate`, `generateInum`: `generate_inum`.
* `Sys`, `Action`, `step`: Processes on one file system.
-/

namespace Yfs

namespace Fuse

/-- What `rand()` returns. -/
abbrev Rand := Fin (2 ^ 31)

/-- The int `1 << 31` is sign-extended by the conversion to 64 bits, and the upper half
    is masked off again. -/
def candidate (isfile : Bool) (r : Rand) : Inum :=
  let result := UInt64.ofNat r.val
  let result := if isfile then result ||| 0xffffffff80000000 else result &&& 0x7fffffff
  result &&& 0xffffffff

/-- The inum, and the values of `rand()` that are left. -/
def generateInum (isfile : Bool) (inumSet : Finset Inum) :
    List Rand → Option (Inum × List Rand)
  | [] => none
  | r :: rs =>
      if candidate isfile r ∈ inumSet then generateInum isfile inumSet rs
      else some (candidate isfile r, rs)

/-- Processes `P` on one extent server. -/
structure Sys (P : Type) where
  fs : Direct
  inumSet : P → Finset Inum
  /-- The kind and the inum of the object that a process is about to make. -/
  pending : P → Option (Bool × Inum)
  generated : List ((Inum → Option Bytes) × Inum)
  performed : List ((Inum → Option Bytes) × (Inum → Option Bytes))

inductive Action (P : Type) where
  | generate (p : P) (isfile : Bool) (rands : List Rand)
  | perform (p : P) (parent : Inum) (name : Bytes)

/-- A new file system, with processes that have generated nothing. -/
def Sys.init (P : Type) (now : UInt32) : Sys P where
  fs := ⟨ExtentServer.new now, 0⟩
  inumSet := fun _ => ∅
  pending := fun _ => none
  generated := []
  performed := []

/-- `rands` are exactly the values drawn. -/
def step {P : Type} [DecidableEq P] (u : Uninit) (clock : Nat → UInt32) (s : Sys P) :
    Action P → Option (Sys P)
  | .generate p isfile rands =>
      match s.pending p, generateInum isfile (s.inumSet p) rands with
      | none, some (inum, []) => some { s with
          inumSet := Function.update s.inumSet p (insert inum (s.inumSet p))
          pending := Function.update s.pending p (some (isfile, inum))
          generated := (s.fs.server.contentMap, inum) :: s.generated }
      | _, _ => none
  -- The handler has drawn the inum before the operation takes its locks.
  | .perform p parent name =>
      match s.pending p with
      | none => none
      | some (isfile, inum) =>
          (((Creation.op parent ⟨!isfile, name, inum⟩).prog u).runLocked (Direct.serve clock) ∅
            s.fs).map fun r => { s with
              fs := r.2.2
              pending := Function.update s.pending p none
              performed := (s.fs.server.contentMap, r.2.2.server.contentMap) :: s.performed }

end Fuse

end Yfs
