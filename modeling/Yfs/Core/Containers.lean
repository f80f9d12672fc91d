import Yfs.Core.Marshall
import Yfs.Library.SortedMap

/-!
# Containers on the Wire

The stream operators for `std::vector` and `std::map`, which are templates over the
operators of their elements, and the types that are built with them.

A template is a function of its element's operators. `Ty` are the types that the
templates generate from the wire types; a value of a type is a value that the C++
type has, so a map is sorted by the order of its keys. The orders are those of the
standard library: numbers by value, strings, vectors and maps lexicographically.
`extent_protocol::attr` has no `operator<`, so a map with such keys does not exist;
an order is given to it here all the same.

A vector is extracted behind what it holds already, and a map is cleared first.

## Main definitions

* `Ty`, `Ty.Val`: The types and their values.
* `putVector`, `getVector`, `putMap`, `getMap`: The templates.
* `Ty.put`, `Ty.get`: The operators of a type.
* `Header`: A header of either kind.
* `MarshallCall`: A call on a `marshall`.
-/

namespace Yfs

/-! ## Types and values -/

inductive Ty where
  | base (t : WireType)
  | vector (t : Ty)
  | map (k v : Ty)
  deriving DecidableEq, Repr

/-- The values of a wire type. -/
abbrev BaseVal (t : WireType) : Type := { v : WireVal // v.type = t }

/-- What a value is compared by. -/
def WireVal.rank : WireVal → List Int
  | .bool x => [x.toNat]
  | .char x => [x.toInt]
  | .uchar x => [x.toNat]
  | .short x => [x.toInt]
  | .ushort x => [x.toNat]
  | .int x => [x.toInt]
  | .uint x => [x.toNat]
  | .ull x => [x.toNat]
  | .string s => s.map fun c => c.toNat
  | .attr a => [a.atime.toNat, a.mtime.toNat, a.ctime.toNat, a.size.toNat]

/-- Values of one type are equal if they are compared as equal. -/
theorem WireVal.rank_inj (v w : WireVal) (ht : v.type = w.type) (h : v.rank = w.rank) : v = w := by
  cases v with
  | bool x =>
      cases w with
      | bool y =>
          simp only [rank, List.cons.injEq, and_true, Nat.cast_inj] at h
          rw [← Bool.ofNat_toNat x, h, Bool.ofNat_toNat]
      | _ => cases ht
  | char x =>
      cases w with
      | char y =>
          simp only [rank, List.cons.injEq, and_true, Int8.toInt_inj] at h
          rw [h]
      | _ => cases ht
  | uchar x =>
      cases w with
      | uchar y =>
          simp only [rank, List.cons.injEq, and_true, Nat.cast_inj, UInt8.toNat_inj] at h
          rw [h]
      | _ => cases ht
  | short x =>
      cases w with
      | short y =>
          simp only [rank, List.cons.injEq, and_true, Int16.toInt_inj] at h
          rw [h]
      | _ => cases ht
  | ushort x =>
      cases w with
      | ushort y =>
          simp only [rank, List.cons.injEq, and_true, Nat.cast_inj, UInt16.toNat_inj] at h
          rw [h]
      | _ => cases ht
  | int x =>
      cases w with
      | int y =>
          simp only [rank, List.cons.injEq, and_true, Int32.toInt_inj] at h
          rw [h]
      | _ => cases ht
  | uint x =>
      cases w with
      | uint y =>
          simp only [rank, List.cons.injEq, and_true, Nat.cast_inj, UInt32.toNat_inj] at h
          rw [h]
      | _ => cases ht
  | ull x =>
      cases w with
      | ull y =>
          simp only [rank, List.cons.injEq, and_true, Nat.cast_inj, UInt64.toNat_inj] at h
          rw [h]
      | _ => cases ht
  | string s =>
      cases w with
      | string s' =>
          have hinj : Function.Injective fun c : UInt8 => (c.toNat : Int) :=
            fun c c' hc => UInt8.toNat_inj.mp (Nat.cast_inj.mp hc)
          rw [List.map_injective_iff.mpr hinj h]
      | _ => cases ht
  | attr a =>
      cases w with
      | attr a' =>
          simp only [rank, List.cons.injEq, and_true, Nat.cast_inj, UInt32.toNat_inj] at h
          cases a
          cases a'
          simp only at h
          rw [h.1, h.2.1, h.2.2.1, h.2.2.2]
      | _ => cases ht

theorem BaseVal.rank_injective (t : WireType) :
    Function.Injective fun v : BaseVal t => v.1.rank :=
  fun v w h => Subtype.ext (WireVal.rank_inj v.1 w.1 (v.2.trans w.2.symm) h)

/-- The values of a type, with their order. -/
def Ty.sem : Ty → (α : Type) × LinearOrder α
  | .base t => ⟨BaseVal t, LinearOrder.lift' _ (BaseVal.rank_injective t)⟩
  | .vector t =>
    letI := t.sem.2
    ⟨List t.sem.1, inferInstance⟩
  | .map k v =>
    letI := k.sem.2
    letI := v.sem.2
    ⟨SortedMap k.sem.1 v.sem.1, inferInstance⟩

def Ty.Val (t : Ty) : Type := t.sem.1

instance (t : Ty) : LinearOrder t.Val := t.sem.2

/-! ## The templates -/

section Templates

variable {α β : Type}

/-- `operator<<(marshall &, std::vector<C>)`. -/
def Marshall.putVector (put : Marshall → α → Option Marshall) (m : Marshall) (v : List α) :
    Option Marshall := do
  let m ← m.putUint (UInt32.ofNat v.length)
  v.foldlM put m

/-- `n` rounds of `u >> z; v.push_back(z)`. -/
def Unmarshall.getElements (get : Unmarshall → Option (α × Unmarshall)) :
    Nat → Unmarshall → List α → Option (List α × Unmarshall)
  | 0, u, v => some (v, u)
  | n + 1, u, v => do
    let (z, u) ← get u
    Unmarshall.getElements get n u (v ++ [z])

/-- `operator>>(unmarshall &, std::vector<C> &)`. -/
def Unmarshall.getVector (get : Unmarshall → Option (α × Unmarshall)) (u : Unmarshall)
    (v : List α) : Option (List α × Unmarshall) :=
  let (n, u) := u.getUint
  Unmarshall.getElements get n.toNat u v

variable [LinearOrder α]

/-- `operator<<(marshall &, const std::map<A,B> &)`. -/
def Marshall.putMap (putKey : Marshall → α → Option Marshall)
    (putVal : Marshall → β → Option Marshall) (m : Marshall) (d : SortedMap α β) :
    Option Marshall := do
  let m ← m.putUint (UInt32.ofNat d.entries.length)
  d.entries.foldlM (fun m e => do
    let m ← putKey m e.1
    putVal m e.2) m

/-- `n` rounds of `u >> a >> b; d[a] = b`. -/
def Unmarshall.getEntries (getKey : Unmarshall → Option (α × Unmarshall))
    (getVal : Unmarshall → Option (β × Unmarshall)) :
    Nat → Unmarshall → SortedMap α β → Option (SortedMap α β × Unmarshall)
  | 0, u, d => some (d, u)
  | n + 1, u, d => do
    let (a, u) ← getKey u
    let (b, u) ← getVal u
    Unmarshall.getEntries getKey getVal n u (d.insert a b)

/-- `operator>>(unmarshall &, std::map<A,B> &)`. -/
def Unmarshall.getMap (getKey : Unmarshall → Option (α × Unmarshall))
    (getVal : Unmarshall → Option (β × Unmarshall)) (u : Unmarshall) :
    Option (SortedMap α β × Unmarshall) :=
  let (n, u) := u.getUint
  Unmarshall.getEntries getKey getVal n.toNat u SortedMap.empty

end Templates

/-! ## The operators of a type -/

/-- `operator<<` as it is instantiated for a type. -/
def Ty.put : (t : Ty) → Marshall → t.Val → Option Marshall
  | .base _, m, v => m.put v.1
  | .vector t, m, v => m.putVector t.put v
  | .map k v, m, d => m.putMap k.put v.put (d : SortedMap k.Val v.Val)

/-- `operator>>`, into a variable that has just been declared. -/
def Ty.get : (t : Ty) → Unmarshall → Option (t.Val × Unmarshall)
  | .base t, u => do
    let (v, u) ← u.get t
    -- What is read at a type has that type.
    if h : v.type = t then some (⟨v, h⟩, u) else none
  | .vector t, u => u.getVector t.get []
  | .map k v, u => (u.getMap k.get v.get : Option (SortedMap k.Val v.Val × Unmarshall))

/-- A value with its type. -/
abbrev TypedVal : Type := (t : Ty) × t.Val

/-- `m << v1; m << v2; …`. -/
def Marshall.putValues (m : Marshall) : List TypedVal → Option Marshall
  | [] => some m
  | v :: vs => do
    let m ← v.1.put m v.2
    m.putValues vs

/-- `u >> v1; u >> v2; …`. -/
def Unmarshall.getValues (u : Unmarshall) : List Ty → Option (List TypedVal × Unmarshall)
  | [] => some ([], u)
  | t :: ts => do
    let (v, u) ← t.get u
    let (vs, u) ← u.getValues ts
    some (⟨t, v⟩ :: vs, u)

/-! ## Headers -/

inductive Header where
  | req (h : ReqHeader)
  | reply (h : ReplyHeader)
  deriving DecidableEq, Repr

inductive HeaderKind where
  | req
  | reply
  deriving DecidableEq, Repr

def Header.kind : Header → HeaderKind
  | .req _ => .req
  | .reply _ => .reply

/-- `pack_req_header` or `pack_reply_header`. -/
def Marshall.packHeader (m : Marshall) : Header → Option Marshall
  | .req h => m.packReqHeader h
  | .reply h => m.packReplyHeader h

/-- `unpack_req_header` or `unpack_reply_header`. -/
def Unmarshall.unpackHeader (u : Unmarshall) : HeaderKind → Header × Unmarshall
  | .req =>
    let (h, u) := u.unpackReqHeader
    (.req h, u)
  | .reply =>
    let (h, u) := u.unpackReplyHeader
    (.reply h, u)

/-! ## Calls -/

/-- A call on a `marshall`. -/
inductive MarshallCall where
  | rawbyte (x : UInt8)
  | rawbytes (p : List UInt8)
  | put (v : TypedVal)
  | pack (h : Header)

def Marshall.perform (m : Marshall) : MarshallCall → Option Marshall
  | .rawbyte x => m.rawbyte x
  | .rawbytes p => m.rawbytes p
  | .put v => v.1.put m v.2
  | .pack h => m.packHeader h

def Marshall.performAll (m : Marshall) : List MarshallCall → Option Marshall
  | [] => some m
  | call :: calls => do
    let m ← m.perform call
    m.performAll calls

end Yfs
