import Yfs.Library.Overwrite
import Yfs.Theory.Operations

/-!
# What a Write Leaves in a File

`yfs_client::write` compared with what its caller in `fuse.cc` documents: the bytes of the
buffer go from the offset on, the file grows where they reach past its end, and a gap in
front of them is filled with null bytes. That is `overwrite` of the library.

The substring cases of the source come down to three. With a size attribute of zero the
file becomes the new bytes whatever the offset (`written_of_attr_zero`); an offset behind
the end appends (`written_of_lt`); any other offset replaces (`written_of_le`). The last
two are the overwriting as long as `off + size` does not wrap. The first is it only for a
write that starts at the front and covers what is there.

The new bytes are not those of the buffer either. They go through a C string, so from the
first null byte on they are null bytes (`writeChunk_eq_take_iff`).

## Main definitions

* `ZeroEnded`: Null bytes at the end only.
* `WriteFrame`: The law of lengths and positions.

## Theorems

* `written_of_attr_zero`, `written_of_lt`, `written_of_le`: The content after a write.
* `written_eq_overwrite`: Where it is what was asked for.
* `Cached.write_runs`, `Cached.read_runs`: Both operations, behind a cache.
* `read_after_write_iff`: Exactly which writes are read back.
* `write_frame_iff`: Exactly which writes keep the law.
-/

namespace Yfs

open Extent Txn Overwrite

/-- A null byte is followed by null bytes only. -/
def ZeroEnded (bs : Bytes) : Prop :=
  bs.Pairwise fun a b => a = 0 → b = 0

/-! ## The bytes that are written -/

theorem writeChunk_eq (buf : Bytes) (size : UInt64) :
    writeChunk buf size
      = (cstr buf).take size.toNat ++ List.replicate (size.toNat - (cstr buf).length) 0 := by
  unfold writeChunk
  by_cases hlt : (cstr buf).length < size.toNat
  · simp only [if_pos hlt]
    rw [List.take_append, List.take_replicate, Nat.min_self]
  · simp only [if_neg hlt]
    rw [Nat.sub_eq_zero_of_le (by omega), List.replicate_zero, List.append_nil]

@[simp]
theorem length_writeChunk (buf : Bytes) (size : UInt64) :
    (writeChunk buf size).length = size.toNat := by
  rw [writeChunk_eq, List.length_append, List.length_take, List.length_replicate]
  omega

/-- A C string that is padded again gives the bytes it was made of only if nothing but
    null bytes got lost. -/
theorem padded_cstr_iff {n : Nat} {buf : Bytes} (hn : n ≤ buf.length) :
    (cstr buf).take n ++ List.replicate (n - (cstr buf).length) 0 = buf.take n ↔
      ZeroEnded (buf.take n) := by
  unfold ZeroEnded
  induction buf generalizing n with
  | nil =>
      rw [Nat.le_zero.mp hn]
      simp [cstr]
  | cons b bs ih =>
      cases n with
      | zero => simp
      | succ n =>
          rw [List.length_cons] at hn
          rw [List.take_succ_cons, List.pairwise_cons]
          by_cases hb : b = 0
          · -- The string ends here, and all that follows is padding.
            have hnil : cstr (b :: bs) = [] := by simp [cstr, hb]
            rw [hnil, List.take_nil, List.nil_append, List.length_nil, Nat.sub_zero,
              List.replicate_succ, hb, List.cons.injEq, eq_comm (a := List.replicate n 0),
              List.eq_replicate_iff, List.length_take]
            refine ⟨fun h => ⟨fun x hx _ => h.2.2 x hx, ?_⟩, fun h => ⟨rfl, by omega, ?_⟩⟩
            · exact List.pairwise_of_forall_mem_list fun x _ y hy _ => h.2.2 y hy
            · exact fun x hx => h.1 x hx rfl
          · have hcons : cstr (b :: bs) = b :: cstr bs := by simp [cstr, hb]
            rw [hcons, List.take_succ_cons, List.length_cons, Nat.add_sub_add_right,
              List.cons_append, List.cons.injEq, ih (by omega)]
            exact ⟨fun h => ⟨fun _ _ h0 => absurd h0 hb, h.2⟩, fun h => ⟨rfl, h.2⟩⟩

theorem writeChunk_eq_take_iff {buf : Bytes} {size : UInt64} (hbuf : size.toNat ≤ buf.length) :
    writeChunk buf size = buf.take size.toNat ↔ ZeroEnded (buf.take size.toNat) := by
  rw [writeChunk_eq]
  exact padded_cstr_iff hbuf

/-! ## The content after a write -/

/-- The size attribute is zero for more than the empty content. -/
theorem sizeAttr_eq_zero_iff (c : Bytes) : sizeAttr c = 0 ↔ c.length % 2 ^ 32 = 0 := by
  rw [sizeAttr, ← UInt32.toNat_inj, UInt32.toNat_ofNat']
  rfl

section Written

variable {c : Bytes} {attrSize : UInt32} (buf : Bytes) {size off : UInt64}

theorem written_of_attr_zero (c : Bytes) (size off : UInt64) :
    written c 0 buf size off = writeChunk buf size := by
  simp only [written, if_true]

theorem written_of_lt (hattr : attrSize ≠ 0) (hoff : c.length < off.toNat) :
    written c attrSize buf size off
      = c ++ List.replicate (off.toNat - c.length) 0 ++ writeChunk buf size := by
  simp only [written, if_neg hattr, if_pos hoff]

theorem written_of_le (hattr : attrSize ≠ 0) (hoff : off.toNat ≤ c.length) :
    written c attrSize buf size off
      = c.take off.toNat ++ writeChunk buf size ++ c.drop (off + size).toNat := by
  simp only [written, if_neg hattr, if_neg (show ¬ c.length < off.toNat by omega)]
  -- Nothing is kept in front of offset zero, and nothing behind an end past the old one.
  have hfront : off = 0 → c.take off.toNat = [] := by
    intro h0
    rw [h0]
    exact List.take_zero
  by_cases hend : c.length ≤ (off + size).toNat
  · rw [if_pos hend, List.drop_eq_nil_of_le hend, List.append_nil]
    by_cases h0 : off = 0
    · rw [if_pos h0, hfront h0, List.nil_append]
    · rw [if_neg h0]
  · rw [if_neg hend]
    by_cases h0 : off = 0
    · rw [if_pos h0, hfront h0, List.nil_append]
    · rw [if_neg h0]

/-- With another size attribute than zero and a sum that does not wrap, a write is what
    its name says. -/
theorem written_eq_overwrite (hattr : attrSize ≠ 0)
    (hsum : off.toNat ≤ c.length → off.toNat + size.toNat < 2 ^ 64) :
    written c attrSize buf size off = overwrite 0 c off.toNat (writeChunk buf size) := by
  unfold overwrite
  rw [length_writeChunk]
  by_cases hoff : c.length < off.toNat
  · rw [written_of_lt buf hattr hoff, List.take_of_length_le (by omega),
      List.drop_eq_nil_of_le (by omega), List.append_nil]
  · have hle : off.toNat ≤ c.length := by omega
    have hadd : (off + size).toNat = off.toNat + size.toNat := by
      rw [UInt64.toNat_add, Nat.mod_eq_of_lt (hsum hle)]
    rw [written_of_le buf hattr hle, hadd, Nat.sub_eq_zero_of_le hle, List.replicate_zero,
      List.append_nil]

end Written

/-! ## The law of lengths and positions -/

/-- From the content `old` to `new` by a write of `size` bytes at `off`: the file grows to
    the end of the write, the bytes on both sides of it stay, and a gap is null bytes. -/
structure WriteFrame (old new : Bytes) (off size : Nat) : Prop where
  length : new.length = max old.length (off + size)
  before : ∀ i, i < min off old.length → new[i]? = old[i]?
  after : ∀ i, off + size ≤ i → new[i]? = old[i]?
  gap : ∀ i, old.length ≤ i → i < off → new[i]? = some 0

theorem writeFrame_overwrite (c : Bytes) (off : Nat) (data : Bytes) :
    WriteFrame c (overwrite 0 c off data) off data.length where
  length := length_overwrite 0 c off data
  before i hi := by
    rw [getElem?_overwrite, if_pos (by omega), if_pos (by omega)]
  after i hi := by
    rw [getElem?_overwrite, if_neg (by omega), if_neg (by omega)]
  gap i hc hi := by
    rw [getElem?_overwrite, if_pos hi, if_neg (by omega)]

/-- The new bytes alone are right only for a write that covers the file. -/
theorem writeFrame_alone_iff (c data : Bytes) (off : Nat) :
    WriteFrame c data off data.length ↔ off = 0 ∧ c.length ≤ data.length := by
  constructor
  · intro h
    have hlen := h.length
    omega
  · rintro ⟨rfl, hle⟩
    refine ⟨by omega, fun i hi => by omega, fun i hi => ?_, fun i _ hi => by omega⟩
    rw [List.getElem?_eq_none (by omega), List.getElem?_eq_none (by omega)]

/-- A sum that wraps makes the file too long. -/
theorem not_writeFrame_of_wrap {c : Bytes} {attrSize : UInt32} (buf : Bytes) {size off : UInt64}
    (hattr : attrSize ≠ 0) (hoff : off.toNat ≤ c.length)
    (hwrap : 2 ^ 64 ≤ off.toNat + size.toNat) :
    ¬ WriteFrame c (written c attrSize buf size off) off.toNat size.toNat := by
  intro h
  have hlen := h.length
  have hsize : size.toNat < 2 ^ 64 := size.toNat_lt
  have hadd : (off + size).toNat = off.toNat + size.toNat - 2 ^ 64 := by
    have hlt : off.toNat < 2 ^ 64 := off.toNat_lt
    rw [UInt64.toNat_add, Nat.mod_eq_sub_mod hwrap, Nat.mod_eq_of_lt (by omega)]
  rw [written_of_le buf hattr hoff, List.length_append, List.length_append, List.length_take,
    List.length_drop, length_writeChunk, hadd] at hlen
  omega

theorem writeFrame_written_iff (c buf : Bytes) (size off : UInt64) :
    WriteFrame c (written c (sizeAttr c) buf size off) off.toNat size.toNat ↔
      (c.length % 2 ^ 32 = 0 → off = 0 ∧ c.length ≤ size.toNat) ∧
      (c.length % 2 ^ 32 ≠ 0 → off.toNat ≤ c.length → off.toNat + size.toNat < 2 ^ 64) := by
  -- A size attribute of zero makes the source write the new bytes alone.
  by_cases hattr : c.length % 2 ^ 32 = 0
  · rw [(sizeAttr_eq_zero_iff c).mpr hattr, written_of_attr_zero]
    have halone := writeFrame_alone_iff c (writeChunk buf size) off.toNat
    rw [length_writeChunk] at halone
    have hoff : off.toNat = 0 ↔ off = 0 := UInt64.toNat_inj (b := 0)
    rw [halone, hoff]
    exact ⟨fun h => ⟨fun _ => h, fun hne => absurd hattr hne⟩, fun h => h.1 hattr⟩
  -- Otherwise it writes over the old content, and the only trap is the sum.
  · have hne : sizeAttr c ≠ 0 := fun h => hattr ((sizeAttr_eq_zero_iff c).mp h)
    constructor
    · intro h
      refine ⟨fun h0 => absurd h0 hattr, fun _ hoff => ?_⟩
      by_contra hwrap
      exact not_writeFrame_of_wrap buf hne hoff (by omega) h
    · intro h
      rw [written_eq_overwrite buf hne (h.2 hattr)]
      have hframe := writeFrame_overwrite c off.toNat (writeChunk buf size)
      rwa [length_writeChunk] at hframe

/-! ## Reading back -/

/-- The content read back is the bytes that were written, unless the offset was not
    looked at. -/
theorem slice_written_iff {c buf : Bytes} {size off : UInt64} (hoff : off.toNat ≤ c.length)
    (hsize : 0 < size.toNat) (hbuf : size.toNat ≤ buf.length) :
    (if off.toNat < (written c (sizeAttr c) buf size off).length
      then ((written c (sizeAttr c) buf size off).drop off.toNat).take size.toNat else [])
        = buf.take size.toNat ↔
      (c.length % 2 ^ 32 = 0 → off = 0) ∧ ZeroEnded (buf.take size.toNat) := by
  rw [← writeChunk_eq_take_iff hbuf]
  by_cases hattr : c.length % 2 ^ 32 = 0
  · rw [(sizeAttr_eq_zero_iff c).mpr hattr, written_of_attr_zero]
    constructor
    · intro h
      -- A slice from a later offset on is too short.
      have h0 : off = 0 := by
        have hlen := congrArg List.length h
        rw [List.length_take, Nat.min_eq_left hbuf] at hlen
        split at hlen
        · rw [List.length_take, List.length_drop, length_writeChunk] at hlen
          exact UInt64.toNat_inj.mp (show off.toNat = 0 by omega)
        · rw [List.length_nil] at hlen
          omega
      refine ⟨fun _ => h0, ?_⟩
      have hwhole := List.take_of_length_le (Nat.le_of_eq (length_writeChunk buf size))
      rw [h0] at h
      simpa [hsize, hwhole] using h
    · rintro ⟨h0, hchunk⟩
      rw [h0 hattr, hchunk]
      simp [hsize, hbuf]
  · have hne : sizeAttr c ≠ 0 := fun h => hattr ((sizeAttr_eq_zero_iff c).mp h)
    have hfront : (c.take off.toNat).length = off.toNat := by
      rw [List.length_take, Nat.min_eq_left hoff]
    rw [written_of_le buf hne hoff, List.append_assoc]
    -- The file reaches beyond the offset, so the slice is what was put there.
    have hlong : off.toNat < (c.take off.toNat ++
        (writeChunk buf size ++ c.drop (off + size).toNat)).length := by
      rw [List.length_append, List.length_append, hfront, length_writeChunk]
      omega
    rw [if_pos hlong, List.drop_left' hfront, List.take_left' (length_writeChunk buf size)]
    exact ⟨fun h => ⟨fun h0 => absurd h0 hattr, h⟩, fun h => h.2⟩

/-! ## Behind a cache -/

section Run

variable (clock : Nat → UInt32) {s : Cached} {f : Store} {inum : Inum} {c : Bytes}

theorem Cached.write_runs (hs : s.Holds f) (hfile : f inum = some c) (buf : Bytes)
    (size off : UInt64) :
    ∃ s', (write inum buf size off).runLocked (Cached.serve clock) ∅ s = some (.ok, ∅, s') ∧
      s'.Holds (Function.update f inum (some (written c (sizeAttr c) buf size off))) := by
  rcases (twoPhase_write (H := ∅) inum buf size off).runLocked_of_some (cached_answers clock) hs
    (write_on_store hfile buf size off) with ⟨⟨st, held, s'⟩, hrun, hres, hheld, hs'⟩
  change st = .ok at hres
  change held = ∅ at hheld
  subst hres hheld
  exact ⟨s', hrun, hs'⟩

theorem Cached.read_runs (hs : s.Holds f) (hfile : f inum = some c) (size off : UInt64) :
    ∃ s', (read inum size off).runLocked (Cached.serve clock) ∅ s
      = some ((.ok, if off.toNat < c.length then (c.drop off.toNat).take size.toNat else []),
          ∅, s') := by
  rcases (twoPhase_read (H := ∅) inum size off).runLocked_of_some (cached_answers clock) hs
    (read_on_store hfile size off) with ⟨⟨r, held, s'⟩, hrun, hres, hheld, _⟩
  change r = _ at hres
  change held = ∅ at hheld
  subst hres hheld
  exact ⟨s', hrun⟩

/-- A write inside a file or at its end, and the read of the same bytes after it: they are read back
    exactly if the write was not taken for one to an empty file, and no other byte follows a null
    byte in the buffer. The first condition is about the size attribute, which has 32 bits; the
    second is there because the buffer is turned into a C string on the way. -/
theorem read_after_write_iff {now : UInt32} {ticks : Nat}
    (hr : Trace.Reaches (Cached.step clock) Trace.Always ⟨.new, .new now, ticks⟩ s)
    (hfile : s.content inum = some c) (buf : Bytes) (size off : UInt64)
    (hoff : off.toNat ≤ c.length) (hsize : 0 < size.toNat) (hbuf : size.toNat ≤ buf.length) :
    ∃ s' data s'',
      (write inum buf size off).runLocked (Cached.serve clock) ∅ s = some (.ok, ∅, s') ∧
      (read inum size off).runLocked (Cached.serve clock) ∅ s' = some ((.ok, data), ∅, s'') ∧
      (data = buf.take size.toNat ↔
        (c.length % 2 ^ 32 = 0 → off = 0) ∧ ZeroEnded (buf.take size.toNat)) := by
  rcases Cached.write_runs clock (Cached.reachable_holds hr) hfile buf size off with
    ⟨s', hwrite, hs'⟩
  rcases Cached.read_runs clock hs' (Function.update_self _ _ _) size off with ⟨s'', hread⟩
  exact ⟨s', _, s'', hwrite, hread, slice_written_iff hoff hsize hbuf⟩

end Run

/-- Two bytes written to an empty file. -/
theorem read_after_write_empty :
    ∃ s, Trace.Reaches (Cached.step fun _ => 0) Trace.Always ⟨.new, .new 0, 0⟩ s ∧
      s.content 0x80000000 = some [] ∧
      ∃ s' data s'',
        (write 0x80000000 [104, 105, 0] 2 0).runLocked (Cached.serve fun _ => 0) ∅ s
          = some (.ok, ∅, s') ∧
        (read 0x80000000 2 0).runLocked (Cached.serve fun _ => 0) ∅ s'
          = some ((.ok, data), ∅, s'') ∧
        (data = [104, 105] ↔
          (([] : Bytes).length % 2 ^ 32 = 0 → (0 : UInt64) = 0) ∧ ZeroEnded [104, 105]) := by
  have hrun : Trace.Reaches (Cached.step fun _ => 0) Trace.Always ⟨.new, .new 0, 0⟩ _ :=
    Trace.reaches_always_of_run [.call 0x80000000 (.put [])] rfl
  exact ⟨_, hrun, rfl, read_after_write_iff (fun _ => 0) hrun rfl [104, 105, 0] 2 0 (by decide)
    (by decide) (by decide)⟩

/-- The bytes `a`, null, `b`, written to a new file: the `b` is not read back. -/
theorem null_byte_ends_write :
    (runOps ⟨0, 0⟩ (Cached.serve fun _ => 0)
      [.create 1 [102] 0x80000000, .write 0x80000000 [97, 0, 98] 3 0, .read 0x80000000 3 0] ∅
      ⟨.new, .new 0, 0⟩).map (fun r => r.1)
      = some [.attr .ok (some ⟨0, 0, 0, 0⟩), .status .ok, .content .ok [97, 0, 0]] := by
  decide +kernel

section Frame

variable (clock : Nat → UInt32) {s : Cached} {inum : Inum} {c : Bytes}

/-- A write keeps the law of lengths and positions exactly if a size attribute of zero
    stands for a file that the write covers from its front, and the end of a write that
    starts inside the file is not taken modulo `2 ^ 64`. -/
theorem write_frame_iff {now : UInt32} {ticks : Nat}
    (hr : Trace.Reaches (Cached.step clock) Trace.Always ⟨.new, .new now, ticks⟩ s)
    (hfile : s.content inum = some c) (buf : Bytes) (size off : UInt64) :
    ∃ s' c',
      (write inum buf size off).runLocked (Cached.serve clock) ∅ s = some (.ok, ∅, s') ∧
      s'.content inum = some c' ∧
      (WriteFrame c c' off.toNat size.toNat ↔
        (c.length % 2 ^ 32 = 0 → off = 0 ∧ c.length ≤ size.toNat) ∧
        (c.length % 2 ^ 32 ≠ 0 → off.toNat ≤ c.length → off.toNat + size.toNat < 2 ^ 64)) := by
  rcases Cached.write_runs clock (Cached.reachable_holds hr) hfile buf size off with
    ⟨s', hwrite, hs'⟩
  refine ⟨s', _, hwrite, ?_, writeFrame_written_iff c buf size off⟩
  rw [hs'.content, Function.update_self]

end Frame

/-- Two bytes written behind the end of a file with one. -/
theorem write_frame_gap :
    ∃ s, Trace.Reaches (Cached.step fun _ => 0) Trace.Always ⟨.new, .new 0, 0⟩ s ∧
      s.content 0x80000000 = some [97] ∧
      ∃ s' c',
        (write 0x80000000 [104, 105, 0] 2 3).runLocked (Cached.serve fun _ => 0) ∅ s
          = some (.ok, ∅, s') ∧
        s'.content 0x80000000 = some c' ∧
        (WriteFrame [97] c' 3 2 ↔
          (([97] : Bytes).length % 2 ^ 32 = 0 → (3 : UInt64) = 0 ∧ ([97] : Bytes).length ≤ 2) ∧
          (([97] : Bytes).length % 2 ^ 32 ≠ 0 → 3 ≤ ([97] : Bytes).length → 3 + 2 < 2 ^ 64)) := by
  have hrun : Trace.Reaches (Cached.step fun _ => 0) Trace.Always ⟨.new, .new 0, 0⟩ _ :=
    Trace.reaches_always_of_run [.call 0x80000000 (.put [97])] rfl
  exact ⟨_, hrun, rfl, write_frame_iff (fun _ => 0) hrun rfl [104, 105, 0] 2 3⟩

/-- The byte `a`, written to a new file at offset four: the file is one byte long. -/
theorem first_write_ignores_offset :
    (runOps ⟨0, 0⟩ (Cached.serve fun _ => 0)
      [.create 1 [102] 0x80000000, .write 0x80000000 [97, 0] 1 4] ∅
      ⟨.new, .new 0, 0⟩).map (fun r => (r.1, r.2.2.content 0x80000000))
      = some ([.attr .ok (some ⟨0, 0, 0, 0⟩), .status .ok], some [97]) ∧
    ¬ WriteFrame [] [97] 4 1 :=
  ⟨by decide +kernel, fun h => absurd h.length (by decide)⟩

end Yfs
