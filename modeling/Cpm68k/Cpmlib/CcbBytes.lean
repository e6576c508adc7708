import Cpm68k.Cpmlib.Osif
import Cpm68k.Library.Struct

/-!
# Control blocks in memory

The bytes of a channel control block, as `struct ccb` and `struct fcbtab` of `cpmlib/osif.h` lay
them out on the 68000, and the table `_fds` after bytes were moved over a part of it.

## The model

* A `LONG` is four bytes, the highest first. Of the flag word only the bits that have a name are
  kept.
* A control block has 180 bytes and ends with its buffer. What is moved to the buffer and does not
  fit there goes on in the control blocks that follow.
-/

namespace Cpm68k.Cpmlib

open Cpm68k.Library

/-- The flag word. -/
def Flags.toWord (f : Flags) : ℕ :=
  f.OPENED.toNat + 0x02 * f.ISTTY.toNat + 0x04 * f.ISLPT.toNat + 0x08 * f.ISREAD.toNat + 0x10 * f.ISASCII.toNat +
    0x20 * f.ATEOF.toNat + 0x40 * f.DIRTY.toNat + 0x80 * f.ISSPTTY.toNat + 0x100 * f.ISAUX.toNat + 0x200 * f.ISQUE.toNat

/-- The flags of a flag word. -/
def Flags.ofWord (n : ℕ) : Flags where
  OPENED := n.testBit 0
  ISTTY := n.testBit 1
  ISLPT := n.testBit 2
  ISREAD := n.testBit 3
  ISASCII := n.testBit 4
  ATEOF := n.testBit 5
  DIRTY := n.testBit 6
  ISSPTTY := n.testBit 7
  ISAUX := n.testBit 8
  ISQUE := n.testBit 9

/-- The bytes of a `LONG`. -/
def longBytes (n : ℤ) : List UInt8 := bigEndian 4 (n % 2 ^ 32).toNat

/-- The `LONG` at a place. -/
def longAt (bs : List UInt8) (pos : ℕ) : ℤ := Int.bmod (ofBigEndian ((bs.drop pos).take 4)) (2 ^ 32)

/-- The bytes at a place. -/
def bytesAt {n : ℕ} (bs : List UInt8) (pos : ℕ) : Bytes n := fun i => bs.getD (pos + i) 0

/-- The bytes of a file control block. -/
def Fcb.bytes (fcb : Fcb) : List UInt8 :=
  [fcb.drive.toUInt8] ++ List.ofFn fcb.fname ++ List.ofFn fcb.ftype ++ [fcb.extent, fcb.s1, fcb.s2, fcb.reccnt] ++
    List.ofFn fcb.fpasswd ++ [fcb.fuser.toUInt8] ++ List.ofFn fcb.resvd ++ longBytes fcb.record

/-- The file control block that has these 36 bytes. -/
def Fcb.ofBytes (bs : List UInt8) : Fcb where
  drive := (bs.getD 0 0).toInt8
  fname := bytesAt bs 1
  ftype := bytesAt bs 9
  extent := bs.getD 12 0
  s1 := bs.getD 13 0
  s2 := bs.getD 14 0
  reccnt := bs.getD 15 0
  fpasswd := bytesAt bs 16
  fuser := (bs.getD 24 0).toInt8
  resvd := bytesAt bs 25
  record := longAt bs 32

/-- The size of a channel control block. -/
def CCBSIZE : ℕ := 180

/-- The bytes of a channel control block. -/
def Ccb.bytes (fp : Ccb) : List UInt8 :=
  bigEndian 2 fp.flags.toWord ++ [fp.user.toUInt8, fp.chan.toUInt8] ++ longBytes fp.offset ++ longBytes fp.sector ++
    longBytes fp.hiwater ++ fp.fcb.bytes ++ List.ofFn fp.buffer

/-- The channel control block that has these 180 bytes. -/
def Ccb.ofBytes (bs : List UInt8) : Ccb where
  flags := Flags.ofWord (ofBigEndian (bs.take 2))
  user := (bs.getD 2 0).toInt8
  chan := (bs.getD 3 0).toInt8
  offset := longAt bs 4
  sector := longAt bs 8
  hiwater := longAt bs 12
  fcb := Fcb.ofBytes (bs.drop 16)
  buffer := bytesAt bs 52

theorem length_longBytes (n : ℤ) : (longBytes n).length = 4 := rfl

theorem Fcb.length_bytes (fcb : Fcb) : fcb.bytes.length = 36 := by
  simp only [Fcb.bytes, List.length_append, List.length_ofFn, List.length_cons, List.length_nil, length_longBytes]

theorem Ccb.length_bytes (fp : Ccb) : fp.bytes.length = CCBSIZE := by
  have hword : (bigEndian 2 fp.flags.toWord).length = 2 := rfl
  simp only [Ccb.bytes, List.length_append, List.length_ofFn, List.length_cons, List.length_nil, length_longBytes,
    Fcb.length_bytes, hword, CCBSIZE]

/-- Control blocks one after the other, with the bytes `bs` moved to the memory behind the control
block `fd`. -/
def spillOver (fd : ℤ) (bs : List UInt8) (fds : ℤ → Ccb) (i : ℤ) : Ccb :=
  let part := (bs.drop (CCBSIZE * (i - fd - 1).toNat)).take CCBSIZE
  if i ≤ fd ∨ part.length = 0 then fds i else Ccb.ofBytes (part ++ (fds i).bytes.drop part.length)

/-- What is moved behind a control block does not touch it, nor those before it. -/
theorem spillOver_of_le {fd i : ℤ} {bs : List UInt8} {fds : ℤ → Ccb} (h : i ≤ fd) : spillOver fd bs fds i = fds i :=
  if_pos (.inl h)

/-- What is moved over a control block depends on that control block only. -/
theorem spillOver_congr {fd i : ℤ} {bs : List UInt8} {fds fds' : ℤ → Ccb} (h : fds' i = fds i) :
    spillOver fd bs fds' i = spillOver fd bs fds i := by
  rw [spillOver, spillOver, h]

/-- Nothing is left of a control block that is covered wholly. -/
theorem spillOver_covered {fd i : ℤ} {bs : List UInt8} (fds fds' : ℤ → Ccb) (hlt : fd < i)
    (hlen : CCBSIZE * (i - fd).toNat ≤ bs.length) :
    spillOver fd bs fds' i = spillOver fd bs fds i := by
  have hpart : ((bs.drop (CCBSIZE * (i - fd - 1).toNat)).take CCBSIZE).length = CCBSIZE := by
    have hnext : (i - fd).toNat = (i - fd - 1).toNat + 1 := by omega
    rw [List.length_take, List.length_drop, min_eq_left]
    rw [hnext, Nat.mul_succ] at hlen
    omega
  have hnone (fp : Ccb) : fp.bytes.drop CCBSIZE = [] := List.drop_of_length_le (Ccb.length_bytes fp).le
  have hcovered : ¬ (i ≤ fd ∨ CCBSIZE = 0) := by
    rw [CCBSIZE]
    omega
  simp only [spillOver, hpart, if_neg hcovered, hnone]

end Cpm68k.Cpmlib
