import Mathlib.Algebra.Ring.Nat
import Mathlib.Data.Fintype.Pi
import Cpm68k.Library.Hoare

/-!
# The operating system interface

`cpmlib/osif.h`: file control blocks, channel control blocks, and what the library asks
of the BDOS.

## The model

* Memory areas of a fixed size are functions from their indices (`Bytes`). The bytes of a
  file are unsigned; `BYTE` fields that hold small numbers are `Int8`.
* `LONG` offsets and sector numbers are integers: the library adds to them and compares
  them, and a sum that leaves 32 bits has no defined result in C. The 16-bit counters of
  `_wrtbin` are reduced modulo 2^16 where the source stores them.
* The bits of the flag word are a record of truth values.
* `Osif` is the BDOS, and is not part of the repository. It is a parameter of everything
  that follows: functions on a state of which nothing is known. A file function may change
  the file control block as it likes. A read either transfers a whole record or returns a
  nonzero code and transfers nothing. `_blkio` sets the DMA address before every record that
  it transfers, and nothing else uses it; so a record is transferred to or from where it
  belongs.
* `RETERR(FAILURE, e)` is the exception `e`. `exit` and `_exit`, which do not return, are an exception too.
* What lies in memory behind the bytes a caller passes is a parameter too: of it nothing is
  known.
-/

namespace Cpm68k.Cpmlib

open Cpm68k.Library

/-- A memory area of `n` bytes. -/
abbrev Bytes (n : ℕ) := Fin n → UInt8

namespace Bytes

variable {n : ℕ}

/-- `blkfill`. -/
def fill (v : UInt8) : Bytes n := fun _ => v

/-- `blkmove(b + pos, data, length of data)`: what it makes of the area. What does not fit is moved to
the memory behind it. -/
def move (b : Bytes n) (pos : ℕ) (data : List UInt8) : Bytes n :=
  fun i => if pos ≤ i.val then data.getD (i - pos) (b i) else b i

end Bytes

instance neZero_eight : NeZero 8 := ⟨by decide⟩

instance neZero_secsiz : NeZero 128 := ⟨by decide⟩

/-- `SECSIZ`, the size of a sector. -/
def SECSIZ : ℕ := 128

/-- The contents of a sector. -/
abbrev Sector := Bytes 128

/-- A file control block. -/
structure Fcb where
  /-- Disk drive field. -/
  drive : Int8
  /-- File name. -/
  fname : Bytes 8
  /-- File type. -/
  ftype : Bytes 3
  /-- Current extent number. -/
  extent : UInt8
  /-- System reserved. -/
  s1 : UInt8
  /-- System reserved. -/
  s2 : UInt8
  /-- Record counter. -/
  reccnt : UInt8
  /-- `_parsefn` password area. -/
  fpasswd : Bytes 8
  /-- `_parsefn` user number area. -/
  fuser : Int8
  /-- More system reserved. -/
  resvd : Bytes 7
  /-- The current record, overlaid with the random record number. -/
  record : ℤ

/-- A file control block of zeros. -/
def Fcb.zero : Fcb := ⟨0, Bytes.fill 0, Bytes.fill 0, 0, 0, 0, 0, Bytes.fill 0, 0, Bytes.fill 0, 0⟩

/-- `index(fcbp->fname, '?')`: the name and the type, which the extent ends. -/
def hasWildcard (fcbp : Fcb) : Bool := 0x3f ∈ List.ofFn fcbp.fname ∨ 0x3f ∈ List.ofFn fcbp.ftype

/-- What tells two files apart. -/
structure FileId where
  /-- The user number. -/
  user : UInt16
  /-- The drive. -/
  drive : Int8
  /-- The name, without attribute bits. -/
  fname : Bytes 8
  /-- The type, without attribute bits. -/
  ftype : Bytes 3
deriving DecidableEq

/-- The file that a file control block names for a user. -/
def fileId (user : UInt16) (fcb : Fcb) : FileId :=
  ⟨user, fcb.drive, fun i => fcb.fname i &&& 0x7f, fun i => fcb.ftype i &&& 0x7f⟩

/-- What can only be the name of one file: the user numbers of CP/M go up to 15, and for the BDOS a `?`
stands for any character. -/
structure FileId.Plain (f : FileId) : Prop where
  user : f.user ≤ 15
  fname : ∀ i, f.fname i ≠ 0x3f
  ftype : ∀ i, f.ftype i ≠ 0x3f

instance (f : FileId) : Decidable f.Plain :=
  decidable_of_iff (f.user ≤ 15 ∧ (∀ i, f.fname i ≠ 0x3f) ∧ ∀ i, f.ftype i ≠ 0x3f)
    ⟨fun ⟨huser, hname, htype⟩ => ⟨huser, hname, htype⟩, fun ⟨huser, hname, htype⟩ => ⟨huser, hname, htype⟩⟩

/-- The flag word of a channel. -/
structure Flags where
  /-- Channel is open. -/
  OPENED : Bool
  /-- Channel open to TTY. -/
  ISTTY : Bool
  /-- Channel open to LPT. -/
  ISLPT : Bool
  /-- Channel open read-only. -/
  ISREAD : Bool
  /-- ASCII file attached. -/
  ISASCII : Bool
  /-- End of file encountered. -/
  ATEOF : Bool
  /-- Buffer needs writing. -/
  DIRTY : Bool
  /-- Special tty info. -/
  ISSPTTY : Bool
  /-- Auxiliary device. -/
  ISAUX : Bool
  /-- Queue device. -/
  ISQUE : Bool
deriving DecidableEq

/-- No flag is set. -/
def Flags.none : Flags := ⟨false, false, false, false, false, false, false, false, false, false⟩

/-- A channel control block. -/
structure Ccb where
  /-- Flag word. -/
  flags : Flags
  /-- User number. -/
  user : Int8
  /-- Channel number being used. -/
  chan : Int8
  /-- File offset. -/
  offset : ℤ
  /-- Sector currently in buffer. -/
  sector : ℤ
  /-- High water mark. -/
  hiwater : ℤ
  /-- File control block. -/
  fcb : Fcb
  /-- Read/write buffer. -/
  buffer : Sector

/-- `EOFCHAR`, the end of file character. -/
def EOFCHAR : UInt8 := 0x1a

/-- `'\n'`. -/
def newline : UInt8 := 0x0a

/-- `'\r'`. -/
def carriageReturn : UInt8 := 0x0d

/-- The error numbers the library uses, and the end of the program. -/
inductive Errno
  | EBADF | EINVAL | ENOENT | ENOSPC | EMFILE | EIO | EEXIST | ENOTTY
  /-- `exit` and `_exit`, which is no error number. -/
  | exit
deriving DecidableEq

/-- The BDOS functions that work on a file as a whole. -/
inductive BdosFunc
  | OPEN | CLOSE | SEARCHF | SEARCHN | DELETE | CREATE | FILSIZ
deriving DecidableEq

/-- What the library asks of the operating system, whose state is a `σ`. -/
structure Osif (σ : Type) where
  /-- `USER`: get the user number (argument 0xFF), or set it. -/
  user : UInt16 → σ → UInt16 × σ
  /-- A function on a file: the return code, and the file control block after. -/
  file : BdosFunc → Fcb → σ → UInt16 × Fcb × σ
  /-- `B_READ`: a record, or a nonzero code. -/
  bRead : Fcb → σ → Except UInt16 Sector × Fcb × σ
  /-- `B_WRITE`: the return code. -/
  bWrite : Fcb → Sector → σ → UInt16 × Fcb × σ
  /-- `F_RENAME`: the return code for the old and the new name. -/
  rename : Fcb → Fcb → σ → UInt16 × σ
  /-- `CONIN`: a character. -/
  conin : σ → UInt8 × σ
  /-- `CONOUT`. -/
  conout : UInt8 → σ → σ
  /-- `CONIO`: a character for the argument 0xFF, and output of the argument otherwise. -/
  conio : UInt8 → σ → UInt8 × σ
  /-- `C_WRITESTR`: the characters before the `$`. -/
  writestr : List UInt8 → σ → σ
  /-- `CONBUF`: a line of at most so many characters. -/
  conbuf : ℕ → σ → List UInt8 × σ
  /-- `LSTOUT`. -/
  lstout : UInt8 → σ → σ
  /-- `EXIT`: the end of the program. -/
  exit : σ → σ
  /-- What lies in memory behind the bytes of a request. -/
  behind : ℕ → UInt8

/-! ### Programs on one channel -/

/-- What a routine that is given a channel `fp` works on. -/
structure Io (σ : Type) where
  /-- The channel control block. -/
  fp : Ccb
  /-- The operating system. -/
  os : σ
  /-- What has been stored for the user, at `*buff++`. -/
  buff : List UInt8

/-- A program on one channel. -/
abbrev IoM (σ : Type) := EStateM Errno (Io σ)

/-- The conversion of a `size_t` to `LONG`. -/
def toLong (n : ℕ) : ℤ := (n : ℤ).bmod (2 ^ 32)

theorem toLong_of_lt {n : ℕ} (h : n < 2 ^ 31) : toLong n = n := by
  unfold toLong
  rw [Int.bmod_def]
  omega

variable {σ : Type}

/-- Change the channel control block. -/
def setFp (f : Ccb → Ccb) : IoM σ PUnit := modify fun s => { s with fp := f s.fp }

/-- Store bytes for the user. -/
def store (bs : List UInt8) : IoM σ PUnit := modify fun s => { s with buff := s.buff ++ bs }

/-- Set `ATEOF`. -/
def setAteof : IoM σ PUnit := setFp fun fp => { fp with flags := { fp.flags with ATEOF := true } }

/-- A BDOS function that is not given the file control block. -/
def setOs (f : σ → σ) : IoM σ PUnit := modify fun s => { s with os := f s.os }

/-- A BDOS function that gives a character or a line. -/
def askOs {α : Type} (f : σ → α × σ) : IoM σ α := fun s => .ok (f s.os).1 { s with os := (f s.os).2 }

section

variable {E : Errno → Io σ → Prop} {s : Io σ} {Q : PUnit → Io σ → Prop}

@[simp] theorem wp_setFp (f : Ccb → Ccb) : wp (setFp f) Q E s = Q ⟨⟩ { s with fp := f s.fp } := rfl

@[simp] theorem wp_store (bs : List UInt8) : wp (store bs) Q E s = Q ⟨⟩ { s with buff := s.buff ++ bs } := rfl

@[simp] theorem wp_setOs (f : σ → σ) : wp (setOs f) Q E s = Q ⟨⟩ { s with os := f s.os } := rfl

@[simp] theorem wp_askOs {α : Type} {Q : α → Io σ → Prop} (f : σ → α × σ) :
    wp (askOs f) Q E s = Q (f s.os).1 { s with os := (f s.os).2 } := rfl

end

/-- `_chkuser`: change the user number if need be. -/
def chkuser (B : Osif σ) (newu : Int16) (os : σ) : Int16 × σ :=
  if newu = 0 then (0, os)
  else
    let (u, os) := B.user 0xFF os
    let prevu := u.toInt16 + 1
    if newu ≠ prevu then (prevu, (B.user (newu - 1).toUInt16 os).2) else (prevu, os)

/-- `_uchkuser`: change the user number back. -/
def uchkuser (B : Osif σ) (newu prevu : Int16) (os : σ) : σ :=
  if newu = 0 then os
  else if newu ≠ prevu then (B.user (prevu - 1).toUInt16 os).2 else os

/-- `_chkuser(fp->user)`. -/
def chkuserFp (B : Osif σ) : IoM σ Int16 := fun s =>
  let (xuser, os) := chkuser B s.fp.user.toInt16 s.os
  .ok xuser { s with os := os }

/-- `_uchkuser(fp->user, xuser)`. -/
def uchkuserFp (B : Osif σ) (xuser : Int16) : IoM σ PUnit :=
  modify fun s => { s with os := uchkuser B s.fp.user.toInt16 xuser s.os }

/-- `__OSIF(bdosfunc, &fp->fcb)`. -/
def osif (B : Osif σ) (bdosfunc : BdosFunc) : IoM σ UInt16 := fun s =>
  let (code, fcb, os) := B.file bdosfunc s.fp.fcb s.os
  .ok code { s with fp := { s.fp with fcb := fcb }, os := os }

/-- `__OSIF(B_READ, &fp->fcb)`. -/
def osifRead (B : Osif σ) : IoM σ (Except UInt16 Sector) := fun s =>
  let (retcode, fcb, os) := B.bRead s.fp.fcb s.os
  .ok retcode { s with fp := { s.fp with fcb := fcb }, os := os }

/-- `__OSIF(B_WRITE, &fp->fcb)`. -/
def osifWrite (B : Osif σ) (record : Sector) : IoM σ UInt16 := fun s =>
  let (retcode, fcb, os) := B.bWrite s.fp.fcb record s.os
  .ok retcode { s with fp := { s.fp with fcb := fcb }, os := os }

section

variable {B : Osif σ} {E : Errno → Io σ → Prop} {s : Io σ}

@[simp] theorem wp_chkuserFp {Q : Int16 → Io σ → Prop} :
    wp (chkuserFp B) Q E s =
      Q (chkuser B s.fp.user.toInt16 s.os).1 { s with os := (chkuser B s.fp.user.toInt16 s.os).2 } := rfl

@[simp] theorem wp_uchkuserFp {Q : PUnit → Io σ → Prop} (xuser : Int16) :
    wp (uchkuserFp B xuser) Q E s = Q ⟨⟩ { s with os := uchkuser B s.fp.user.toInt16 xuser s.os } := rfl

@[simp] theorem wp_osif {Q : UInt16 → Io σ → Prop} (bdosfunc : BdosFunc) :
    wp (osif B bdosfunc) Q E s =
      Q (B.file bdosfunc s.fp.fcb s.os).1
        { s with
          fp := { s.fp with fcb := (B.file bdosfunc s.fp.fcb s.os).2.1 }
          os := (B.file bdosfunc s.fp.fcb s.os).2.2 } := rfl

@[simp] theorem wp_osifRead {Q : Except UInt16 Sector → Io σ → Prop} :
    wp (osifRead B) Q E s =
      Q (B.bRead s.fp.fcb s.os).1
        { s with
          fp := { s.fp with fcb := (B.bRead s.fp.fcb s.os).2.1 }, os := (B.bRead s.fp.fcb s.os).2.2 } := rfl

@[simp] theorem wp_osifWrite {Q : UInt16 → Io σ → Prop} (record : Sector) :
    wp (osifWrite B record) Q E s =
      Q (B.bWrite s.fp.fcb record s.os).1
        { s with
          fp := { s.fp with fcb := (B.bWrite s.fp.fcb record s.os).2.1 }
          os := (B.bWrite s.fp.fcb record s.os).2.2 } := rfl

end

/-- The loop of `_blkio` with `B_READ`: the sectors that were read. -/
def readLoop (B : Osif σ) : ℤ → ℕ → IoM σ (List Sector)
  | _, 0 => pure []
  | sector, count + 1 => do
    setFp fun fp => { fp with fcb := { fp.fcb with record := sector } }
    let retcode ← osifRead B
    match retcode with
    | .error _ => pure []
    | .ok record => do
      let records ← readLoop B (sector + 1) count
      pure (record :: records)

/-- The loop of `_blkio` with `B_WRITE`: how many sectors were written. -/
def writeLoop (B : Osif σ) : ℤ → List Sector → IoM σ ℕ
  | _, [] => pure 0
  | sector, record :: buffer => do
    setFp fun fp => { fp with fcb := { fp.fcb with record := sector } }
    let retcode ← osifWrite B record
    if retcode ≠ 0 then pure 0
    else do
      let seccnt ← writeLoop B (sector + 1) buffer
      pure (seccnt + 1)

/-- `_blkio` with `B_READ`: the sectors that were read. -/
def blkioRead (B : Osif σ) (sector : ℤ) (count : ℕ) : IoM σ (List Sector) := do
  let xuser ← chkuserFp B
  let records ← readLoop B sector count
  uchkuserFp B xuser
  pure records

/-- `_blkio` with `B_WRITE`: how many sectors were written. -/
def blkioWrite (B : Osif σ) (sector : ℤ) (buffer : List Sector) : IoM σ ℕ := do
  let xuser ← chkuserFp B
  let seccnt ← writeLoop B sector buffer
  uchkuserFp B xuser
  pure seccnt

end Cpm68k.Cpmlib
