import Cpm68k.Cpmlib.BinaryRead
import Cpm68k.Cpmlib.LastWriter

/-!
# How far a read of a binary file gets

A binary file is read by whole sectors, of which the last may have bytes behind the data. A
read that gets there raises the high water mark, and the file seems longer than the data.

## What is proved

* `wp_rdbin_hiwater` — the high water mark stays where it is, if the read ends within the
  data, or the data ends with its last sector, or the transfer of whole sectors stops before
  the last sector because it is not yet on disk (`Within`).
-/

namespace Cpm68k.Cpmlib

open Cpm68k.Library RecordStore

variable {σ : Type} {B : Osif σ} {S : RecordStore B} {file : FileId} {u : UInt16} {D E : ℕ → Option Sector}
  {f : List UInt8} {o n : ℕ} {s : Io σ}

/-- A read of `n` bytes at the byte `o` of the data `f`, of which the disk has the records
`D`, does not get behind the data. -/
def Within (D : ℕ → Option Sector) (f : List UInt8) (o n : ℕ) : Prop :=
  o + n ≤ f.length ∨ f.length % 128 = 0 ∨
    o % 128 = 0 ∧ D (f.length / 128) = none ∧ 128 * (f.length / 128) + 128 ≤ o + n

/-- Such a read sees no byte behind the data. -/
theorem Within.le {fp : Ccb} (hwithin : Within D f o n) (hD : flushed D fp = diskOf f) (ho : fp.offset = o)
    (hin : o ≤ f.length) : o + (stream (readView D fp n) o n).length ≤ f.length := by
  have hle := length_stream_le (D := readView D fp n) o n
  by_contra hlong
  -- the sector at the end of the data is not there
  have hmissing : readView D fp n (f.length / 128) = none := by
    rcases hwithin with h | h | ⟨halign, hnone, hwhole⟩
    · omega
    · have hend : flushed D fp (f.length / 128) = none := by
        rw [hD]
        exact if_neg (by omega)
      exact readView_eq_none n ho hend fun hpos _ => by omega
    · have hk : (fp.offset / 128).toNat = o / 128 := by omega
      rw [readView, if_pos (by omega), wholeView, hk, if_pos (by omega), hnone]
  have hat := placed_stream (D := readView D fp n) o n (f.length - o) (by omega)
  rw [Nat.add_sub_cancel' hin, item_eq_none.mpr hmissing] at hat
  cases hat

/-- **A read within the data does not raise the high water mark.** -/
theorem wp_rdbin_hiwater (hon : S.On file u D s.fp s.os) (hl : Labelled S.cap s.fp) (hD : flushed D s.fp = diskOf f)
    (ho : s.fp.offset = o) (hh : s.fp.hiwater = f.length) (hin : o ≤ f.length) (hwithin : Within D f o n) :
    wp (rdbin B n) (fun _ s' => s'.fp.hiwater = f.length) (fun _ s' => s'.fp.hiwater = f.length) s := by
  refine wp_mono (wp_rdbin_stream n hon hl ho) (fun _ s' h => ?_) (fun _ s' h => h.2.2.2.trans hh)
  have hend := hwithin.le hD ho hin
  rw [h.2.hiwater, h.2.offset, hh]
  omega

end Cpm68k.Cpmlib
