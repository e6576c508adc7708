import Cpm68k.Cpmlib.BinaryRead
import Cpm68k.Cpmlib.MemStore

/-!
# Reading a binary file with a clean buffer

When the buffer is not dirty, and is what the disk has in the sector of its label, a read of a
binary file delivers what is on disk: the rest of a sector from the buffer, whole sectors from the
disk, and the start of the last sector from the buffer again.

## What is proved

* `wp_rdbin_clean` — what a read delivers, on any file: the bytes up to the first sector that is
  missing, and what it leaves in the channel.
* `rdbin_clean` — on a file without holes, it delivers all bytes that are asked for, or all up to
  the end of the file.
-/

namespace Cpm68k.Cpmlib

open Cpm68k.Library RecordStore

variable {σ : Type} {B : Osif σ} {S : RecordStore B} {file : FileId} {u : UInt16} {D : ℕ → Option Sector} {s : Io σ}

/-- The buffer is not dirty, and with the label of a sector it is what the disk has there. -/
structure Clean (S : RecordStore B) (file : FileId) (u : UInt16) (D : ℕ → Option Sector) (fp : Ccb) (os : σ) : Prop where
  on : S.On file u D fp os
  clean : fp.flags.DIRTY = false
  buffer : ∀ k : ℕ, fp.sector = k → D k = some fp.buffer

/-- **A read delivers** the bytes up to the first sector that is missing. -/
theorem wp_rdbin_clean {o : ℕ} (n : ℕ) (h : Clean S file u D s.fp s.os) (ho : s.fp.offset = o)
    (hsome : o % 128 ≠ 0 → D (o / 128) ≠ none) :
    wp (rdbin B n) (fun r s' => StreamRead D D s o 0 n r s' ∧ Clean S file u D s'.fp s'.os) (fun _ _ => False) s := by
  have hcoh : Coherent s.fp D := fun _ k hk r hr => Option.some.inj ((h.buffer k hk).symm.trans hr)
  refine wp_mono (wp_rdbin_coherent n h.on h.clean hcoh ho hsome) (fun r s' h' => ?_) (fun _ _ h => h)
  obtain ⟨hread, hon, hclean, hcoh'⟩ := h'
  refine ⟨hread, hon, hclean, fun k hk => ?_⟩
  -- the label is the old one, or that of a sector that was read
  have hhere : D k ≠ none := by
    cases hread.label with
    | inl hsame =>
      rw [h.buffer k (hsame.symm.trans hk)]
      exact Option.some_ne_none _
    | inr hother =>
      obtain ⟨j, hj, hsome⟩ := hother
      obtain rfl : j = k := by omega
      exact hsome
  obtain ⟨r, hr⟩ := Option.ne_none_iff_exists'.mp hhere
  rw [hr, hcoh' hclean k hk r hr]

/-! ### Files without holes -/

/-- The file has `N` records, and no holes. -/
def HoleFree (D : ℕ → Option Sector) (N : ℕ) : Prop := ∀ k, D k ≠ none ↔ k < N

/-- The bytes of a file of `N` records. -/
def fileData (D : ℕ → Option Sector) (N : ℕ) : List UInt8 := (List.range N).flatMap fun k => ((D k).getD (Bytes.fill 0)).bytes

theorem HoleFree.getRun_eq {N : ℕ} (h : HoleFree D N) {k m : ℕ} (hm : k + m ≤ N) :
    getRun D k m = (List.range' k m).map fun k => (D k).getD (Bytes.fill 0) := by
  induction m generalizing k with
  | zero => rfl
  | succ m ih =>
    obtain ⟨r, hr⟩ := Option.ne_none_iff_exists'.mp ((h k).mpr (by omega))
    rw [getRun, hr, List.range'_succ, List.map_cons, hr, Option.getD_some, ← ih (by omega)]

/-- Reading from the beginning to the end gives the bytes of the file. -/
theorem HoleFree.stream_all {N : ℕ} (h : HoleFree D N) : stream D 0 (128 * N) = fileData D N := by
  have hblocks := stream_blocks (D := D) 0 N
  rw [Nat.mul_zero, h.getRun_eq (by omega), ← List.range_eq_range', List.flatMap_map] at hblocks
  exact hblocks

theorem length_fileData (N : ℕ) : (fileData D N).length = 128 * N := by
  simp only [fileData, List.length_flatMap, Sector.bytes, List.length_ofFn, List.map_const', List.sum_replicate_nat,
    List.length_range, Nat.mul_comm]

/-- **What is read of a file without holes.** -/
theorem HoleFree.stream_eq {N : ℕ} (h : HoleFree D N) {o : ℕ} (ho : o ≤ 128 * N) (n : ℕ) :
    stream D o n = ((fileData D N).drop o).take n := by
  have hlen := length_fileData (D := D) N
  have hall : Placed D 0 (fileData D N) := by
    rw [← stream_eq_iff_placed, hlen, h.stream_all]
  have hrest := hall.drop (m := o) (by omega)
  rw [Nat.zero_add] at hrest
  refine hrest.stream_eq (item_eq_none.mpr ?_) n
  by_contra hsome
  have hlt := (h _).mp hsome
  rw [List.length_drop] at hlt
  omega

/-- **A read from a clean channel** of a file of `N` records without holes delivers the bytes of the
file from the offset on, as many as are asked for and there are. -/
theorem rdbin_clean {N o n : ℕ} (h : Clean S file u D s.fp s.os) (hfile : HoleFree D N) (ho : s.fp.offset = o)
    (hin : o < 128 * N) (hn : n < 2 ^ 31) :
    ∃ s', rdbin B n s = .ok ((min n (128 * N - o) : ℕ) : ℤ) s' ∧
      s'.buff = s.buff ++ ((fileData D N).drop o).take n ∧
      s'.fp.offset = s.fp.offset + (min n (128 * N - o) : ℕ) ∧
      s'.fp.flags.ATEOF = (s.fp.flags.ATEOF || decide (128 * N - o < n)) ∧
      s'.fp.hiwater = max s.fp.hiwater s'.fp.offset ∧
      Clean S file u D s'.fp s'.os := by
  have hsome : o % 128 ≠ 0 → D (o / 128) ≠ none := fun _ => (hfile _).mpr (by omega)
  obtain ⟨r, s', hrun, hread, hclean⟩ := exists_of_wp (wp_rdbin_clean n h ho hsome)
  have hcount := hread.count
  have hoff := hread.offset
  have heof := hread.eof
  have hstream := hfile.stream_eq hin.le n
  have hlen : (stream D o n).length = min n (128 * N - o) := by
    rw [hstream, List.length_take, List.length_drop, length_fileData]
  rw [hlen] at hcount hoff heof
  refine ⟨s', ?_, ?_, ?_, ?_, hread.hiwater, hclean⟩
  · rw [hrun, hcount, Nat.zero_add, toLong_of_lt (by omega)]
  · rw [hread.buff, hstream]
  · omega
  · rw [heof]
    congr 1
    exact decide_eq_decide.mpr (by omega)

/-- A file of one record. -/
def sevens : MemFile := MemFile.empty.put 0 (by decide) (Bytes.fill 7)

/-- A channel that stands at byte 100 of it. -/
def sevensAt : Io MemOs where
  fp := ⟨Flags.none, 0, 0, 100, -1, 0, Fcb.zero, Bytes.fill 0⟩
  os := ⟨0, emptyDisk.user_le, Function.update (fun _ => none) (fileId 0 Fcb.zero) (some sevens)⟩
  buff := []

/-- A read over the end of the file. -/
theorem rdbin_clean_end :
    ∃ s', rdbin memOsif 200 sevensAt = .ok ((min 200 (128 * 1 - 100) : ℕ) : ℤ) s' ∧
      s'.buff = sevensAt.buff ++ ((fileData sevens.recs 1).drop 100).take 200 ∧
      s'.fp.offset = sevensAt.fp.offset + (min 200 (128 * 1 - 100) : ℕ) ∧
      s'.fp.flags.ATEOF = (sevensAt.fp.flags.ATEOF || decide (128 * 1 - 100 < 200)) ∧
      s'.fp.hiwater = max sevensAt.fp.hiwater s'.fp.offset ∧
      Clean memStore (fileId 0 Fcb.zero) 0 sevens.recs s'.fp s'.os := by
  refine rdbin_clean ⟨⟨rfl, rfl, ?_⟩, rfl, fun k hk => absurd hk (by simp [sevensAt])⟩ (fun k => ?_) rfl (by decide) (by decide)
  · have hplain : (fileId 0 Fcb.zero).Plain := by decide
    simp [memStore, memFiles_of_plain hplain, sevensAt]
  · simp [sevens, MemFile.put, MemFile.empty, Function.update_apply]

end Cpm68k.Cpmlib
