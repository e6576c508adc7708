import Cpm68k.Cpmlib.FailedWrites
import Cpm68k.Cpmlib.MemStore

/-!
# Failed transfers of a read

`_rdbin` and `_rdasc` report what they have moved when a record cannot be read. They return -1
when the dirty buffer cannot be written; `_rdbin` gets to that after it has moved whole sectors,
and both after they have moved bytes from the dirty buffer itself.

## The model

The file is what the BDOS has as its records, and what the buffer has of the sector that it is
labelled with (`fileBytes`). The bytes of an ASCII file that correspond to what is delivered are
those that make it when the carriage returns are left out.

## What is proved

* `wp_rdbin_codes`, `wp_rdascLoop_codes` — the one transfer of `read` whose failure returns -1
  when bytes have been moved already.
* `failed_transfers` — for each choice of the transfers that fail, when the offset of a read or
  a write agrees with what it reports.
-/

namespace Cpm68k.Cpmlib

open Cpm68k.Library

variable {σ : Type} {B : Osif σ} {codes : ℕ → UInt16} {g : ℤ → Sector} {s : Io (σ × ℕ)}

/-! ### `_rdbin` -/

/-- The write of the dirty buffer, after `k` transfers, fails. -/
def FlushFailsAt (codes : ℕ → UInt16) (fp : Ccb) (k : ℕ) : Prop := fp.flags.DIRTY = true ∧ codes k ≠ 0

theorem not_answered_flush {fp : Ccb} {k : ℕ} : ¬ Answered codes k (flushCount fp) ↔ FlushFailsAt codes fp k := by
  unfold flushCount FlushFailsAt
  split_ifs with hd
  · rw [answered_one]
    exact ⟨fun h => ⟨hd, h⟩, fun h => h.2⟩
  · exact iff_of_false (not_not.mpr (answered_zero _)) fun h => hd h.1

theorem wp_rdbinTail_codes {xbytes bytes : ℕ} (hle : bytes ≤ xbytes) (xsector : ℤ) (s : Io (σ × ℕ)) :
    wp (rdbinTail (withCodes B codes g) xbytes bytes xsector)
      (fun r s' => ¬ FlushFailsAt codes s.fp s.os.2 ∧
        ∃ c ≤ bytes, r = toLong (xbytes - bytes + c) ∧ s'.fp.offset = s.fp.offset + c)
      (fun _ s' => FlushFailsAt codes s.fp s.os.2 ∧ s'.fp.offset = s.fp.offset) s := by
  rw [rdbinTail, wp_bind]
  refine wp_mono (spends_flush s) (fun _ s₁ h₁ => ?_) (fun _ s' h => ⟨not_answered_flush.mp h.1, h.2.1⟩)
  obtain ⟨hok, -, hext, -⟩ := h₁
  have hflushed : ¬ FlushFailsAt codes s.fp s.os.2 := fun h => not_answered_flush.mpr h hok
  rw [wp_bind]
  refine wp_mono (wp_readBuffer_codes xsector s₁) (fun found s₂ h₂ => ?_) (fun _ _ h => h.elim)
  have hoff : s₂.fp.offset = s.fp.offset := h₂.2.1.1.trans hext.1
  rw [wp_ite]
  split_ifs
  · refine ⟨hflushed, 0, Nat.zero_le _, rfl, ?_⟩
    exact hoff.trans (add_zero _).symm
  · simp only [wp_bind, wp_setFp, wp_get, wp_store, wp_raiseHiwater, wp_pure]
    exact ⟨hflushed, bytes, le_rfl, by rw [Nat.sub_add_cancel hle], by rw [hoff]⟩

/-- The transfer of whole sectors succeeds, and the write of the dirty buffer for the last sector
does not. -/
def TailFails (codes : ℕ → UInt16) (fp : Ccb) (k bytes : ℕ) : Prop :=
  bytes % 128 ≠ 0 ∧ Answered codes k (bytes / 128) ∧ FlushFailsAt codes fp (k + bytes / 128)

theorem wp_rdbinSectors_codes {xbytes bytes : ℕ} (hle : bytes ≤ xbytes) (xsector : ℤ) (s : Io (σ × ℕ)) :
    wp (rdbinSectors (withCodes B codes g) xbytes bytes xsector)
      (fun r s' => ¬ TailFails codes s.fp s.os.2 bytes ∧
        ∃ c ≤ bytes, r = toLong (xbytes - bytes + c) ∧ s'.fp.offset = s.fp.offset + c)
      (fun _ s' => TailFails codes s.fp s.os.2 bytes ∧ s'.fp.offset = s.fp.offset + (bytes / 128 * 128 : ℕ)) s := by
  have hread : wp (if bytes / 128 > 0 then blkioRead (withCodes B codes g) xsector (bytes / 128) else pure [])
      (fun records s' => records.length ≤ bytes / 128 ∧
        (records.length = bytes / 128 ↔ Answered codes s.os.2 (bytes / 128)) ∧
        ∃ k, After k s s' ∧ (records.length = bytes / 128 → k = bytes / 128)) (fun _ _ => False) s := by
    rw [wp_ite]
    split_ifs with hn
    · exact wp_mono (wp_blkioRead_codes xsector _ s) (fun _ _ h => ⟨h.1, h.2.1, h.2.2.1⟩) (fun _ _ h => h)
    · have hzero : bytes / 128 = 0 := by omega
      rw [hzero]
      exact ⟨le_rfl, iff_of_true rfl (answered_zero _), 0, After.refl s, fun _ => rfl⟩
  rw [rdbinSectors, wp_bind]
  refine wp_mono hread (fun records s₁ h₁ => ?_) (fun _ _ h => h.elim)
  obtain ⟨hcount, hall, k, ⟨fcb, os, rfl⟩, hk⟩ := h₁
  rw [wp_bind, wp_setFp, wp_bind, wp_store, wp_bind, wp_raiseHiwater, wp_ite, wp_ite]
  have hmoved : s.fp.offset + (records.length : ℤ) * 128 = s.fp.offset + (records.length * 128 : ℕ) := by push_cast; rfl
  split_ifs with hne hnone
  · refine ⟨fun h => hne (hall.mpr h.2.1), records.length * 128, by omega, ?_, hmoved⟩
    rw [show xbytes - (bytes - records.length * 128) = xbytes - bytes + records.length * 128 by omega]
  · refine ⟨fun h => h.1 (by omega), bytes, le_rfl, by rw [Nat.sub_add_cancel hle], ?_⟩
    exact hmoved.trans (by rw [show records.length * 128 = bytes by omega])
  · have heq : records.length = bytes / 128 := not_not.mp hne
    have hfail : TailFails codes s.fp s.os.2 bytes ↔ FlushFailsAt codes s.fp (s.os.2 + k) := by
      rw [hk heq]
      exact ⟨fun h => h.2.2, fun h => ⟨by omega, hall.mp heq, h⟩⟩
    rw [hfail]
    refine wp_mono (wp_rdbinTail_codes (by omega) _ _) (fun r s' h => ?_) (fun _ s' h => ?_)
    · obtain ⟨hno, c, hc, hr, hoff⟩ := h
      refine ⟨hno, records.length * 128 + c, by omega, ?_, ?_⟩
      · rw [hr, show xbytes - (bytes - records.length * 128) + c = xbytes - bytes + (records.length * 128 + c) by omega]
      · rw [hoff]
        push_cast
        omega
    · refine ⟨h.1, h.2.trans ?_⟩
      rw [← heq]
      exact hmoved

/-- How many bytes `_rdbin` takes from the buffer. -/
def rdbinCount (pos bytes : ℕ) : ℕ := if pos = 0 then 0 else min bytes (128 - pos)

/-- Not on a boundary: the buffer is flushed if it is that of another sector, and only then. -/
theorem wp_rdbinBuffer_codes (bytes : ℕ) (s : Io (σ × ℕ)) (hpos : bufPos s.fp ≠ 0) :
    wp (rdbinBuffer (withCodes B codes g) bytes)
      (fun left s' => left = bytes - rdbinCount (bufPos s.fp) bytes ∧
        s'.fp.offset = s.fp.offset + rdbinCount (bufPos s.fp) bytes ∧
        if s.fp.sector = s.fp.offset / 128 then s'.fp.flags.DIRTY = s.fp.flags.DIRTY ∧ s'.os.2 = s.os.2
        else s'.fp.flags.DIRTY = false)
      (fun _ s' => s.fp.sector ≠ s.fp.offset / 128 ∧ s'.fp.offset = s.fp.offset) s := by
  have hload : wp (whenever (s.fp.sector ≠ s.fp.offset / 128) do
        flush (withCodes B codes g)
        let found ← readBuffer (withCodes B codes g) (s.fp.offset / 128)
        whenever (found = false) (throw Errno.EIO)
        setFp fun fp => { fp with sector := s.fp.offset / 128 })
      (fun _ s' => s'.fp.offset = s.fp.offset ∧
        if s.fp.sector = s.fp.offset / 128 then s'.fp.flags.DIRTY = s.fp.flags.DIRTY ∧ s'.os.2 = s.os.2
        else s'.fp.flags.DIRTY = false)
      (fun _ s' => s.fp.sector ≠ s.fp.offset / 128 ∧ s'.fp.offset = s.fp.offset) s := by
    rw [wp_whenever]
    by_cases heq : s.fp.sector = s.fp.offset / 128
    · rw [if_neg (not_not.mpr heq), if_pos heq]
      exact ⟨rfl, rfl, rfl⟩
    · rw [if_pos heq]
      simp only [if_neg heq]
      rw [wp_bind]
      refine wp_mono (spends_flush s) (fun _ s₁ h₁ => ?_) (fun _ s' h => ⟨heq, h.2.1⟩)
      obtain ⟨-, -, hext, -, hclean, -⟩ := h₁
      rw [wp_bind]
      refine wp_mono (wp_readBuffer_codes _ s₁) (fun found s₂ h₂ => ?_) (fun _ _ h => h.elim)
      obtain ⟨-, hext₂, -, hflags, -⟩ := h₂
      have hoff := hext₂.1.trans hext.1
      rw [wp_bind, wp_whenever]
      split_ifs
      · exact ⟨heq, hoff⟩
      · exact ⟨hoff, (congrArg Flags.DIRTY hflags).trans hclean⟩
  have hfirst : rdbinCount (bufPos s.fp) bytes = min bytes (128 - bufPos s.fp) := if_neg hpos
  rw [rdbinBuffer, wp_bind, wp_get, wp_bind, hfirst]
  refine wp_mono hload (fun _ s₁ h₁ => ?_) (fun _ _ h => h)
  have hlen : ((s₁.fp.buffer.bytes.drop (bufPos s₁.fp)).take bytes).length = min bytes (128 - bufPos s.fp) := by
    unfold bufPos
    rw [List.length_take, List.length_drop, Sector.bytes, List.length_ofFn, h₁.1]
  simp only [wp_bind, wp_get, wp_store, wp_setFp, wp_pure, hlen]
  exact ⟨trivial, by rw [h₁.1], h₁.2⟩

/-- The buffer is dirty for the sector of the offset, or the offset is on a boundary. Bytes are
moved, the whole sectors among them without a failure, and then the write of the dirty buffer for
the last sector fails. -/
def RdbinFails (codes : ℕ → UInt16) (fp : Ccb) (bytes : ℕ) : Prop :=
  (bufPos fp = 0 ∨ fp.sector = fp.offset / 128) ∧ (bytes - rdbinCount (bufPos fp) bytes) % 128 < bytes ∧
    TailFails codes fp 0 (bytes - rdbinCount (bufPos fp) bytes)

/-- `_rdbin` returns -1 after it has moved bytes if and only if that transfer fails. -/
theorem wp_rdbin_codes (bytes : ℕ) (s : Io (σ × ℕ)) (hos : s.os.2 = 0) :
    wp (rdbin (withCodes B codes g) bytes)
      (fun r s' => ¬ RdbinFails codes s.fp bytes ∧ ∃ c ≤ bytes, r = toLong c ∧ s'.fp.offset = s.fp.offset + c)
      (fun _ s' => s'.fp.offset = s.fp.offset ↔ ¬ RdbinFails codes s.fp bytes) s := by
  have hbufPos : bufPos s.fp = 0 ↔ s.fp.offset % 128 = 0 := by
    unfold bufPos
    omega
  rw [rdbin, wp_bind, wp_get, wp_ite]
  split_ifs with halign
  · have hpos : bufPos s.fp ≠ 0 := fun h => halign (hbufPos.mp h)
    have hlt := bufPos_lt s.fp
    have hfirst : rdbinCount (bufPos s.fp) bytes = min bytes (128 - bufPos s.fp) := if_neg hpos
    rw [wp_bind]
    refine wp_mono (wp_rdbinBuffer_codes bytes s hpos) (fun left s₁ h₁ => ?_) (fun _ s' h => ?_)
    · obtain ⟨rfl, hoff, hload⟩ := h₁
      rw [wp_ite]
      split_ifs with hdone
      · rw [wp_bind, wp_raiseHiwater]
        refine ⟨fun h => h.2.2.1 (by rw [hdone]), bytes, le_rfl, rfl, hoff.trans ?_⟩
        rw [show rdbinCount (bufPos s.fp) bytes = bytes by omega]
      · have hrest : bytes - (bytes - rdbinCount (bufPos s.fp) bytes) = rdbinCount (bufPos s.fp) bytes := by omega
        have hfails : TailFails codes s₁.fp s₁.os.2 (bytes - rdbinCount (bufPos s.fp) bytes) ↔ RdbinFails codes s.fp bytes := by
          have hmoved : (bytes - rdbinCount (bufPos s.fp) bytes) % 128 < bytes := by omega
          by_cases hsec : s.fp.sector = s.fp.offset / 128
          · rw [if_pos hsec] at hload
            unfold RdbinFails TailFails FlushFailsAt
            rw [hload.1, hload.2, hos]
            exact ⟨fun h => ⟨.inr hsec, hmoved, h⟩, fun h => h.2.2⟩
          · rw [if_neg hsec] at hload
            refine iff_of_false (fun h => ?_) (fun h => hsec (h.1.resolve_left hpos))
            exact absurd (hload.symm.trans h.2.2.1) (by decide)
        rw [← hfails]
        refine wp_mono (wp_rdbinSectors_codes (Nat.sub_le _ _) _ s₁) (fun r s' h => ?_) (fun _ s' h => ?_)
        · obtain ⟨hno, c, hc, hr, hoff'⟩ := h
          refine ⟨hno, rdbinCount (bufPos s.fp) bytes + c, by omega, ?_, ?_⟩
          · rw [hr, hrest]
          · rw [hoff', hoff]
            push_cast
            omega
        · refine iff_of_false (fun heq => ?_) (not_not.mpr h.1)
          have hoff' := h.2
          omega
    · exact iff_of_true h.2 fun hfails => h.1 (hfails.1.resolve_left hpos)
  · have hpos : bufPos s.fp = 0 := hbufPos.mpr (not_not.mp halign)
    have hfirst : rdbinCount (bufPos s.fp) bytes = 0 := if_pos hpos
    have hfails : RdbinFails codes s.fp bytes ↔ bytes % 128 < bytes ∧ TailFails codes s.fp s.os.2 bytes := by
      unfold RdbinFails
      rw [hfirst, hos, Nat.sub_zero]
      exact ⟨fun h => h.2, fun h => ⟨.inl hpos, h⟩⟩
    rw [hfails]
    refine wp_mono (wp_rdbinSectors_codes le_rfl _ s) (fun r s' h => ?_) (fun _ s' h => ?_)
    · obtain ⟨hno, c, hc, hr, hoff⟩ := h
      refine ⟨fun h => hno h.2, c, hc, ?_, hoff⟩
      rw [hr, Nat.sub_self, Nat.zero_add]
    · obtain ⟨hfail, hoff⟩ := h
      constructor
      · rintro heq ⟨hmoved, -⟩
        omega
      · intro hno
        have hnone : ¬ bytes % 128 < bytes := fun hmoved => hno ⟨hmoved, hfail⟩
        rw [hoff, show bytes / 128 = 0 by omega]
        exact add_zero _

/-! ### `_rdasc` -/

/-- The bytes of the file with the records `g`, from the offset `o` on. -/
def fileBytes (g : ℤ → Sector) (o : ℤ) (n : ℕ) : List UInt8 :=
  (List.range n).map fun i : ℕ => g ((o + i) / 128) (Fin.ofNat 128 ((o + i) % 128).toNat)

theorem fileBytes_add (o : ℤ) (m n : ℕ) : fileBytes g o (m + n) = fileBytes g o m ++ fileBytes g (o + m) n := by
  unfold fileBytes
  rw [List.range_add, List.map_append, List.map_map]
  congr 1
  refine List.map_congr_left fun i _ => ?_
  simp only [Function.comp_apply, Int.natCast_add, add_assoc]

theorem length_fileBytes (o : ℤ) (n : ℕ) : (fileBytes g o n).length = n := by
  rw [fileBytes, List.length_map, List.length_range]

theorem take_fileBytes (o : ℤ) {m n : ℕ} (h : m ≤ n) : (fileBytes g o n).take m = fileBytes g o m := by
  obtain ⟨k, rfl⟩ := Nat.exists_eq_add_of_le h
  rw [fileBytes_add, List.take_left' (length_fileBytes o m)]

/-- What is left of the sector of the offset. -/
theorem drop_sector (fp : Ccb) : (g (fp.offset / 128)).bytes.drop (bufPos fp) = fileBytes g fp.offset (128 - bufPos fp) := by
  have hlt := bufPos_lt fp
  have hpos : (bufPos fp : ℤ) = fp.offset % 128 := Int.toNat_of_nonneg (Int.emod_nonneg _ (by decide))
  refine List.ext_getElem ?_ fun i h _ => ?_
  · rw [List.length_drop, Sector.bytes, List.length_ofFn, length_fileBytes]
  rw [List.length_drop, Sector.bytes, List.length_ofFn] at h
  simp only [Sector.bytes, fileBytes, List.getElem_drop, List.getElem_ofFn, List.getElem_map, List.getElem_range]
  rw [show (fp.offset + (i : ℤ)) / 128 = fp.offset / 128 by omega]
  congr 1
  apply Fin.ext
  simp only [Fin.ofNat]
  omega

/-- The bytes that the offset has moved over since `o` are those of which the text is stored. -/
def Scanned (g : ℤ → Sector) (o : ℤ) (s : Io (σ × ℕ)) : Prop :=
  ∃ c : ℕ, s.fp.offset = o + c ∧ text (fileBytes g o c) = s.buff ∧ ∀ b ∈ fileBytes g o c, b ≠ EOFCHAR

/-- What is moved from the sector of the offset. -/
def firstMove (fp : Ccb) (bytes : ℕ) : List UInt8 × ℕ × Bool := rdascMove (fp.buffer.bytes.drop (bufPos fp)) bytes

theorem firstMove_text {fp : Ccb} (hbuf : fp.buffer = g (fp.offset / 128)) (bytes : ℕ) :
    text (fileBytes g fp.offset (firstMove fp bytes).2.1) = (firstMove fp bytes).1 ∧
      ∀ b ∈ fileBytes g fp.offset (firstMove fp bytes).2.1, b ≠ EOFCHAR := by
  unfold firstMove
  rw [hbuf, drop_sector]
  have hle := rdascMove_consumed_le (fileBytes g fp.offset (128 - bufPos fp)) bytes
  rw [length_fileBytes] at hle
  have hscan := rdascMove_scanned (fileBytes g fp.offset (128 - bufPos fp)) bytes
  rwa [take_fileBytes _ hle] at hscan

/-- The buffer is that of another sector, dirty, and cannot be written. -/
def FailsNow (codes : ℕ → UInt16) (s : Io (σ × ℕ)) (bytes : ℕ) : Prop :=
  0 < bytes ∧ s.fp.sector ≠ s.fp.offset / 128 ∧ FlushFailsAt codes s.fp s.os.2

/-- The buffer is that of the sector, dirty, and cannot be written when the next sector is needed. -/
def FailsNext (codes : ℕ → UInt16) (s : Io (σ × ℕ)) (bytes : ℕ) : Prop :=
  0 < bytes ∧ s.fp.sector = s.fp.offset / 128 ∧ ¬ Done (firstMove s.fp bytes) bytes ∧ FlushFailsAt codes s.fp s.os.2

/-- The sector of the offset is got. -/
theorem wp_rdascSector_codes (s : Io (σ × ℕ)) :
    wp (rdascSector (withCodes B codes g))
      (fun found s' => s'.fp.offset = s.fp.offset ∧ s'.buff = s.buff ∧
        (s.fp.sector = s.fp.offset / 128 ∧ found = true ∧ s' = s ∨
          s.fp.sector ≠ s.fp.offset / 128 ∧ ¬ FlushFailsAt codes s.fp s.os.2 ∧ s'.fp.flags.DIRTY = false ∧
            (found = true → s'.fp.sector = s.fp.offset / 128 ∧ s'.fp.buffer = g (s.fp.offset / 128))))
      (fun _ s' => s.fp.sector ≠ s.fp.offset / 128 ∧ FlushFailsAt codes s.fp s.os.2 ∧ s'.fp.offset = s.fp.offset) s := by
  rw [rdascSector, wp_bind, wp_get, wp_ite]
  split_ifs with hne
  · rw [wp_bind]
    refine wp_mono (spends_flush s) (fun _ s₁ h₁ => ?_) (fun _ s' h => ⟨hne.symm, not_answered_flush.mp h.1, h.2.1⟩)
    obtain ⟨hok, -, hext, -, hclean, hbuff⟩ := h₁
    have hflushed : ¬ FlushFailsAt codes s.fp s.os.2 := fun h => not_answered_flush.mpr h hok
    rw [wp_bind]
    refine wp_mono (wp_readBuffer_codes _ s₁) (fun found s₂ h₂ => ?_) (fun _ _ h => h.elim)
    obtain ⟨-, hext₂, -, hflags, hbuff₂, hfound⟩ := h₂
    have hoff := hext₂.1.trans hext.1
    have hclean₂ : s₂.fp.flags.DIRTY = false := (congrArg Flags.DIRTY hflags).trans hclean
    rw [wp_ite]
    split_ifs with hno
    · exact ⟨hoff, hbuff₂.trans hbuff, .inr ⟨hne.symm, hflushed, hclean₂, fun h => absurd h (by simp)⟩⟩
    · exact ⟨hoff, hbuff₂.trans hbuff, .inr ⟨hne.symm, hflushed, hclean₂, fun _ =>
        ⟨rfl, (hfound (by simpa using hno)).1⟩⟩⟩
  · exact ⟨rfl, rfl, .inl ⟨(not_not.mp hne).symm, rfl, rfl⟩⟩

theorem Scanned.congr {o : ℤ} {s' : Io (σ × ℕ)} (h : Scanned g o s) (hoff : s'.fp.offset = s.fp.offset)
    (hbuff : s'.buff = s.buff) : Scanned g o s' := by
  unfold Scanned
  rw [hoff, hbuff]
  exact h

/-- A move from the sector of the offset goes on where the last ended. -/
theorem Scanned.move {o : ℤ} (h : Scanned g o s) (hbuf : s.fp.buffer = g (s.fp.offset / 128)) (bytes : ℕ) {s' : Io (σ × ℕ)}
    (hoff : s'.fp.offset = s.fp.offset + (firstMove s.fp bytes).2.1) (hbuff : s'.buff = s.buff ++ (firstMove s.fp bytes).1) :
    Scanned g o s' := by
  obtain ⟨c, hc, htext, heof⟩ := h
  obtain ⟨htext', heof'⟩ := firstMove_text hbuf bytes
  refine ⟨c + (firstMove s.fp bytes).2.1, ?_, ?_, ?_⟩
  · rw [hoff, hc, Int.natCast_add, add_assoc]
  · rw [fileBytes_add, text_append, htext, ← hc, htext', hbuff]
  · intro b hb
    rw [fileBytes_add, ← hc] at hb
    rcases List.mem_append.mp hb with hb | hb
    · exact heof b hb
    · exact heof' b hb

/-- When the request is not met, the whole sector has been moved. -/
theorem firstMove_next {fp : Ccb} {bytes : ℕ} (h : ¬ Done (firstMove fp bytes) bytes) :
    (fp.offset + (firstMove fp bytes).2.1) / 128 = fp.offset / 128 + 1 := by
  have hlt := bufPos_lt fp
  have hpos : (bufPos fp : ℤ) = fp.offset % 128 := Int.toNat_of_nonneg (Int.emod_nonneg _ (by decide))
  have hall := ((rdascMove_append (fp.buffer.bytes.drop (bufPos fp)) [] bytes).2 h).1
  rw [List.length_drop, Sector.bytes, List.length_ofFn] at hall
  have hmoved : (firstMove fp bytes).2.1 = 128 - bufPos fp := hall
  omega

/-- The loop of `_rdasc` ends with an exception if and only if the dirty buffer cannot be written,
for the sector of the offset or for the next. -/
theorem wp_rdascLoop_codes {o : ℤ} (xbytes fuel bytes : ℕ) (s : Io (σ × ℕ)) (hscan : Scanned g o s)
    (hbuf : s.fp.sector = s.fp.offset / 128 → s.fp.buffer = g (s.fp.offset / 128)) (hsum : s.buff.length + bytes = xbytes) :
    wp (rdascLoop (withCodes B codes g) xbytes fuel bytes)
      (fun r s' => (1 ≤ fuel → ¬ FailsNow codes s bytes) ∧ (2 ≤ fuel → ¬ FailsNext codes s bytes) ∧
        r = toLong s'.buff.length ∧ s'.buff.length ≤ xbytes ∧ Scanned g o s')
      (fun _ s' => FailsNow codes s bytes ∧ s'.fp.offset = s.fp.offset ∨
        FailsNext codes s bytes ∧ s'.fp.offset = s.fp.offset + (firstMove s.fp bytes).2.1) s := by
  induction fuel generalizing bytes s with
  | zero =>
    refine ⟨fun h => absurd h (by decide), fun h => absurd h (by decide), ?_, by omega, hscan⟩
    rw [show s.buff.length = xbytes - bytes by omega]
  | succ fuel ih =>
    have hret : toLong (xbytes - bytes) = toLong s.buff.length := by rw [show s.buff.length = xbytes - bytes by omega]
    rw [rdascLoop, wp_ite]
    split_ifs with hbytes
    · rw [wp_bind]
      refine wp_mono (wp_rdascSector_codes s) (fun found s₁ h₁ => ?_) (fun _ s' h => .inl ⟨⟨hbytes, h.1, h.2.1⟩, h.2.2⟩)
      obtain ⟨hoff₁, hbuff₁, hload⟩ := h₁
      have hnow : ¬ FailsNow codes s bytes := by
        rintro ⟨-, hne, hfail⟩
        rcases hload with ⟨heq, -⟩ | ⟨-, hflushed, -⟩
        · exact hne heq
        · exact hflushed hfail
      rw [wp_ite]
      split_ifs with hfound
      · refine ⟨fun _ => hnow, fun _ hnext => ?_, ?_, ?_, hscan.congr hoff₁ hbuff₁⟩
        · rcases hload with ⟨-, h, -⟩ | ⟨hne, -⟩
          · exact absurd (hfound.symm.trans h) (by decide)
          · exact hne hnext.2.1
        · rw [hbuff₁, hret]
        · rw [hbuff₁, ← hsum]
          exact Nat.le_add_right _ _
      · -- the sector of the offset is in the buffer
        have hbuf₁ : s₁.fp.sector = s₁.fp.offset / 128 ∧ s₁.fp.buffer = g (s₁.fp.offset / 128) := by
          rcases hload with ⟨heq, -, rfl⟩ | ⟨-, -, -, h⟩
          · exact ⟨heq, hbuf heq⟩
          · rw [hoff₁]
            exact h (by simpa using hfound)
        have hle := rdascMove_stored_le (s₁.fp.buffer.bytes.drop (bufPos s₁.fp)) bytes
        have hscan₁ := hscan.congr hoff₁ hbuff₁
        rw [wp_bind, wp_get, wp_bind, wp_store, wp_bind, wp_setFp, wp_ite]
        have hlen : (s₁.buff ++ (rdascMove (s₁.fp.buffer.bytes.drop (bufPos s₁.fp)) bytes).1).length +
            (bytes - (rdascMove (s₁.fp.buffer.bytes.drop (bufPos s₁.fp)) bytes).1.length) = xbytes := by
          rw [List.length_append, hbuff₁]
          omega
        split_ifs with heof
        · simp only [setAteof, wp_bind, wp_setFp, wp_raiseHiwater, wp_pure]
          refine ⟨fun _ => hnow, fun _ hnext => ?_, ?_, Nat.le_of_add_right_le hlen.le, hscan₁.move hbuf₁.2 bytes rfl rfl⟩
          · rcases hload with ⟨-, -, rfl⟩ | ⟨hne, -⟩
            · exact hnext.2.2.1 (.inr heof)
            · exact hne hnext.2.1
          · rw [← hlen, Nat.add_sub_cancel]
        · have hnotDone : 0 < bytes - (rdascMove (s₁.fp.buffer.bytes.drop (bufPos s₁.fp)) bytes).1.length →
              ¬ Done (firstMove s₁.fp bytes) bytes := by
            rintro hmore (heq | h)
            · exact absurd (show (rdascMove (s₁.fp.buffer.bytes.drop (bufPos s₁.fp)) bytes).1.length = bytes from heq) (by omega)
            · exact heof h
          refine wp_mono (ih _ _ (hscan₁.move hbuf₁.2 bytes rfl rfl) ?_ hlen) (fun r s' h => ?_) (fun _ s' h => ?_)
          · intro hsame
            exact hbuf₁.2.trans (congrArg g (hbuf₁.1.symm.trans hsame))
          · obtain ⟨hno, -, hr⟩ := h
            refine ⟨fun _ => hnow, fun hfuel hnext => ?_, hr⟩
            obtain ⟨-, heq, hdone, hfail⟩ := hnext
            rcases hload with ⟨-, -, rfl⟩ | ⟨hne, -⟩
            · have hlt : (rdascMove (s₁.fp.buffer.bytes.drop (bufPos s₁.fp)) bytes).1.length ≠ bytes := fun h => hdone (.inl h)
              refine hno (by omega) ⟨by omega, ?_, hfail⟩
              have hsec := firstMove_next hdone
              show s₁.fp.sector ≠ (s₁.fp.offset + (firstMove s₁.fp bytes).2.1) / 128
              rw [hsec, heq]
              omega
            · exact hne heq
          · -- only a buffer that was dirty before the move can fail
            have hfirst : FlushFailsAt codes s₁.fp s₁.os.2 → s.fp.sector = s.fp.offset / 128 ∧ s₁ = s := by
              intro hfail
              rcases hload with ⟨heq, -, hs₁⟩ | ⟨-, -, hclean, -⟩
              · exact ⟨heq, hs₁⟩
              · exact absurd (hclean.symm.trans hfail.1) (by decide)
            rcases h with ⟨⟨hmore, -, hfail⟩, hoff⟩ | ⟨⟨hmore, hsame, -, hfail⟩, -⟩
            · obtain ⟨heq, rfl⟩ := hfirst hfail
              exact .inr ⟨⟨hbytes, heq, hnotDone hmore, hfail⟩, hoff⟩
            · obtain ⟨heq, rfl⟩ := hfirst hfail
              have hsec := firstMove_next (hnotDone hmore)
              have hsame' : s₁.fp.sector = (s₁.fp.offset + (firstMove s₁.fp bytes).2.1) / 128 := hsame
              omega
    · obtain rfl : bytes = 0 := by omega
      rw [wp_bind, wp_raiseHiwater]
      exact ⟨fun _ h => hbytes h.1, fun _ h => hbytes h.1, hret, hsum.le, hscan⟩

/-! ### The offset, and what is reported -/

/-- The offset is where `read` has to have moved it to, if the first `m` bytes that are stored are
reported. -/
def ReadMatches (g : ℤ → Sector) (fp : Ccb) (m : ℕ) (s' : Io (σ × ℕ)) : Prop :=
  if fp.flags.ISASCII = true then
    ∃ c : ℕ, s'.fp.offset = fp.offset + c ∧ m ≤ s'.buff.length ∧ text (fileBytes g fp.offset c) = s'.buff.take m ∧
      ∀ b ∈ fileBytes g fp.offset c, b ≠ EOFCHAR
  else s'.fp.offset = fp.offset + m

/-- The offset is where `write` has to have moved it to, if the first `m` bytes of the data are
reported. -/
def WriteMatches (fp : Ccb) (data : List UInt8) (m : ℕ) (s' : Io (σ × ℕ)) : Prop :=
  if fp.flags.ISASCII = true then s'.fp.offset = fp.offset + (wrtascOut 0 (data.take m)).length
  else s'.fp.offset = fp.offset + m

/-- A call that returns -1, or a count below the request because a transfer has failed, has moved
the offset by what it reports. -/
def Accounted (codes : ℕ → UInt16) (bytes : ℕ) (Matches : ℕ → Io (σ × ℕ) → Prop) (m : IoM (σ × ℕ) ℤ) (s : Io (σ × ℕ)) : Prop :=
  wp m (fun r s' => Failed codes s s' → toSize r < bytes → Matches (toSize r) s') (fun _ s' => Matches 0 s') s

/-- The buffer is dirty for the sector of the offset. Characters are moved from it, but not all that
are asked for, and then it cannot be written. -/
def RdascFails (codes : ℕ → UInt16) (fp : Ccb) (bytes : ℕ) : Prop :=
  fp.sector = fp.offset / 128 ∧ ¬ Done (firstMove fp bytes) bytes ∧ (firstMove fp bytes).1 ≠ [] ∧ FlushFailsAt codes fp 0

/-- No dirty buffer fails to be written when bytes have been moved. -/
def ReadGood (codes : ℕ → UInt16) (fp : Ccb) (bytes : ℕ) : Prop :=
  fp.flags.ATEOF = true ∨
    if fp.flags.ISASCII = true then ¬ RdascFails codes fp bytes else ¬ RdbinFails codes fp bytes

/-- A transfer fails before the offset moves, or none does. -/
def WriteGood (codes : ℕ → UInt16) (fp : Ccb) (data : List UInt8) : Prop :=
  data = [] ∨ fp.flags.ISREAD = true ∨
    if fp.flags.ISASCII = true then
      ¬ Answered codes 0 (loadCount fp (fp.offset / 128)) ∨ Answered codes 0 (wrtascTransfers fp (wrtascOut 0 data).length)
    else ¬ Answered codes 0 (wrtbinSafe fp data.length) ∨ Answered codes 0 (wrtbinTransfers fp data.length)

theorem not_failed {k : ℕ} {s' : Io (σ × ℕ)} (hos : s'.os.2 = s.os.2 + k) (hall : Answered codes s.os.2 k) :
    ¬ Failed codes s s' := by
  rintro ⟨m, hm, hno⟩
  obtain rfl : m = k := by omega
  exact hno hall

section

variable {fp : Ccb} {os : σ}

theorem wp_rdasc_accounted (hascii : fp.flags.ISASCII = true) (hbuf : fp.sector = fp.offset / 128 → fp.buffer = g fp.sector)
    {bytes : ℕ} (hbytes : bytes < 2 ^ 32) :
    Accounted codes bytes (ReadMatches g fp) (rdasc (withCodes B codes g) bytes) ⟨fp, (os, 0), []⟩ ↔
      ¬ RdascFails codes fp bytes := by
  have hscan : Scanned g fp.offset (⟨fp, (os, 0), []⟩ : Io (σ × ℕ)) :=
    ⟨0, (add_zero _).symm, rfl, fun _ h => absurd h List.not_mem_nil⟩
  have hbuf' : fp.sector = fp.offset / 128 → fp.buffer = g (fp.offset / 128) := fun h => h ▸ hbuf h
  refine wp_iff ?_
  unfold ReadMatches
  simp only [hascii, if_true]
  refine wp_mono (wp_rdascLoop_codes bytes (2 ^ 24 + 1) bytes _ hscan hbuf' (Nat.zero_add _)) (fun r s' h => ?_) (fun _ s' h => ?_)
  · obtain ⟨-, hnext, hr, hle, c, hoff, htext, heof⟩ := h
    refine iff_of_true (fun _ _ => ?_) fun hfails => ?_
    · rw [hr, toSize_toLong (by omega), List.take_length]
      exact ⟨c, hoff, le_rfl, htext, heof⟩
    · have hpos : 0 < bytes := Nat.pos_of_ne_zero fun h => hfails.2.1 (.inl (by subst h; simp [firstMove]))
      exact hnext (by decide) ⟨hpos, hfails.1, hfails.2.1, hfails.2.2.2⟩
  · rcases h with ⟨⟨-, hne, -⟩, hoff⟩ | ⟨⟨-, heq, hdone, hfail⟩, hoff⟩
    · refine iff_of_true ⟨0, ?_, Nat.zero_le _, rfl, fun _ h => absurd h List.not_mem_nil⟩ fun hfails => hne hfails.1
      exact hoff.trans (add_zero _).symm
    · obtain ⟨htext, heof⟩ := firstMove_text (hbuf' heq) bytes
      constructor
      · rintro ⟨c, hc, -, hnil, -⟩ hfails
        have hoff' : s'.fp.offset = fp.offset + ((firstMove fp bytes).2.1 : ℕ) := hoff
        obtain rfl : c = (firstMove fp bytes).2.1 := by omega
        exact hfails.2.2.1 (htext.symm.trans hnil)
      · intro hno
        refine ⟨(firstMove fp bytes).2.1, hoff, Nat.zero_le _, htext.trans ?_, heof⟩
        by_contra hne
        exact hno ⟨heq, hdone, hne, hfail⟩

theorem wp_rdbin_accounted (hascii : fp.flags.ISASCII = false) {bytes : ℕ} (hbytes : bytes < 2 ^ 32) :
    Accounted codes bytes (ReadMatches g fp) (rdbin (withCodes B codes g) bytes) ⟨fp, (os, 0), []⟩ ↔
      ¬ RdbinFails codes fp bytes := by
  refine wp_iff ?_
  unfold ReadMatches
  simp only [hascii, Bool.false_eq_true, if_false]
  refine wp_mono (wp_rdbin_codes bytes _ rfl) (fun r s' h => ?_) (fun _ s' h => ?_)
  · obtain ⟨hno, c, hc, hr, hoff⟩ := h
    refine iff_of_true (fun _ _ => ?_) hno
    rw [hr, toSize_toLong (by omega)]
    exact hoff
  · rw [← h]
    exact iff_of_eq (congrArg _ (add_zero _))

theorem wp_wrtasc_accounted (hascii : fp.flags.ISASCII = true) {data : List UInt8} (hdata : data ≠ [])
    (hlen : data.length < 2 ^ 32) :
    Accounted codes data.length (WriteMatches fp data) (wrtasc (withCodes B codes g) data) ⟨fp, (os, 0), []⟩ ↔
      ¬ Answered codes 0 (loadCount fp (fp.offset / 128)) ∨ Answered codes 0 (wrtascTransfers fp (wrtascOut 0 data).length) := by
  have hfuel : (wrtascOut 0 data).length ≤ 2 * data.length + 1 := (length_wrtascOut_le data 0).trans (Nat.le_succ _)
  refine wp_iff ?_
  unfold WriteMatches
  simp only [hascii, if_true]
  refine wp_mono (wp_wrtascLoop_codes _ _ 0 data _ hdata hfuel) (fun r s' h => ?_) (fun _ s' h => ?_)
  · rcases h with ⟨hall, hos⟩ | ⟨hno, hload, hfail, taken, left, rfl, hne, hr, hahead⟩
    · exact iff_of_true (fun hfail => absurd hfail (not_failed hos hall)) (.inr hall)
    · refine iff_of_false (fun h => ?_) ?_
      · have hleft := List.length_pos_iff.mpr hne
        have hcount : (taken ++ left).length - left.length = taken.length := by simp
        rw [hr, hcount, toSize_toLong (by rw [List.length_append] at hlen; omega), List.take_left] at h
        have hoff := h hfail (by rw [List.length_append]; omega)
        exact absurd hoff hahead.ne'
      · rintro (h | h)
        · exact h hload
        · exact hno h
  · obtain ⟨hno, -, hsafe⟩ := h
    have hzero : fp.offset + ((wrtascOut 0 (data.take 0)).length : ℤ) = fp.offset := add_zero _
    rw [hzero]
    exact hsafe.trans ⟨fun h => .inl h, fun h => h.resolve_right hno⟩

theorem wp_wrtbin_accounted (hascii : fp.flags.ISASCII = false) (data : List UInt8) :
    Accounted codes data.length (WriteMatches fp data) (wrtbin (withCodes B codes g) data) ⟨fp, (os, 0), []⟩ ↔
      ¬ Answered codes 0 (wrtbinSafe fp data.length) ∨ Answered codes 0 (wrtbinTransfers fp data.length) := by
  refine wp_iff ?_
  unfold WriteMatches
  simp only [hascii, Bool.false_eq_true, if_false]
  refine wp_mono (spends_wrtbin data _) (fun r s' h => ?_) (fun _ s' h => ?_)
  · exact iff_of_true (fun hfail => absurd hfail (not_failed h.2.1 h.1)) (.inr h.1)
  · obtain ⟨hno, -, hsafe⟩ := h
    have hzero : fp.offset + ((0 : ℕ) : ℤ) = fp.offset := add_zero _
    rw [hzero]
    exact hsafe.trans ⟨fun h => .inl h, fun h => h.resolve_right hno⟩

end

/-- **Failed transfers.** Whatever transfers of a call fail, the offset agrees with what `read`
reports, unless a dirty buffer cannot be written when bytes have been moved; and with what `write`
reports, if and only if a transfer fails before the offset moves, or none does. -/
theorem failed_transfers (B : Osif σ) (codes : ℕ → UInt16) (g : ℤ → Sector) (fp : Ccb) (os : σ) (hdev : fp.NoDevice) :
    (∀ bytes < 2 ^ 32, (fp.sector = fp.offset / 128 → fp.buffer = g fp.sector) →
      (Accounted codes bytes (ReadMatches g fp) (readFp (withCodes B codes g) bytes) ⟨fp, (os, 0), []⟩ ↔
        ReadGood codes fp bytes)) ∧
    ∀ data : List UInt8, data.length < 2 ^ 32 →
      (Accounted codes data.length (WriteMatches fp data) (writeFp (withCodes B codes g) data) ⟨fp, (os, 0), []⟩ ↔
        WriteGood codes fp data) := by
  obtain ⟨htty, hlpt, hque⟩ := hdev
  refine ⟨fun bytes hbytes hbuf => ?_, fun data hlen => ?_⟩
  · unfold ReadGood Accounted
    rw [readFp, wp_bind, wp_get]
    simp only [htty, hlpt, Bool.false_eq_true, if_false, wp_ite]
    by_cases hateof : fp.flags.ATEOF = true
    · rw [if_pos hateof]
      exact iff_of_true (fun hfail => absurd hfail (not_failed rfl (answered_zero _))) (.inl hateof)
    · rw [if_neg hateof, or_iff_right hateof]
      split_ifs with hascii
      · exact wp_rdasc_accounted hascii hbuf hbytes
      · exact wp_rdbin_accounted (Bool.eq_false_iff.mpr hascii) hbytes
  · unfold WriteGood Accounted
    rw [writeFp, wp_bind, wp_get]
    simp only [htty, hlpt, hque, Bool.false_eq_true, or_self, if_false, wp_ite]
    by_cases hempty : data = []
    · rw [if_pos (List.length_eq_zero_iff.mpr hempty)]
      exact iff_of_true (fun hfail => absurd hfail (not_failed rfl (answered_zero _))) (.inl hempty)
    · rw [if_neg fun h => hempty (List.length_eq_zero_iff.mp h), or_iff_right hempty]
      by_cases hread : fp.flags.ISREAD = true
      · rw [if_pos hread]
        refine iff_of_true ?_ (.inl hread)
        show WriteMatches fp data 0 _
        unfold WriteMatches
        split_ifs
        · exact (add_zero _).symm
        · exact (add_zero _).symm
      · rw [if_neg hread, or_iff_right hread]
        split_ifs with hascii
        · exact wp_wrtasc_accounted hascii hempty hlen
        · exact wp_wrtbin_accounted (Bool.eq_false_iff.mpr hascii) data

/-- A channel with two bytes left in its sector. -/
def nearlyFull : Ccb := ⟨{ Flags.none with OPENED := true }, 1, 0, 126, 0, 126, Fcb.zero, Bytes.fill 0⟩

/-- Nothing of the disk can be transferred: two bytes are read from the buffer, and one is written
to it. -/
theorem failed_transfers_nearlyFull :
    Accounted (fun _ => 2) 2 (ReadMatches (fun _ => Bytes.fill 0) nearlyFull)
        (readFp (withCodes memOsif (fun _ => 2) fun _ => Bytes.fill 0) 2) ⟨nearlyFull, (emptyDisk, 0), []⟩ ∧
      Accounted (fun _ => 2) 1 (WriteMatches nearlyFull [1])
        (writeFp (withCodes memOsif (fun _ => 2) fun _ => Bytes.fill 0) [1]) ⟨nearlyFull, (emptyDisk, 0), []⟩ := by
  have h := failed_transfers memOsif (fun _ => 2) (fun _ => Bytes.fill 0) nearlyFull emptyDisk ⟨rfl, rfl, rfl⟩
  constructor
  · refine (h.1 2 (by decide) fun _ => rfl).mpr (.inr ?_)
    exact fun hfails => absurd hfails.2.2.2.2.1 Bool.false_ne_true
  · exact (h.2 [1] (by decide)).mpr (.inr (.inr (.inr (answered_zero 0))))

/-- **A transfer that is not accounted for**: two bytes fill the sector, which cannot be written.
`write` returns -1, and the offset has grown by 2. -/
theorem failed_write_moves_offset :
    ¬ Accounted (fun _ => 2) 2 (WriteMatches nearlyFull [1, 2]) (writeFp (withCodes memOsif (fun _ => 2) fun _ => Bytes.fill 0) [1, 2])
      ⟨nearlyFull, (emptyDisk, 0), []⟩ := by
  intro h
  exact absurd (show (128 : ℤ) = 126 from h) (by decide)

end Cpm68k.Cpmlib
