import Cpm68k.Cpmlib.AsciiText
import Cpm68k.Cpmlib.FailedTransfers

/-!
# Failed transfers of a write

`_wrtbin` and `_wrtasc` move the offset when bytes are in the buffer, and write the buffer
after that. When that transfer fails, the offset is ahead of what is reported.

## The model

`wrtbinTransfers` and `wrtascTransfers` count the transfers of a call all of which succeed;
`wrtbinSafe` and `loadCount` those that come before the offset moves.

## What is proved

* `spends_wrtbin`, `wp_wrtascLoop_codes` — a failed transfer leaves the offset where it was if
  and only if it is one of those before the offset moves.
* `wrtascTransfers_next` — the count of the transfers, sector by sector.
-/

namespace Cpm68k.Cpmlib

open Cpm68k.Library

variable {σ : Type} {B : Osif σ} {codes : ℕ → UInt16} {g : ℤ → Sector} {s : Io (σ × ℕ)}

/-! ### `_wrtbin` -/

/-- The transfer of the sector of the offset into the buffer, below the high water mark. -/
def prepareCount (fp : Ccb) : ℕ := if OFFSECT fp > HIWSECT fp then 0 else 1

/-- The transfers that get the buffer cleaned and current. -/
def loadCount (fp : Ccb) (xsector : ℤ) : ℕ := if xsector ≠ fp.sector then flushCount fp + prepareCount fp else 0

theorem prepareCount_eq {s s' : Io (σ × ℕ)} (h : SameExtent s s') : prepareCount s'.fp = prepareCount s.fp := by
  unfold prepareCount OFFSECT HIWSECT
  rw [h.1, h.2]

theorem spends_prepareBuffer (xsector : ℤ) (s : Io (σ × ℕ)) :
    Spends codes (prepareBuffer (withCodes B codes g) xsector) (prepareCount s.fp) (fun _ s' => SameExtent s s')
      (SameExtent s) s := by
  unfold Spends prepareCount
  rw [prepareBuffer, wp_bind, wp_get, wp_ite]
  split_ifs with hhi
  · exact ⟨answered_zero _, rfl, rfl, rfl⟩
  · exact (spends_needBuffer xsector s).mono (fun _ _ h => h.1) (fun _ _ h => h)

theorem spends_wrtbinClean (xsector : ℕ) (s : Io (σ × ℕ)) :
    Spends codes (wrtbinClean (withCodes B codes g) xsector) (loadCount s.fp xsector) (fun _ s' => SameExtent s s')
      (SameExtent s) s := by
  have hdirty : Spends codes (whenever (s.fp.flags.DIRTY = true) (writeBuffer (withCodes B codes g) s.fp.sector))
      (flushCount s.fp) (fun _ s' => SameExtent s s') (SameExtent s) s := by
    unfold Spends flushCount
    rw [wp_whenever]
    split_ifs
    · exact (spends_writeBuffer s.fp.sector s).mono (fun _ _ h => h.1) (fun _ _ h => h)
    · exact ⟨answered_zero _, rfl, rfl, rfl⟩
  unfold loadCount Spends
  rw [wrtbinClean, wp_bind, wp_get, wp_whenever]
  split_ifs with hsec
  · refine hdirty.bind (fun _ s₁ _ _ h₁ => ?_) (fun _ _ h => h)
    rw [← prepareCount_eq h₁]
    refine (spends_prepareBuffer xsector s₁).bind (k := 0) (fun _ s₂ _ _ h₂ => ?_) (fun _ _ h => ?_)
    · exact Spends.step ⟨rfl, h₂.1.trans h₁.1, h₂.2.trans h₁.2⟩
    · exact ⟨h.1.trans h₁.1, h.2.trans h₁.2⟩
  · exact ⟨answered_zero _, rfl, rfl, rfl⟩

/-- How many bytes the multi-sector transfer of `_wrtbin` adds to the offset. -/
def sectorBytes (bytes : ℕ) : ℕ := bytes / 128 % 2 ^ 16 * 128 % 2 ^ 16

/-- The transfer of the last sector into the buffer, if bytes are left for it. -/
def tailCount (fp : Ccb) (bytes : ℕ) : ℕ := if bytes > 0 then prepareCount fp else 0

/-- The transfers of what does not go through the buffer first, up to where the offset moves. -/
def restSafe (fp : Ccb) (bytes : ℕ) : ℕ :=
  if bytes ≥ 128 then bytes / 128 % 2 ^ 16 + if sectorBytes bytes = 0 then tailCount fp bytes else 0 else tailCount fp bytes

/-- The transfers of what does not go through the buffer first. -/
def restCount (fp : Ccb) (bytes : ℕ) : ℕ :=
  if bytes ≥ 128 then
    bytes / 128 % 2 ^ 16 + tailCount { fp with offset := fp.offset + sectorBytes bytes } (bytes - sectorBytes bytes)
  else tailCount fp bytes

theorem tailCount_eq {s s' : Io (σ × ℕ)} (h : SameExtent s s') (bytes : ℕ) : tailCount s'.fp bytes = tailCount s.fp bytes := by
  unfold tailCount
  rw [prepareCount_eq h]

theorem spends_wrtbinTail (xsector : ℕ) (data : List UInt8) (s : Io (σ × ℕ)) :
    Spends codes (wrtbinTail (withCodes B codes g) xsector data) (tailCount s.fp data.length) (fun _ _ => True)
      (SameExtent s) s := by
  unfold tailCount Spends
  rw [wrtbinTail, wp_whenever]
  split_ifs
  · refine (spends_prepareBuffer xsector s).bind (k := 0) (fun _ s₁ _ _ h₁ => ?_) (fun _ _ h => h)
    exact Spends.step ⟨rfl, trivial⟩
  · exact ⟨answered_zero _, rfl, trivial⟩

theorem spends_wrtbinSectors (xsector nsector : ℕ) (data : List UInt8) (s : Io (σ × ℕ)) :
    Spends codes (wrtbinSectors (withCodes B codes g) xsector nsector data) nsector
      (fun _ s' => s'.fp.offset = s.fp.offset + (nsector * 128 % 2 ^ 16 : ℕ) ∧ s'.fp.hiwater = s.fp.hiwater)
      (SameExtent s) s := by
  have hlen : (sectorsOf data nsector).length = nsector := by simp [sectorsOf]
  unfold Spends
  rw [wrtbinSectors, wp_bind]
  refine wp_mono (wp_blkioWrite_codes xsector (sectorsOf data nsector) s) (fun seccnt s' h => ?_) (fun _ _ h => h.elim)
  rw [hlen] at h
  rw [wp_bind, wp_whenever]
  rcases h with ⟨rfl, hall, fcb, os, rfl⟩ | ⟨hcount, hno, k, -, fcb, os, rfl⟩
  · rw [if_neg (not_not.mpr rfl)]
    exact ⟨hall, rfl, rfl, rfl⟩
  · rw [if_pos hcount]
    exact ⟨hno, rfl, rfl⟩

/-- An exception leaves the offset where it was if and only if it comes from one of the first
`safe` transfers. -/
def SafeUpTo (codes : ℕ → UInt16) (safe : ℕ) (s s' : Io (σ × ℕ)) : Prop :=
  s.fp.offset ≤ s'.fp.offset ∧ (s'.fp.offset = s.fp.offset ↔ ¬ Answered codes s.os.2 safe)

theorem SafeUpTo.of_same {safe : ℕ} {s' : Io (σ × ℕ)} (h : SameExtent s s') (hno : ¬ Answered codes s.os.2 safe) :
    SafeUpTo codes safe s s' := ⟨h.1.ge, iff_of_true h.1 hno⟩

theorem SafeUpTo.of_moved {safe : ℕ} {s' : Io (σ × ℕ)} (h : s.fp.offset < s'.fp.offset) (hok : Answered codes s.os.2 safe) :
    SafeUpTo codes safe s s' := ⟨h.le, iff_of_false h.ne' (not_not.mpr hok)⟩

theorem spends_wrtbinRest (xsector : ℕ) (data : List UInt8) (s : Io (σ × ℕ)) :
    Spends codes (wrtbinRest (withCodes B codes g) xsector data) (restCount s.fp data.length) (fun _ _ => True)
      (SafeUpTo codes (restSafe s.fp data.length) s) s := by
  unfold restCount restSafe Spends
  rw [wrtbinRest, wp_ite]
  by_cases hlen : data.length ≥ 128
  · simp only [if_pos hlen]
    refine (spends_wrtbinSectors xsector _ data s).bind (fun xs s₁ hok hos h₁ => ?_) (fun s' hno h => ?_)
    · have htail : tailCount { s.fp with offset := s.fp.offset + sectorBytes data.length }
          (data.length - sectorBytes data.length) =
            tailCount s₁.fp (wrtbinLeft data).length := by
        unfold tailCount prepareCount OFFSECT HIWSECT
        rw [h₁.1, h₁.2, wrtbinLeft, List.length_drop]
        rfl
      have hoff : s₁.fp.offset = s.fp.offset + sectorBytes data.length := h₁.1
      rw [htail]
      refine (spends_wrtbinTail xs _ s₁).mono (fun _ _ h => h) (fun s' hno h => ?_)
      by_cases hzero : sectorBytes data.length = 0
      · -- the multi-sector transfer has not moved the offset, and the last transfer is safe
        have hsame : SameExtent s s₁ := by
          refine ⟨?_, h₁.2⟩
          rw [hoff, hzero]
          exact add_zero _
        refine .of_same ⟨h.1.trans hsame.1, h.2.trans hsame.2⟩ fun hall => hno ?_
        rw [if_pos hzero] at hall
        rw [hos, wrtbinLeft, ← sectorBytes, hzero, List.drop_zero, tailCount_eq hsame]
        exact (answered_add.mp hall).2
      · refine .of_moved ?_ ?_
        · rw [h.1, hoff]
          omega
        · rw [if_neg hzero]
          exact hok
    · exact .of_same h fun hall => hno (answered_add.mp hall).1
  · simp only [if_neg hlen]
    exact (spends_wrtbinTail xsector data s).mono (fun _ _ h => h) (fun _ hno h => .of_same h hno)

theorem spends_wrtbinBuffer (xsector : ℕ) (data : List UInt8) (s : Io (σ × ℕ)) :
    Spends codes (wrtbinBuffer (withCodes B codes g) xsector data)
      (if data.length > 0 ∧ bufPos s.fp + data.length = 128 then 1 else 0)
      (fun _ s' => s'.fp.offset = s.fp.offset + data.length ∧ s'.fp.hiwater = s.fp.hiwater)
      (fun s' => s'.fp.offset = s.fp.offset + data.length) s := by
  unfold Spends
  rw [wrtbinBuffer, wp_bind, wp_get, wp_ite]
  by_cases hlen : data.length > 0
  · rw [if_pos hlen, wp_bind, wp_setFp, wp_ite]
    by_cases hfull : bufPos s.fp + data.length = 128
    · rw [if_neg (not_not.mpr hfull), if_pos ⟨hlen, hfull⟩, wp_bind]
      refine wp_mono (@spends_writeBuffer _ B codes g xsector _) (fun _ s' h => ?_) (fun _ s' h => ?_)
      · exact ⟨h.1, h.2.1, h.2.2.1.1, h.2.2.1.2⟩
      · exact ⟨h.1, h.2.1⟩
    · rw [if_pos hfull, if_neg fun h => hfull h.2]
      exact ⟨answered_zero _, rfl, rfl, rfl⟩
  · obtain rfl : data = [] := List.length_eq_zero_iff.mp (by omega)
    rw [if_neg hlen, if_neg fun h => hlen h.1]
    exact ⟨answered_zero _, rfl, by simp, rfl⟩

/-- How many transfers `_wrtbin` makes before the offset moves. -/
def wrtbinSafe (fp : Ccb) (bytes : ℕ) : ℕ :=
  loadCount fp (fp.offset / 128 % 2 ^ 16) + if wrtbinCount (bufPos fp) bytes = 0 then restSafe fp bytes else 0

/-- How many transfers `_wrtbin` makes, when they succeed. -/
def wrtbinTransfers (fp : Ccb) (bytes : ℕ) : ℕ :=
  let nbs := wrtbinCount (bufPos fp) bytes
  loadCount fp (fp.offset / 128 % 2 ^ 16) +
    ((if nbs > 0 ∧ bufPos fp + nbs = 128 then 1 else 0) + restCount { fp with offset := fp.offset + nbs } (bytes - nbs))

theorem restCount_congr {fp fp' : Ccb} (ho : fp'.offset = fp.offset) (hh : fp'.hiwater = fp.hiwater) (bytes : ℕ) :
    restCount fp' bytes = restCount fp bytes := by
  unfold restCount tailCount prepareCount OFFSECT HIWSECT
  rw [ho, hh]

theorem restSafe_congr {fp fp' : Ccb} (ho : fp'.offset = fp.offset) (hh : fp'.hiwater = fp.hiwater) (bytes : ℕ) :
    restSafe fp' bytes = restSafe fp bytes := by
  unfold restSafe tailCount prepareCount OFFSECT HIWSECT
  rw [ho, hh]

/-- A failure of `_wrtbin` leaves the offset where it was if and only if it comes before the
offset moves. -/
theorem spends_wrtbin (data : List UInt8) (s : Io (σ × ℕ)) :
    Spends codes (wrtbin (withCodes B codes g) data) (wrtbinTransfers s.fp data.length) (fun _ _ => True)
      (SafeUpTo codes (wrtbinSafe s.fp data.length) s) s := by
  have hxs : (((s.fp.offset / 128 % 2 ^ 16).toNat : ℕ) : ℤ) = s.fp.offset / 128 % 2 ^ 16 :=
    Int.toNat_of_nonneg (Int.emod_nonneg _ (by decide))
  obtain ⟨nbs, hnbs⟩ : ∃ nbs, wrtbinCount (bufPos s.fp) data.length = nbs := ⟨_, rfl⟩
  have hlen : (data.take nbs).length = nbs := by
    rw [List.length_take, min_eq_left (hnbs ▸ wrtbinCount_le _ _)]
  unfold wrtbinTransfers wrtbinSafe Spends
  rw [wrtbin, wp_bind, wp_get, ← hxs]
  simp only [hnbs]
  refine (spends_wrtbinClean _ s).bind (fun _ s₁ hok hos h₁ => ?_) (fun s' hno h => ?_)
  · have hpos₁ : bufPos s.fp = bufPos s₁.fp := by
      unfold bufPos
      rw [h₁.1]
    have hbuffer := @spends_wrtbinBuffer _ B codes g (s.fp.offset / 128 % 2 ^ 16).toNat (data.take nbs) s₁
    rw [hlen, h₁.1, h₁.2] at hbuffer
    rw [hpos₁]
    -- once bytes are in the buffer, the offset has moved
    have hmoved : ∀ s' : Io (σ × ℕ), 0 < nbs → s.fp.offset + nbs ≤ s'.fp.offset →
        SafeUpTo codes (loadCount s.fp (s.fp.offset / 128 % 2 ^ 16).toNat + if nbs = 0 then restSafe s.fp data.length else 0) s s' :=
      fun s' hpos hle => .of_moved (by omega) (by rwa [if_neg hpos.ne', Nat.add_zero])
    refine hbuffer.bind (fun xs s₂ hok₂ hos₂ h₂ => ?_) (fun s' hno h => ?_)
    · have hrest := @spends_wrtbinRest _ B codes g xs (data.drop nbs) s₂
      rw [List.length_drop, @restCount_congr { s.fp with offset := s.fp.offset + nbs } _ h₂.1 h₂.2] at hrest
      refine hrest.bind (k := 0) (fun _ s₃ _ _ _ => ?_) (fun s' hno h => ?_)
      · rw [Spends, wp_bind, wp_raiseHiwater]
        exact ⟨answered_zero _, rfl, trivial⟩
      · rcases Nat.eq_zero_or_pos nbs with rfl | hpos
        · have hoff : s₂.fp.offset = s.fp.offset := h₂.1.trans (add_zero _)
          rw [restSafe_congr hoff h₂.2, Nat.sub_zero, SafeUpTo, hoff, hos₂, hos] at h
          refine ⟨h.1, h.2.trans (not_congr ?_)⟩
          rw [if_pos rfl, answered_add]
          exact ⟨fun hall => ⟨hok, hall⟩, fun hall => hall.2⟩
        · exact hmoved s' hpos (h₂.1 ▸ h.1)
    · refine hmoved s' ?_ h.ge
      by_contra hzero
      exact hno (by rw [if_neg fun h => hzero h.1]; exact answered_zero _)
  · exact .of_same h fun hall => hno (answered_add.mp hall).1

/-! ### `_wrtasc` -/

theorem spends_wrtascSector (xsector : ℤ) (s : Io (σ × ℕ)) :
    Spends codes (wrtascSector (withCodes B codes g) xsector) (loadCount s.fp xsector)
      (fun _ s' => SameExtent s s' ∧ s'.fp.sector = xsector ∧
        (s'.fp.flags.DIRTY = true ↔ xsector = s.fp.sector ∧ s.fp.flags.DIRTY = true))
      (SameExtent s) s := by
  unfold loadCount Spends
  rw [wrtascSector, wp_bind, wp_get, wp_whenever]
  split_ifs with hsec
  · refine (spends_flush s).bind (fun _ s₁ _ _ h₁ => ?_) (fun _ _ h => h)
    have hload : Spends codes (whenever (OFFSECT s.fp ≤ HIWSECT s.fp) do
        let found ← readBuffer (withCodes B codes g) xsector
        whenever (found = false) (throw Errno.EIO)) (prepareCount s.fp)
        (fun _ s' => SameExtent s₁ s' ∧ s'.fp.flags.DIRTY = false) (SameExtent s₁) s₁ := by
      unfold Spends prepareCount
      rw [wp_whenever]
      by_cases hhi : OFFSECT s.fp ≤ HIWSECT s.fp
      · rw [if_pos hhi, if_neg (not_lt.mpr hhi)]
        exact (spends_needBuffer xsector s₁).mono (fun _ _ h => ⟨h.1, by rw [h.2.2.1]; exact h₁.2.2.1⟩) (fun _ _ h => h)
      · rw [if_neg hhi, if_pos (not_le.mp hhi)]
        exact ⟨answered_zero _, rfl, ⟨rfl, rfl⟩, h₁.2.2.1⟩
    refine hload.bind (k := 0) (fun _ s₂ _ _ h₂ => ?_) (fun _ _ h => ⟨h.1.trans h₁.1.1, h.2.trans h₁.1.2⟩)
    refine Spends.step ⟨rfl, ⟨h₂.1.1.trans h₁.1.1, h₂.1.2.trans h₁.1.2⟩, rfl, ?_⟩
    exact iff_of_false (Bool.eq_false_iff.mp h₂.2) fun h => hsec h.1
  · have heq : xsector = s.fp.sector := not_not.mp hsec
    exact ⟨answered_zero _, rfl, ⟨rfl, rfl⟩, heq.symm, ⟨fun h => ⟨heq, h⟩, fun h => h.2⟩⟩

/-- The buffer is written when it is full, and the offset moves in any case. -/
theorem wp_wrtascPut_codes (xsector : ℤ) (pos : ℕ) (put : List UInt8) (s : Io (σ × ℕ)) :
    wp (wrtascPut (withCodes B codes g) xsector pos put)
      (fun done s' => s'.fp.offset = s.fp.offset + put.length ∧ s'.fp.hiwater = s.fp.hiwater ∧ s'.fp.sector = s.fp.sector ∧
        (done = true ∧ pos + put.length < 128 ∧ s'.os.2 = s.os.2 ∨
          128 ≤ pos + put.length ∧ s'.fp.flags.DIRTY = s.fp.flags.DIRTY ∧
            (done = true ∧ Answered codes s.os.2 1 ∧ s'.os.2 = s.os.2 + 1 ∨
              done = false ∧ ∃ k, ¬ Answered codes s.os.2 1 ∧ ¬ Answered codes s.os.2 k ∧ s'.os.2 = s.os.2 + k)))
      (fun _ _ => False) s := by
  rw [wrtascPut, wp_bind, wp_setFp, wp_bind, wp_get, wp_ite]
  split_ifs with hfull
  · rw [wp_bind]
    refine wp_mono (wp_blkioWrite_codes xsector _ _) (fun seccnt s' h => ?_) (fun _ _ h => h)
    rcases h with ⟨rfl, hall, fcb, os, rfl⟩ | ⟨hcount, hno, k, hfail, fcb, os, rfl⟩
    · exact ⟨rfl, rfl, rfl, .inr ⟨hfull, rfl, .inl ⟨rfl, hall, rfl⟩⟩⟩
    · exact ⟨rfl, rfl, rfl, .inr ⟨hfull, rfl, .inr ⟨decide_eq_false hcount, k, hno, hfail, rfl⟩⟩⟩
  · exact ⟨rfl, rfl, rfl, .inl ⟨rfl, by omega, rfl⟩⟩

/-- How many transfers `_wrtasc` makes to put so many characters in the file: the first sector
is loaded, those that are filled are written, a buffer that was dirty for the first sector is
written once more, and the sectors after the first are read if they lie below the high water
mark. -/
def wrtascTransfers (fp : Ccb) (put : ℕ) : ℕ :=
  loadCount fp (fp.offset / 128) + (bufPos fp + put) / 128 +
    (if fp.offset / 128 = fp.sector ∧ fp.flags.DIRTY = true ∧ 128 < bufPos fp + put then 1 else 0) +
    min ((bufPos fp + put - 1) / 128) ((fp.hiwater - 1) / 128 - fp.offset / 128).toNat

theorem bufPos_lt (fp : Ccb) : bufPos fp < 128 := by
  unfold bufPos
  omega

/-- From the second sector on. -/
theorem wrtascTransfers_next {fp fp' : Ccb} {put : ℕ} (hput : 128 - bufPos fp < put)
    (ho : fp'.offset = fp.offset + (128 - bufPos fp : ℕ)) (hh : fp'.hiwater = fp.hiwater) (hs : fp'.sector = fp.offset / 128)
    (hd : fp'.flags.DIRTY = true ↔ fp.offset / 128 = fp.sector ∧ fp.flags.DIRTY = true) :
    wrtascTransfers fp put = loadCount fp (fp.offset / 128) + (1 + wrtascTransfers fp' (put - (128 - bufPos fp))) := by
  have hpos : (bufPos fp : ℤ) = fp.offset % 128 := Int.toNat_of_nonneg (Int.emod_nonneg _ (by decide))
  have hlt := bufPos_lt fp
  have hsec : fp'.offset / 128 = fp.offset / 128 + 1 := by omega
  have hpos' : bufPos fp' = 0 := by
    unfold bufPos
    omega
  have hload : loadCount fp' (fp'.offset / 128) =
      (if fp.offset / 128 = fp.sector ∧ fp.flags.DIRTY = true then 1 else 0) +
        if fp.offset / 128 + 1 ≤ (fp.hiwater - 1) / 128 then 1 else 0 := by
    unfold loadCount flushCount prepareCount OFFSECT HIWSECT
    rw [if_pos (by rw [hsec, hs]; omega), hsec, hh, if_congr hd rfl rfl]
    congr 1
    by_cases hle : fp.offset / 128 + 1 ≤ (fp.hiwater - 1) / 128
    · rw [if_pos hle, if_neg (by omega)]
    · rw [if_neg hle, if_pos (by omega)]
  have hdirty : (fp.offset / 128 = fp.sector ∧ fp.flags.DIRTY = true ∧ 128 < bufPos fp + put) ↔
      fp.offset / 128 = fp.sector ∧ fp.flags.DIRTY = true :=
    ⟨fun h => ⟨h.1, h.2.1⟩, fun h => ⟨h.1, h.2, by omega⟩⟩
  have hclean : ¬ (fp.offset / 128 + 1 = fp.offset / 128 ∧ fp'.flags.DIRTY = true ∧ 128 < 0 + (put - (128 - bufPos fp))) :=
    fun h => by omega
  have hfilled : (bufPos fp + put) / 128 = (0 + (put - (128 - bufPos fp))) / 128 + 1 := by omega
  have hloaded : (bufPos fp + put - 1) / 128 = (0 + (put - (128 - bufPos fp)) - 1) / 128 + 1 := by omega
  have hbelow : ∀ (m : ℕ) (x y : ℤ), min (m + 1) (x - y).toNat = (if y + 1 ≤ x then 1 else 0) + min m (x - (y + 1)).toNat := by
    intro m x y
    split_ifs <;> omega
  unfold wrtascTransfers
  rw [hload, hpos', hsec, hh, hs, if_congr hdirty rfl rfl, if_neg hclean, hfilled, hloaded, hbelow]
  generalize min ((0 + (put - (128 - bufPos fp)) - 1) / 128) _ = below
  omega

/-- The characters fit in the sector. -/
theorem wrtascTransfers_last {fp : Ccb} {put : ℕ} (hput : put ≤ 128 - bufPos fp) (hpos : 0 < put) :
    wrtascTransfers fp put = loadCount fp (fp.offset / 128) + if bufPos fp + put < 128 then 0 else 1 := by
  have hlt := bufPos_lt fp
  have hzero : (bufPos fp + put - 1) / 128 = 0 := by omega
  unfold wrtascTransfers
  rw [hzero, Nat.zero_min, if_neg (by omega)]
  split_ifs <;> omega

/-- A transfer has failed since `s`. -/
def Failed (codes : ℕ → UInt16) (s s' : Io (σ × ℕ)) : Prop := ∃ k, s'.os.2 = s.os.2 + k ∧ ¬ Answered codes s.os.2 k

/-- The count `r` is that of data for which less has been put than the offset has moved. -/
def Ahead (written : ℕ) (cc : UInt8) (data : List UInt8) (s s' : Io (σ × ℕ)) (r : ℤ) : Prop :=
  ∃ taken left, data = taken ++ left ∧ left ≠ [] ∧ r = toLong (written - left.length) ∧
    s.fp.offset + (wrtascOut cc taken).length < s'.fp.offset

theorem Failed.after {k : ℕ} {s₁ s' : Io (σ × ℕ)} (h : Failed codes s₁ s') (hos : s₁.os.2 = s.os.2 + k) : Failed codes s s' := by
  obtain ⟨m, hm, hno⟩ := h
  refine ⟨k + m, by rw [hm, hos, Nat.add_assoc], fun hall => hno ?_⟩
  rw [hos]
  exact (answered_add.mp hall).2

/-- A failure of `_wrtasc` leaves the offset where it was if and only if it comes before the
offset moves; after that the offset is ahead of what is reported. -/
theorem wp_wrtascLoop_codes (written fuel : ℕ) (cc : UInt8) (data : List UInt8) (s : Io (σ × ℕ)) (hdata : data ≠ [])
    (hfuel : (wrtascOut cc data).length ≤ fuel) :
    wp (wrtascLoop (withCodes B codes g) written fuel cc data)
      (fun r s' =>
        Answered codes s.os.2 (wrtascTransfers s.fp (wrtascOut cc data).length) ∧
            s'.os.2 = s.os.2 + wrtascTransfers s.fp (wrtascOut cc data).length ∨
          ¬ Answered codes s.os.2 (wrtascTransfers s.fp (wrtascOut cc data).length) ∧
            Answered codes s.os.2 (loadCount s.fp (s.fp.offset / 128)) ∧ Failed codes s s' ∧ Ahead written cc data s s' r)
      (fun _ s' => ¬ Answered codes s.os.2 (wrtascTransfers s.fp (wrtascOut cc data).length) ∧
        SafeUpTo codes (loadCount s.fp (s.fp.offset / 128)) s s') s := by
  induction fuel generalizing cc data s with
  | zero => exact absurd (wrtascOut_eq_nil.mp (List.length_eq_zero_iff.mp (Nat.le_zero.mp hfuel))) hdata
  | succ fuel ih =>
    obtain ⟨put, cc', left, hmoved⟩ : ∃ put cc' left, wrtascMove (128 - bufPos s.fp) cc data = (put, cc', left) := ⟨_, _, _, rfl⟩
    have hout := wrtascMove_append (128 - bufPos s.fp) cc data
    have hlen := length_wrtascMove (128 - bufPos s.fp) cc data
    obtain ⟨taken, htaken, hmore⟩ := wrtascMove_taken (128 - bufPos s.fp) cc data
    rw [hmoved] at hout hlen htaken hmore
    simp only at hout hlen htaken hmore
    have hpos := bufPos_lt s.fp
    have hL : 0 < (wrtascOut cc data).length := List.length_pos_iff.mpr fun h => hdata (wrtascOut_eq_nil.mp h)
    have hsum := congrArg List.length hout
    rw [List.length_append] at hsum
    rw [wrtascLoop, if_pos (List.length_pos_iff.mpr hdata), wp_bind, wp_get, wp_bind]
    have hload : loadCount s.fp (s.fp.offset / 128) ≤ wrtascTransfers s.fp (wrtascOut cc data).length := by
      unfold wrtascTransfers
      omega
    refine wp_mono (spends_wrtascSector (s.fp.offset / 128) s) (fun _ s₁ h₁ => ?_) (fun _ s' h => ?_)
    · obtain ⟨hok, hos, hext, hsec, hdirty⟩ := h₁
      rw [wp_bind, hmoved]
      refine wp_mono (wp_wrtascPut_codes (s.fp.offset / 128) (bufPos s.fp) put s₁) (fun done s₂ h₂ => ?_) (fun _ _ h => h.elim)
      obtain ⟨hoff₂, hhi₂, hsec₂, h₂⟩ := h₂
      rw [hext.1] at hoff₂
      rw [wp_ite]
      split_ifs with hdone hleft
      · -- the write of a full buffer fails
        obtain ⟨hfull, k, hno, hfail, hos₂⟩ : 128 ≤ bufPos s.fp + put.length ∧
            ∃ k, ¬ Answered codes s₁.os.2 1 ∧ ¬ Answered codes s₁.os.2 k ∧ s₂.os.2 = s₁.os.2 + k := by
          rcases h₂ with ⟨h, -⟩ | ⟨hfull, -, ⟨h, -⟩ | ⟨-, h⟩⟩
          · exact absurd (hdone.symm.trans h) (by decide)
          · exact absurd (hdone.symm.trans h) (by decide)
          · exact ⟨hfull, h⟩
        have hone : loadCount s.fp (s.fp.offset / 128) + 1 ≤ wrtascTransfers s.fp (wrtascOut cc data).length := by
          unfold wrtascTransfers
          omega
        refine .inr ⟨fun hall => hno ?_, hok, Failed.after ⟨k, hos₂, hfail⟩ hos, [], data, rfl, hdata, rfl, ?_⟩
        · rw [hos]
          exact (answered_add.mp (hall.mono hone)).2
        · rw [hoff₂, wrtascOut]
          simp
          omega
      · -- the last sector of the data
        obtain rfl := List.length_eq_zero_iff.mp hleft
        have hnil : (wrtascOut cc' []).length = 0 := rfl
        refine .inl ?_
        rw [wrtascTransfers_last (by omega) hL, answered_add, ← hsum, hnil, Nat.add_zero, ← hos]
        rcases h₂ with ⟨-, hroom, hos₂⟩ | ⟨hfull, -, ⟨-, hall, hos₂⟩ | ⟨h, -⟩⟩
        · rw [if_pos hroom]
          exact ⟨⟨hok, answered_zero _⟩, hos₂.trans hos⟩
        · rw [if_neg (by omega)]
          exact ⟨⟨hok, hall⟩, hos₂.trans (congrArg (· + 1) hos)⟩
        · exact absurd h hdone
      · have hne : left ≠ [] := fun h => hleft (by rw [h]; rfl)
        have hrest : 0 < (wrtascOut cc' left).length := List.length_pos_iff.mpr fun h => hne (wrtascOut_eq_nil.mp h)
        have hput : put.length = 128 - bufPos s.fp := by omega
        obtain ⟨hdirty₂, hall, hos₂⟩ : s₂.fp.flags.DIRTY = s₁.fp.flags.DIRTY ∧ Answered codes s₁.os.2 1 ∧
            s₂.os.2 = s₁.os.2 + 1 := by
          rcases h₂ with ⟨-, hroom, -⟩ | ⟨-, hd, ⟨-, hall, hos₂⟩ | ⟨h, -⟩⟩
          · omega
          · exact ⟨hd, hall, hos₂⟩
          · exact absurd h hdone
        have hnext := @wrtascTransfers_next s.fp s₂.fp (wrtascOut cc data).length (by omega)
          (by rw [hoff₂, hput]) (hhi₂.trans hext.2) (hsec₂.trans hsec) (by rw [hdirty₂]; exact hdirty)
        have hlater : Answered codes s.os.2 (wrtascTransfers s.fp (wrtascOut cc data).length) ↔
            Answered codes s₂.os.2 (wrtascTransfers s₂.fp (wrtascOut cc' left).length) := by
          rw [hnext, ← hsum, hput, Nat.add_sub_cancel_left, answered_add, answered_add, ← hos, ← hos₂]
          exact ⟨fun h => h.2.2, fun h => ⟨hok, hall, h⟩⟩
        rw [hlater]
        refine wp_mono (ih cc' left s₂ hne (by omega)) (fun r s' h => ?_) (fun _ s' h => ⟨h.1, .of_moved ?_ hok⟩)
        · rcases h with ⟨hall', hos'⟩ | ⟨hno, -, hfail, taken', left', hleft', hne', hr, hahead⟩
          · refine .inl ⟨hall', ?_⟩
            rw [hos', hos₂, hos, hnext, ← hsum, hput, Nat.add_sub_cancel_left]
            omega
          · refine .inr ⟨hno, hok, (hfail.after hos₂).after hos, taken ++ taken', left', ?_, hne', hr, ?_⟩
            · rw [htaken, hleft', List.append_assoc]
            · have hlen' := hmore taken'
              omega
        · have hge := h.2.1
          omega
    · exact ⟨fun hall => h.1 (hall.mono hload), .of_same h.2 h.1⟩

end Cpm68k.Cpmlib
