import Cpm68k.Cpmlib.RecordStore

/-!
# The stages of a binary write

`_wrtbin` gets the sector of the offset into the buffer, puts there what fits, transfers whole
sectors, and puts the rest in the buffer. What each stage does to the channel and to the records
on disk is said here once, for every state of the channel; what it means for the file as a
sequence of bytes, or for the buffer, is said elsewhere.

## What is proved

* `wp_wrtbinClean_on`, `wp_wrtbinBuffer_on`, `wp_wrtbinTail_on` — the state after a stage.
* `wp_wrtbinRest_on` — the rest of a write is a transfer of whole sectors and the last stage.
* `wp_wrtbin_stages` — a write is its stages.
-/

namespace Cpm68k.Cpmlib

open Cpm68k.Library RecordStore

variable {σ : Type} {B : Osif σ} {S : RecordStore B} {file : FileId} {u : UInt16} {D : ℕ → Option Sector} {s : Io σ}

/-! ### The buffer for a sector -/

/-- The offset lies in a sector above the high water mark. -/
abbrev Above (fp : Ccb) : Prop := OFFSECT fp > HIWSECT fp

/-- The buffer after `prepareBuffer`, for sector `k` of the file with the records `D`. -/
def preparedBuffer (fp : Ccb) (D : ℕ → Option Sector) (k : ℕ) : Sector :=
  if Above fp then Bytes.fill 0 else (D k).getD fp.buffer

/-- The buffer after `wrtbinClean`. -/
def cleanedBuffer (fp : Ccb) (D : ℕ → Option Sector) (k : ℕ) : Sector :=
  if fp.sector = k then fp.buffer else preparedBuffer fp D k

theorem wp_prepareBuffer_on (hon : S.On file u D s.fp s.os) (k : ℕ) :
    wp (prepareBuffer B k)
      (fun _ s' => (Above s.fp ∨ D k ≠ none) ∧ ∃ fcb os,
        s' = { s with fp := { s.fp with fcb := fcb, buffer := preparedBuffer s.fp D k }, os := os } ∧
        S.On file u D s'.fp s'.os)
      (fun _ s' => (¬ Above s.fp ∧ D k = none) ∧ ∃ fcb os, s' = { s with fp := { s.fp with fcb := fcb }, os := os } ∧
        S.On file u D s'.fp s'.os) s := by
  unfold preparedBuffer
  rw [prepareBuffer, wp_bind, wp_get, wp_ite]
  by_cases habove : Above s.fp
  · rw [if_pos habove, if_pos habove]
    exact ⟨.inl habove, s.fp.fcb, s.os, rfl, hon.user, hon.id, hon.files⟩
  · rw [if_neg habove, if_neg habove, wp_bind]
    refine wp_mono (wp_readBuffer k hon) ?_ (fun _ _ h => h.elim)
    rintro _ _ ⟨rfl, fcb, os, rfl, hon'⟩
    rw [wp_whenever]
    split_ifs with hnone
    · have hnone : D k = none := Option.not_isSome_iff_eq_none.mp (by simp [hnone])
      refine ⟨⟨habove, hnone⟩, fcb, os, ?_, hon'⟩
      rw [hnone, Option.getD_none]
    · exact ⟨.inr fun h => hnone (by rw [h]; rfl), fcb, os, rfl, hon'⟩

/-- The buffer gets the label of sector `k`, unless it has it: what is dirty goes to the disk first. -/
theorem wp_wrtbinClean_on (hon : S.On file u D s.fp s.os) (hl : Labelled S.cap s.fp) (k : ℕ) :
    wp (wrtbinClean B k)
      (fun _ s' =>
        if s.fp.sector = k then s' = s
        else (Above s.fp ∨ flushed D s.fp k ≠ none) ∧ ∃ fcb os,
          s' = { s with
            fp :=
              { s.fp with
                fcb := fcb, flags := { s.fp.flags with DIRTY := false }, sector := k
                buffer := preparedBuffer s.fp (flushed D s.fp) k }
            os := os } ∧
          S.On file u (flushed D s.fp) s'.fp s'.os)
      (fun _ s' => (¬ Above s.fp ∧ flushed D s.fp k = none) ∧ ∃ fcb os,
        s' = { s with fp := { s.fp with fcb := fcb }, os := os } ∧ S.On file u (flushed D s.fp) s'.fp s'.os) s := by
  rw [wrtbinClean, wp_bind, wp_get, wp_whenever]
  by_cases hsec : s.fp.sector = k
  · rw [if_neg (not_not.mpr hsec.symm), if_pos hsec]
  · rw [if_pos (Ne.symm hsec), wp_bind]
    refine wp_mono (wp_writeDirty hon hl) ?_ (fun _ _ h => h.elim)
    rintro _ _ ⟨fcb, os, rfl, hon₁⟩
    rw [wp_bind]
    refine wp_mono (wp_prepareBuffer_on hon₁ k) ?_ (fun _ _ h => h)
    rintro _ _ ⟨hprep, fcb₂, os₂, rfl, hon₂⟩
    rw [wp_setFp, if_neg hsec]
    exact ⟨hprep, fcb₂, os₂, rfl, hon₂.user, hon₂.id, hon₂.files⟩

/-! ### Data that goes to the buffer -/

/-- Data goes to the buffer, and the buffer to the disk when that fills it. -/
theorem wp_wrtbinBuffer_on {k : ℕ} {data : List UInt8} (hon : S.On file u D s.fp s.os) (hdata : data ≠ []) (hk : k < S.cap) :
    wp (wrtbinBuffer B k data)
      (fun x s' =>
        if bufPos s.fp + data.length = 128 then
          x = (k + 1) % 2 ^ 16 ∧ ∃ fcb os,
            s' = { s with
              fp :=
                { s.fp with
                  fcb := fcb, flags := { s.fp.flags with DIRTY := false }, sector := -1
                  buffer := s.fp.buffer.move (bufPos s.fp) data, offset := s.fp.offset + data.length }
              os := os } ∧
            S.On file u (Function.update D k (some (s.fp.buffer.move (bufPos s.fp) data))) s'.fp s'.os
        else
          x = k ∧ s' = { s with
            fp :=
              { s.fp with
                flags := { s.fp.flags with DIRTY := true }, sector := k, buffer := s.fp.buffer.move (bufPos s.fp) data
                offset := s.fp.offset + data.length } })
      (fun _ _ => False) s := by
  have hn := List.length_pos_iff.mpr hdata
  simp only [wrtbinBuffer, wp_bind, wp_get, wp_ite, if_pos (show data.length > 0 from hn), wp_setFp, wp_pure]
  by_cases hfull : bufPos s.fp + data.length = 128
  · rw [if_neg (not_not.mpr hfull)]
    simp only [if_pos hfull]
    refine wp_mono (wp_writeBuffer (k := k) ⟨hon.user, hon.id, hon.files⟩ hk) ?_ (fun _ _ h => h)
    rintro _ _ ⟨fcb, os, rfl, hon'⟩
    exact ⟨rfl, fcb, os, rfl, hon'.user, hon'.id, hon'.files⟩
  · rw [if_pos hfull, if_neg hfull]
    exact ⟨trivial, trivial⟩

theorem wp_wrtbinBuffer_nil {xsector : ℕ} {Q : ℕ → Io σ → Prop} {E : Errno → Io σ → Prop} :
    wp (wrtbinBuffer B xsector []) Q E s = Q xsector s := rfl

/-- The rest of the data goes to the buffer, which is prepared for it. -/
theorem wp_wrtbinTail_on {k : ℕ} {data : List UInt8} (hon : S.On file u D s.fp s.os) :
    wp (wrtbinTail B k data)
      (fun _ s' =>
        if data = [] then s' = s
        else (Above s.fp ∨ D k ≠ none) ∧ ∃ fcb os,
          s' = { s with
            fp :=
              { s.fp with
                fcb := fcb, flags := { s.fp.flags with DIRTY := true }, sector := k
                buffer := (preparedBuffer s.fp D k).move 0 data, offset := s.fp.offset + data.length }
            os := os } ∧
          S.On file u D s'.fp s'.os)
      (fun _ s' => (data ≠ [] ∧ ¬ Above s.fp ∧ D k = none) ∧ ∃ fcb os,
        s' = { s with fp := { s.fp with fcb := fcb }, os := os } ∧ S.On file u D s'.fp s'.os) s := by
  rw [wrtbinTail, wp_whenever]
  by_cases hdata : data = []
  · rw [hdata, if_neg (by decide), if_pos rfl]
  · rw [if_pos (List.length_pos_iff.mpr hdata), wp_bind]
    refine wp_mono (wp_prepareBuffer_on hon k) ?_ (fun _ _ h => ⟨⟨hdata, h.1⟩, h.2⟩)
    rintro _ _ ⟨hprep, fcb, os, rfl, hon'⟩
    rw [wp_setFp, if_neg hdata]
    exact ⟨hprep, fcb, os, rfl, hon'.user, hon'.id, hon'.files⟩

/-! ### The rest of a write -/

theorem length_sectorsOf (data : List UInt8) (n : ℕ) : (sectorsOf data n).length = n := by
  simp [sectorsOf]

theorem sectorsOf_take (data : List UInt8) (n : ℕ) :
    sectorsOf data n = (List.range n).map (block 128 0 (data.take (128 * n))) := by
  refine List.map_congr_left fun k hk => funext fun i => ?_
  rw [List.mem_range] at hk
  have hi := i.isLt
  simp only [block, List.getD_eq_getElem?_getD]
  rw [List.getElem?_take_of_lt (by omega)]

/-- The records after the transfer of whole sectors. -/
def wholeRecords (D : ℕ → Option Sector) (x : ℕ) (rest : List UInt8) : ℕ → Option Sector :=
  putRun D x (sectorsOf rest (rest.length / 128))

/-- The sector where the last bytes go, as `_wrtbin` counts it. -/
def tailSector (x n : ℕ) : ℕ := (x + n / 128) % 2 ^ 16

/-- What does not go through the buffer first: whole sectors are transferred, and then the last bytes
go to the buffer. -/
theorem wp_wrtbinRest_on {x : ℕ} {rest : List UInt8} {Q : PUnit → Io σ → Prop} {Ex : Errno → Io σ → Prop}
    (hon : S.On file u D s.fp s.os) (hx : x < 2 ^ 16) (hbytes : rest.length < 2 ^ 16)
    (hcap : 128 * x + rest.length ≤ 128 * S.cap)
    (htail : ∀ fcb os s', s' = { s with
        fp := { s.fp with fcb := fcb, offset := s.fp.offset + (128 * (rest.length / 128) : ℕ) }, os := os } →
      S.On file u (wholeRecords D x rest) s'.fp s'.os →
      wp (wrtbinTail B (tailSector x rest.length) (rest.drop (128 * (rest.length / 128)))) Q Ex s') :
    wp (wrtbinRest B x rest) Q Ex s := by
  have hcount := length_sectorsOf rest (rest.length / 128)
  rw [wrtbinRest, wp_ite]
  split_ifs with hlong
  · have hn : rest.length / 128 % 2 ^ 16 = rest.length / 128 := by omega
    have hm : rest.length / 128 * 128 % 2 ^ 16 = 128 * (rest.length / 128) := by omega
    simp only [hn, wrtbinLeft_of_lt hbytes]
    rw [wrtbinSectors, hm, wp_bind, wp_bind]
    refine wp_mono (wp_blkioWrite _ hon (by rw [hcount]; omega)) ?_ (fun _ _ h => h.elim)
    rintro _ _ ⟨rfl, fcb, os, rfl, hon'⟩
    rw [wp_bind, wp_whenever, if_neg (not_not.mpr hcount), wp_bind, wp_setFp, wp_pure]
    exact htail fcb os _ rfl ⟨hon'.user, hon'.id, hon'.files⟩
  · -- no sector is whole
    have hzero : rest.length / 128 = 0 := by omega
    unfold tailSector wholeRecords sectorsOf at htail
    simp only [hzero, List.range_zero, List.map_nil, putRun, Nat.mul_zero, Int.natCast_zero, add_zero, Nat.mod_eq_of_lt hx,
      List.drop_zero] at htail
    exact htail s.fp.fcb s.os s rfl hon

/-! ### A write -/

theorem wrtbinCount_eq {o n : ℕ} (hn : 0 < n) :
    wrtbinCount (o % 128) n = if o % 128 = 0 ∧ 128 ≤ n then 0 else min (128 - o % 128) n := by
  unfold wrtbinCount
  simp only
  split_ifs <;> omega

/-- A write goes through its stages: it begins with a transfer of whole sectors, or with bytes `nbs` that
go to the buffer. -/
theorem wp_wrtbin_stages {o : ℕ} {data : List UInt8} {C P : Io σ → Prop} {Q : ℤ → Io σ → Prop}
    {Ex : Errno → Io σ → Prop} (ho : s.fp.offset = o) (hdata : data ≠ [])
    (hclean : wp (wrtbinClean B (o / 128 % 2 ^ 16)) (fun _ => C) Ex s)
    (hwhole : o % 128 = 0 ∧ 128 ≤ data.length → ∀ s₁, C s₁ →
      wp (wrtbinRest B (o / 128 % 2 ^ 16) data) (fun _ => P) Ex s₁)
    (hbuffer : ∀ nbs, nbs = min (128 - o % 128) data.length → ¬ (o % 128 = 0 ∧ 128 ≤ data.length) → ∀ s₁, C s₁ →
      wp (wrtbinBuffer B (o / 128 % 2 ^ 16) (data.take nbs))
        (fun x s₂ => wp (wrtbinRest B x (data.drop nbs)) (fun _ => P) Ex s₂) Ex s₁)
    (hlast : ∀ s₃, P s₃ →
      Q (data.length % 2 ^ 16 : ℕ) { s₃ with fp := { s₃.fp with hiwater := max s₃.fp.hiwater s₃.fp.offset } }) :
    wp (wrtbin B data) Q Ex s := by
  have hx : (s.fp.offset / 128 % 2 ^ 16).toNat = o / 128 % 2 ^ 16 := by omega
  have hpos : bufPos s.fp = o % 128 := by
    unfold bufPos
    omega
  have hend : ∀ s₃, P s₃ → wp (do raiseHiwater; pure ((data.length % 2 ^ 16 : ℕ) : ℤ)) Q Ex s₃ := by
    intro s₃ h₃
    rw [wp_bind, wp_raiseHiwater, wp_pure]
    exact hlast s₃ h₃
  have hcount := wrtbinCount_eq (o := o) (List.length_pos_iff.mpr hdata)
  rw [wrtbin, wp_bind, wp_get]
  simp only [hx, hpos]
  rw [wp_bind]
  refine wp_mono hclean (fun _ s₁ h₁ => ?_) (fun _ _ h => h)
  rw [wp_bind]
  by_cases hw : o % 128 = 0 ∧ 128 ≤ data.length
  · rw [if_pos hw] at hcount
    rw [hcount, List.take_zero, List.drop_zero, wp_wrtbinBuffer_nil, wp_bind]
    exact wp_mono (hwhole hw s₁ h₁) (fun _ s₃ h₃ => hend s₃ h₃) (fun _ _ h => h)
  · rw [if_neg hw] at hcount
    refine wp_mono (hbuffer _ hcount hw s₁ h₁) (fun x s₂ h₂ => ?_) (fun _ _ h => h)
    rw [wp_bind]
    exact wp_mono h₂ (fun _ s₃ h₃ => hend s₃ h₃) (fun _ _ h => h)

end Cpm68k.Cpmlib
