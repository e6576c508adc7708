import Cpm68k.Cpmlib.BinaryWrite

/-!
# A binary file as a sequence of bytes

The purpose of a channel on a binary file: the file is a sequence of bytes, and a write at
an offset overwrites it there. The records on disk and the buffer of the channel together
hold that sequence (`Flat`): when the buffer is dirty it stands for its record, and all
other records are on disk.

## What is proved

* `wp_wrtbin_flat` — `_wrtbin` overwrites the sequence at the offset, unless it uses a
  buffer that is not current (`WriteOk`).

A transfer of whole sectors goes to the disk and leaves the buffer as it was. When the
buffer is labelled with the first of these sectors, it is no longer what the disk has, and
if it is dirty it is written later, over the newer data. `WriteOk` leaves out exactly the
writes that meet such a buffer.
-/

namespace Cpm68k.Cpmlib

open Cpm68k.Library RecordStore

variable {σ : Type} {B : Osif σ} {S : RecordStore B} {file : FileId} {u : UInt16} {D : ℕ → Option Sector} {s : Io σ}

/-- The records that hold a sequence of bytes, the last one filled up with zeros. -/
abbrev diskOf (f : List UInt8) : ℕ → Option Sector := blocks 128 0 f

/-- Sector `k` of a sequence of bytes. -/
abbrev sectorOf (f : List UInt8) (k : ℕ) : Sector := block 128 0 f k

/-- The channel and the records `D` hold the bytes `f`. -/
structure Flat (f : List UInt8) (fp : Ccb) (D : ℕ → Option Sector) : Prop where
  hiwater : fp.hiwater = f.length
  nonneg : 0 ≤ fp.offset
  inside : fp.offset ≤ f.length
  label : fp.flags.DIRTY = true → 0 ≤ fp.sector ∧ 128 * fp.sector < f.length
  disk : flushed D fp = diskOf f

/-- What a write of `n` bytes may find. When the buffer is labelled with the sector of the
offset: a transfer of whole sectors from there must not find it dirty, and a write to the
buffer must find it dirty, or equal to the record on disk. -/
def WriteOk (fp : Ccb) (D : ℕ → Option Sector) (n : ℕ) : Prop :=
  fp.sector = fp.offset / 128 →
    if fp.offset % 128 = 0 ∧ 128 ≤ n then n % 128 = 0 → fp.flags.DIRTY = false
    else fp.flags.DIRTY = true ∨ D (fp.offset / 128).toNat = some fp.buffer

/-- The state of a write that has come to the byte `o`, below the size `h` at its start:
the bytes `f` are in place. -/
structure Writing (f : List UInt8) (h o : ℕ) (fp : Ccb) (D : ℕ → Option Sector) : Prop where
  hiwater : fp.hiwater = h
  offset : fp.offset = o
  length : f.length = max h o
  label : fp.flags.DIRTY = true → 0 ≤ fp.sector ∧ 128 * fp.sector < f.length
  disk : flushed D fp = diskOf f

theorem eq_sectorOf {f : List UInt8} {k : ℕ} {r : Sector} (h : diskOf f k = some r) : r = sectorOf f k := by
  unfold diskOf blocks at h
  split_ifs at h
  exact (Option.some.inj h).symm

/-- The buffer is prepared with the sector of the offset. -/
theorem preparedBuffer_flat {f : List UInt8} {h o : ℕ} {fp : Ccb} (hhi : fp.hiwater = h) (ho : fp.offset = o)
    (hlen : f.length = max h o) (hin : o % 128 = 0 ∨ o ≤ h) :
    preparedBuffer fp (diskOf f) (o / 128) = sectorOf f (o / 128) ∧ (Above fp ∨ diskOf f (o / 128) ≠ none) := by
  by_cases habove : Above fp
  · have hfill : sectorOf f (o / 128) = Bytes.fill 0 := block_eq_fill (by unfold Above OFFSECT HIWSECT at habove; omega)
    rw [preparedBuffer, if_pos habove, hfill]
    exact ⟨rfl, .inl habove⟩
  · have hsome : diskOf f (o / 128) = some (sectorOf f (o / 128)) := if_pos (by unfold Above OFFSECT HIWSECT at habove; omega)
    rw [preparedBuffer, if_neg habove, hsome]
    exact ⟨rfl, .inr (Option.some_ne_none _)⟩

/-- The buffer is cleaned and current, as far as this write needs it. -/
structure Ready (f : List UInt8) (h o n : ℕ) (fp : Ccb) (D : ℕ → Option Sector) : Prop extends Writing f h o fp D where
  sector : fp.sector = (o / 128 : ℕ)
  whole : o % 128 = 0 ∧ 128 ≤ n → n % 128 = 0 → fp.flags.DIRTY = false
  current : ¬ (o % 128 = 0 ∧ 128 ≤ n) → fp.buffer = sectorOf f (o / 128)

theorem Flat.writing {f : List UInt8} {fp : Ccb} (h : Flat f fp D) : Writing f f.length fp.offset.toNat fp D :=
  ⟨h.hiwater, (Int.toNat_of_nonneg h.nonneg).symm, by have := h.inside; omega, h.label, h.disk⟩

theorem wp_wrtbinClean_flat {f : List UInt8} {n : ℕ} (hon : S.On file u D s.fp s.os) (hf : Flat f s.fp D)
    (hok : WriteOk s.fp D n) (hcap : f.length ≤ 128 * S.cap) :
    wp (wrtbinClean B (s.fp.offset.toNat / 128))
      (fun _ s' => ∃ D', S.On file u D' s'.fp s'.os ∧ Ready f f.length s.fp.offset.toNat n s'.fp D')
      (fun _ _ => False) s := by
  have ho := hf.writing.offset
  have hin := hf.inside
  generalize s.fp.offset.toNat = o at ho ⊢
  have hlabel : Labelled S.cap s.fp := fun hd => by
    have := hf.label hd
    omega
  have hclean := wp_wrtbinClean_on hon hlabel (o / 128)
  rw [hf.disk] at hclean
  obtain ⟨hprep, hthere⟩ := preparedBuffer_flat hf.hiwater ho (show f.length = max f.length o by omega) (by omega)
  refine wp_mono hclean (fun _ s' hs' => ?_) (fun _ _ h => hthere.elim h.1.1 fun hne => hne h.1.2)
  split_ifs at hs' with hsec
  · subst hs'
    have hok := hok (by omega)
    refine ⟨D, hon, ⟨hf.hiwater, ho, by omega, hf.label, hf.disk⟩, hsec, fun hw hn => ?_, fun hw => ?_⟩
    · rw [if_pos (by omega)] at hok
      exact hok hn
    · rw [if_neg (by omega)] at hok
      have hrec : diskOf f (o / 128) = some s'.fp.buffer := by
        rw [← hf.disk]
        rcases hok with hd | hd
        · rw [flushed_of_dirty hd, hsec, Int.toNat_natCast, Function.update_self]
        · cases hdirty : s'.fp.flags.DIRTY with
          | true => rw [flushed_of_dirty hdirty, hsec, Int.toNat_natCast, Function.update_self]
          | false =>
            rw [flushed_of_clean hdirty, ← hd, ho]
            rfl
      exact eq_sectorOf hrec
  · obtain ⟨-, fcb, os, rfl, hon'⟩ := hs'
    refine ⟨_, hon', ⟨hf.hiwater, ho, by omega, fun hd => absurd hd Bool.false_ne_true, flushed_of_clean rfl⟩, rfl,
      fun _ _ => rfl, fun _ => hprep⟩

/-- Overwriting part of the sector of the offset, when the buffer is current. -/
theorem update_diskOf {f bs : List UInt8} {o : ℕ} {r : Sector} (ho : o ≤ f.length) (hbs : bs ≠ [])
    (hp : o % 128 + bs.length ≤ 128) (hr : r = sectorOf f (o / 128)) (hD : ∀ j, j ≠ o / 128 → D j = diskOf f j) :
    Function.update D (o / 128) (some (r.move (o % 128) bs)) = diskOf (splice f o bs) := by
  have hoff : 128 * (o / 128) + o % 128 = o := Nat.div_add_mod o 128
  have hpatch := update_blocks (d := (0 : UInt8)) (f := f) (k := o / 128) (p := o % 128) (by omega) hp hbs hD
  rw [hoff] at hpatch
  rw [hr]
  exact hpatch

/-- The state after the part of a write that goes through the buffer first. -/
structure Buffered (f : List UInt8) (h o : ℕ) (rest : List UInt8) (xsector : ℕ) (fp : Ccb) (D : ℕ → Option Sector) :
    Prop extends Writing f h o fp D where
  aligned : rest ≠ [] → o % 128 = 0 ∧ xsector = o / 128
  stale : rest ≠ [] → fp.flags.DIRTY = true → fp.sector = (o / 128 : ℕ) ∧ 128 ≤ rest.length ∧ rest.length % 128 ≠ 0

theorem Ready.disk_of_ne {f : List UInt8} {h o n : ℕ} {fp : Ccb} (hr : Ready f h o n fp D) {j : ℕ} (hj : j ≠ o / 128) :
    D j = diskOf f j := by
  rw [← hr.disk]
  cases hd : fp.flags.DIRTY with
  | true => rw [flushed_of_dirty hd, hr.sector, Int.toNat_natCast, Function.update_of_ne hj]
  | false => rw [flushed_of_clean hd]

/-- Data that fits in the sector of the offset goes to the buffer, and to the disk when the
sector is full. -/
theorem wp_wrtbinBuffer_put {f : List UInt8} {h o n : ℕ} (bs rest : List UInt8) (hon : S.On file u D s.fp s.os)
    (hr : Ready f h o n s.fp D) (hbuf : s.fp.buffer = sectorOf f (o / 128)) (hbs : bs ≠ []) (hoh : o ≤ h)
    (hfit : o % 128 + bs.length ≤ 128) (hrest : rest ≠ [] → o % 128 + bs.length = 128 ∧ o + bs.length < 2 ^ 23)
    (hcap : o < 128 * S.cap) :
    wp (wrtbinBuffer B (o / 128) bs)
      (fun xsector s' => ∃ D', S.On file u D' s'.fp s'.os ∧
        Buffered (splice f o bs) h (o + bs.length) rest xsector s'.fp D')
      (fun _ _ => False) s := by
  have hpos : bufPos s.fp = o % 128 := by
    unfold bufPos
    rw [hr.offset]
    omega
  have hn := List.length_pos_iff.mpr hbs
  have hof : o ≤ f.length := by
    have := hr.length
    omega
  have hlen := length_splice hof bs
  have hlen' : (splice f o bs).length = max h (o + bs.length) := by
    have := hr.length
    omega
  have hdisk := update_diskOf hof hbs hfit hbuf fun j => hr.disk_of_ne
  have hoff := hr.offset
  refine wp_mono (wp_wrtbinBuffer_on hon hbs (by omega)) (fun xsector s' hs' => ?_) (fun _ _ h => h)
  rw [hpos] at hs'
  split_ifs at hs' with hfull
  · obtain ⟨rfl, fcb, os, rfl, hon'⟩ := hs'
    refine ⟨_, hon', ⟨hr.hiwater, ?_, hlen', fun hd => absurd hd Bool.false_ne_true, ?_⟩, fun hne => ⟨by omega, ?_⟩,
      fun _ hd => absurd hd Bool.false_ne_true⟩
    · simp only
      omega
    · rw [flushed_of_clean rfl]
      exact hdisk
    · have := (hrest hne).2
      omega
  · obtain ⟨rfl, rfl⟩ := hs'
    refine ⟨D, ⟨hon.user, hon.id, hon.files⟩, ⟨hr.hiwater, ?_, hlen', fun _ => ?_, ?_⟩, fun hne => ?_, fun hne => ?_⟩
    · simp only
      omega
    · simp only
      omega
    · rw [flushed_of_dirty rfl, Int.toNat_natCast]
      exact hdisk
    · exact absurd (hrest hne).1 hfull
    · exact absurd (hrest hne).1 hfull

/-- The rest of the data goes to the buffer, which is prepared for it. -/
theorem wp_wrtbinTail_flat {f : List UInt8} {h o : ℕ} (rest : List UInt8) (hon : S.On file u D s.fp s.os)
    (hhi : s.fp.hiwater = h) (hoff : s.fp.offset = o) (hlenf : f.length = max h o) (hfit : rest.length < 128)
    (hrest : rest ≠ [] → o % 128 = 0 ∧ D = diskOf f) (hnil : rest = [] → Writing f h o s.fp D) :
    wp (wrtbinTail B (o / 128) rest)
      (fun _ s' => ∃ D', S.On file u D' s'.fp s'.os ∧ Writing (splice f o rest) h (o + rest.length) s'.fp D')
      (fun _ _ => False) s := by
  refine wp_mono (wp_wrtbinTail_on hon) (fun _ s' hs' => ?_) fun _ _ hfail => ?_
  · split_ifs at hs' with hne
    · subst hs' hne
      rw [splice_nil]
      exact ⟨D, hon, hnil rfl⟩
    · obtain ⟨halign, rfl⟩ := hrest hne
      have hpos := List.length_pos_iff.mpr hne
      obtain ⟨hprep, -⟩ := preparedBuffer_flat hhi hoff hlenf (.inl halign)
      obtain ⟨-, fcb, os, rfl, hon'⟩ := hs'
      have hof : o ≤ f.length := by omega
      have hlen := length_splice hof rest
      have hdisk := update_diskOf (D := diskOf f) hof hne (by omega) hprep fun _ _ => rfl
      refine ⟨_, hon', hhi, ?_, by omega, fun _ => ?_, ?_⟩
      · simp only
        omega
      · simp only
        omega
      · rw [flushed_of_dirty rfl, Int.toNat_natCast, ← hdisk, halign]
  · obtain ⟨⟨hne, hbelow, hnone⟩, -⟩ := hfail
    obtain ⟨halign, rfl⟩ := hrest hne
    exact (preparedBuffer_flat hhi hoff hlenf (.inl halign)).2.elim hbelow fun h => h hnone

/-- The transfer of whole sectors overwrites the file. -/
theorem wholeRecords_flat {f rest : List UInt8} {o : ℕ} (hof : o ≤ f.length) (halign : o % 128 = 0)
    (hout : ∀ j, ¬ (o / 128 ≤ j ∧ j < o / 128 + rest.length / 128) → D j = diskOf f j) :
    wholeRecords D (o / 128) rest = diskOf (splice f o (rest.take (128 * (rest.length / 128)))) := by
  have htake : (rest.take (128 * (rest.length / 128))).length = 128 * (rest.length / 128) := by
    rw [List.length_take]
    omega
  have hput := putRun_blocks (d := (0 : UInt8)) (b := 128) (by omega) (by omega) htake hout
  rwa [show 128 * (o / 128) = o by omega, ← sectorsOf_take] at hput

theorem wp_wrtbinRest_nil {xsector : ℕ} {Q : PUnit → Io σ → Prop} {E : Errno → Io σ → Prop} :
    wp (wrtbinRest B xsector []) Q E s = Q ⟨⟩ s := rfl

/-- The part of a write that does not go through the buffer first. -/
theorem wp_wrtbinRest_flat {f : List UInt8} {h o xsector : ℕ} (rest : List UInt8) (hon : S.On file u D s.fp s.os)
    (hw : Buffered f h o rest xsector s.fp D) (hsmall : o + rest.length < 2 ^ 23) (hbytes : rest.length < 2 ^ 16)
    (hcap : o + rest.length ≤ 128 * S.cap) :
    wp (wrtbinRest B xsector rest)
      (fun _ s' => ∃ D', S.On file u D' s'.fp s'.os ∧ Writing (splice f o rest) h (o + rest.length) s'.fp D')
      (fun _ _ => False) s := by
  by_cases hnil : rest = []
  · subst hnil
    rw [wp_wrtbinRest_nil, splice_nil]
    exact ⟨D, hon, hw.toWriting⟩
  obtain ⟨halign, rfl⟩ := hw.aligned hnil
  have hstale := hw.stale hnil
  have hoff := hw.offset
  have hlenf := hw.length
  have hof : o ≤ f.length := by omega
  have htake : (rest.take (128 * (rest.length / 128))).length = 128 * (rest.length / 128) := by
    rw [List.length_take]
    omega
  have hdrop : (rest.drop (128 * (rest.length / 128))).length = rest.length % 128 := by
    rw [List.length_drop]
    omega
  have hlen := length_splice hof (rest.take (128 * (rest.length / 128)))
  rw [htake] at hlen
  have hwhole : wholeRecords D (o / 128) rest = diskOf (splice f o (rest.take (128 * (rest.length / 128)))) := by
    refine wholeRecords_flat hof halign fun j hj => ?_
    rw [← hw.disk]
    cases hd : s.fp.flags.DIRTY with
    | true =>
      have := hstale hd
      rw [flushed_of_dirty hd, this.1, Int.toNat_natCast, Function.update_of_ne (by omega)]
    | false => rw [flushed_of_clean hd]
  refine wp_wrtbinRest_on hon (by omega) hbytes (by omega) fun fcb os s₁ hs₁ hon₁ => ?_
  rw [hwhole] at hon₁
  have hoff₁ : s₁.fp.offset = (o + 128 * (rest.length / 128) : ℕ) := by
    rw [hs₁]
    simp only
    omega
  have hhi₁ : s₁.fp.hiwater = h := hs₁ ▸ hw.hiwater
  have htail := wp_wrtbinTail_flat (rest.drop (128 * (rest.length / 128))) hon₁ hhi₁ hoff₁ (by omega) (by omega)
    (fun _ => ⟨by omega, rfl⟩) fun hend => ?_
  · have hjoin := splice_splice hof (rest.take (128 * (rest.length / 128))) (rest.drop (128 * (rest.length / 128)))
    rw [htake, List.take_append_drop] at hjoin
    rw [hjoin, hdrop, show o + 128 * (rest.length / 128) + rest.length % 128 = o + rest.length by omega,
      show (o + 128 * (rest.length / 128)) / 128 = tailSector (o / 128) rest.length by unfold tailSector; omega] at htail
    exact htail
  · -- the buffer is as it was
    have hzero : rest.length % 128 = 0 := by rw [← hdrop, hend, List.length_nil]
    have hclean : s₁.fp.flags.DIRTY = false := by
      by_contra hd
      rw [hs₁] at hd
      exact (hstale (by simpa using hd)).2.2 hzero
    refine ⟨hhi₁, hoff₁, by omega, fun hd => ?_, flushed_of_clean hclean⟩
    rw [hclean] at hd
    cases hd

/-- **`_wrtbin` overwrites the file** at the offset, and the offset moves on. -/
theorem wp_wrtbin_flat {f data : List UInt8} (hon : S.On file u D s.fp s.os) (hf : Flat f s.fp D)
    (hok : WriteOk s.fp D data.length) (hdata : data ≠ []) (hbytes : data.length < 2 ^ 16)
    (hsmall : s.fp.offset + data.length < 2 ^ 23) (hcap : s.fp.offset + data.length ≤ 128 * S.cap)
    (hfcap : f.length ≤ 128 * S.cap) :
    wp (wrtbin B data)
      (fun ret s' => ret = data.length ∧ s'.fp.offset = s.fp.offset + data.length ∧ ∃ D', S.On file u D' s'.fp s'.os ∧
        Flat (splice f s.fp.offset.toNat data) s'.fp D')
      (fun _ _ => False) s := by
  obtain ⟨o, ho⟩ : ∃ o, s.fp.offset.toNat = o := ⟨_, rfl⟩
  have hoff := hf.writing.offset
  have hin := hf.inside
  have hn := List.length_pos_iff.mpr hdata
  have hx : o / 128 % 2 ^ 16 = o / 128 := by omega
  have hclean := wp_wrtbinClean_flat hon hf hok hfcap
  rw [ho] at hoff hclean ⊢
  have hdrop : ∀ n, (data.drop n).length = data.length - n := fun n => List.length_drop
  refine wp_wrtbin_stages hoff hdata (by rw [hx]; exact hclean)
    (P := fun s₃ => ∃ D', S.On file u D' s₃.fp s₃.os ∧ Writing (splice f o data) f.length (o + data.length) s₃.fp D')
    (fun hw s₁ h₁ => ?_) (fun nbs hnbs hw s₁ h₁ => ?_) fun s₃ h₃ => ?_
  · obtain ⟨D₁, hon₁, hr⟩ := h₁
    rw [hx]
    refine wp_wrtbinRest_flat data hon₁ ⟨hr.toWriting, fun _ => ⟨hw.1, rfl⟩, fun _ hd => ⟨hr.sector, hw.2, fun h0 => ?_⟩⟩
      (by omega) hbytes (by omega)
    rw [hr.whole hw h0] at hd
    cases hd
  · obtain ⟨D₁, hon₁, hr⟩ := h₁
    have htake : (data.take nbs).length = nbs := by
      rw [List.length_take]
      omega
    have hjoin := splice_splice (show o ≤ f.length by omega) (data.take nbs) (data.drop nbs)
    rw [htake, List.take_append_drop] at hjoin
    rw [hx]
    refine wp_mono (wp_wrtbinBuffer_put (data.take nbs) (data.drop nbs) hon₁ hr (hr.current hw)
      (List.length_pos_iff.mp (by omega)) (by omega) (by omega) (fun hne => ?_) (by omega)) ?_ (fun _ _ h => h)
    · have := List.length_pos_iff.mpr hne
      rw [hdrop] at this
      omega
    · rintro xsector s₂ ⟨D₂, hon₂, hbuf⟩
      rw [htake] at hbuf
      have hrest := wp_wrtbinRest_flat (data.drop nbs) hon₂ hbuf (by rw [hdrop]; omega) (by rw [hdrop]; omega)
        (by rw [hdrop]; omega)
      rwa [hjoin, hdrop, show o + nbs + (data.length - nbs) = o + data.length by omega] at hrest
  · obtain ⟨D₃, hon₃, hw⟩ := h₃
    have hlen := hw.length
    have hhi := hw.hiwater
    have hoff₃ := hw.offset
    refine ⟨by omega, ?_, D₃, ⟨hon₃.user, hon₃.id, hon₃.files⟩, ?_, ?_, ?_, hw.label, hw.disk⟩ <;> simp only <;> omega

end Cpm68k.Cpmlib
