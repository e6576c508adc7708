import Cpm68k.Cpmlib.LastWriter

/-!
# Writing without seeking

A program that only writes never comes back to a sector that is full, so `_wrtbin` never
finds a buffer that is not current.

## What is proved

* `wp_wrtbin_sequential` — after writes only, a dirty buffer is the sector of the offset,
  and a clean one has the label of an earlier sector.
* `Sequential.writeOk` — that is enough for the next write.
-/

namespace Cpm68k.Cpmlib

open Cpm68k.Library RecordStore

variable {σ : Type} {B : Osif σ} {s : Io σ}

/-- The channel has only been written to: where the label of its buffer is. -/
structure Sequential (fp : Ccb) : Prop where
  dirty : fp.flags.DIRTY = true → fp.sector = fp.offset / 128 ∧ fp.offset % 128 ≠ 0
  clean : fp.flags.DIRTY = false → fp.sector < fp.offset / 128

theorem Sequential.writeOk {fp : Ccb} (h : Sequential fp) (D : ℕ → Option Sector) (n : ℕ) : WriteOk fp D n := by
  intro hsec
  cases hd : fp.flags.DIRTY with
  | false =>
    have := h.clean hd
    omega
  | true =>
    rw [if_neg fun hw => (h.dirty hd).2 hw.1]
    exact .inl rfl

/-- What the label of the buffer depends on. -/
def Ccb.place (fp : Ccb) : Flags × ℤ × ℤ := (fp.flags, fp.offset, fp.sector)

theorem place_eq {fp fp' : Ccb} (h : fp.place = fp'.place) :
    fp.flags = fp'.flags ∧ fp.offset = fp'.offset ∧ fp.sector = fp'.sector := by
  simpa only [Ccb.place, Prod.mk.injEq] using h

theorem keepsPlace_prepareBuffer (xsector : ℤ) : KeepsFp Ccb.place (prepareBuffer B xsector) :=
  .prepareBuffer (fun _ _ => rfl) (fun _ _ => rfl) _

theorem keepsPlace_writeBuffer (xsector : ℤ) : KeepsFp Ccb.place (writeBuffer B xsector) :=
  .writeBuffer (fun _ _ => rfl) _

theorem keepsPlace_blkioWrite (xsector : ℤ) (buffer : List Sector) : KeepsFp Ccb.place (blkioWrite B xsector buffer) :=
  .blkioWrite (fun _ _ => rfl) _ _

variable {o : ℕ}

/-- Between the transfer to the buffer and the transfer of whole sectors, with `rest` to go. -/
structure AtBoundary (o : ℕ) (rest : List UInt8) (fp : Ccb) : Prop where
  offset : fp.offset = o
  aligned : o % 128 = 0
  clean : fp.flags.DIRTY = false
  sector : fp.sector ≤ (o / 128 : ℕ)
  below : rest.length < 128 → fp.sector < (o / 128 : ℕ)

theorem wp_wrtbinClean_sequential (hseq : Sequential s.fp) (ho : s.fp.offset = o) :
    wp (wrtbinClean B (o / 128))
      (fun _ s' => s'.fp.offset = o ∧ s'.fp.sector = (o / 128 : ℕ) ∧ (s'.fp.flags.DIRTY = true → o % 128 ≠ 0))
      (fun _ _ => True) s := by
  rw [wrtbinClean, wp_bind, wp_get, wp_whenever]
  split_ifs with hsec
  · have hclean : s.fp.flags.DIRTY = false := by
      by_contra hd
      have := (hseq.dirty (by simpa using hd)).1
      omega
    rw [wp_bind, wp_whenever, if_neg (by simp [hclean]), wp_bind]
    refine wp_mono (keepsPlace_prepareBuffer _ _ s rfl) ?_ (fun _ _ _ => trivial)
    intro _ s' hs'
    obtain ⟨-, hoff, -⟩ := place_eq hs'
    exact ⟨hoff.trans ho, rfl, fun hd => absurd hd Bool.false_ne_true⟩
  · refine ⟨ho, by omega, fun hd => ?_⟩
    have := (hseq.dirty hd).2
    omega

theorem wp_wrtbinBuffer_sequential {data : List UInt8} {nbs : ℕ} (hdata : data ≠ [])
    (hnbs : nbs = wrtbinCount (o % 128) data.length) (ho : s.fp.offset = o) (hsec : s.fp.sector = (o / 128 : ℕ))
    (hd : s.fp.flags.DIRTY = true → o % 128 ≠ 0) (hsmall : o + data.length < 2 ^ 23) :
    wp (wrtbinBuffer B (o / 128) (data.take nbs))
      (fun xsector s' => data.drop nbs = [] ∧ Sequential s'.fp ∨
        AtBoundary (o + nbs) (data.drop nbs) s'.fp ∧ (data.drop nbs ≠ [] → xsector = (o + nbs) / 128))
      (fun _ _ => True) s := by
  have hn := List.length_pos_iff.mpr hdata
  rw [wrtbinCount_eq hn] at hnbs
  have hpos : bufPos s.fp = o % 128 := by
    unfold bufPos
    omega
  by_cases hw : o % 128 = 0 ∧ 128 ≤ data.length
  · rw [if_pos hw] at hnbs
    subst hnbs
    have hclean : s.fp.flags.DIRTY = false := by
      by_contra hdirty
      exact hd (by simpa using hdirty) hw.1
    refine .inr ⟨⟨ho, hw.1, hclean, hsec.le, fun hlt => ?_⟩, fun _ => rfl⟩
    rw [List.drop_zero] at hlt
    omega
  · rw [if_neg hw] at hnbs
    have hlen : (data.take nbs).length = nbs := by
      rw [List.length_take]
      omega
    rw [wrtbinBuffer, wp_bind, wp_get]
    simp only [hlen, hpos, wp_ite, if_pos (show nbs > 0 by omega), wp_bind, wp_setFp, wp_pure]
    split_ifs with hfull
    · refine .inl ⟨List.drop_eq_nil_of_le (by omega), fun _ => ?_, fun hd => absurd hd (by simp)⟩
      simp only
      omega
    · refine wp_mono (keepsPlace_writeBuffer _ _ _ rfl) ?_ (fun _ _ _ => trivial)
      intro _ s' hs'
      obtain ⟨-, hoff, -⟩ := place_eq hs'
      refine .inr ⟨⟨?_, by omega, rfl, ?_, fun _ => ?_⟩, fun _ => by omega⟩
      · simp only [hoff]
        omega
      · simp only
        omega
      · simp only
        omega

theorem wp_wrtbinTail_sequential {rest : List UInt8} (hfit : rest.length < 128) (hb : AtBoundary o rest s.fp) :
    wp (wrtbinTail B (o / 128) rest) (fun _ s' => Sequential s'.fp) (fun _ _ => True) s := by
  have hoff := hb.offset
  have halign := hb.aligned
  rw [wrtbinTail, wp_whenever]
  split_ifs with hrest
  · rw [wp_bind]
    refine wp_mono (keepsPlace_prepareBuffer _ _ s rfl) ?_ (fun _ _ _ => trivial)
    intro _ s' hs'
    obtain ⟨-, hoff', -⟩ := place_eq hs'
    refine ⟨fun _ => ?_, fun hd => absurd hd (by simp)⟩
    simp only [hoff']
    omega
  · refine ⟨fun hd => ?_, fun _ => ?_⟩
    · rw [hb.clean] at hd
      cases hd
    · have := hb.below hfit
      omega

theorem wp_wrtbinRest_sequential {rest : List UInt8} (hb : AtBoundary o rest s.fp) (hsmall : o + rest.length < 2 ^ 23)
    (hbytes : rest.length < 2 ^ 16) :
    wp (wrtbinRest B (o / 128) rest) (fun _ s' => Sequential s'.fp) (fun _ _ => True) s := by
  have hoff := hb.offset
  have halign := hb.aligned
  have hsec := hb.sector
  rw [wrtbinRest, wp_ite]
  split_ifs with hlong
  · have hn : rest.length / 128 % 2 ^ 16 = rest.length / 128 := by omega
    have hm : rest.length / 128 * 128 % 2 ^ 16 = 128 * (rest.length / 128) := by omega
    have hx : (o / 128 + rest.length / 128) % 2 ^ 16 = (o + 128 * (rest.length / 128)) / 128 := by omega
    simp only [hn, hm, wrtbinLeft_of_lt hbytes, wrtbinSectors, wp_bind]
    refine wp_mono (keepsPlace_blkioWrite _ _ _ s rfl) ?_ (fun _ _ _ => trivial)
    intro _ s' hs'
    obtain ⟨hflags, hoff', hsec'⟩ := place_eq hs'
    rw [wp_bind, wp_whenever]
    split_ifs
    · trivial
    · rw [wp_bind, wp_setFp, wp_pure, hx]
      have hlen : (rest.drop (128 * (rest.length / 128))).length = rest.length % 128 := by
        rw [List.length_drop]
        omega
      refine wp_wrtbinTail_sequential (by omega) ⟨?_, by omega, ?_, ?_, fun _ => ?_⟩
      · simp only [hoff']
        omega
      · exact (congrArg Flags.DIRTY hflags).trans hb.clean
      · simp only [hsec']
        omega
      · simp only [hsec']
        omega
  · exact wp_wrtbinTail_sequential (by omega) hb

/-- A write leaves the label of the buffer where writes leave it. -/
theorem wp_wrtbin_sequential {data : List UInt8} (hseq : Sequential s.fp) (ho : s.fp.offset = o) (hdata : data ≠ [])
    (hbytes : data.length < 2 ^ 16) (hsmall : o + data.length < 2 ^ 23) :
    wp (wrtbin B data) (fun _ s' => Sequential s'.fp) (fun _ _ => True) s := by
  have hxsector : (s.fp.offset / 128 % 2 ^ 16).toNat = o / 128 := by omega
  have hpos : bufPos s.fp = o % 128 := by
    unfold bufPos
    omega
  generalize hn : wrtbinCount (o % 128) data.length = nbs
  simp only [wrtbin, wp_bind, wp_get, hxsector, hpos, hn]
  refine wp_mono (wp_wrtbinClean_sequential hseq ho) ?_ (fun _ _ _ => trivial)
  rintro _ s₁ ⟨ho₁, hsec₁, hd₁⟩
  rw [wp_bind]
  refine wp_mono (wp_wrtbinBuffer_sequential hdata hn.symm ho₁ hsec₁ hd₁ hsmall) ?_ (fun _ _ _ => trivial)
  have hlast : ∀ s₂ : Io σ, Sequential s₂.fp → wp (do
      raiseHiwater
      pure ((data.length % 2 ^ 16 : ℕ) : ℤ)) (fun _ s' => Sequential s'.fp) (fun _ _ => True) s₂ := by
    intro s₂ h₂
    rw [wp_bind, wp_raiseHiwater]
    exact ⟨h₂.dirty, h₂.clean⟩
  have hnbs : nbs ≤ data.length := by
    rw [← hn, wrtbinCount_eq (List.length_pos_iff.mpr hdata)]
    split_ifs <;> omega
  rintro xsector s₂ (⟨hnil, h₂⟩ | ⟨h₂, hx⟩) <;> rw [wp_bind]
  · rw [hnil]
    exact hlast s₂ h₂
  · have hrest : wp (wrtbinRest B xsector (data.drop nbs)) (fun _ s' => Sequential s'.fp) (fun _ _ => True) s₂ := by
      by_cases hnil : data.drop nbs = []
      · rw [hnil] at h₂ ⊢
        have := h₂.below (by simp)
        have := h₂.offset
        refine ⟨fun hd => ?_, fun _ => by omega⟩
        rw [h₂.clean] at hd
        cases hd
      · rw [hx hnil]
        refine wp_wrtbinRest_sequential h₂ ?_ ?_ <;> rw [List.length_drop] <;> omega
    exact wp_mono hrest (fun _ s₃ h₃ => hlast s₃ h₃) (fun _ _ _ => trivial)

end Cpm68k.Cpmlib
