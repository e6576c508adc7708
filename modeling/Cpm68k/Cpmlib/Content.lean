import Cpm68k.Cpmlib.OpenFile

/-!
# The file as a channel has it

The records on disk with the dirty buffer among them are what the file is to a program
(`Content`). Getting another sector into the buffer writes the buffer first when it is
dirty, and so does not change them.

## What is proved

* `wp_fetch` — the step that all routines share: the dirty buffer is written, and a sector
  is read into it.
* `keeps_rdbin`, `keeps_rdascLoop` — reading does not change the file.
* `wp_lseekFp_content`, `wp_fstatFp_content` — nor does looking for its end.
-/

namespace Cpm68k.Cpmlib

open Cpm68k.Library RecordStore

variable {σ : Type} {B : Osif σ} {S : RecordStore B} {file : FileId} {u : UInt16} {E : ℕ → Option Sector} {c : Prop}
  {s : Io σ}

/-- On the channel the file has the records `E`. If `c` holds, a buffer that is not dirty is
what the disk has in its sector. -/
def Content (S : RecordStore B) (file : FileId) (u : UInt16) (E : ℕ → Option Sector) (c : Prop) (fp : Ccb) (os : σ) :
    Prop :=
  ∃ D, S.On file u D fp os ∧ Labelled S.cap fp ∧ flushed D fp = E ∧ (c → Coherent fp D)

/-- With a buffer that is not dirty, these are the records on disk. -/
theorem content_of_clean {fp : Ccb} {os : σ} (hon : S.On file u E fp os) (hclean : fp.flags.DIRTY = false)
    (hc : c → Coherent fp E) : Content S file u E c fp os := by
  refine ⟨E, hon, fun hd => ?_, flushed_of_clean hclean, hc⟩
  rw [hclean] at hd
  cases hd

/-- The content does not depend on the offset, the high water mark and the end of file flag. -/
theorem Content.of_eq {fp fp' : Ccb} {os : σ} (h : Content S file u E c fp os) (hfcb : fp'.fcb = fp.fcb)
    (huser : fp'.user = fp.user) (hdirty : fp'.flags.DIRTY = fp.flags.DIRTY) (hsec : fp'.sector = fp.sector)
    (hbuf : fp'.buffer = fp.buffer) : Content S file u E c fp' os := by
  obtain ⟨D, hon, hl, hE, hc⟩ := h
  refine ⟨D, ⟨hon.user, ?_, hon.files⟩, ?_, ?_, fun hp => ?_⟩
  · rw [hfcb, huser]
    exact hon.id
  · unfold Labelled
    rw [hdirty, hsec]
    exact hl
  · unfold flushed at hE ⊢
    rw [hdirty, hsec, hbuf]
    exact hE
  · have := hc hp
    unfold Coherent at this ⊢
    rw [hdirty, hsec, hbuf]
    exact this

/-- A buffer with the label of a sector of the file is that sector. -/
theorem Content.buffer_eq {fp : Ccb} {os : σ} (h : Content S file u E True fp os) {k : ℕ} (hsec : fp.sector = k) {r : Sector}
    (hr : E k = some r) : fp.buffer = r := by
  obtain ⟨D, hon, hl, hE, hc⟩ := h
  rw [← hE] at hr
  cases hd : fp.flags.DIRTY with
  | false =>
    rw [flushed_of_clean hd] at hr
    exact hc trivial hd k hsec r hr
  | true =>
    rw [flushed_of_dirty hd, hsec, Int.toNat_natCast, Function.update_self] at hr
    exact Option.some.inj hr

/-- What getting sector `k` into the buffer leaves, whether it could be found. -/
structure Fetched (S : RecordStore B) (file : FileId) (u : UInt16) (E : ℕ → Option Sector) (c : Prop) (k : ℕ) (s : Io σ)
    (found : Bool) (s' : Io σ) : Prop where
  found : found = (E k).isSome
  on : S.On file u E s'.fp s'.os
  same : ∃ fcb os, s' = { s with
    fp := { s.fp with fcb := fcb, flags := { s.fp.flags with DIRTY := false }, buffer := (E k).getD s.fp.buffer }
    os := os }
  absent : E k = none → Content S file u E c s'.fp s'.os
  present : E k ≠ none → Content S file u E c { s'.fp with sector := k } s'.os

/-- The dirty buffer is written, and a sector is read into it. -/
theorem wp_fetch {α : Type} {rest : Bool → IoM σ α} {Q : α → Io σ → Prop} {Ex : Errno → Io σ → Prop} {k : ℕ}
    (h : Content S file u E c s.fp s.os) (hQ : ∀ found s', Fetched S file u E c k s found s' → wp (rest found) Q Ex s') :
    wp (do
      flush B
      let found ← readBuffer B k
      rest found) Q Ex s := by
  obtain ⟨D, hon, hl, hE, hc⟩ := h
  rw [wp_bind]
  refine wp_mono (wp_flush hon hl) ?_ (fun _ _ h => h.elim)
  rintro _ _ ⟨fcb, os, rfl, hon'⟩
  rw [hE] at hon'
  rw [wp_bind]
  refine wp_mono (wp_readBuffer k hon') ?_ (fun _ _ h => h.elim)
  rintro found _ ⟨rfl, fcb, os, rfl, hon''⟩
  refine hQ _ _ ⟨rfl, hon'', ⟨fcb, os, rfl⟩, fun hnone => ?_, fun hsome => ?_⟩
  · refine content_of_clean hon'' rfl fun hp _ j hj r hr => ?_
    rw [hnone, Option.getD_none]
    cases hd : s.fp.flags.DIRTY with
    | false =>
      rw [flushed_of_clean hd] at hE
      exact hc hp hd j hj r (hE ▸ hr)
    | true =>
      rw [flushed_of_dirty hd] at hE
      have hj' : s.fp.sector.toNat = j := by
        simp only at hj
        omega
      rw [← hE, hj', Function.update_self] at hr
      exact Option.some.inj hr
  · obtain ⟨r, hr⟩ := Option.ne_none_iff_exists'.mp hsome
    refine content_of_clean ⟨hon''.user, hon''.id, hon''.files⟩ rfl fun _ _ j hj r' hr' => ?_
    obtain rfl : k = j := by
      simp only at hj
      omega
    simp only [hr, Option.getD_some]
    exact Option.some.inj (hr.symm.trans hr')

/-! ### Reading -/

/-- The content of the file, at an offset that is not negative. -/
def ContentAt (S : RecordStore B) (file : FileId) (u : UInt16) (E : ℕ → Option Sector) (c : Prop) (s : Io σ) : Prop :=
  0 ≤ s.fp.offset ∧ Content S file u E c s.fp s.os

/-- No sector was there to be fetched. -/
theorem Fetched.absentAt {found : Bool} {s' : Io σ} (hf : Fetched S file u E c k s found s') (hoff : 0 ≤ s.fp.offset)
    (h : found = false) : ContentAt S file u E c s' := by
  obtain ⟨fcb, os, hs'⟩ := hf.same
  refine ⟨by rw [hs']; exact hoff, hf.absent (Option.not_isSome_iff_eq_none.mp ?_)⟩
  rw [← hf.found, h]
  decide

/-- The sector that was fetched gets its label. -/
theorem Fetched.presentAt {found : Bool} {s' : Io σ} (hf : Fetched S file u E c k s found s') (hoff : 0 ≤ s.fp.offset)
    (h : found ≠ false) : ContentAt S file u E c { s' with fp := { s'.fp with sector := k } } := by
  obtain ⟨fcb, os, hs'⟩ := hf.same
  refine ⟨by rw [hs']; exact hoff, hf.present fun hnone => h ?_⟩
  rw [hf.found, hnone]
  rfl

theorem keeps_setAteof : Keeps (ContentAt S file u E c) (setAteof : IoM σ PUnit) :=
  Keeps.modify fun _ h => ⟨h.1, h.2.of_eq rfl rfl rfl rfl rfl⟩

theorem keeps_raiseHiwater : Keeps (ContentAt S file u E c) (raiseHiwater : IoM σ PUnit) := by
  intro s h
  rw [wp_raiseHiwater]
  exact ⟨h.1, h.2.of_eq rfl rfl rfl rfl rfl⟩

/-- The offset moves on. -/
theorem keeps_advance {f : Ccb → ℕ} :
    Keeps (ContentAt S file u E c) (setFp fun fp => { fp with offset := fp.offset + f fp } : IoM σ PUnit) :=
  Keeps.modify fun s h => ⟨by have := h.1; simp only; omega, h.2.of_eq rfl rfl rfl rfl rfl⟩

theorem keeps_store (bs : List UInt8) : Keeps (ContentAt S file u E c) (store bs : IoM σ PUnit) := Keeps.modify fun _ h => h

/-- Reading sectors for the user. -/
theorem keeps_blkioRead (k n : ℕ) : Keeps (ContentAt S file u E c) (blkioRead B k n) := by
  rintro s ⟨hoff, D, hon, hl, hE, hc⟩
  refine wp_mono (wp_blkioRead n hon) ?_ (fun _ _ h => h.elim)
  rintro _ _ ⟨-, fcb, os, rfl, hon'⟩
  exact ⟨hoff, D, hon', hl, hE, hc⟩

theorem keeps_rdbinBuffer (bytes : ℕ) : Keeps (ContentAt S file u E c) (rdbinBuffer B bytes) := by
  rintro s ⟨hoff, hcont⟩
  obtain ⟨k, hk⟩ : ∃ k : ℕ, s.fp.offset / 128 = k := ⟨(s.fp.offset / 128).toNat, by omega⟩
  rw [rdbinBuffer, wp_bind, wp_get]
  simp only
  rw [hk]
  have hload : wp (whenever (s.fp.sector ≠ k) do
      flush B
      let found ← readBuffer B k
      whenever (found = false) (throw Errno.EIO)
      setFp fun fp => { fp with sector := k }) (fun _ => ContentAt S file u E c) (fun _ => ContentAt S file u E c) s := by
    rw [wp_whenever]
    split_ifs
    · refine wp_fetch hcont fun found s' hf => ?_
      rw [wp_bind, wp_whenever]
      split_ifs with hnone
      · exact hf.absentAt hoff hnone
      · exact hf.presentAt hoff hnone
    · exact ⟨hoff, hcont⟩
  rw [wp_bind]
  refine wp_mono hload (fun _ s' hs' => ?_) (fun _ _ h => h)
  exact (Keeps.get.bind fun s => (keeps_store _).bind fun _ => keeps_advance.bind fun _ => Keeps.pure _) s' hs'

theorem keeps_rdbinTail (xbytes bytes k : ℕ) : Keeps (ContentAt S file u E c) (rdbinTail B xbytes bytes k) := by
  rintro s ⟨hoff, hcont⟩
  rw [rdbinTail]
  refine wp_fetch hcont fun found s' hf => ?_
  rw [wp_ite]
  split_ifs with hnone
  · exact (keeps_setAteof.bind fun _ => Keeps.pure _) s' (hf.absentAt hoff hnone)
  · obtain ⟨hoff', hpresent⟩ := hf.presentAt hoff hnone
    rw [wp_bind, wp_setFp]
    refine (Keeps.get.bind fun _ => (keeps_store _).bind fun _ => keeps_raiseHiwater.bind fun _ => Keeps.pure _) _
      ⟨?_, hpresent.of_eq rfl rfl rfl rfl rfl⟩
    simp only at hoff' ⊢
    omega

theorem keeps_rdbinSectors (xbytes bytes k : ℕ) : Keeps (ContentAt S file u E c) (rdbinSectors B xbytes bytes k) := by
  refine Keeps.bind (Keeps.ite (keeps_blkioRead k _) (Keeps.pure _)) fun records => ?_
  refine Keeps.bind ?_ fun _ => (keeps_store _).bind fun _ => keeps_raiseHiwater.bind fun _ =>
    Keeps.ite (keeps_setAteof.bind fun _ => Keeps.pure _) (Keeps.ite (Keeps.pure _) ?_)
  · exact Keeps.modify fun s h => ⟨by have := h.1; simp only; omega, h.2.of_eq rfl rfl rfl rfl rfl⟩
  · rw [← Nat.cast_add]
    exact keeps_rdbinTail _ _ _

/-- `_rdbin` does not change the file. -/
theorem keeps_rdbin (bytes : ℕ) : Keeps (ContentAt S file u E c) (rdbin B bytes) := by
  intro s hs
  obtain ⟨k, hk⟩ : ∃ k : ℕ, s.fp.offset / 128 = k := ⟨(s.fp.offset / 128).toNat, by have := hs.1; omega⟩
  rw [rdbin, wp_bind, wp_get]
  simp only [hk]
  refine Keeps.ite (Keeps.bind (keeps_rdbinBuffer _) fun left =>
    Keeps.ite (keeps_raiseHiwater.bind fun _ => Keeps.pure _) ?_) (keeps_rdbinSectors _ _ _) s hs
  have hsectors : Keeps (ContentAt S file u E c) (rdbinSectors B bytes left (k + 1 : ℕ)) := keeps_rdbinSectors _ _ _
  exact_mod_cast hsectors

theorem keeps_rdascSector : Keeps (ContentAt S file u E c) (rdascSector B) := by
  rintro s ⟨hoff, hcont⟩
  obtain ⟨k, hk⟩ : ∃ k : ℕ, s.fp.offset / 128 = k := ⟨(s.fp.offset / 128).toNat, by omega⟩
  rw [rdascSector, wp_bind, wp_get]
  simp only [hk, wp_ite]
  split_ifs
  · refine wp_fetch hcont fun found s' hf => ?_
    rw [wp_ite]
    split_ifs with hnone
    · exact (keeps_setAteof.bind fun _ => Keeps.pure _) s' (hf.absentAt hoff hnone)
    · rw [wp_bind, wp_setFp, wp_pure]
      exact hf.presentAt hoff hnone
  · exact ⟨hoff, hcont⟩

theorem keeps_rdascLoop (xbytes fuel bytes : ℕ) : Keeps (ContentAt S file u E c) (rdascLoop B xbytes fuel bytes) := by
  induction fuel generalizing bytes with
  | zero => exact Keeps.pure _
  | succ fuel ih =>
    refine Keeps.ite (keeps_rdascSector.bind fun _ => Keeps.ite (Keeps.pure _) ?_) (keeps_raiseHiwater.bind fun _ => Keeps.pure _)
    refine Keeps.get.bind fun s => (keeps_store _).bind fun _ => keeps_advance.bind fun _ => Keeps.ite ?_ (ih _)
    exact keeps_setAteof.bind fun _ => keeps_raiseHiwater.bind fun _ => Keeps.pure _

/-! ### Looking for the end -/

/-- `_filesz` does not change the file. -/
theorem wp_fileszFp_content (htty : s.fp.flags.ISTTY = false) (hlpt : s.fp.flags.ISLPT = false)
    (hc : s.fp.flags.ISASCII = true → c) (h : Content S file u E c s.fp s.os) :
    wp (fileszFp B) (fun _ s' => Content S file u E c s'.fp s'.os) (fun _ _ => False) s := by
  cases hd : s.fp.flags.DIRTY with
  | true =>
    rw [wp_fileszFp_dirty htty hlpt hd]
    exact h.of_eq rfl rfl rfl rfl rfl
  | false =>
    obtain ⟨D, hon, -, hE, hcoh⟩ := h
    rw [flushed_of_clean hd] at hE
    subst hE
    obtain ⟨n, -, hn⟩ := exists_isSize (S.bounded _ _ _ hon.files)
    refine wp_mono (wp_fileszFp_clean htty hlpt hon hd (fun ha => hcoh (hc ha)) hn) ?_ (fun _ _ h => h)
    rintro _ _ ⟨-, fcb, os, sector, buffer, rfl, hon', hcoh', -⟩
    exact content_of_clean hon' hd fun hp => hcoh' (hcoh hp)

/-- `lseek` does not change the file. -/
theorem wp_lseekFp_content (offs sense : ℤ) (htty : s.fp.flags.ISTTY = false) (hlpt : s.fp.flags.ISLPT = false)
    (hc : s.fp.flags.ISASCII = true → c) (h : Content S file u E c s.fp s.os) :
    wp (lseekFp B offs sense) (fun _ s' => Content S file u E c s'.fp s'.os)
      (fun _ s' => Content S file u E c s'.fp s'.os) s := by
  have hlast : ∀ s' : Io σ, Content S file u E c s'.fp s'.os → wp (do
      setFp fun fp =>
        { fp with
          flags := { fp.flags with ATEOF := false }, offset := if fp.offset < 0 then -1 else fp.offset }
      let s ← get
      pure s.fp.offset) (fun _ s' => Content S file u E c s'.fp s'.os) (fun _ s' => Content S file u E c s'.fp s'.os) s' :=
    fun s' h' => h'.of_eq rfl rfl rfl rfl rfl
  unfold lseekFp lseekOffset
  rw [wp_bind]
  split_ifs
  · exact hlast _ (h.of_eq rfl rfl rfl rfl rfl)
  · exact hlast _ (h.of_eq rfl rfl rfl rfl rfl)
  · rw [wp_bind, wp_orFailure]
    refine wp_mono (wp_fileszFp_content htty hlpt hc h) (fun _ s' h' => ?_) (fun _ _ h => h.elim)
    exact hlast _ (h'.of_eq rfl rfl rfl rfl rfl)
  · exact h

/-- `fstat` does not change the file. -/
theorem wp_fstatFp_content (htty : s.fp.flags.ISTTY = false) (hlpt : s.fp.flags.ISLPT = false)
    (hc : s.fp.flags.ISASCII = true → c) (h : Content S file u E c s.fp s.os) :
    wp (fstatFp B) (fun _ s' => s'.fp.offset = s.fp.offset ∧ Content S file u E c s'.fp s'.os) (fun _ _ => False) s := by
  rw [fstatFp, wp_bind, wp_get, wp_ite]
  split_ifs
  · exact ⟨rfl, h⟩
  · rw [wp_bind, wp_orFailure]
    refine wp_mono (wp_fileszFp_content htty hlpt hc h) (fun _ s' h' => ?_) (fun _ _ h => h.elim)
    exact ⟨rfl, h'.of_eq rfl rfl rfl rfl rfl⟩

end Cpm68k.Cpmlib
