import Cpm68k.Cpmlib.FileIo
import Cpm68k.Cpmlib.UserNumber

/-!
# Numbers of sectors

The number -1 in `sector` says that no sector is in the buffer, and no sector has it: as long
as the offset is not negative, the routines ask for records from 0 on only.

## The model

`Sound K lo` says that the offset is at least `lo`, that the high water mark and the number of
a dirty sector are not negative, and that `K` holds of the BDOS, which transfers of records
from 0 on keep (`Admits`).

## What is proved

* `keepsSound_rdbin`, `keepsSound_wrtbin`, … — one lemma for each routine, from an offset that
  is not negative.
* `keepsSound_fileszDisk` — `_filesz`, from any offset.
-/

namespace Cpm68k.Cpmlib

open Cpm68k.Library

variable {σ : Type} {B : Osif σ} {K : σ → Prop} {lo : ℤ}

/-- `K` is kept by the BDOS, as long as records are transferred from 0 on. -/
structure Admits (B : Osif σ) (K : σ → Prop) : Prop where
  user : ∀ n os, K os → K (B.user n os).2
  file : ∀ g fcb os, K os → K (B.file g fcb os).2.2
  bRead : ∀ fcb os, 0 ≤ fcb.record → K os → K (B.bRead fcb os).2.2
  bWrite : ∀ fcb record os, 0 ≤ fcb.record → K os → K (B.bWrite fcb record os).2.2

/-- No negative number is where it would be taken for that of a sector. -/
structure Sound (K : σ → Prop) (lo : ℤ) (fp : Ccb) (os : σ) : Prop where
  offset : lo ≤ fp.offset
  hiwater : 0 ≤ fp.hiwater
  sector : -1 ≤ fp.sector
  dirty : fp.flags.DIRTY = true → 0 ≤ fp.sector
  os : K os

/-- A program keeps what is sound. -/
abbrev KeepsSound (K : σ → Prop) (lo : ℤ) {α : Type} (m : IoM σ α) : Prop := Keeps (fun s => Sound K lo s.fp s.os) m

theorem keepsSound_setFp {f : Ccb → Ccb} (hf : ∀ fp os, Sound K lo fp os → Sound K lo (f fp) os) : KeepsSound K lo (setFp f) :=
  Keeps.modify fun s hs => hf s.fp s.os hs

/-- A change of the file control block, of the buffer or of `ATEOF`. -/
theorem Sound.same {fp fp' : Ccb} {os : σ} (h : Sound K lo fp os) (ho : fp'.offset = fp.offset) (hh : fp'.hiwater = fp.hiwater)
    (hs : fp'.sector = fp.sector) (hd : fp'.flags.DIRTY = fp.flags.DIRTY) : Sound K lo fp' os :=
  ⟨ho ▸ h.offset, hh ▸ h.hiwater, hs ▸ h.sector, fun hd' => hs ▸ h.dirty (hd ▸ hd'), h.os⟩

theorem keepsSound_store (bs : List UInt8) : KeepsSound K lo (store bs) := Keeps.modify fun _ hs => hs

theorem keepsSound_setAteof : KeepsSound K lo (setAteof : IoM σ PUnit) := keepsSound_setFp fun _ _ h => h.same rfl rfl rfl rfl

theorem keepsSound_raiseHiwater : KeepsSound K lo (raiseHiwater : IoM σ PUnit) := by
  refine keepsSound_setFp fun fp os h => ?_
  have hhi := h.hiwater
  split_ifs
  · exact ⟨h.offset, by dsimp only; omega, h.sector, h.dirty, h.os⟩
  · exact h

/-- A program that looks at the state first. -/
theorem keepsSound_get {α : Type} {f : Io σ → IoM σ α}
    (h : ∀ s, Sound K lo s.fp s.os → wp (f s) (fun _ s' => Sound K lo s'.fp s'.os) (fun _ s' => Sound K lo s'.fp s'.os) s) :
    KeepsSound K lo (get >>= f) := h

section

variable (hK : Admits B K)

include hK

theorem keepsSound_chkuser : KeepsSound K lo (chkuserFp B) :=
  fun _ hs => ⟨hs.offset, hs.hiwater, hs.sector, hs.dirty, chkuser_keeps hK.user hs.os⟩

theorem keepsSound_uchkuser (xuser : Int16) : KeepsSound K lo (uchkuserFp B xuser) :=
  fun _ hs => ⟨hs.offset, hs.hiwater, hs.sector, hs.dirty, uchkuser_keeps hK.user hs.os⟩

theorem keepsSound_readLoop {sector : ℤ} (hsec : 0 ≤ sector) (count : ℕ) : KeepsSound K lo (readLoop B sector count) := by
  induction count generalizing sector with
  | zero => exact .pure _
  | succ count ih =>
    intro s hs
    rw [readLoop, wp_bind, wp_setFp, wp_bind, wp_osifRead]
    have hs' : Sound K lo { s.fp with fcb := (B.bRead { s.fp.fcb with record := sector } s.os).2.1 }
        (B.bRead { s.fp.fcb with record := sector } s.os).2.2 :=
      ⟨hs.offset, hs.hiwater, hs.sector, hs.dirty, hK.bRead _ _ hsec hs.os⟩
    cases hcode : (B.bRead { s.fp.fcb with record := sector } s.os).1 with
    | error code => exact hs'
    | ok record => exact ((ih (by omega)).bind fun _ => .pure _) _ hs'

theorem keepsSound_writeLoop {sector : ℤ} (hsec : 0 ≤ sector) (buffer : List Sector) :
    KeepsSound K lo (writeLoop B sector buffer) := by
  induction buffer generalizing sector with
  | nil => exact .pure _
  | cons record buffer ih =>
    intro s hs
    rw [writeLoop, wp_bind, wp_setFp, wp_bind, wp_osifWrite]
    have hs' : Sound K lo { s.fp with fcb := (B.bWrite { s.fp.fcb with record := sector } record s.os).2.1 }
        (B.bWrite { s.fp.fcb with record := sector } record s.os).2.2 :=
      ⟨hs.offset, hs.hiwater, hs.sector, hs.dirty, hK.bWrite _ _ _ hsec hs.os⟩
    exact (Keeps.ite (.pure _) ((ih (by omega)).bind fun _ => .pure _)) _ hs'

theorem keepsSound_blkioRead {sector : ℤ} (hsec : 0 ≤ sector) (count : ℕ) : KeepsSound K lo (blkioRead B sector count) :=
  (keepsSound_chkuser hK).bind fun _ => (keepsSound_readLoop hK hsec count).bind fun _ =>
    (keepsSound_uchkuser hK _).bind fun _ => .pure _

theorem keepsSound_blkioWrite {sector : ℤ} (hsec : 0 ≤ sector) (buffer : List Sector) :
    KeepsSound K lo (blkioWrite B sector buffer) :=
  (keepsSound_chkuser hK).bind fun _ => (keepsSound_writeLoop hK hsec buffer).bind fun _ =>
    (keepsSound_uchkuser hK _).bind fun _ => .pure _

theorem keepsSound_writeBuffer {sector : ℤ} (hsec : 0 ≤ sector) : KeepsSound K lo (writeBuffer B sector) :=
  Keeps.get.bind fun _ => (keepsSound_blkioWrite hK hsec _).bind fun _ => .whenever (.throw _)

theorem keepsSound_readBuffer {xsector : ℤ} (hsec : 0 ≤ xsector) : KeepsSound K lo (readBuffer B xsector) := by
  refine (keepsSound_blkioRead hK hsec 1).bind fun records => ?_
  split
  · refine Keeps.bind ?_ fun _ => .pure _
    exact keepsSound_setFp fun _ _ h => h.same rfl rfl rfl rfl
  · exact .pure _

theorem keepsSound_needBuffer {xsector : ℤ} (hsec : 0 ≤ xsector) : KeepsSound K lo (do
    let found ← readBuffer B xsector
    whenever (found = false) (throw Errno.EIO)) :=
  (keepsSound_readBuffer hK hsec).bind fun _ => .whenever (.throw _)

/-- A dirty buffer belongs to a sector from 0 on. -/
theorem keepsSound_flush : KeepsSound K lo (flush B) := by
  intro s hs
  rw [flush, wp_bind, wp_get, wp_whenever]
  split_ifs with hd
  · refine ((keepsSound_writeBuffer hK (hs.dirty hd)).bind fun _ => keepsSound_setFp fun fp os h => ?_) s hs
    exact ⟨h.offset, h.hiwater, h.sector, fun hd' => absurd hd' (by simp), h.os⟩
  · exact hs

/-! ### Reading -/

theorem keepsSound_rdbinBuffer (bytes : ℕ) : KeepsSound K 0 (rdbinBuffer B bytes) := by
  refine keepsSound_get fun s hs => ?_
  have hoff := hs.offset
  have hsec : 0 ≤ s.fp.offset / 128 := by omega
  refine Keeps.bind (.whenever ((keepsSound_flush hK).bind fun _ => (keepsSound_readBuffer hK hsec).bind fun _ =>
    (Keeps.whenever (.throw _)).bind fun _ => ?_)) (fun _ => .bind .get fun s => (keepsSound_store _).bind fun _ =>
      Keeps.bind ?_ fun _ => .pure _) s hs
  · exact keepsSound_setFp fun fp os h => ⟨h.offset, h.hiwater, by dsimp only; omega, fun _ => hsec, h.os⟩
  · exact keepsSound_setFp fun fp os h => ⟨by have := h.offset; dsimp only; omega, h.hiwater, h.sector, h.dirty, h.os⟩

theorem keepsSound_rdbinTail (xbytes bytes : ℕ) {xsector : ℤ} (hsec : 0 ≤ xsector) :
    KeepsSound K 0 (rdbinTail B xbytes bytes xsector) := by
  refine (keepsSound_flush hK).bind fun _ => (keepsSound_readBuffer hK hsec).bind fun _ => .ite ?_ ?_
  · exact keepsSound_setAteof.bind fun _ => .pure _
  · refine Keeps.bind ?_ fun _ => Keeps.get.bind fun _ => (keepsSound_store _).bind fun _ =>
      keepsSound_raiseHiwater.bind fun _ => .pure _
    refine keepsSound_setFp fun fp os h => ?_
    have hoff := h.offset
    exact ⟨by dsimp only; omega, h.hiwater, by dsimp only; omega, fun _ => hsec, h.os⟩

theorem keepsSound_rdbinSectors (xbytes bytes : ℕ) {xsector : ℤ} (hsec : 0 ≤ xsector) :
    KeepsSound K 0 (rdbinSectors B xbytes bytes xsector) := by
  refine (Keeps.ite (keepsSound_blkioRead hK hsec _) (.pure _)).bind fun records => Keeps.bind ?_ fun _ =>
    (keepsSound_store _).bind fun _ => keepsSound_raiseHiwater.bind fun _ => .ite ?_ (.ite (.pure _) ?_)
  · refine keepsSound_setFp fun fp os h => ?_
    have hoff := h.offset
    exact ⟨by dsimp only; omega, h.hiwater, h.sector, h.dirty, h.os⟩
  · exact keepsSound_setAteof.bind fun _ => .pure _
  · exact keepsSound_rdbinTail hK _ _ (by omega)

theorem keepsSound_rdbin (bytes : ℕ) : KeepsSound K 0 (rdbin B bytes) := by
  refine keepsSound_get fun s hs => ?_
  have hoff := hs.offset
  refine Keeps.ite ((keepsSound_rdbinBuffer hK _).bind fun _ => .ite ?_ ?_) ?_ s hs
  · exact keepsSound_raiseHiwater.bind fun _ => .pure _
  · exact keepsSound_rdbinSectors hK _ _ (by omega)
  · exact keepsSound_rdbinSectors hK _ _ (by omega)

theorem keepsSound_rdascSector : KeepsSound K 0 (rdascSector B) := by
  refine keepsSound_get fun s hs => ?_
  have hoff := hs.offset
  have hsec : 0 ≤ s.fp.offset / 128 := by omega
  refine Keeps.ite ((keepsSound_flush hK).bind fun _ => (keepsSound_readBuffer hK hsec).bind fun _ => .ite ?_ ?_) (.pure _) s hs
  · exact keepsSound_setAteof.bind fun _ => .pure _
  · refine Keeps.bind ?_ fun _ => .pure _
    exact keepsSound_setFp fun fp os h => ⟨h.offset, h.hiwater, by dsimp only; omega, fun _ => hsec, h.os⟩

theorem keepsSound_rdascLoop (xbytes fuel bytes : ℕ) : KeepsSound K 0 (rdascLoop B xbytes fuel bytes) := by
  induction fuel generalizing bytes with
  | zero => exact .pure _
  | succ fuel ih =>
    refine .ite ((keepsSound_rdascSector hK).bind fun _ => .ite (.pure _) ?_) (keepsSound_raiseHiwater.bind fun _ => .pure _)
    refine Keeps.get.bind fun _ => (keepsSound_store _).bind fun _ => Keeps.bind ?_ fun _ => .ite ?_ (ih _)
    · exact keepsSound_setFp fun fp os h => ⟨by have := h.offset; dsimp only; omega, h.hiwater, h.sector, h.dirty, h.os⟩
    · exact keepsSound_setAteof.bind fun _ => keepsSound_raiseHiwater.bind fun _ => .pure _

/-! ### Writing -/

theorem keepsSound_prepareBuffer {xsector : ℤ} (hsec : 0 ≤ xsector) : KeepsSound K lo (prepareBuffer B xsector) := by
  refine Keeps.get.bind fun _ => .ite ?_ (keepsSound_needBuffer hK hsec)
  exact keepsSound_setFp fun _ _ h => h.same rfl rfl rfl rfl

theorem keepsSound_wrtbinClean (xsector : ℕ) : KeepsSound K 0 (wrtbinClean B xsector) := by
  refine keepsSound_get fun s hs => ?_
  rw [wp_whenever]
  split_ifs
  · rw [wp_bind, wp_whenever]
    have hrest : KeepsSound K 0 (do
        prepareBuffer B xsector
        setFp fun fp => { fp with flags := { fp.flags with DIRTY := false }, sector := xsector } : IoM σ PUnit) := by
      refine (keepsSound_prepareBuffer hK (Int.natCast_nonneg _)).bind fun _ => ?_
      exact keepsSound_setFp fun fp os h =>
        ⟨h.offset, h.hiwater, by dsimp only; omega, fun _ => Int.natCast_nonneg _, h.os⟩
    split_ifs with hd
    · exact wp_mono (keepsSound_writeBuffer hK (hs.dirty hd) s hs) (fun _ s' h => hrest s' h) (fun _ _ h => h)
    · exact hrest s hs
  · exact hs

theorem keepsSound_wrtbinBuffer (xsector : ℕ) (data : List UInt8) : KeepsSound K 0 (wrtbinBuffer B xsector data) := by
  refine Keeps.get.bind fun _ => .ite (Keeps.bind ?_ fun _ => .ite (Keeps.bind ?_ fun _ => .pure _) ?_) (.pure _)
  · exact keepsSound_setFp fun fp os h => ⟨by have := h.offset; dsimp only; omega, h.hiwater, h.sector, h.dirty, h.os⟩
  · exact keepsSound_setFp fun fp os h =>
      ⟨h.offset, h.hiwater, by dsimp only; omega, fun _ => Int.natCast_nonneg _, h.os⟩
  · refine (keepsSound_writeBuffer hK (Int.natCast_nonneg _)).bind fun _ => Keeps.bind ?_ fun _ => .pure _
    exact keepsSound_setFp fun fp os h => ⟨h.offset, h.hiwater, by dsimp only; omega, fun hd => absurd hd (by simp), h.os⟩

theorem keepsSound_wrtbinSectors (xsector nsector : ℕ) (data : List UInt8) :
    KeepsSound K 0 (wrtbinSectors B xsector nsector data) := by
  refine (keepsSound_blkioWrite hK (Int.natCast_nonneg _) _).bind fun _ => (Keeps.whenever (.throw _)).bind fun _ =>
    Keeps.bind ?_ fun _ => .pure _
  exact keepsSound_setFp fun fp os h => ⟨by have := h.offset; dsimp only; omega, h.hiwater, h.sector, h.dirty, h.os⟩

theorem keepsSound_wrtbinTail (xsector : ℕ) (data : List UInt8) : KeepsSound K 0 (wrtbinTail B xsector data) := by
  refine .whenever ((keepsSound_prepareBuffer hK (Int.natCast_nonneg _)).bind fun _ => ?_)
  exact keepsSound_setFp fun fp os h =>
    ⟨by have := h.offset; dsimp only; omega, h.hiwater, by dsimp only; omega, fun _ => Int.natCast_nonneg _, h.os⟩

theorem keepsSound_wrtbinRest (xsector : ℕ) (data : List UInt8) : KeepsSound K 0 (wrtbinRest B xsector data) :=
  .ite ((keepsSound_wrtbinSectors hK _ _ _).bind fun _ => keepsSound_wrtbinTail hK _ _) (keepsSound_wrtbinTail hK _ _)

theorem keepsSound_wrtbin (data : List UInt8) : KeepsSound K 0 (wrtbin B data) :=
  Keeps.get.bind fun _ => (keepsSound_wrtbinClean hK _).bind fun _ => (keepsSound_wrtbinBuffer hK _ _).bind fun _ =>
    (keepsSound_wrtbinRest hK _ _).bind fun _ => keepsSound_raiseHiwater.bind fun _ => .pure _

/-- The sector of the offset is in the buffer after it. -/
theorem wp_wrtascSector_sound {s : Io σ} (hs : Sound K 0 s.fp s.os) {xsector : ℤ} (hsec : 0 ≤ xsector) :
    wp (wrtascSector B xsector) (fun _ s' => Sound K 0 s'.fp s'.os ∧ 0 ≤ s'.fp.sector) (fun _ s' => Sound K 0 s'.fp s'.os) s := by
  rw [wrtascSector, wp_bind, wp_get, wp_whenever]
  split_ifs with hne
  · have hbuffer : KeepsSound K 0 (whenever (OFFSECT s.fp ≤ HIWSECT s.fp) do
        let found ← readBuffer B xsector
        whenever (found = false) (throw Errno.EIO)) := .whenever (keepsSound_needBuffer hK hsec)
    rw [wp_bind]
    refine wp_mono (keepsSound_flush hK s hs) (fun _ s₁ h₁ => ?_) (fun _ _ h => h)
    rw [wp_bind]
    refine wp_mono (hbuffer s₁ h₁) (fun _ s₂ h₂ => ?_) (fun _ _ h => h)
    exact ⟨⟨h₂.offset, h₂.hiwater, by dsimp only; omega, fun _ => hsec, h₂.os⟩, hsec⟩
  · exact ⟨hs, by omega⟩

theorem wp_wrtascPut_sound {s : Io σ} (hs : Sound K 0 s.fp s.os) (hsector : 0 ≤ s.fp.sector) {xsector : ℤ}
    (hsec : 0 ≤ xsector) (pos : ℕ) (put : List UInt8) :
    wp (wrtascPut B xsector pos put) (fun _ s' => Sound K 0 s'.fp s'.os) (fun _ s' => Sound K 0 s'.fp s'.os) s := by
  have hoff := hs.offset
  rw [wrtascPut, wp_bind, wp_setFp, wp_bind, wp_get, wp_ite]
  split_ifs
  · refine ((keepsSound_blkioWrite hK hsec _).bind fun _ => .pure _) _ ?_
    exact ⟨by dsimp only; omega, hs.hiwater, hs.sector, hs.dirty, hs.os⟩
  · exact ⟨by dsimp only; omega, hs.hiwater, hs.sector, fun _ => hsector, hs.os⟩

theorem keepsSound_wrtascLoop (written fuel : ℕ) (cc : UInt8) (data : List UInt8) :
    KeepsSound K 0 (wrtascLoop B written fuel cc data) := by
  induction fuel generalizing cc data with
  | zero => exact .pure _
  | succ fuel ih =>
    refine .ite (keepsSound_get fun s hs => ?_) (.pure _)
    have hoff := hs.offset
    have hsec : 0 ≤ s.fp.offset / 128 := by omega
    rw [wp_bind]
    refine wp_mono (wp_wrtascSector_sound hK hs hsec) (fun _ s₁ h₁ => ?_) (fun _ _ h => h)
    rw [wp_bind]
    refine wp_mono (wp_wrtascPut_sound hK h₁.1 h₁.2 hsec _ _) (fun done s₂ h₂ => ?_) (fun _ _ h => h)
    exact Keeps.ite (.pure _) (.ite (keepsSound_raiseHiwater.bind fun _ => .pure _) (ih _ _)) s₂ h₂

/-! ### Calls -/

/-- The channel is on a file, or is not open. -/
def Ccb.NoDevice (fp : Ccb) : Prop := fp.flags.ISTTY = false ∧ fp.flags.ISLPT = false ∧ fp.flags.ISQUE = false

theorem keepsSound_readFp {s : Io σ} (hs : Sound K 0 s.fp s.os) (hdev : s.fp.NoDevice) (bytes : ℕ) :
    wp (readFp B bytes) (fun _ s' => Sound K 0 s'.fp s'.os) (fun _ s' => Sound K 0 s'.fp s'.os) s := by
  obtain ⟨htty, hlpt, -⟩ := hdev
  rw [readFp, wp_bind, wp_get]
  simp only [htty, hlpt, Bool.false_eq_true, if_false, wp_ite]
  split_ifs
  · exact hs
  · exact keepsSound_rdascLoop hK _ _ _ s hs
  · exact keepsSound_rdbin hK _ s hs

theorem keepsSound_writeFp {s : Io σ} (hs : Sound K 0 s.fp s.os) (hdev : s.fp.NoDevice) (data : List UInt8) :
    wp (writeFp B data) (fun _ s' => Sound K 0 s'.fp s'.os) (fun _ s' => Sound K 0 s'.fp s'.os) s := by
  obtain ⟨htty, hlpt, hque⟩ := hdev
  rw [writeFp, wp_bind, wp_get]
  simp only [htty, hlpt, hque, Bool.false_eq_true, or_self, if_false, wp_ite]
  split_ifs
  · exact hs
  · exact hs
  · exact keepsSound_wrtascLoop hK _ _ _ _ s hs
  · exact keepsSound_wrtbin hK _ s hs

theorem keepsSound_fileszAscii (xsector : ℤ) : KeepsSound K (-1) (fileszAscii B xsector) := by
  refine Keeps.get.bind fun s => ?_
  split_ifs with hsec
  · refine (Keeps.whenever ((keepsSound_flush hK).bind fun _ => keepsSound_needBuffer hK hsec)).bind fun _ => ?_
    exact keepsSound_setFp fun fp os h => ⟨by dsimp only; omega, h.hiwater, by dsimp only; omega, fun _ => hsec, h.os⟩
  · exact keepsSound_setFp fun fp os h => ⟨by dsimp only; omega, h.hiwater, h.sector, h.dirty, h.os⟩

theorem keepsSound_fileszDisk : KeepsSound K (-1) (fileszDisk B) := by
  intro s hs
  rw [fileszDisk, wp_bind, wp_chkuserFp, wp_bind, wp_osif, wp_bind, wp_uchkuserFp, wp_bind, wp_setFp, wp_bind, wp_get, wp_ite]
  have hos := @uchkuser_keeps _ B _ hK.user s.fp.user.toInt16 (chkuser B s.fp.user.toInt16 s.os).1 _
    (hK.file .FILSIZ s.fp.fcb _ (@chkuser_keeps _ B _ hK.user s.fp.user.toInt16 _ hs.os))
  split_ifs
  · exact keepsSound_fileszAscii hK _ _ ⟨hs.offset, hs.hiwater, hs.sector, hs.dirty, hos⟩
  · rw [wp_setFp]
    exact ⟨by dsimp only; omega, hs.hiwater, hs.sector, hs.dirty, hos⟩

theorem keepsSound_fileszFp_disk {s : Io σ} (hs : Sound K (-1) s.fp s.os) :
    wp (if s.fp.flags.DIRTY = true then setFp fun fp => { fp with offset := fp.hiwater } else fileszDisk B)
      (fun _ s' => Sound K (-1) s'.fp s'.os) (fun _ s' => Sound K (-1) s'.fp s'.os) s := by
  have hhi := hs.hiwater
  rw [wp_ite]
  split_ifs
  · exact ⟨by dsimp only; omega, hs.hiwater, hs.sector, hs.dirty, hs.os⟩
  · exact keepsSound_fileszDisk hK s hs

end

end Cpm68k.Cpmlib
