import Cpm68k.Cpmlib.Coherence
import Cpm68k.Cpmlib.SectorNumbers

/-!
# A failed seek

`lseek` returns -1 when the position would be negative, and leaves -1 in the offset. The same
number says in `sector` that no sector is in the buffer, and is what `_filesz` returns when it
cannot find the end of the file.

## The model

`withLog B` is the BDOS `B` with a log of the numbers of the records that are asked of it.
A call at the offset -1 is `Idle` when it moves nothing, and asks for nothing but the dirty
buffer to be written.

## What is proved

* `seekSafe_iff` — a seek does as it should if and only if it finds the end of the file.
* `wp_readFp_negative`, `wp_writeFp_negative` — which calls at the offset -1 are idle.
* `failed_seek` — both, and what a run of careful calls keeps.
* `read_after_failed_seek` — a call that is not idle.
-/

namespace Cpm68k.Cpmlib

open Cpm68k.Library

variable {σ : Type} {B : Osif σ}

/-! ### The end of the file -/

/-- The file control block and the BDOS when `_filesz` has asked for the size of the file. -/
def sizeAsked (B : Osif σ) (fp : Ccb) (os : σ) : Fcb × σ :=
  let (xuser, os) := chkuser B fp.user.toInt16 os
  let (_, fcb, os) := B.file .FILSIZ fp.fcb os
  ({ fcb with record := fcb.record % 0x1000000 }, uchkuser B fp.user.toInt16 xuser os)

/-- The BDOS does not read a record. -/
def RefusesRead (B : Osif σ) (user : Int8) (fcb : Fcb) (os : σ) (record : ℤ) : Prop :=
  ∃ code, (B.bRead { fcb with record := record } (chkuser B user.toInt16 os).2).1 = .error code

/-- The end of an ASCII file is in its last sector, which is not in the buffer, and the BDOS
does not read it. -/
def EndLost (B : Osif σ) (fp : Ccb) (os : σ) : Prop :=
  fp.flags.ISASCII = true ∧ fp.flags.DIRTY = false ∧
    0 < (sizeAsked B fp os).1.record ∧ (sizeAsked B fp os).1.record - 1 ≠ fp.sector ∧
    RefusesRead B fp.user (sizeAsked B fp os).1 (sizeAsked B fp os).2 ((sizeAsked B fp os).1.record - 1)

theorem wp_readBuffer_found (xsector : ℤ) (s : Io σ) :
    wp (readBuffer B xsector)
      (fun found s' => (found = false ↔ RefusesRead B s.fp.user s.fp.fcb s.os xsector) ∧ s'.fp.hiwater = s.fp.hiwater)
      (fun _ _ => False) s := by
  unfold RefusesRead
  rw [readBuffer, wp_bind, blkioRead, wp_bind, wp_chkuserFp, wp_bind, readLoop, wp_bind, wp_setFp, wp_bind, wp_osifRead]
  dsimp only
  cases hr : (B.bRead { s.fp.fcb with record := xsector } (chkuser B s.fp.user.toInt16 s.os).2).1 with
  | error code =>
    exact ⟨⟨fun _ => ⟨code, rfl⟩, fun _ => rfl⟩, rfl⟩
  | ok record =>
    refine ⟨⟨fun h => absurd h (by decide), ?_⟩, rfl⟩
    rintro ⟨code, h⟩
    cases h

theorem wp_fileszAscii_end {s : Io σ} (hclean : s.fp.flags.DIRTY = false) (xsector : ℤ) :
    wp (fileszAscii B xsector)
      (fun _ s' => ¬ (0 ≤ xsector ∧ xsector ≠ s.fp.sector ∧ RefusesRead B s.fp.user s.fp.fcb s.os xsector) ∧ 0 ≤ s'.fp.offset)
      (fun _ s' => (0 ≤ xsector ∧ xsector ≠ s.fp.sector ∧ RefusesRead B s.fp.user s.fp.fcb s.os xsector) ∧
        s'.fp.hiwater = s.fp.hiwater) s := by
  rw [fileszAscii, wp_bind, wp_get, wp_ite]
  split_ifs with hsec
  · have hend : ∀ s' : Io σ, 0 ≤ xsector * 128 + (scanEof s'.fp.buffer.bytes : ℤ) := fun s' => by omega
    rw [wp_bind, wp_whenever]
    split_ifs with hne
    · rw [wp_bind, flush, wp_bind, wp_get, wp_whenever, if_neg (by simp [hclean]), wp_bind]
      refine wp_mono (wp_readBuffer_found xsector s) (fun found s' h => ?_) (fun _ _ h => h.elim)
      rw [wp_whenever]
      split_ifs with hfound
      · exact ⟨⟨hsec, hne, h.1.mp hfound⟩, h.2⟩
      · exact ⟨fun hlost => hfound (h.1.mpr hlost.2.2), hend s'⟩
    · exact ⟨fun hlost => hne hlost.2.1, hend s⟩
  · exact ⟨fun hlost => hsec hlost.1, le_rfl⟩

/-- `_filesz` fails if and only if the end is lost. -/
theorem wp_fileszFp_end {s : Io σ} (hdev : s.fp.NoDevice) (hhi : 0 ≤ s.fp.hiwater) :
    wp (fileszFp B) (fun size s' => ¬ EndLost B s.fp s.os ∧ 0 ≤ size ∧ s'.fp.hiwater = size)
      (fun _ s' => EndLost B s.fp s.os ∧ s'.fp.hiwater = s.fp.hiwater) s := by
  obtain ⟨htty, hlpt, -⟩ := hdev
  rw [fileszFp, wp_bind, wp_get]
  simp only [htty, hlpt, Bool.false_eq_true, or_self, if_false]
  rw [wp_bind, wp_ite]
  split_ifs with hd
  · exact ⟨fun h => absurd (hd.symm.trans h.2.1) (by decide), hhi, rfl⟩
  · have hclean : s.fp.flags.DIRTY = false := Bool.eq_false_iff.mpr hd
    have hrec : 0 ≤ (sizeAsked B s.fp s.os).1.record := Int.emod_nonneg _ (by decide)
    rw [fileszDisk, wp_bind, wp_chkuserFp, wp_bind, wp_osif, wp_bind, wp_uchkuserFp, wp_bind, wp_setFp, wp_bind, wp_get, wp_ite]
    have hasked : (⟨{ s.fp with fcb := (sizeAsked B s.fp s.os).1 }, (sizeAsked B s.fp s.os).2, s.buff⟩ : Io σ).fp.flags.DIRTY =
        false := hclean
    split_ifs with hascii
    · refine wp_mono (wp_fileszAscii_end hasked ((sizeAsked B s.fp s.os).1.record - 1)) (fun _ s' h => ?_) (fun _ s' h => ?_)
      · refine ⟨fun hlost => h.1 ⟨?_, hlost.2.2.2.1, hlost.2.2.2.2⟩, h.2, rfl⟩
        have hpos := hlost.2.2.1
        omega
      · refine ⟨⟨hascii, hclean, ?_, h.1.2.1, h.1.2.2⟩, h.2⟩
        have hpos := h.1.1
        omega
    · refine ⟨fun hlost => hascii hlost.1, ?_, rfl⟩
      show 0 ≤ ((sizeAsked B s.fp s.os).1.record - 1 + 1) * 128
      omega

/-! ### Seeking -/

/-- The position that a seek is to, if it is known. -/
def seekTarget (B : Osif σ) (s : Io σ) (offs sense : ℤ) : Option ℤ :=
  if sense = 0 then some offs
  else if sense = 1 then some (s.fp.offset + offs)
  else
    match fileszFp B s with
    | .ok size _ => some (size + offs)
    | .error _ _ => none

/-- A seek to a position that is negative or not known returns -1. The high water mark does not
become negative, and is kept when the end of the file is not found. -/
def SeekSafe (B : Osif σ) (s : Io σ) (offs sense : ℤ) : Prop :=
  wp (lseekFp B offs sense)
    (fun ret s' => ((∀ p ∈ seekTarget B s offs sense, p < 0) → ret = -1) ∧ 0 ≤ s'.fp.hiwater ∧
      (seekTarget B s offs sense = none → s'.fp.hiwater = s.fp.hiwater))
    (fun _ _ => False) s

/-- A seek is safe unless it is to the end, and the end is lost. -/
theorem seekSafe_iff {s : Io σ} (hdev : s.fp.NoDevice) (hhi : 0 ≤ s.fp.hiwater) {offs sense : ℤ}
    (hsense : sense = 0 ∨ sense = 1 ∨ sense = 2) : SeekSafe B s offs sense ↔ ¬ (sense = 2 ∧ EndLost B s.fp s.os) := by
  have hend := wp_fileszFp_end (B := B) hdev hhi
  unfold SeekSafe seekTarget
  rw [lseekFp, wp_bind, lseekOffset]
  rcases hsense with rfl | rfl | rfl
  · refine iff_of_true ⟨fun hneg => ?_, hhi, fun h => ?_⟩ (by simp)
    · exact if_pos (hneg offs rfl)
    · cases h
  · refine iff_of_true ⟨fun hneg => ?_, hhi, fun h => ?_⟩ (by simp)
    · exact if_pos (hneg _ rfl)
    · cases h
  · simp only [show ¬ (2 : ℤ) = 0 by decide, show ¬ (2 : ℤ) = 1 by decide, if_false, if_true, true_and]
    rw [wp_bind, wp_orFailure]
    unfold wp at hend ⊢
    cases hr : fileszFp B s with
    | ok size s' =>
      rw [hr] at hend
      refine iff_of_true ⟨fun hneg => ?_, hend.2.1, fun h => ?_⟩ hend.1
      · exact if_pos (hneg (size + offs) rfl)
      · cases h
    | error e s' =>
      rw [hr] at hend
      refine iff_of_false (fun h => ?_) (fun h => h hend.1)
      exact absurd (show (0 : ℤ) ≤ -1 from h.2.1) (by decide)

section Kept

variable {K : σ → Prop} (hK : Admits B K) {s : Io σ} (hdev : s.fp.NoDevice) (hs : Sound K (-1) s.fp s.os)

include hK hdev hs

/-- `_filesz` keeps what is sound. -/
theorem wp_fileszFp_sound :
    wp (fileszFp B) (fun size s' => ¬ EndLost B s.fp s.os ∧ 0 ≤ size ∧ Sound K (-1) s'.fp s'.os)
      (fun _ s' => EndLost B s.fp s.os ∧ Sound K (-1) s'.fp s'.os) s := by
  have hkept : wp (fileszFp B) (fun _ s' => Sound K (-1) { s'.fp with hiwater := 0 } s'.os)
      (fun _ s' => Sound K (-1) s'.fp s'.os) s := by
    obtain ⟨htty, hlpt, -⟩ := hdev
    rw [fileszFp, wp_bind, wp_get]
    simp only [htty, hlpt, Bool.false_eq_true, or_self, if_false]
    rw [wp_bind]
    exact wp_mono (keepsSound_fileszFp_disk hK hs) (fun _ s₁ h₁ => ⟨h₁.offset, le_rfl, h₁.sector, h₁.dirty, h₁.os⟩)
      (fun _ _ h => h)
  refine wp_mono (wp_and (wp_fileszFp_end hdev hs.hiwater) hkept) ?_ (fun _ _ h => ⟨h.1.1, h.2⟩)
  rintro size s' ⟨⟨hfound, hsize, hhi⟩, h⟩
  exact ⟨hfound, hsize, h.offset, by omega, h.sector, h.dirty, h.os⟩

/-- A seek keeps what is sound, when it finds the end of the file. -/
theorem wp_lseekFp_sound {offs sense : ℤ} (hfound : ¬ (sense = 2 ∧ EndLost B s.fp s.os)) :
    wp (lseekFp B offs sense) (fun _ s' => Sound K (-1) s'.fp s'.os) (fun _ s' => Sound K (-1) s'.fp s'.os) s := by
  have hend : ∀ (fp : Ccb) (os : σ), 0 ≤ fp.hiwater → -1 ≤ fp.sector → (fp.flags.DIRTY = true → 0 ≤ fp.sector) → K os →
      Sound K (-1) { fp with flags := { fp.flags with ATEOF := false }, offset := if fp.offset < 0 then -1 else fp.offset } os := by
    intro fp os hhi hsec hd hos
    refine ⟨?_, hhi, hsec, hd, hos⟩
    dsimp only
    split_ifs
    · exact le_rfl
    · omega
  rw [lseekFp, wp_bind, lseekOffset, wp_ite, wp_ite, wp_ite]
  split_ifs with h0 h1 h2
  · exact hend _ _ hs.hiwater hs.sector hs.dirty hs.os
  · exact hend _ _ hs.hiwater hs.sector hs.dirty hs.os
  · rw [wp_bind, wp_orFailure]
    refine wp_mono (wp_fileszFp_sound hK hdev hs) (fun size s' h => ?_) (fun _ _ h => absurd ⟨h2, h.1⟩ hfound)
    exact hend _ _ h.2.1 h.2.2.sector h.2.2.dirty h.2.2.os
  · exact hs

/-- `fstat` keeps what is sound. -/
theorem wp_fstatFp_sound :
    wp (fstatFp B) (fun _ s' => Sound K (-1) s'.fp s'.os) (fun _ s' => Sound K (-1) s'.fp s'.os) s := by
  rw [fstatFp, wp_bind, wp_get, wp_ite]
  split_ifs
  · exact hs
  · rw [wp_bind, wp_orFailure]
    refine wp_mono (wp_fileszFp_sound hK hdev hs) (fun size s' h => ?_) (fun _ s' h => ?_)
    · exact ⟨hs.offset, h.2.2.hiwater, h.2.2.sector, h.2.2.dirty, h.2.2.os⟩
    · exact ⟨hs.offset, h.2.hiwater, h.2.sector, h.2.dirty, h.2.os⟩

end Kept

/-! ### Calls at a negative position -/

/-- The BDOS, with a log of the numbers of the records that are asked of it. -/
def withLog (B : Osif σ) : Osif (σ × List ℤ) where
  user n os := ((B.user n os.1).1, (B.user n os.1).2, os.2)
  file g fcb os := ((B.file g fcb os.1).1, (B.file g fcb os.1).2.1, (B.file g fcb os.1).2.2, os.2)
  bRead fcb os := ((B.bRead fcb os.1).1, (B.bRead fcb os.1).2.1, (B.bRead fcb os.1).2.2, os.2 ++ [fcb.record])
  bWrite fcb record os :=
    ((B.bWrite fcb record os.1).1, (B.bWrite fcb record os.1).2.1, (B.bWrite fcb record os.1).2.2, os.2 ++ [fcb.record])
  rename old new os := ((B.rename old new os.1).1, (B.rename old new os.1).2, os.2)
  conin os := ((B.conin os.1).1, (B.conin os.1).2, os.2)
  conout c os := (B.conout c os.1, os.2)
  conio c os := ((B.conio c os.1).1, (B.conio c os.1).2, os.2)
  writestr cp os := (B.writestr cp os.1, os.2)
  conbuf n os := ((B.conbuf n os.1).1, (B.conbuf n os.1).2, os.2)
  lstout c os := (B.lstout c os.1, os.2)
  exit os := (B.exit os.1, os.2)
  behind := B.behind

theorem withLog_bRead (fcb : Fcb) (os : σ × List ℤ) : (withLog B).bRead fcb os =
    ((B.bRead fcb os.1).1, (B.bRead fcb os.1).2.1, (B.bRead fcb os.1).2.2, os.2 ++ [fcb.record]) := rfl

theorem withLog_bWrite (fcb : Fcb) (record : Sector) (os : σ × List ℤ) : (withLog B).bWrite fcb record os =
    ((B.bWrite fcb record os.1).1, (B.bWrite fcb record os.1).2.1, (B.bWrite fcb record os.1).2.2, os.2 ++ [fcb.record]) := rfl

/-- All records of the log are from 0 on. -/
def LogSound (os : σ × List ℤ) : Prop := ∀ n ∈ os.2, 0 ≤ n

theorem LogSound.append {os : σ × List ℤ} {os' : σ} {n : ℤ} (h : LogSound os) (hn : 0 ≤ n) : LogSound (os', os.2 ++ [n]) := by
  intro m hm
  rcases List.mem_append.mp hm with hm | hm
  · exact h m hm
  · exact List.mem_singleton.mp hm ▸ hn

theorem admits_logSound : Admits (withLog B) LogSound where
  user _ _ h := h
  file _ _ _ h := h
  bRead _ _ hn h := h.append hn
  bWrite _ _ _ hn h := h.append hn

theorem admits_true : Admits B fun _ => True := ⟨fun _ _ h => h, fun _ _ _ h => h, fun _ _ _ h => h, fun _ _ _ _ h => h⟩

/-- The record `n` has been asked for since the log was `l₀`. -/
def Asked (l₀ : List ℤ) (n : ℤ) (os : σ × List ℤ) : Prop := ∃ l, os.2 = l₀ ++ l ∧ n ∈ l

theorem Asked.append {l₀ : List ℤ} {n m : ℤ} {os : σ × List ℤ} {os' : σ} (h : Asked l₀ n os) :
    Asked l₀ n (os', os.2 ++ [m]) := by
  obtain ⟨l, hl, hn⟩ := h
  exact ⟨l ++ [m], by rw [hl, List.append_assoc], List.mem_append_left _ hn⟩

/-- The routines of a channel forget no record of the log. -/
theorem coupled_asked (l₀ : List ℤ) (n : ℤ) : Coupled (withLog B) (withLog B) (Diag fun _ os => Asked l₀ n os) :=
  coupled_of_keeps (fun _ _ h => h) (fun _ _ _ h => h) (fun _ _ h => h.append) (fun _ _ _ h => h.append)
    ⟨fun _ h => h, fun _ _ h => h, fun _ _ h => h, fun _ _ h => h, fun _ _ h => h, fun _ _ h => h⟩

theorem chkuser_withLog (newu : Int16) (os : σ × List ℤ) :
    chkuser (withLog B) newu os = ((chkuser B newu os.1).1, (chkuser B newu os.1).2, os.2) := by
  unfold chkuser
  dsimp only [withLog]
  split_ifs
  · rfl
  · rfl
  · rfl

theorem uchkuser_withLog (newu prevu : Int16) (os : σ × List ℤ) :
    uchkuser (withLog B) newu prevu os = (uchkuser B newu prevu os.1, os.2) := by
  unfold uchkuser
  dsimp only [withLog]
  split_ifs
  · rfl
  · rfl
  · rfl

/-- The buffer is dirty, and the BDOS does not write it. -/
def FlushFails (B : Osif σ) (fp : Ccb) (os : σ) : Prop :=
  fp.flags.DIRTY = true ∧
    (B.bWrite { fp.fcb with record := fp.sector } fp.buffer (chkuser B fp.user.toInt16 os).2).1 ≠ 0

/-- The call did not get past the buffer that was there before it: it has asked for no record
but the one that was dirty, and has moved nothing. -/
structure Idle (s s' : Io (σ × List ℤ)) : Prop where
  buff : s'.buff = s.buff
  fp : s'.fp = { s.fp with fcb := s'.fp.fcb }
  log : ∃ l, s'.os.2 = s.os.2 ++ l ∧ ∀ n ∈ l, s.fp.flags.DIRTY = true ∧ n = s.fp.sector

/-- `read` at a negative position is turned away, or has nothing to do, or cannot flush. -/
def QuietRead (B : Osif σ) (fp : Ccb) (os : σ) (bytes : ℕ) : Prop :=
  fp.flags.ATEOF = true ∨ (bytes = 0 ∧ (fp.flags.ISASCII = true ∨ fp.sector = -1)) ∨ (fp.sector ≠ -1 ∧ FlushFails B fp os)

/-- The sector that `write` takes for that of the offset -1. -/
def sectorBefore (fp : Ccb) : ℤ := if fp.flags.ISASCII = true then -1 else 65535

/-- `write` at a negative position is turned away, or has nothing to do, or cannot flush. -/
def QuietWrite (B : Osif σ) (fp : Ccb) (os : σ) (data : List UInt8) : Prop :=
  data = [] ∨ fp.flags.ISREAD = true ∨ (fp.sector ≠ sectorBefore fp ∧ FlushFails B fp os)

variable {s : Io (σ × List ℤ)}

theorem Idle.refl (s : Io (σ × List ℤ)) : Idle s s :=
  ⟨rfl, rfl, [], (List.append_nil _).symm, fun _ hn => absurd hn List.not_mem_nil⟩

theorem Idle.of_asked {s' : Io (σ × List ℤ)} {n : ℤ} (h : Idle s s') (hn : Asked s.os.2 n s'.os) :
    s.fp.flags.DIRTY = true ∧ n = s.fp.sector := by
  obtain ⟨l, hl, hmem⟩ := hn
  obtain ⟨l', hl', hall⟩ := h.log
  rw [hl, List.append_cancel_left_eq] at hl'
  exact hall n (hl' ▸ hmem)

/-- What a flush leaves alone. -/
structure Flushed (s s' : Io (σ × List ℤ)) : Prop where
  offset : s'.fp.offset = s.fp.offset
  hiwater : s'.fp.hiwater = s.fp.hiwater
  log : ∃ l, s'.os.2 = s.os.2 ++ l

/-- The dirty buffer is written, unless the BDOS does not write it. -/
theorem wp_writeBuffer_idle (hd : s.fp.flags.DIRTY = true) :
    wp (writeBuffer (withLog B) s.fp.sector) (fun _ s' => ¬ FlushFails B s.fp s.os.1 ∧ Flushed s s')
      (fun _ s' => FlushFails B s.fp s.os.1 ∧ Idle s s') s := by
  rw [writeBuffer, wp_bind, wp_get, wp_bind, blkioWrite, wp_bind, wp_chkuserFp, wp_bind, writeLoop, wp_bind, wp_setFp, wp_bind,
    wp_osifWrite]
  simp only [chkuser_withLog, uchkuser_withLog, withLog_bWrite, wp_ite, writeLoop, wp_pure, wp_bind, wp_uchkuserFp, wp_whenever]
  split_ifs with hcode hone hone
  · exact ⟨⟨hd, hcode⟩, rfl, rfl, [s.fp.sector], rfl, fun n hn => ⟨hd, List.mem_singleton.mp hn⟩⟩
  · exact absurd (by decide) hone
  · exact absurd rfl hone
  · exact ⟨fun h => hcode h.2, rfl, rfl, [s.fp.sector], rfl⟩

/-- The buffer is flushed, unless it is dirty and the BDOS does not write it. -/
theorem wp_flush_idle (s : Io (σ × List ℤ)) :
    wp (flush (withLog B)) (fun _ s' => ¬ FlushFails B s.fp s.os.1 ∧ Flushed s s')
      (fun _ s' => FlushFails B s.fp s.os.1 ∧ Idle s s') s := by
  rw [flush, wp_bind, wp_get, wp_whenever]
  split_ifs with hd
  · rw [wp_bind]
    refine wp_mono (wp_writeBuffer_idle hd) (fun _ s' h => ?_) (fun _ _ h => h)
    exact ⟨h.1, h.2.offset, h.2.hiwater, h.2.log⟩
  · exact ⟨fun h => hd h.1, rfl, rfl, [], (List.append_nil _).symm⟩

theorem asked_append {l₀ l : List ℤ} {n : ℤ} {os : σ × List ℤ} (h : os.2 = l₀ ++ l) {os' : σ} : Asked l₀ n (os', os.2 ++ [n]) :=
  ⟨l ++ [n], by rw [h, List.append_assoc], List.mem_append_right _ (List.mem_singleton_self n)⟩

/-- Writing a record leaves its number in the log. -/
theorem wp_blkioWrite_asked {l₀ : List ℤ} (sector : ℤ) (record : Sector) {s : Io (σ × List ℤ)} (hlog : ∃ l, s.os.2 = l₀ ++ l) :
    wp (blkioWrite (withLog B) sector [record]) (fun _ s' => Asked l₀ sector s'.os) (fun _ _ => False) s := by
  obtain ⟨l, hl⟩ := hlog
  rw [blkioWrite, wp_bind, wp_chkuserFp, wp_bind, writeLoop, wp_bind, wp_setFp, wp_bind, wp_osifWrite]
  simp only [chkuser_withLog, uchkuser_withLog, withLog_bWrite, wp_ite, writeLoop, wp_pure, wp_bind, wp_uchkuserFp]
  split_ifs
  · exact asked_append hl
  · exact asked_append hl

/-- Reading a record leaves its number in the log. -/
theorem wp_readBuffer_asked {l₀ : List ℤ} (xsector : ℤ) {s : Io (σ × List ℤ)} (hlog : ∃ l, s.os.2 = l₀ ++ l) :
    wp (readBuffer (withLog B) xsector) (fun _ s' => Asked l₀ xsector s'.os) (fun _ _ => False) s := by
  obtain ⟨l, hl⟩ := hlog
  rw [readBuffer, wp_bind, blkioRead, wp_bind, wp_chkuserFp, wp_bind, readLoop, wp_bind, wp_setFp, wp_bind, wp_osifRead]
  simp only [chkuser_withLog, withLog_bRead]
  cases hr : (B.bRead { s.fp.fcb with record := xsector } (chkuser B s.fp.user.toInt16 s.os.1).2).1 with
  | error code =>
    simp only [wp_pure, wp_bind, wp_uchkuserFp, uchkuser_withLog]
    exact asked_append hl
  | ok record =>
    simp only [readLoop, wp_pure, wp_bind, wp_uchkuserFp, uchkuser_withLog, wp_setFp]
    exact asked_append hl

/-- A program that forgets no record of the log, when a record has been asked for that the
channel did not have dirty. -/
theorem wp_busy {α : Type} {m : IoM (σ × List ℤ) α} {n : ℤ} {p : Prop}
    (hm : Keeps (fun s' : Io (σ × List ℤ) => Asked s.os.2 n s'.os) m) {s' : Io (σ × List ℤ)} (hs' : Asked s.os.2 n s'.os)
    (hn : s.fp.flags.DIRTY = true → n ≠ s.fp.sector) (hp : ¬ p) :
    wp m (fun _ s'' => Idle s s'' ↔ p) (fun _ s'' => Idle s s'' ↔ p) s' :=
  wp_mono (hm s' hs') (fun _ _ h => iff_of_false (fun hidle => hn (hidle.of_asked h).1 (hidle.of_asked h).2) hp)
    (fun _ _ h => iff_of_false (fun hidle => hn (hidle.of_asked h).1 (hidle.of_asked h).2) hp)

/-- A program that goes on from an offset that is not negative. -/
theorem wp_moved {α : Type} {m : IoM (σ × List ℤ) α} {p : Prop} (hm : KeepsSound (fun _ => True) 0 m)
    {s' : Io (σ × List ℤ)} (hs' : Sound (fun _ => True) 0 s'.fp s'.os) (hneg : s.fp.offset = -1) (hp : ¬ p) :
    wp m (fun _ s'' => Idle s s'' ↔ p) (fun _ s'' => Idle s s'' ↔ p) s' := by
  have hmoved : ∀ s'' : Io (σ × List ℤ), Sound (fun _ => True) 0 s''.fp s''.os → (Idle s s'' ↔ p) := by
    intro s'' h
    refine iff_of_false (fun hidle => ?_) hp
    have hoff := h.offset
    rw [hidle.fp] at hoff
    exact absurd (hneg ▸ hoff : (0 : ℤ) ≤ -1) (by decide)
  exact wp_mono (hm s' hs') (fun _ _ h => hmoved _ h) (fun _ _ h => hmoved _ h)

/-- The buffer is not that of the sector `n`: it is flushed, and the sector asked for. -/
theorem wp_miss {α : Type} {m : Bool → IoM (σ × List ℤ) α} {n : ℤ} {Q : α → Io (σ × List ℤ) → Prop}
    {E : Errno → Io (σ × List ℤ) → Prop}
    (hm : ¬ FlushFails B s.fp s.os.1 → ∀ found s', Asked s.os.2 n s'.os → wp (m found) Q E s')
    (hfail : ∀ e s', FlushFails B s.fp s.os.1 → Idle s s' → E e s') :
    wp (do
      flush (withLog B)
      let found ← readBuffer (withLog B) n
      m found) Q E s := by
  rw [wp_bind]
  refine wp_mono (wp_flush_idle s) (fun _ s₁ h₁ => ?_) (fun e s₁ h₁ => hfail e s₁ h₁.1 h₁.2)
  rw [wp_bind]
  exact wp_mono (wp_readBuffer_asked n h₁.2.log) (fun found s₂ h₂ => hm h₁.1 found s₂ h₂) (fun _ _ h => h.elim)

section Negative

variable (hneg : s.fp.offset = -1) (hs : Sound (fun _ => True) (-1) s.fp s.os)

include hneg hs

/-- `_rdbin` at the offset -1. -/
theorem wp_rdbin_negative (bytes : ℕ) :
    wp (rdbin (withLog B) bytes)
      (fun _ s' => Idle s s' ↔ (bytes = 0 ∧ s.fp.sector = -1) ∨ (s.fp.sector ≠ -1 ∧ FlushFails B s.fp s.os.1))
      (fun _ s' => Idle s s' ↔ (bytes = 0 ∧ s.fp.sector = -1) ∨ (s.fp.sector ≠ -1 ∧ FlushFails B s.fp s.os.1)) s := by
  have hpos : bufPos s.fp = 127 := by
    unfold bufPos
    rw [hneg]
    rfl
  have hmax : max s.fp.hiwater (-1) = s.fp.hiwater := max_eq_left (by have hge := hs.hiwater; omega)
  have hlen : ((s.fp.buffer.bytes.drop 127).take bytes).length = min bytes 1 := by
    rw [List.length_take, List.length_drop, Sector.bytes, List.length_ofFn]
  have hrest : ∀ left, KeepsSound (fun _ => True) 0 (if left = 0 then do
      raiseHiwater
      pure (toLong bytes)
      else rdbinSectors (withLog B) bytes left ((-1 : ℤ) / 128 + 1)) := fun left =>
    .ite (keepsSound_raiseHiwater.bind fun _ => .pure _) (keepsSound_rdbinSectors admits_true _ _ (by decide))
  have hlog' := (coupled_asked (B := B) s.os.2 (-1)).lockstep
  have hkeep : ∀ left, Keeps (fun s' : Io (σ × List ℤ) => Asked s.os.2 (-1) s'.os) (if left = 0 then do
      raiseHiwater
      pure (toLong bytes)
      else rdbinSectors (withLog B) bytes left ((-1 : ℤ) / 128 + 1)) := fun left =>
    keeps_of_sync (.ite (.bind hlog'.raiseHiwater fun _ => .pure _) (hlog'.rdbinSectors _ _ _))
  rw [rdbin, wp_bind, wp_get, hneg, wp_ite, if_pos (by decide), wp_bind, rdbinBuffer, wp_bind, wp_get, wp_bind, wp_whenever]
  simp only [hneg]
  by_cases hsec : s.fp.sector = -1
  · rw [if_neg (by rw [hsec]; decide), wp_bind, wp_get, wp_bind, wp_store, wp_bind, wp_setFp, wp_pure, hpos, hlen]
    by_cases hbytes : bytes = 0
    · subst hbytes
      rw [if_pos (by decide), wp_bind, wp_raiseHiwater]
      refine iff_of_true ⟨List.append_nil _, ?_, [], (List.append_nil _).symm, fun _ hn => absurd hn List.not_mem_nil⟩
        (.inl ⟨rfl, hsec⟩)
      simp [hneg, hmax]
    · refine wp_moved (hrest _) ⟨?_, hs.hiwater, hs.sector, hs.dirty, trivial⟩ hneg (by simp [hbytes, hsec])
      dsimp only
      omega
  · have hafter : ∀ found : Bool, Keeps (fun s' : Io (σ × List ℤ) => Asked s.os.2 (-1) s'.os) (do
        whenever (found = false) (throw Errno.EIO)
        setFp fun fp => { fp with sector := -1 / 128 }) := fun found =>
      (Keeps.whenever (.throw _)).bind fun _ => .modify fun _ h => h
    rw [if_pos (by rw [show (-1 : ℤ) / 128 = -1 by decide]; exact hsec)]
    refine wp_miss (fun hflush found s₁ h₁ => ?_) (fun _ _ hflush h => iff_of_true h (.inr ⟨hsec, hflush⟩))
    have hnot : ¬ ((bytes = 0 ∧ s.fp.sector = -1) ∨ (s.fp.sector ≠ -1 ∧ FlushFails B s.fp s.os.1)) := by
      rintro (h | h)
      · exact hsec h.2
      · exact hflush h.2
    refine wp_mono (hafter found s₁ h₁) (fun _ s₂ h₂ => ?_)
      (fun _ s₂ h₂ => iff_of_false (fun hidle => hsec (hidle.of_asked h₂).2.symm) hnot)
    rw [wp_bind, wp_get, wp_bind, wp_store, wp_bind, wp_setFp, wp_pure]
    exact wp_busy (hkeep _) h₂ (fun _ => Ne.symm hsec) hnot

omit hneg hs in
/-- From one character `_rdasc` stops at the end of the file, or moves on. -/
theorem rdascMove_one (bs : List UInt8) (hbs : bs.length = 1) {bytes : ℕ} (hbytes : bytes ≠ 0) :
    (rdascMove bs bytes).2.2 = true ∨ (rdascMove bs bytes).2.1 = 1 := by
  obtain ⟨c, rfl⟩ := List.length_eq_one_iff.mp hbs
  obtain ⟨n, rfl⟩ := Nat.exists_eq_succ_of_ne_zero hbytes
  rw [rdascMove]
  split_ifs
  · exact .inl rfl
  · exact .inr rfl
  · cases n with
    | zero => exact .inr rfl
    | succ n => exact .inr rfl

/-- `_rdasc` at the offset -1. -/
theorem wp_rdasc_negative (hateof : s.fp.flags.ATEOF = false) (bytes : ℕ) :
    wp (rdasc (withLog B) bytes)
      (fun _ s' => Idle s s' ↔ bytes = 0 ∨ (s.fp.sector ≠ -1 ∧ FlushFails B s.fp s.os.1))
      (fun _ s' => Idle s s' ↔ bytes = 0 ∨ (s.fp.sector ≠ -1 ∧ FlushFails B s.fp s.os.1)) s := by
  have hpos : bufPos s.fp = 127 := by
    unfold bufPos
    rw [hneg]
    rfl
  have hmax : max s.fp.hiwater (-1) = s.fp.hiwater := max_eq_left (by have hge := hs.hiwater; omega)
  rw [rdasc, rdascLoop, wp_ite]
  by_cases hbytes : bytes = 0
  · rw [if_neg (by omega), wp_bind, wp_raiseHiwater]
    refine iff_of_true ⟨rfl, ?_, [], (List.append_nil _).symm, fun _ hn => absurd hn List.not_mem_nil⟩ (.inl hbytes)
    simp [hneg, hmax]
  · rw [if_pos (by omega), wp_bind, rdascSector, wp_bind, wp_get, hneg, wp_ite]
    by_cases hsec : s.fp.sector = -1
    · rw [if_neg (by rw [hsec]; decide), wp_pure, wp_ite, if_neg (by decide), wp_bind, wp_get, wp_bind, wp_store, wp_bind,
        wp_setFp, wp_ite]
      have hone : (s.fp.buffer.bytes.drop (bufPos s.fp)).length = 1 := by
        rw [hpos, List.length_drop, Sector.bytes, List.length_ofFn]
      have hmove := rdascMove_one _ hone hbytes
      have hnot : ¬ (bytes = 0 ∨ (s.fp.sector ≠ -1 ∧ FlushFails B s.fp s.os.1)) := by
        rintro (h | h)
        · exact hbytes h
        · exact h.1 hsec
      split_ifs with heof
      · rw [wp_bind, setAteof, wp_setFp, wp_bind, wp_raiseHiwater, wp_pure]
        refine iff_of_false (fun hidle => ?_) hnot
        have hset : true = s.fp.flags.ATEOF := congrArg (fun fp => fp.flags.ATEOF) hidle.fp
        exact absurd (hset.trans hateof) (by decide)
      · refine wp_moved (keepsSound_rdascLoop admits_true _ _ _) ⟨?_, hs.hiwater, hs.sector, hs.dirty, trivial⟩ hneg hnot
        dsimp only
        rw [hmove.resolve_left heof, hneg]
        decide
    · have hlog' := (coupled_asked (B := B) s.os.2 (-1)).lockstep
      have hafter : ∀ found : Bool, Keeps (fun s' : Io (σ × List ℤ) => Asked s.os.2 (-1) s'.os) (if found = false then do
          setAteof
          pure false
        else do
          setFp fun fp => { fp with sector := -1 / 128 }
          pure true) := fun found =>
        .ite (Keeps.bind (.modify fun _ h => h) fun _ => .pure _) (Keeps.bind (.modify fun _ h => h) fun _ => .pure _)
      have hrest : ∀ found : Bool, Keeps (fun s' : Io (σ × List ℤ) => Asked s.os.2 (-1) s'.os)
          (if found = false then pure (toLong (bytes - bytes)) else do
            let s ← get
            let moved := rdascMove (s.fp.buffer.bytes.drop (bufPos s.fp)) bytes
            store moved.1
            setFp fun fp => { fp with offset := fp.offset + moved.2.1 }
            if moved.2.2 = true then do
              setAteof
              raiseHiwater
              pure (toLong (bytes - (bytes - moved.1.length)))
            else rdascLoop (withLog B) bytes (2 ^ 24) (bytes - moved.1.length)) := fun found =>
        .ite (.pure _) (.bind .get fun s => Keeps.bind (.modify fun _ h => h) fun _ => Keeps.bind (.modify fun _ h => h) fun _ =>
          .ite (keeps_of_sync (.bind hlog'.setAteof fun _ => .bind hlog'.raiseHiwater fun _ => .pure _))
            (keeps_of_sync (hlog'.rdascLoop _ _ _)))
      rw [if_pos (by rw [show (-1 : ℤ) / 128 = -1 by decide]; exact Ne.symm hsec)]
      refine wp_miss (fun hflush found s₁ h₁ => ?_) (fun _ _ hflush h => iff_of_true h (.inr ⟨hsec, hflush⟩))
      have hnot : ¬ (bytes = 0 ∨ (s.fp.sector ≠ -1 ∧ FlushFails B s.fp s.os.1)) := by
        rintro (h | h)
        · exact hbytes h
        · exact hflush h.2
      exact wp_mono (hafter found s₁ h₁) (fun found s₂ h₂ => wp_busy (hrest found) h₂ (fun _ => Ne.symm hsec) hnot)
        (fun _ s₂ h₂ => iff_of_false (fun hidle => hsec (hidle.of_asked h₂).2.symm) hnot)

/-- No sector lies before that of the offset -1. -/
theorem offsect_negative : OFFSECT s.fp ≤ HIWSECT s.fp := by
  have hhi := hs.hiwater
  unfold OFFSECT HIWSECT
  rw [hneg]
  omega

/-- `_wrtasc` at the offset -1. -/
theorem wp_wrtasc_negative {data : List UInt8} (hdata : data ≠ []) :
    wp (wrtasc (withLog B) data)
      (fun _ s' => Idle s s' ↔ s.fp.sector ≠ -1 ∧ FlushFails B s.fp s.os.1)
      (fun _ s' => Idle s s' ↔ s.fp.sector ≠ -1 ∧ FlushFails B s.fp s.os.1) s := by
  have hlog' := (coupled_asked (B := B) s.os.2 (-1)).lockstep
  have hpos : bufPos s.fp = 127 := by
    unfold bufPos
    rw [hneg]
    rfl
  have hlen : data.length > 0 := List.length_pos_of_ne_nil hdata
  rw [wrtasc, wrtascLoop, wp_ite, if_pos hlen, wp_bind, wp_get, hneg, wp_bind, wrtascSector, wp_bind, wp_get, wp_whenever, hpos]
  have hrest : ∀ (moved : List UInt8 × UInt8 × List UInt8) (done : Bool),
      Keeps (fun s' : Io (σ × List ℤ) => Asked s.os.2 (-1) s'.os) (if done = false then pure (toLong (data.length - data.length))
        else if moved.2.2.length = 0 then do
          raiseHiwater
          pure (toLong data.length)
        else wrtascLoop (withLog B) data.length (2 * data.length) moved.2.1 moved.2.2) := fun moved done =>
    .ite (.pure _) (.ite (keeps_of_sync (.bind hlog'.raiseHiwater fun _ => .pure _)) (keeps_of_sync (hlog'.wrtascLoop _ _ _ _)))
  have hdirty : s.fp.sector = -1 → s.fp.flags.DIRTY = true → (-1 : ℤ) ≠ s.fp.sector := by
    intro hsec hd
    have hge := hs.dirty hd
    omega
  by_cases hsec : s.fp.sector = -1
  · have hput : (wrtascMove (128 - 127) 0 data).1.length = 1 := by
      obtain ⟨c, data, rfl⟩ := List.exists_cons_of_ne_nil hdata
      rw [show 128 - 127 = 0 + 1 by rfl, wrtascMove]
      split_ifs
      · rfl
      · rfl
    rw [if_neg (by rw [hsec]; decide), wp_bind, wrtascPut, wp_bind, wp_setFp, wp_bind, wp_get, wp_ite,
      if_pos (by rw [hput]), wp_bind]
    refine wp_mono (wp_blkioWrite_asked _ _ ⟨[], (List.append_nil _).symm⟩) (fun _ s₁ h₁ => ?_) (fun _ _ h => h.elim)
    rw [wp_pure]
    exact wp_busy (hrest _ _) h₁ (hdirty hsec) (fun h => h.1 hsec)
  · have hafter : ∀ found : Bool, Keeps (fun s' : Io (σ × List ℤ) => Asked s.os.2 (-1) s'.os) (do
        whenever (found = false) (throw Errno.EIO)
        setFp fun fp => { fp with sector := -1 / 128 }) := fun found =>
      (Keeps.whenever (.throw _)).bind fun _ => .modify fun _ h => h
    have hprog : (do
        flush (withLog B)
        whenever (OFFSECT s.fp ≤ HIWSECT s.fp) do
          let found ← readBuffer (withLog B) (-1 / 128)
          whenever (found = false) (throw Errno.EIO)
        setFp fun fp => { fp with sector := -1 / 128 } : IoM (σ × List ℤ) PUnit) = (do
        flush (withLog B)
        let found ← readBuffer (withLog B) (-1 / 128)
        whenever (found = false) (throw Errno.EIO)
        setFp fun fp => { fp with sector := -1 / 128 }) := by
      simp only [whenever, offsect_negative hneg hs, if_true, bind_assoc]
    rw [if_pos (by rw [show (-1 : ℤ) / 128 = -1 by decide]; exact Ne.symm hsec), hprog]
    refine wp_miss (fun hflush found s₁ h₁ => ?_) (fun _ _ hflush h => iff_of_true h ⟨hsec, hflush⟩)
    refine wp_mono (hafter found s₁ h₁) (fun _ s₂ h₂ => ?_)
      (fun _ s₂ h₂ => iff_of_false (fun hidle => hsec (hidle.of_asked h₂).2.symm) (fun h => hflush h.2))
    rw [wp_bind]
    refine wp_mono (keeps_of_sync (hlog'.wrtascPut _ _ _) s₂ h₂) (fun done s₃ h₃ => ?_)
      (fun _ s₃ h₃ => iff_of_false (fun hidle => hsec (hidle.of_asked h₃).2.symm) (fun h => hflush h.2))
    exact wp_busy (hrest _ _) h₃ (fun _ => Ne.symm hsec) (fun h => hflush h.2)

/-- `_wrtbin` at the offset -1. -/
theorem wp_wrtbin_negative {data : List UInt8} (hdata : data ≠ []) :
    wp (wrtbin (withLog B) data)
      (fun _ s' => Idle s s' ↔ s.fp.sector ≠ 65535 ∧ FlushFails B s.fp s.os.1)
      (fun _ s' => Idle s s' ↔ s.fp.sector ≠ 65535 ∧ FlushFails B s.fp s.os.1) s := by
  have hlog' := (coupled_asked (B := B) s.os.2 65535).lockstep
  have hpos : bufPos s.fp = 127 := by
    unfold bufPos
    rw [hneg]
    rfl
  have hlen : data.length > 0 := List.length_pos_of_ne_nil hdata
  have hcount : wrtbinCount 127 data.length = 1 := by
    unfold wrtbinCount
    rw [if_neg (by omega), if_neg (by omega)]
  have htake : (data.take 1).length = 1 := by
    rw [List.length_take]
    omega
  have hsector : Int.toNat ((-1 : ℤ) / 128 % 2 ^ 16) = 65535 := by decide
  rw [wrtbin, wp_bind, wp_get, hneg, hpos, hcount, hsector, wp_bind, wrtbinClean, wp_bind, wp_get, wp_whenever]
  by_cases hsec : s.fp.sector = 65535
  · have hrest : ∀ xsector, KeepsSound (fun _ => True) 0 (do
        wrtbinRest (withLog B) xsector (data.drop 1)
        raiseHiwater
        pure ((data.length % 2 ^ 16 : ℕ) : ℤ)) := fun xsector =>
      (keepsSound_wrtbinRest admits_true _ _).bind fun _ => keepsSound_raiseHiwater.bind fun _ => .pure _
    have hmoved : ∀ s' : Io (σ × List ℤ), Sound (fun _ => True) 0 s'.fp s'.os →
        (Idle s s' ↔ s.fp.sector ≠ 65535 ∧ FlushFails B s.fp s.os.1) := by
      intro s' h'
      refine iff_of_false (fun hidle => ?_) (fun h => h.1 hsec)
      have hoff := h'.offset
      rw [hidle.fp] at hoff
      exact absurd (hneg ▸ hoff : (0 : ℤ) ≤ -1) (by decide)
    rw [if_neg (by rw [hsec]; decide), wp_bind, wrtbinBuffer, wp_bind, wp_get, wp_ite, if_pos (by omega), wp_bind, wp_setFp, hpos,
      htake, wp_ite, if_neg (by decide), wp_bind]
    have hwrite : KeepsSound (fun _ : σ × List ℤ => True) 0 (writeBuffer (withLog B) (65535 : ℕ)) :=
      keepsSound_writeBuffer admits_true (Int.natCast_nonneg _)
    refine wp_mono (hwrite _ ⟨?_, hs.hiwater, hs.sector, hs.dirty, trivial⟩) (fun _ s₁ h₁ => ?_) (fun _ s₁ h₁ => hmoved s₁ h₁)
    · dsimp only
      rw [hneg]
      decide
    · rw [wp_bind, wp_setFp, wp_pure]
      refine wp_mono (hrest _ _ ?_) (fun _ s₂ h₂ => hmoved s₂ h₂) (fun _ s₂ h₂ => hmoved s₂ h₂)
      exact ⟨h₁.offset, h₁.hiwater, by dsimp only; omega, fun hd => absurd hd (by simp), trivial⟩
  · have hrest : ∀ nbs, Keeps (fun s' : Io (σ × List ℤ) => Asked s.os.2 (65535) s'.os) (do
        let xsector ← wrtbinBuffer (withLog B) 65535 (data.take nbs)
        wrtbinRest (withLog B) xsector (data.drop nbs)
        raiseHiwater
        pure ((data.length % 2 ^ 16 : ℕ) : ℤ)) := fun nbs =>
      keeps_of_sync (.bind (hlog'.wrtbinBuffer _ _) fun _ => .bind (hlog'.wrtbinRest _ _) fun _ =>
        .bind hlog'.raiseHiwater fun _ => .pure _)
    have hset : Keeps (fun s' : Io (σ × List ℤ) => Asked s.os.2 (65535) s'.os)
        (setFp fun fp => { fp with flags := { fp.flags with DIRTY := false }, sector := (65535 : ℕ) }) := .modify fun _ h => h
    -- the sector is read, since no sector lies before it
    have hprepare : ∀ s' : Io (σ × List ℤ), Flushed s s' → ¬ FlushFails B s.fp s.os.1 →
        wp (do
          prepareBuffer (withLog B) (65535 : ℕ)
          setFp fun fp => { fp with flags := { fp.flags with DIRTY := false }, sector := (65535 : ℕ) })
          (fun _ s'' => wp (do
            let xsector ← wrtbinBuffer (withLog B) 65535 (data.take 1)
            wrtbinRest (withLog B) xsector (data.drop 1)
            raiseHiwater
            pure ((data.length % 2 ^ 16 : ℕ) : ℤ))
            (fun _ s' => Idle s s' ↔ s.fp.sector ≠ 65535 ∧ FlushFails B s.fp s.os.1)
            (fun _ s' => Idle s s' ↔ s.fp.sector ≠ 65535 ∧ FlushFails B s.fp s.os.1) s'')
          (fun _ s'' => Idle s s'' ↔ s.fp.sector ≠ 65535 ∧ FlushFails B s.fp s.os.1) s' := by
      intro s' hs' hflush
      have hge := hs.hiwater
      have hle : ¬ OFFSECT s'.fp > HIWSECT s'.fp := by
        unfold OFFSECT HIWSECT
        rw [hs'.offset, hs'.hiwater, hneg]
        omega
      rw [wp_bind, prepareBuffer, wp_bind, wp_get, wp_ite, if_neg hle, wp_bind]
      refine wp_mono (wp_readBuffer_asked _ hs'.log) (fun found s₁ h₁ => ?_) (fun _ _ h => h.elim)
      rw [wp_whenever]
      split_ifs
      · exact iff_of_false (fun hidle => hsec (hidle.of_asked h₁).2.symm) (fun h => hflush h.2)
      · exact wp_mono (hset s₁ h₁) (fun _ s₂ h₂ => wp_busy (hrest 1) h₂ (fun _ => Ne.symm hsec) (fun h => hflush h.2))
          (fun _ s₂ h₂ => iff_of_false (fun hidle => hsec (hidle.of_asked h₂).2.symm) (fun h => hflush h.2))
    rw [if_pos (show ((65535 : ℕ) : ℤ) ≠ s.fp.sector from fun h => hsec h.symm), wp_bind, wp_whenever]
    split_ifs with hd
    · refine wp_mono (wp_writeBuffer_idle hd) (fun _ s₁ h₁ => ?_) (fun _ s₁ h₁ => iff_of_true h₁.2 ⟨hsec, h₁.1⟩)
      exact hprepare s₁ h₁.2 h₁.1
    · exact hprepare s ⟨rfl, rfl, [], (List.append_nil _).symm⟩ fun h => hd h.1

variable (hdev : s.fp.NoDevice)

include hdev

/-- `read` at the offset -1 is idle if and only if it is quiet. -/
theorem wp_readFp_negative (bytes : ℕ) :
    wp (readFp (withLog B) bytes) (fun _ s' => Idle s s' ↔ QuietRead B s.fp s.os.1 bytes)
      (fun _ s' => Idle s s' ↔ QuietRead B s.fp s.os.1 bytes) s := by
  obtain ⟨htty, hlpt, -⟩ := hdev
  rw [readFp, wp_bind, wp_get]
  simp only [htty, hlpt, Bool.false_eq_true, if_false, wp_ite]
  split_ifs with hateof hascii
  · exact iff_of_true (Idle.refl s) (.inl hateof)
  · have hno : s.fp.flags.ATEOF = false := Bool.eq_false_iff.mpr hateof
    have hquiet : QuietRead B s.fp s.os.1 bytes = (bytes = 0 ∨ (s.fp.sector ≠ -1 ∧ FlushFails B s.fp s.os.1)) := by
      simp [QuietRead, hno, hascii]
    rw [hquiet]
    exact wp_rdasc_negative hneg hs hno bytes
  · have hquiet : QuietRead B s.fp s.os.1 bytes =
        ((bytes = 0 ∧ s.fp.sector = -1) ∨ (s.fp.sector ≠ -1 ∧ FlushFails B s.fp s.os.1)) := by
      simp [QuietRead, hateof, hascii]
    rw [hquiet]
    exact wp_rdbin_negative hneg hs bytes

/-- `write` at the offset -1 is idle if and only if it is quiet. -/
theorem wp_writeFp_negative (data : List UInt8) :
    wp (writeFp (withLog B) data) (fun _ s' => Idle s s' ↔ QuietWrite B s.fp s.os.1 data)
      (fun _ s' => Idle s s' ↔ QuietWrite B s.fp s.os.1 data) s := by
  obtain ⟨htty, hlpt, hque⟩ := hdev
  rw [writeFp, wp_bind, wp_get]
  simp only [htty, hlpt, hque, Bool.false_eq_true, or_self, if_false, wp_ite]
  split_ifs with hlen hread hascii
  · exact iff_of_true (Idle.refl s) (.inl (List.length_eq_zero_iff.mp hlen))
  · exact iff_of_true (Idle.refl s) (.inr (.inl hread))
  · have hdata : data ≠ [] := fun h => hlen (List.length_eq_zero_iff.mpr h)
    have hquiet : QuietWrite B s.fp s.os.1 data = (s.fp.sector ≠ -1 ∧ FlushFails B s.fp s.os.1) := by
      simp [QuietWrite, sectorBefore, hdata, hread, hascii]
    rw [hquiet]
    exact wp_wrtasc_negative hneg hs hdata
  · have hdata : data ≠ [] := fun h => hlen (List.length_eq_zero_iff.mpr h)
    have hquiet : QuietWrite B s.fp s.os.1 data = (s.fp.sector ≠ 65535 ∧ FlushFails B s.fp s.os.1) := by
      simp [QuietWrite, sectorBefore, hdata, hread, hascii]
    rw [hquiet]
    exact wp_wrtbin_negative hneg hs hdata

end Negative

/-! ### Runs -/

/-- A call that does not go wrong: a seek finds the end of the file, and what is made at a
negative position is quiet. -/
def FileCall.Careful (B : Osif σ) (fd : ℤ) (w : World (σ × List ℤ)) : FileCall → Prop
  | .read bytes => 0 ≤ (w.fds fd).offset ∨ QuietRead B (w.fds fd) w.os.1 bytes
  | .write buff => 0 ≤ (w.fds fd).offset ∨ QuietWrite B (w.fds fd) w.os.1 buff
  | .lseek _ sense => ¬ (sense = 2 ∧ EndLost B (w.fds fd) w.os.1)
  | .fstat => True

/-- No number of the channel is wrong, and no record below 0 has been asked for. -/
structure SoundChannel (fp : Ccb) (os : σ × List ℤ) : Prop where
  noDevice : fp.NoDevice
  sound : Sound LogSound (-1) fp os

theorem Sound.weaken {K : σ → Prop} {fp : Ccb} {os : σ} (h : Sound K 0 fp os) : Sound K (-1) fp os :=
  ⟨by have := h.offset; omega, h.hiwater, h.sector, h.dirty, h.os⟩

theorem Sound.forget {K : σ → Prop} {lo : ℤ} {fp : Ccb} {os : σ} (h : Sound K lo fp os) : Sound (fun _ => True) lo fp os :=
  ⟨h.offset, h.hiwater, h.sector, h.dirty, trivial⟩

/-- An idle call asks for no record but that of a dirty buffer. -/
theorem Idle.sound {s s' : Io (σ × List ℤ)} (h : Idle s s') (hs : Sound LogSound (-1) s.fp s.os) :
    Sound LogSound (-1) s'.fp s'.os := by
  have hlog : LogSound s'.os := by
    obtain ⟨l, hl, hall⟩ := h.log
    intro n hn
    rw [hl] at hn
    rcases List.mem_append.mp hn with hn | hn
    · exact hs.os n hn
    · obtain ⟨hd, rfl⟩ := hall n hn
      exact hs.dirty hd
  rw [h.fp]
  exact ⟨hs.offset, hs.hiwater, hs.sector, hs.dirty, hlog⟩

theorem endLost_withLog (fp : Ccb) (os : σ × List ℤ) : EndLost (withLog B) fp os ↔ EndLost B fp os.1 := by
  have hasked : sizeAsked (withLog B) fp os = ((sizeAsked B fp os.1).1, (sizeAsked B fp os.1).2, os.2) := by
    unfold sizeAsked
    simp only [chkuser_withLog, uchkuser_withLog]
    rfl
  unfold EndLost RefusesRead
  simp only [hasked, chkuser_withLog, withLog_bRead]

theorem noDevice_of_mode {fp fp' : Ccb} (h : fp'.mode = fp.mode) (hdev : fp.NoDevice) : fp'.NoDevice := by
  have hflags : ({ fp'.flags with ATEOF := false, DIRTY := false } : Flags) = { fp.flags with ATEOF := false, DIRTY := false } :=
    congrArg Prod.fst h
  exact ⟨(congrArg Flags.ISTTY hflags).trans hdev.1, (congrArg Flags.ISLPT hflags).trans hdev.2.1,
    (congrArg Flags.ISQUE hflags).trans hdev.2.2⟩

/-- A routine on the channel of a call. -/
theorem soundChannel_onCcb {α : Type} {fd : ℤ} {m : IoM (σ × List ℤ) α} (hmode : KeepsMode m) {w : World (σ × List ℤ)}
    (hw : SoundChannel (w.fds fd) w.os)
    (hm : wp m (fun _ s' => Sound LogSound (-1) s'.fp s'.os) (fun _ s' => Sound LogSound (-1) s'.fp s'.os) ⟨w.fds fd, w.os, []⟩) :
    wp (do chkc fd; onCcb fd m) (fun _ w' => SoundChannel (w'.fds fd) w'.os) (fun _ w' => SoundChannel (w'.fds fd) w'.os) w := by
  have hafter : ∀ s' : Io (σ × List ℤ), s'.fp.mode = (w.fds fd).mode → Sound LogSound (-1) s'.fp s'.os →
      SoundChannel ({ w with fds := Function.update w.fds fd s'.fp, os := s'.os }.fds fd) s'.os := by
    intro s' hs' h
    simp only [Function.update_self]
    exact ⟨noDevice_of_mode hs' hw.noDevice, h⟩
  rw [wp_bind]
  refine wp_mono (wp_chkc w fd) (fun _ w₁ h₁ => ?_) (fun _ w₁ h₁ => h₁.2.1 ▸ hw)
  obtain ⟨rfl, -⟩ := h₁
  rw [wp_onCcb]
  exact wp_mono (wp_and (hmode _ ⟨w₁.fds fd, w₁.os, []⟩ rfl) hm) (fun _ s' h => hafter s' h.1 h.2)
    (fun _ s' h => hafter s' h.1 h.2)

/-- A careful call keeps the channel sound. -/
theorem soundChannel_after {fd : ℤ} {w : World (σ × List ℤ)} (hw : SoundChannel (w.fds fd) w.os) {c : FileCall}
    (hc : c.Careful B fd w) : SoundChannel ((c.after (withLog B) fd w).fds fd) (c.after (withLog B) fd w).os := by
  have hneg : ¬ 0 ≤ (w.fds fd).offset → (w.fds fd).offset = -1 := fun h => by
    have hoff := hw.sound.offset
    omega
  have hat : 0 ≤ (w.fds fd).offset → Sound LogSound 0 (w.fds fd) w.os := fun h =>
    ⟨h, hw.sound.hiwater, hw.sound.sector, hw.sound.dirty, hw.sound.os⟩
  cases c with
  | read bytes =>
    have hread : wp (readFp (withLog B) bytes) (fun _ s' => Sound LogSound (-1) s'.fp s'.os)
        (fun _ s' => Sound LogSound (-1) s'.fp s'.os) ⟨w.fds fd, w.os, []⟩ := by
      by_cases hoff : 0 ≤ (w.fds fd).offset
      · exact wp_mono (keepsSound_readFp admits_logSound (hat hoff) hw.noDevice bytes) (fun _ _ h => h.weaken)
          (fun _ _ h => h.weaken)
      · have hquiet := hc.resolve_left hoff
        exact wp_mono (wp_readFp_negative (hneg hoff) hw.sound.forget hw.noDevice bytes)
          (fun _ _ h => (h.mpr hquiet).sound hw.sound) (fun _ _ h => (h.mpr hquiet).sound hw.sound)
    refine wp_after (soundChannel_onCcb ?_ hw ?_)
    · exact (keepsMode_readFp bytes).bind fun _ => .bind .get fun _ => .pure _
    · rw [wp_bind]
      exact wp_mono hread (fun _ _ h => h) (fun _ _ h => h)
  | write buff =>
    refine wp_after (P := fun w' => SoundChannel (w'.fds fd) w'.os) (wp_write_own (Q := fun _ => SoundChannel)
      (E := fun _ => SoundChannel) (soundChannel_onCcb (keepsMode_writeFp buff) hw ?_))
    by_cases hoff : 0 ≤ (w.fds fd).offset
    · exact wp_mono (keepsSound_writeFp admits_logSound (hat hoff) hw.noDevice buff) (fun _ _ h => h.weaken)
        (fun _ _ h => h.weaken)
    · have hquiet := hc.resolve_left hoff
      exact wp_mono (wp_writeFp_negative (hneg hoff) hw.sound.forget hw.noDevice buff)
        (fun _ _ h => (h.mpr hquiet).sound hw.sound) (fun _ _ h => (h.mpr hquiet).sound hw.sound)
  | lseek offs sense =>
    refine wp_after (soundChannel_onCcb (keepsMode_lseekFp offs sense) hw ?_)
    exact wp_lseekFp_sound admits_logSound hw.noDevice hw.sound fun h => hc ⟨h.1, (endLost_withLog _ _).mp h.2⟩
  | fstat =>
    refine wp_after (soundChannel_onCcb keepsMode_fstatFp hw ?_)
    exact wp_fstatFp_sound admits_logSound hw.noDevice hw.sound

theorem soundChannel_run {fd : ℤ} {w : World (σ × List ℤ)} (hw : SoundChannel (w.fds fd) w.os) {cs : List FileCall}
    (hc : AllCalls (withLog B) (FileCall.Careful B fd) fd cs w) :
    SoundChannel ((runFile (withLog B) fd cs w).fds fd) (runFile (withLog B) fd cs w).os := by
  induction cs generalizing w with
  | nil => exact hw
  | cons c cs ih => exact ih (soundChannel_after hw hc.1) hc.2

/-- **A failed seek.** A seek does as it should if and only if it does not lose the end of the
file. A call at the offset -1, which a failed seek leaves, is idle if and only if it is quiet.
In a run of careful calls the high water mark does not become negative, the number -1 is not
that of a dirty sector, and no record below 0 is asked for. -/
theorem failed_seek (B : Osif σ) :
    (∀ (s : Io σ) (offs sense : ℤ), s.fp.NoDevice → 0 ≤ s.fp.hiwater → sense = 0 ∨ sense = 1 ∨ sense = 2 →
      (SeekSafe B s offs sense ↔ ¬ (sense = 2 ∧ EndLost B s.fp s.os))) ∧
    (∀ s : Io (σ × List ℤ), s.fp.NoDevice → Sound (fun _ => True) (-1) s.fp s.os → s.fp.offset = -1 →
      (∀ bytes, wp (readFp (withLog B) bytes) (fun _ s' => Idle s s' ↔ QuietRead B s.fp s.os.1 bytes)
        (fun _ s' => Idle s s' ↔ QuietRead B s.fp s.os.1 bytes) s) ∧
      ∀ data, wp (writeFp (withLog B) data) (fun _ s' => Idle s s' ↔ QuietWrite B s.fp s.os.1 data)
        (fun _ s' => Idle s s' ↔ QuietWrite B s.fp s.os.1 data) s) ∧
    ∀ (fd : ℤ) (w : World (σ × List ℤ)) (cs : List FileCall), SoundChannel (w.fds fd) w.os →
      AllCalls (withLog B) (FileCall.Careful B fd) fd cs w →
      SoundChannel ((runFile (withLog B) fd cs w).fds fd) (runFile (withLog B) fd cs w).os := by
  refine ⟨fun s offs sense hdev hhi hsense => seekSafe_iff hdev hhi hsense, fun s hdev hs hneg => ⟨fun bytes => ?_, fun data => ?_⟩,
    fun fd w cs hw hc => soundChannel_run hw hc⟩
  · exact wp_readFp_negative hneg hs hdev bytes
  · exact wp_writeFp_negative hneg hs hdev data

/-- The file `A`, just created, with the log. -/
def createdLogged : World (MemOs × List ℤ) := after (creat (withLog memOsif) [0x41] 1) (coldWorld (emptyDisk, []))

theorem soundChannel_createdLogged : SoundChannel (createdLogged.fds 0) createdLogged.os :=
  ⟨⟨rfl, rfl, rfl⟩, by decide, by decide, by decide, fun h => absurd h (by decide), fun _ h => absurd h List.not_mem_nil⟩

/-- After a seek to the byte -1. -/
def soughtBefore : World (MemOs × List ℤ) := runFile (withLog memOsif) 0 [.lseek (-1) 0] createdLogged

theorem sound_soughtBefore : Sound (fun _ => True) (-1) (soughtBefore.fds 0) soughtBefore.os :=
  ⟨by decide, by decide, by decide, fun h => absurd h (by decide), trivial⟩

/-- A write, a failed seek, a write of nothing, and a read from the end on. -/
def carefulCalls : List FileCall := [.write [1, 2, 3], .lseek (-1) 0, .write [], .lseek (-2) 2, .read 5]

theorem careful_carefulCalls : AllCalls (withLog memOsif) (FileCall.Careful memOsif 0) 0 carefulCalls createdLogged :=
  ⟨.inl (by decide), fun h => absurd h.1 (by decide), .inr (.inl rfl), fun h => absurd h.2.1 (by decide), .inl (by decide), trivial⟩

theorem failed_seek_small :
    let s : Io (MemOs × List ℤ) := ⟨soughtBefore.fds 0, soughtBefore.os, []⟩
    (SeekSafe memOsif ⟨(createdA 0).fds 0, (createdA 0).os, []⟩ (-1) 2 ↔
      ¬ ((2 : ℤ) = 2 ∧ EndLost memOsif ((createdA 0).fds 0) (createdA 0).os)) ∧
    wp (readFp (withLog memOsif) 1) (fun _ s' => Idle s s' ↔ QuietRead memOsif s.fp s.os.1 1)
      (fun _ s' => Idle s s' ↔ QuietRead memOsif s.fp s.os.1 1) s ∧
    wp (writeFp (withLog memOsif) [0x41]) (fun _ s' => Idle s s' ↔ QuietWrite memOsif s.fp s.os.1 [0x41])
      (fun _ s' => Idle s s' ↔ QuietWrite memOsif s.fp s.os.1 [0x41]) s ∧
    SoundChannel ((runFile (withLog memOsif) 0 carefulCalls createdLogged).fds 0)
      (runFile (withLog memOsif) 0 carefulCalls createdLogged).os := by
  obtain ⟨hseek, hidle, hrun⟩ := failed_seek memOsif
  obtain ⟨hread, hwrite⟩ := hidle ⟨soughtBefore.fds 0, soughtBefore.os, []⟩ ⟨rfl, rfl, rfl⟩ sound_soughtBefore rfl
  exact ⟨hseek _ (-1) 2 ⟨rfl, rfl, rfl⟩ (by decide) (.inr (.inr rfl)), hread 1, hwrite [0x41],
    hrun 0 _ _ soundChannel_createdLogged careful_carefulCalls⟩

/-- **The byte of no sector**: after a failed seek in a new file `read` delivers the last byte
of the buffer, in which no sector is. -/
theorem read_after_failed_seek :
    ∃ w₁ w₂, lseek memOsif 0 (-1) 0 (createdA 1) = .ok (-1) w₁ ∧ (w₁.fds 0).sector = -1 ∧
      read memOsif 0 1 w₁ = .ok (1, [(w₁.fds 0).buffer 127]) w₂ := ⟨_, _, rfl, rfl, rfl⟩

end Cpm68k.Cpmlib
