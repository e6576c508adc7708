import Cpm68k.Cpmlib.AsciiFile
import Cpm68k.Cpmlib.CleanRead
import Cpm68k.Cpmlib.LastWriter

/-!
# Reading at the end of a file

At or behind the end of a file there is nothing to read. `_rdasc` and the transfer of whole
sectors in `_rdbin` then return 0 and set `ATEOF`, which makes every `read` return 0 until the
next `lseek`. Off a boundary `_rdbin` gets the sector of the offset into the buffer first, and
takes a sector that is missing for an error.

## What is proved

* `keepsEof_wrtbin`, `keepsEof_wrtasc`, `atEof_runFile` — no call but `lseek` clears `ATEOF`.
* `wp_rdbin_end`, `wp_rdasc_end`, `wp_rdbin_end_unaligned` — reading at the end.
* `end_of_file_iff` — `read` returns 0 there, unless the file is binary, the offset is not on
  a boundary and `ATEOF` is not set.
* `end_of_file_fails` — a seek to byte 1 of an empty file, and a read.
-/

namespace Cpm68k.Cpmlib

open Cpm68k.Library RecordStore

variable {σ : Type} {B : Osif σ} {S : RecordStore B} {file : FileId} {u : UInt16} {E : ℕ → Option Sector} {s : Io σ}

/-! ### The end of file flag -/

/-- A program that neither sets nor clears `ATEOF`. -/
abbrev KeepsEof {α : Type} (m : IoM σ α) : Prop := KeepsFp (fun fp => fp.flags.ATEOF) m

theorem keepsEof_writeBuffer (sector : ℤ) : KeepsEof (writeBuffer B sector) := KeepsFp.writeBuffer (fun _ _ => rfl) _

theorem keepsEof_readBuffer (sector : ℤ) : KeepsEof (readBuffer B sector) :=
  KeepsFp.readBuffer (fun _ _ => rfl) (fun _ _ => rfl) _

theorem keepsEof_prepareBuffer (sector : ℤ) : KeepsEof (prepareBuffer B sector) :=
  KeepsFp.prepareBuffer (fun _ _ => rfl) (fun _ _ => rfl) _

theorem keepsEof_flush : KeepsEof (flush B) :=
  .bind .get fun _ => .whenever (.bind (keepsEof_writeBuffer _) fun _ => .setFp fun _ => rfl)

theorem keepsEof_raiseHiwater : KeepsEof (raiseHiwater : IoM σ PUnit) := by
  apply KeepsFp.setFp
  intro fp
  split_ifs <;> rfl

theorem keepsEof_wrtbinClean (xsector : ℕ) : KeepsEof (wrtbinClean B xsector) :=
  .bind .get fun _ => .whenever (.bind (.whenever (keepsEof_writeBuffer _)) fun _ =>
    .bind (keepsEof_prepareBuffer _) fun _ => .setFp fun _ => rfl)

theorem keepsEof_wrtbinBuffer (xsector : ℕ) (data : List UInt8) : KeepsEof (wrtbinBuffer B xsector data) := by
  refine .bind .get fun _ => .ite (.bind (.setFp fun _ => rfl) fun _ => .ite ?_ ?_) (.pure _)
  · exact .bind (.setFp fun _ => rfl) fun _ => .pure _
  · exact .bind (keepsEof_writeBuffer _) fun _ => .bind (.setFp fun _ => rfl) fun _ => .pure _

theorem keepsEof_wrtbinTail (xsector : ℕ) (data : List UInt8) : KeepsEof (wrtbinTail B xsector data) :=
  .whenever (.bind (keepsEof_prepareBuffer _) fun _ => .setFp fun _ => rfl)

theorem keepsEof_wrtbinRest (xsector : ℕ) (data : List UInt8) : KeepsEof (wrtbinRest B xsector data) := by
  refine .ite (.bind ?_ fun _ => keepsEof_wrtbinTail _ _) (keepsEof_wrtbinTail _ _)
  exact .bind (KeepsFp.blkioWrite (fun _ _ => rfl) _ _) fun _ => .bind (.whenever (.throw _)) fun _ =>
    .bind (.setFp fun _ => rfl) fun _ => .pure _

theorem keepsEof_wrtbin (data : List UInt8) : KeepsEof (wrtbin B data) :=
  .bind .get fun _ => .bind (keepsEof_wrtbinClean _) fun _ => .bind (keepsEof_wrtbinBuffer _ _) fun _ =>
    .bind (keepsEof_wrtbinRest _ _) fun _ => .bind keepsEof_raiseHiwater fun _ => .pure _

theorem keepsEof_wrtascSector (xsector : ℤ) : KeepsEof (wrtascSector B xsector) :=
  .bind .get fun _ => .whenever (.bind keepsEof_flush fun _ => .bind (.whenever (.bind (keepsEof_readBuffer _) fun _ =>
    .whenever (.throw _))) fun _ => .setFp fun _ => rfl)

theorem keepsEof_wrtascPut (xsector : ℤ) (pos : ℕ) (put : List UInt8) : KeepsEof (wrtascPut B xsector pos put) := by
  refine .bind (.setFp fun _ => rfl) fun _ => .bind .get fun _ => .ite ?_ (.bind (.setFp fun _ => rfl) fun _ => .pure _)
  exact .bind (KeepsFp.blkioWrite (fun _ _ => rfl) _ _) fun _ => .pure _

theorem keepsEof_wrtascLoop (written fuel : ℕ) (cc : UInt8) (data : List UInt8) :
    KeepsEof (wrtascLoop B written fuel cc data) := by
  induction fuel generalizing cc data with
  | zero => exact .pure _
  | succ fuel ih =>
    refine .ite (.bind .get fun _ => .bind (keepsEof_wrtascSector _) fun _ => .bind (keepsEof_wrtascPut _ _ _) fun _ => ?_)
      (.pure _)
    exact .ite (.pure _) (.ite (.bind keepsEof_raiseHiwater fun _ => .pure _) (ih _ _))

/-- At the end of the file, it stays so. -/
abbrev StaysAtEof {α : Type} (m : IoM σ α) : Prop := Keeps (fun s => s.fp.flags.ATEOF = true) m

theorem staysAtEof_readFp (bytes : ℕ) : StaysAtEof (readFp B bytes) := by
  intro s h
  rw [wp_readFp_ateof h]
  exact h

theorem staysAtEof_writeFp (data : List UInt8) : StaysAtEof (writeFp B data) := by
  refine Keeps.get.bind fun _ => .ite (.pure _) (.ite (.throw _) (.ite ?_ (.ite ?_ ?_)))
  · exact keeps_wrtchr (P := fun fp _ => fp.flags.ATEOF = true) (fun _ => .const) data
  · exact keepsEof_wrtascLoop _ _ _ _ true
  · exact keepsEof_wrtbin data true

theorem keepsEof_fileszDisk : KeepsEof (fileszDisk B) := by
  refine .bind (.of_eq fun _ => ⟨_, _, rfl, rfl⟩) fun _ => .bind (.of_eq fun _ => ⟨_, _, rfl, rfl⟩) fun _ =>
    .bind (.of_eq fun _ => ⟨_, _, rfl, rfl⟩) fun _ => .bind (.setFp fun _ => rfl) fun _ => .bind .get fun _ =>
    .ite (.bind .get fun _ => .ite ?_ (.setFp fun _ => rfl)) (.setFp fun _ => rfl)
  refine .bind (.whenever (.bind keepsEof_flush fun _ => ?_)) fun _ => .setFp fun _ => rfl
  exact .bind (keepsEof_readBuffer _) fun _ => .whenever (.throw _)

theorem staysAtEof_fileszFp : StaysAtEof (fileszFp B) := by
  refine Keeps.get.bind fun _ => .ite (.pure _) (.bind (.ite ?_ (keepsEof_fileszDisk true)) fun _ => ?_)
  · exact Keeps.modify fun _ h => h
  · intro s _
    rw [wp_bind, wp_setFp, wp_bind, wp_get, wp_pure]

theorem staysAtEof_fstatFp : StaysAtEof (fstatFp B) := by
  refine Keeps.get.bind fun _ => .ite (.pure _) (Keeps.bind ?_ fun _ => ?_)
  · intro s h
    rw [wp_orFailure]
    exact staysAtEof_fileszFp s h
  · intro s h
    rw [wp_bind, wp_setFp, wp_pure]
    exact h

/-- A seek that is known clears the flag. -/
theorem wp_lseekFp_eof (offs : ℤ) {sense : ℤ} (hsense : sense = 0 ∨ sense = 1 ∨ sense = 2) :
    wp (lseekFp B offs sense) (fun _ s' => s'.fp.flags.ATEOF = false) (fun _ _ => False) s := by
  rcases hsense with rfl | rfl | rfl
  · rw [wp_lseekFp_start]
  · rw [wp_lseekFp_current]
  · rw [wp_lseekFp_end, wp_orFailure]
    unfold wp
    cases fileszFp B s <;> rfl

/-- The call is a seek. -/
def FileCall.isSeek : FileCall → Bool
  | .lseek _ _ => true
  | _ => false

variable {isread isascii : Bool} {k : ℕ} {w : World σ}

/-- The channel is at the end of its file. -/
abbrev OpenAtEof (isread isascii : Bool) (k : ℕ) (w : World σ) : Prop :=
  OpenFile isread isascii k (fun fp _ => fp.flags.ATEOF = true) w

/-- A call that does not seek leaves it there. -/
theorem atEof_after (h : OpenAtEof isread isascii k w) {c : FileCall} (hc : c.isSeek = false) :
    OpenAtEof isread isascii k (c.after B k w) := by
  cases c with
  | read bytes =>
    refine wp_after (h.wp_read (Q := fun _ fp _ => fp.flags.ATEOF = true) (E := fun _ fp _ => fp.flags.ATEOF = true) ?_)
    exact staysAtEof_readFp bytes _ h.holds
  | write buff =>
    refine wp_after (h.wp_write (Q := fun _ fp _ => fp.flags.ATEOF = true) (E := fun _ fp _ => fp.flags.ATEOF = true) ?_)
    exact staysAtEof_writeFp buff _ h.holds
  | lseek offs sense => cases hc
  | fstat =>
    refine wp_after (h.call (Q := fun _ fp _ => fp.flags.ATEOF = true) (E := fun _ fp _ => fp.flags.ATEOF = true)
      keepsMode_fstatFp ?_)
    exact staysAtEof_fstatFp _ h.holds

/-- Nor do several such calls take it away. -/
theorem atEof_runFile {cs : List FileCall} (h : OpenAtEof isread isascii k w) (hcs : ∀ c ∈ cs, c.isSeek = false) :
    OpenAtEof isread isascii k (runFile B k cs w) := by
  induction cs generalizing w with
  | nil => exact h
  | cons c cs ih =>
    obtain ⟨hc, hcs⟩ := List.forall_mem_cons.mp hcs
    exact ih (atEof_after h hc) hcs

/-- The next seek does. -/
theorem atEof_lseek (h : OpenAtEof isread isascii k w) (offs : ℤ) {sense : ℤ} (hsense : sense = 0 ∨ sense = 1 ∨ sense = 2) :
    (((FileCall.lseek offs sense).after B k w).fds k).flags.ATEOF = false := by
  refine (wp_after (P := OpenFile isread isascii k fun fp _ => fp.flags.ATEOF = false) ?_).holds
  refine h.call (Q := fun _ fp _ => fp.flags.ATEOF = false) (E := fun _ fp _ => fp.flags.ATEOF = false)
    (keepsMode_lseekFp offs sense) ?_
  exact wp_mono (wp_lseekFp_eof offs hsense) (fun _ _ h => h) (fun _ _ h => h.elim)

/-! ### Reading at the end -/

/-- A channel on a file of `N` records without holes, with the offset at or behind its end. -/
structure AtEnd (S : RecordStore B) (file : FileId) (u : UInt16) (N : ℕ) (fp : Ccb) (os : σ) : Prop where
  file : ∃ E, Content S file u E False fp os ∧ HoleFree E N ∧ ∀ j : ℕ, fp.sector = j → E j ≠ none
  offset : (128 * N : ℕ) ≤ fp.offset

/-- The sector of the offset is missing, and is not the one in the buffer. -/
theorem AtEnd.missing {fp : Ccb} {os : σ} {N : ℕ} (h : AtEnd S file u N fp os) :
    ∃ E, ∃ k : ℕ, Content S file u E False fp os ∧ fp.offset / 128 = k ∧ E k = none ∧ fp.sector ≠ k := by
  obtain ⟨⟨E, hcont, hfile, hlabel⟩, hoff⟩ := h
  refine ⟨E, (fp.offset / 128).toNat, hcont, by omega, ?_, ?_⟩
  · by_contra hsome
    have hlt := (hfile _).mp hsome
    omega
  · intro hsec
    have hlt := (hfile _).mp (hlabel _ hsec)
    omega

/-- Nothing is read, and the end of the file is marked. -/
def NothingRead (s : Io σ) (r : ℤ) (s' : Io σ) : Prop :=
  r = 0 ∧ s'.buff = s.buff ∧ s'.fp.offset = s.fp.offset ∧ s'.fp.flags.ATEOF = true

theorem wp_rdasc_end {k n : ℕ} (h : Content S file u E False s.fp s.os) (hk : s.fp.offset / 128 = k) (hnone : E k = none)
    (hsec : s.fp.sector ≠ k) (hn : 0 < n) : wp (rdasc B n) (NothingRead s) (fun _ _ => False) s := by
  rw [rdasc, rdascLoop, wp_ite, if_pos hn, wp_bind]
  refine wp_mono (wp_rdascSector_absent h hk hnone hsec) ?_ (fun _ _ h => h)
  rintro _ _ ⟨rfl, ⟨fcb, os, rfl⟩, -⟩
  rw [wp_ite, if_pos rfl, wp_pure, Nat.sub_self]
  exact ⟨rfl, rfl, rfl, rfl⟩

/-- On a boundary. -/
theorem wp_rdbin_end {k n : ℕ} (h : Content S file u E False s.fp s.os) (hk : s.fp.offset / 128 = k) (hnone : E k = none)
    (hn : 0 < n) (halign : s.fp.offset % 128 = 0) : wp (rdbin B n) (NothingRead s) (fun _ _ => False) s := by
  obtain ⟨D, hon, hl, rfl, -⟩ := h
  have ho : s.fp.offset = (128 * k : ℕ) := by omega
  have hview : readView D s.fp n (128 * k / 128) = none := by
    rw [Nat.mul_div_cancel_left k (by decide)]
    exact readView_eq_none n ho hnone fun hpos _ => by omega
  have hstream := stream_none (item_eq_none.mpr hview) n
  refine wp_mono (wp_rdbin_stream n hon hl ho) (fun r s' h => ?_) (fun _ _ h => h.1.1 (by omega))
  obtain ⟨-, hread⟩ := h
  refine ⟨?_, ?_, ?_, ?_⟩
  · rw [hread.count, hstream]
    rfl
  · rw [hread.buff, hstream, List.append_nil]
  · rw [hread.offset, hstream, ho]
    rfl
  · rw [hread.eof, hstream]
    simp [hn.ne]

/-- Off a boundary. -/
theorem wp_rdbin_end_unaligned {k n : ℕ} (h : Content S file u E False s.fp s.os) (hk : s.fp.offset / 128 = k)
    (hnone : E k = none) (hsec : s.fp.sector ≠ k) (halign : s.fp.offset % 128 ≠ 0) :
    wp (rdbin B n) (fun _ _ => False) (fun e _ => e = Errno.EIO) s := by
  obtain ⟨D, hon, hl, rfl, -⟩ := h
  obtain ⟨o, ho⟩ : ∃ o : ℕ, s.fp.offset = o := ⟨s.fp.offset.toNat, by omega⟩
  obtain rfl : o / 128 = k := by omega
  have hstuck : Stuck (readView D s.fp n) o := ⟨by omega, readView_eq_none n ho hnone fun _ h => absurd h hsec⟩
  exact wp_mono (wp_rdbin_stream n hon hl ho) (fun _ _ h => h.1 hstuck) (fun _ _ h => h.2.1)

/-! ### `read` -/

/-- `read` returns 0 and leaves the offset; the channel is at the end of the file until the next
seek, whatever calls come before that. -/
def EndOfFile (B : Osif σ) (k n : ℕ) (w : World σ) : Prop :=
  ∃ w', read B k n w = .ok (0, []) w' ∧ (w'.fds k).offset = (w.fds k).offset ∧
    ∀ cs : List FileCall, (∀ c ∈ cs, c.isSeek = false) → ((runFile B k cs w').fds k).flags.ATEOF = true ∧
      ∀ offs sense, sense = 0 ∨ sense = 1 ∨ sense = 2 →
        (((FileCall.lseek offs sense).after B k (runFile B k cs w')).fds k).flags.ATEOF = false

/-- A read that reads nothing is at the end of the file. -/
theorem endOfFile_of_nothing {P : Ccb → σ → Prop} {n : ℕ} (h : OpenFile isread isascii k P w)
    (hread : wp (readFp B n) (NothingRead ⟨w.fds k, w.os, []⟩) (fun _ _ => False) ⟨w.fds k, w.os, []⟩) :
    EndOfFile B k n w := by
  have hcall : wp (read B k n)
      (fun r => OpenFile isread isascii k fun fp _ => r = (0, []) ∧ fp.offset = (w.fds k).offset ∧ fp.flags.ATEOF = true)
      (fun _ => OpenFile isread isascii k fun _ _ => False) w := by
    refine h.wp_read (E := fun _ _ _ => False) (wp_mono hread ?_ (fun _ _ h => h))
    rintro _ s' ⟨rfl, hbuff, hoff, heof⟩
    exact ⟨by rw [hbuff], hoff, heof⟩
  obtain ⟨r, w', hrun, h'⟩ := exists_of_wp (wp_mono hcall (fun _ _ h => h) (fun _ _ h => h.holds))
  obtain ⟨rfl, hoff, heof⟩ := h'.holds
  refine ⟨w', hrun, hoff, fun cs hcs => ?_⟩
  have hend := atEof_runFile (B := B) (⟨h'.lt, h'.mode, heof⟩ : OpenAtEof isread isascii k w') hcs
  exact ⟨hend.holds, fun offs sense hsense => atEof_lseek hend offs hsense⟩

/-- **The end of a file is an error** only of a binary file, off a boundary, when the channel is not
marked yet. -/
theorem end_of_file_iff {N n : ℕ} (h : OpenFile isread isascii k (AtEnd S file u N) w) (hn : 0 < n) :
    EndOfFile B k n w ↔ (w.fds k).flags.ATEOF = true ∨ isascii = true ∨ (w.fds k).offset % 128 = 0 := by
  obtain ⟨E, j, hcont, hj, hnone, hsec⟩ := h.holds.missing
  constructor
  · intro hend
    by_contra hcon
    obtain ⟨heof, hascii, halign⟩ := not_or.mp hcon |>.imp id not_or.mp
    obtain ⟨w', hrun, -⟩ := hend
    have hcall : wp (read B k n) (fun _ => OpenFile isread isascii k fun _ _ => False)
        (fun e => OpenFile isread isascii k fun _ _ => e = Errno.EIO) w := by
      refine h.wp_read (Q := fun _ _ _ => False) (E := fun e _ _ => e = Errno.EIO) ?_
      rw [wp_readFp_file h.mode (by simpa using heof), if_neg hascii]
      exact wp_rdbin_end_unaligned hcont hj hnone hsec halign
    rw [wp_of_eq_ok hrun] at hcall
    exact hcall.holds
  · intro hor
    apply endOfFile_of_nothing h
    cases heof : (w.fds k).flags.ATEOF with
    | true =>
      rw [wp_readFp_ateof heof]
      exact ⟨rfl, rfl, rfl, heof⟩
    | false =>
      rw [wp_readFp_file h.mode heof]
      cases isascii with
      | true => exact wp_rdasc_end hcont hj hnone hsec hn
      | false =>
        have halign : (w.fds k).offset % 128 = 0 := by simpa [heof] using hor
        exact wp_rdbin_end hcont hj hnone hn halign

/-- One byte written, which makes a file of one sector, and a seek to a byte behind it that is not
on a boundary. -/
def behindSector : World MemOs := runFile memOsif 0 [.write [0x41], .lseek 129 0] (createdA 1)

theorem atEnd_behindSector : OpenFile false false 0 (AtEnd memStore (namedFile 0 [0x41]) 0 1) behindSector := by
  have hcontent : Content memStore (namedFile 0 [0x41]) 0
      (Function.update (fun _ => none) 0 (some (behindSector.fds 0).buffer)) False (behindSector.fds 0) behindSector.os :=
    ⟨fun _ => none, ⟨rfl, rfl, rfl⟩, fun _ => ⟨le_rfl, by decide⟩, flushed_of_dirty rfl, False.elim⟩
  refine ⟨by decide, rfl, ⟨_, hcontent, fun k => ?_, fun j hj => ?_⟩, by decide⟩
  · by_cases hk : k = 0
    · simp [hk]
    · rw [Function.update_of_ne hk]
      simp [hk]
  · have hsec : ((0 : ℕ) : ℤ) = j := hj
    obtain rfl : 0 = j := by exact_mod_cast hsec
    rw [Function.update_self]
    exact Option.some_ne_none _

theorem end_of_file_iff_behindSector :
    EndOfFile memOsif 0 1 behindSector ↔
      (behindSector.fds 0).flags.ATEOF = true ∨ false = true ∨ (behindSector.fds 0).offset % 128 = 0 :=
  end_of_file_iff atEnd_behindSector Nat.one_pos

/-- **A read behind the end fails**: the file has one sector, and a byte is read at byte 129. -/
theorem end_of_file_fails :
    OpenFile false false 0 (AtEnd memStore (namedFile 0 [0x41]) 0 1) behindSector ∧ ¬ EndOfFile memOsif 0 1 behindSector := by
  refine ⟨atEnd_behindSector, ?_⟩
  rintro ⟨w', hrun, -⟩
  have hfailed : (match read memOsif 0 1 behindSector with
    | .ok _ _ => none
    | .error e _ => some e) = some Errno.EIO := by decide +kernel
  have hrun' : read memOsif 0 1 behindSector = .ok (0, []) w' := hrun
  rw [hrun'] at hfailed
  cases hfailed

end Cpm68k.Cpmlib
