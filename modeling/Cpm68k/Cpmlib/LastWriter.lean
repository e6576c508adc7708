import Cpm68k.Cpmlib.FlatFile
import Cpm68k.Cpmlib.MemStore
import Cpm68k.Cpmlib.OpenFile

/-!
# The last writer wins

A program that creates a binary file, writes and seeks, and closes it, means the bytes that
result from its writes one after the other, each over what was there before (`FlatState`).

## What is proved

* `flat_of_run` — these are the bytes on disk after the run, if no write of the run finds a
  buffer that is not current (`Current`).
* `last_writer_loses` — otherwise older bytes come back: after a write of a whole sector, a
  write of one byte into that sector zeroes the rest of it.
-/

namespace Cpm68k.Cpmlib

open Cpm68k.Library RecordStore

/-- A binary file as the program sees it. -/
structure FlatState where
  /-- The bytes of the file. -/
  bytes : List UInt8
  /-- The position of the next read or write. -/
  pos : ℕ

/-- What a call does to the file as the program sees it: a write overwrites at the position,
and a seek is from the beginning. -/
def FileCall.flat (a : FlatState) : FileCall → FlatState
  | .write buff => ⟨splice a.bytes a.pos buff, a.pos + buff.length⟩
  | .lseek offs _ => { a with pos := offs.toNat }
  | .read _ | .fstat => a

/-- The file after a sequence of calls. -/
def flatRun : List FileCall → FlatState → FlatState
  | [], a => a
  | c :: cs, a => flatRun cs (c.flat a)

/-- A write of 1 to 65535 bytes that leaves the file below 8 MiB and fits in `cap` records,
or a seek from the beginning to a byte of the file or to its end. -/
def FileCall.Fits (cap : ℕ) (a : FlatState) : FileCall → Prop
  | .write buff =>
    0 < buff.length ∧ buff.length < 2 ^ 16 ∧ a.pos + buff.length < 2 ^ 23 ∧ a.pos + buff.length ≤ 128 * cap
  | .lseek offs sense => sense = 0 ∧ 0 ≤ offs ∧ offs ≤ a.bytes.length
  | .read _ | .fstat => False

/-- Every call of a sequence fits. -/
def Fitting (cap : ℕ) : List FileCall → FlatState → Prop
  | [], _ => True
  | c :: cs, a => c.Fits cap a ∧ Fitting cap cs (c.flat a)

instance (cap : ℕ) (a : FlatState) : (c : FileCall) → Decidable (c.Fits cap a)
  | .write _ | .lseek _ _ => inferInstanceAs (Decidable (_ ∧ _))
  | .read _ | .fstat => inferInstanceAs (Decidable False)

instance instDecidableFitting (cap : ℕ) : (cs : List FileCall) → (a : FlatState) → Decidable (Fitting cap cs a)
  | [], _ => inferInstanceAs (Decidable True)
  | c :: cs, a =>
    have := instDecidableFitting cap cs (c.flat a)
    inferInstanceAs (Decidable (_ ∧ _))

variable {σ : Type} {B : Osif σ}

/-- A write does not use a buffer that is not current. -/
def FileCall.Current (S : RecordStore B) (file : FileId) (fd : ℤ) (w : World σ) : FileCall → Prop
  | .write buff => ∀ D, S.files w.os file = some D → WriteOk (w.fds fd) D buff.length
  | _ => True

/-- No write of a sequence does. -/
def AllCurrent (S : RecordStore B) (file : FileId) (fd : ℤ) : List FileCall → World σ → Prop
  | [], _ => True
  | c :: cs, w => c.Current S file fd w ∧ AllCurrent S file fd cs (c.after B fd w)

variable {S : RecordStore B} {file : FileId} {u : UInt16} {k : ℕ} {w : World σ} {a : FlatState}

/-- The channel and the disk hold the file as the program sees it. -/
def FlatOn (S : RecordStore B) (file : FileId) (u : UInt16) (a : FlatState) (fp : Ccb) (os : σ) : Prop :=
  fp.offset = a.pos ∧ a.bytes.length ≤ 128 * S.cap ∧ ∃ D, S.On file u D fp os ∧ Flat a.bytes fp D

/-- One call. -/
theorem flatOn_after (h : OpenFile false false k (FlatOn S file u a) w) {c : FileCall} (hfit : c.Fits S.cap a)
    (hcur : c.Current S file k w) : OpenFile false false k (FlatOn S file u (c.flat a)) (c.after B k w) := by
  obtain ⟨hpos, hcap, D, hon, hflat⟩ := h.holds
  have hin := hflat.inside
  cases c with
  | write buff =>
    obtain ⟨hn, hbytes, hsmall, hfits⟩ := hfit
    have hne : buff ≠ [] := List.length_pos_iff.mp hn
    refine wp_after (wp_mono (h.wp_write (Q := fun _ => FlatOn S file u (FileCall.flat a (.write buff)))
      (E := fun _ _ _ => False) ?_) (fun _ _ h => h) (fun _ _ h => h.holds.elim))
    rw [wp_writeFp_file h.mode hne rfl, if_neg Bool.false_ne_true]
    refine wp_mono (wp_wrtbin_flat hon hflat (hcur D hon.files) hne hbytes (by simp only [hpos]; omega)
      (by simp only [hpos]; omega) hcap) ?_ (fun _ _ h => h)
    rintro _ s' ⟨-, hoff, D', hon', hflat'⟩
    simp only [hpos, Int.toNat_natCast] at hoff hflat'
    refine ⟨by rw [hoff]; rfl, ?_, D', hon', hflat'⟩
    have hlen := length_splice (show a.pos ≤ a.bytes.length by omega) buff
    simp only [FileCall.flat]
    omega
  | lseek offs sense =>
    obtain ⟨rfl, hnonneg, hle⟩ := hfit
    refine wp_after (wp_mono (h.call (Q := fun _ => FlatOn S file u (FileCall.flat a (.lseek offs 0)))
      (E := fun _ _ _ => False) (keepsMode_lseekFp offs 0) ?_) (fun _ _ h => h) (fun _ _ h => h.holds.elim))
    rw [wp_lseekFp_set hnonneg]
    exact ⟨(Int.toNat_of_nonneg hnonneg).symm, hcap, D, ⟨hon.user, hon.id, hon.files⟩, hflat.hiwater, hnonneg, hle,
      hflat.label, hflat.disk⟩
  | read bytes => exact hfit.elim
  | fstat => exact hfit.elim

/-- A sequence of calls. -/
theorem flatOn_runFile {cs : List FileCall} (h : OpenFile false false k (FlatOn S file u a) w)
    (hfit : Fitting S.cap cs a) (hcur : AllCurrent S file k cs w) :
    OpenFile false false k (FlatOn S file u (flatRun cs a)) (runFile B k cs w) := by
  induction cs generalizing a w with
  | nil => exact h
  | cons c cs ih => exact ih (flatOn_after h hfit.1 hcur.1) hfit.2 hcur.2

/-- Closing the file leaves its bytes on disk. -/
theorem wp_close_flat (h : OpenFile false false k (FlatOn S file u a) w) :
    wp (close B k)
      (fun ret w' => ret = 0 ∧ (S.user w'.os = u ∧ S.files w'.os file = some (diskOf a.bytes)) ∧
        ∃ j < 16, w'.chvec.getLsbD j = false)
      (fun _ _ => False) w := by
  obtain ⟨-, hcap, D, hon, hflat⟩ := h.holds
  refine wp_close_file (R := fun os => S.user os = u ∧ S.files os file = some (diskOf a.bytes)) h ?_
  rw [← hflat.disk]
  refine wp_closeFile_plain h (.inl rfl) hon fun hd => ?_
  have := hflat.label hd
  omega

/-- The file that `_creat` makes is empty. -/
theorem flatOn_created {fname : List UInt8} {fd : ℤ} {w₀ w₁ : World σ} (hname : NotDevice fname)
    (hcreat : creat B fname 1 w₀ = .ok fd w₁) (hknown : S.users (namedFile (S.user w₀.os) fname).user) :
    Legal fname ∧ ∃ k : ℕ, fd = k ∧ OpenFile false false k
      (fun fp os => Created fp ∧ FlatOn S (namedFile (S.user w₀.os) fname) (S.user w₀.os) ⟨[], 0⟩ fp os) w₁ := by
  have hopen : wp (creat B fname 1) _ _ w₀ := wp_creat_file (S := S) hname rfl hknown
  rw [wp_of_eq_ok hcreat] at hopen
  obtain ⟨hlegal, k, rfl, hk⟩ := hopen
  obtain ⟨hcreated, hon⟩ := hk.holds
  refine ⟨hlegal, k, rfl, hk.lt, hk.mode, hcreated, hcreated.offset, Nat.zero_le _, _, hon, hcreated.hiwater, ?_, ?_, ?_, ?_⟩
  · rw [hcreated.offset]
  · rw [hcreated.offset]
    rfl
  · intro hd
    rw [hcreated.clean] at hd
    cases hd
  · rw [flushed_of_clean hcreated.clean]
    rfl

/-- **The last writer wins**: after a run of writes and seeks and `close`, the disk has the
bytes of the writes, each over those before it, if no write used a buffer that is not current. -/
theorem flat_of_run (S : RecordStore B) {fname : List UInt8} {fd : ℤ} {w₀ w₁ : World σ} (hname : NotDevice fname)
    (hcreat : creat B fname 1 w₀ = .ok fd w₁) (hknown : S.users (namedFile (S.user w₀.os) fname).user) {cs : List FileCall}
    (hfit : Fitting S.cap cs ⟨[], 0⟩) (hcur : AllCurrent S (namedFile (S.user w₀.os) fname) fd cs w₁) :
    ∃ w₂, close B fd (runFile B fd cs w₁) = .ok 0 w₂ ∧
      S.files w₂.os (namedFile (S.user w₀.os) fname) = some (diskOf (flatRun cs ⟨[], 0⟩).bytes) := by
  obtain ⟨-, k, rfl, hk⟩ := flatOn_created (S := S) hname hcreat hknown
  have hrun := flatOn_runFile ⟨hk.lt, hk.mode, hk.holds.2⟩ hfit hcur
  obtain ⟨_, w₂, hclose, rfl, ⟨-, hfiles⟩, -⟩ := exists_of_wp (wp_close_flat hrun)
  exact ⟨w₂, hclose, hfiles⟩

/-- The file `A`, just created on an empty disk. -/
def createdA (type : ℤ) : World MemOs := after (creat memOsif [0x41] type) (coldWorld emptyDisk)

theorem creat_createdA : creat memOsif [0x41] 1 (coldWorld emptyDisk) = .ok 0 (createdA 1) := rfl

theorem creat_createdA_ascii : creat memOsif [0x41] 0 (coldWorld emptyDisk) = .ok 0 (createdA 0) := rfl

theorem notDevice_A : NotDevice [0x41] := ⟨rfl, rfl⟩

theorem known_A : memStore.users (namedFile 0 [0x41]).user := memStore.isUser.known emptyDisk

theorem flat_of_run_seek :
    ∃ w₂, close memOsif 0 (runFile memOsif 0 [.write [1, 2, 3], .lseek 1 0, .write [9]] (createdA 1)) = .ok 0 w₂ ∧
      memFiles w₂.os (namedFile 0 [0x41]) = some (diskOf [1, 9, 3]) :=
  flat_of_run memStore notDevice_A creat_createdA known_A (by decide)
    ⟨fun _ _ h => absurd h (by decide), trivial, fun _ _ _ => .inl rfl, trivial⟩

/-- A byte of a record of a file, after a call that succeeded. -/
def byteAfter (r : EStateM.Result Errno (World MemOs) ℤ) (f : FileId) (j : ℕ) (i : Fin 128) : Option UInt8 :=
  match r with
  | .ok _ w => (memFiles w.os f).bind fun D => (D j).map fun record => record i
  | .error _ _ => none

/-- A sector, and then one byte at its start. -/
def staleRun : List FileCall := [.write (List.replicate 128 0x41), .lseek 0 0, .write [0x42]]

/-- **Older bytes come back**: after a write of a sector, and of one byte into it, byte 1 of
the file is 0. -/
theorem last_writer_loses :
    Fitting memCap staleRun ⟨[], 0⟩ ∧
      ¬ ∃ w₂, close memOsif 0 (runFile memOsif 0 staleRun (createdA 1)) = .ok 0 w₂ ∧
        memFiles w₂.os (namedFile 0 [0x41]) = some (diskOf (flatRun staleRun ⟨[], 0⟩).bytes) := by
  refine ⟨by decide +kernel, ?_⟩
  rintro ⟨w₂, hclose, hfile⟩
  have hbyte : byteAfter (close memOsif 0 (runFile memOsif 0 staleRun (createdA 1))) (namedFile 0 [0x41]) 0 1 = some 0 := by
    decide +kernel
  rw [hclose] at hbyte
  simp only [byteAfter, hfile] at hbyte
  exact absurd hbyte (by decide +kernel)

end Cpm68k.Cpmlib
