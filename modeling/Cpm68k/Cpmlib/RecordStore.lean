import Cpm68k.Cpmlib.FileIo
import Cpm68k.Cpmlib.UserNumber
import Cpm68k.Library.Blocks
import Mathlib.Tactic.DefEqTransformations

/-!
# A BDOS that stores records

What the library relies on when the BDOS does not fail: a file is a map from record
numbers to records, and the file functions work on the file that the user number, the
drive and the name of the file control block name.

## The model

`RecordStore B` is a view of the states of the BDOS `B`: the current user number, and for
every file its records. Its laws say what each function does to that view. Records have
numbers below `cap`, the capacity, and a file is never larger.

## What is proved

* `wp_blkioRead`, `wp_blkioWrite` — what `_blkio` does to the file of a channel, whatever
  user number the channel has, and that the user number is put back.
* `wp_readBuffer`, `wp_writeBuffer`, `wp_flush` — the steps on the buffer of a channel.
-/

namespace Cpm68k.Cpmlib

open Cpm68k.Library

/-- The file has `n` records, as `FILSIZ` counts them: the highest record number, plus one. -/
def IsSize (D : ℕ → Option Sector) (n : ℕ) : Prop := (∀ k ≥ n, D k = none) ∧ (n = 0 ∨ D (n - 1) ≠ none)

theorem IsSize.unique {D : ℕ → Option Sector} {m n : ℕ} (hm : IsSize D m) (hn : IsSize D n) : m = n := by
  by_contra hne
  rcases Nat.lt_or_gt_of_ne hne with h | h
  · exact (hn.2.resolve_left (by omega)) (hm.1 _ (by omega))
  · exact (hm.2.resolve_left (by omega)) (hn.1 _ (by omega))

variable {σ : Type}

/-- A view of a BDOS that stores records and does not fail. The laws of its functions on files are for
what names one file: for CP/M a `?` in a name stands for any character, and there are sixteen users. -/
structure RecordStore (B : Osif σ) where
  /-- The current user number. -/
  user : σ → UInt16
  /-- The user numbers that there are. -/
  users : UInt16 → Prop
  /-- What can be the name of a file. -/
  names : FileId → Prop
  /-- The records of a file, if there is such a file. -/
  files : σ → FileId → Option (ℕ → Option Sector)
  /-- How many records a file can have. -/
  cap : ℕ
  cap_lt : cap < 2 ^ 24
  bounded : ∀ os f D, files os f = some D → ∀ k ≥ cap, D k = none
  names_user : ∀ f, names f → users f.user
  named : ∀ os f D, files os f = some D → names f
  isUser : IsUser B users user
  user_files : ∀ n os, files (B.user n os).2 = files os
  file_user : ∀ g fcb os, user (B.file g fcb os).2.2 = user os
  file_fcb : ∀ g fcb os u, names (fileId (user os) fcb) → fileId u (B.file g fcb os).2.1 = fileId u fcb
  create_code : ∀ fcb os, names (fileId (user os) fcb) → (B.file .CREATE fcb os).1.toInt16 ≤ 3
  create_named : ∀ fcb os, hasWildcard fcb = false → (B.file .CREATE fcb os).1.toInt16 ≤ 3 → names (fileId (user os) fcb)
  create_files : ∀ fcb os, names (fileId (user os) fcb) → files (B.file .CREATE fcb os).2.2 =
    Function.update (files os) (fileId (user os) fcb) (some fun _ => none)
  delete_fcb : ∀ fcb os, hasWildcard fcb = false →
    hasWildcard (B.file .DELETE fcb os).2.1 = false ∧ ∀ u, fileId u (B.file .DELETE fcb os).2.1 = fileId u fcb
  delete_files : ∀ fcb os, names (fileId (user os) fcb) →
    files (B.file .DELETE fcb os).2.2 = Function.update (files os) (fileId (user os) fcb) none
  open_code : ∀ fcb os, files os (fileId (user os) fcb) ≠ none → (B.file .OPEN fcb os).1.toInt16 ≤ 3
  open_files : ∀ fcb os, names (fileId (user os) fcb) → files (B.file .OPEN fcb os).2.2 = files os
  close_code : ∀ fcb os, files os (fileId (user os) fcb) ≠ none → (B.file .CLOSE fcb os).1 &&& 0xff ≠ 0xff
  close_files : ∀ fcb os, names (fileId (user os) fcb) → files (B.file .CLOSE fcb os).2.2 = files os
  filsiz : ∀ fcb os D n, files os (fileId (user os) fcb) = some D → IsSize D n →
    (B.file .FILSIZ fcb os).2.1.record % 0x1000000 = n
  filsiz_files : ∀ fcb os, names (fileId (user os) fcb) → files (B.file .FILSIZ fcb os).2.2 = files os
  read_record : ∀ fcb os D (k : ℕ), files os (fileId (user os) fcb) = some D → fcb.record = k →
    match D k with
    | some r => (B.bRead fcb os).1 = .ok r
    | none => ∃ code, (B.bRead fcb os).1 = .error code
  read_user : ∀ fcb os, user (B.bRead fcb os).2.2 = user os
  read_fcb : ∀ fcb os u, names (fileId (user os) fcb) → fileId u (B.bRead fcb os).2.1 = fileId u fcb
  read_files : ∀ fcb os, names (fileId (user os) fcb) → files (B.bRead fcb os).2.2 = files os
  write_code : ∀ fcb r os D (k : ℕ), files os (fileId (user os) fcb) = some D → fcb.record = k → k < cap →
    (B.bWrite fcb r os).1 = 0
  write_user : ∀ fcb r os, user (B.bWrite fcb r os).2.2 = user os
  write_fcb : ∀ fcb r os u, names (fileId (user os) fcb) → fileId u (B.bWrite fcb r os).2.1 = fileId u fcb
  write_files : ∀ fcb r os D (k : ℕ), files os (fileId (user os) fcb) = some D → fcb.record = k → k < cap →
    files (B.bWrite fcb r os).2.2 = Function.update (files os) (fileId (user os) fcb) (some (Function.update D k (some r)))

/-! ### The user number -/

namespace RecordStore

variable {B : Osif σ} (S : RecordStore B)

theorem chkuser_files (newu : Int8) (os : σ) : S.files (chkuser B newu.toInt16 os).2 = S.files os :=
  chkuser_keeps (P := fun os' => S.files os' = S.files os) (fun n os' h => (S.user_files n os').trans h) rfl

/-- `_uchkuser` puts back the user number that `_chkuser` found. -/
theorem uchkuser_user (newu : Int8) (os os' : σ)
    (h : S.users (fileUser newu (S.user os)) → S.user os' = fileUser newu (S.user os)) :
    S.user (uchkuser B newu.toInt16 (chkuser B newu.toInt16 os).1 os') = S.user os ∧
      S.files (uchkuser B newu.toInt16 (chkuser B newu.toInt16 os).1 os') = S.files os' := by
  constructor
  · rw [S.isUser.chkuser_fst]
    exact S.isUser.user_uchkuser newu (S.isUser.known os) h
  · exact uchkuser_keeps (P := fun os₁ => S.files os₁ = S.files os') (fun n os₁ h => (S.user_files n os₁).trans h) rfl

/-- Under the user number `v`, the file control block of a channel names the file `f`, which
has the records `D`. -/
structure Holds (f : FileId) (v : UInt16) (D : ℕ → Option Sector) (fp : Ccb) (os : σ) : Prop where
  user : S.user os = v
  id : fileId v fp.fcb = f
  files : S.files os f = some D

/-- The channel is on the file `f`, which has the records `D`; the current user number is `u`. -/
structure On (f : FileId) (u : UInt16) (D : ℕ → Option Sector) (fp : Ccb) (os : σ) : Prop where
  user : S.user os = u
  id : fileId (fileUser fp.user u) fp.fcb = f
  files : S.files os f = some D

variable {S} {f : FileId} {u v : UInt16} {D : ℕ → Option Sector} {s : Io σ}

/-- A file that is there belongs to a user that there is. -/
theorem On.known {fp : Ccb} {os : σ} (h : S.On f u D fp os) : S.users (fileUser fp.user u) := by
  have hf := S.names_user f (S.named os f D h.files)
  rw [← h.id] at hf
  exact hf

theorem Holds.named {fp : Ccb} {os : σ} (h : S.Holds f v D fp os) : S.names (fileId (S.user os) fp.fcb) := by
  rw [h.user, h.id]
  exact S.named os f D h.files

/-- `_chkuser` makes the user number that of the file. -/
theorem On.chkuser {fp : Ccb} {os : σ} (h : S.On f u D fp os) :
    S.Holds f (fileUser fp.user u) D fp (Cpmlib.chkuser B fp.user.toInt16 os).2 := by
  have hknown : S.users (fileUser fp.user (S.user os)) := h.user ▸ h.known
  have huser := h.user ▸ S.isUser.user_chkuser hknown
  exact ⟨huser, h.id, (S.chkuser_files fp.user os) ▸ h.files⟩

/-- `_uchkuser` puts the user number back. -/
theorem On.uchkuser {fp c : Ccb} {os os' : σ} (h : S.On f u D fp os) {D' : ℕ → Option Sector}
    (h' : S.Holds f (fileUser fp.user u) D' c os') (huser : c.user = fp.user) :
    S.On f u D' c (Cpmlib.uchkuser B c.user.toInt16 (Cpmlib.chkuser B fp.user.toInt16 os).1 os') := by
  have hback := S.uchkuser_user fp.user os os' fun _ => h'.user.trans (by rw [h.user])
  rw [huser]
  exact ⟨hback.1.trans h.user, by rw [huser]; exact h'.id, hback.2 ▸ h'.files⟩

/-! ### Transfers -/

theorem wp_writeLoop_of_holds (buffer : List Sector) {D : ℕ → Option Sector} {s : Io σ} {k : ℕ}
    (h : S.Holds f v D s.fp s.os) (hk : k + buffer.length ≤ S.cap) :
    wp (writeLoop B k buffer)
      (fun n s' => n = buffer.length ∧ ∃ fcb os, s' = { s with fp := { s.fp with fcb := fcb }, os := os } ∧
        S.Holds f v (putRun D k buffer) s'.fp s'.os)
      (fun _ _ => False) s := by
  induction buffer generalizing D s k with
  | nil => exact ⟨rfl, s.fp.fcb, s.os, rfl, h⟩
  | cons r buffer ih =>
    rw [List.length_cons] at hk
    have hfile : S.files s.os (fileId (S.user s.os) { s.fp.fcb with record := (k : ℤ) }) = some D := by
      rw [h.user]
      exact h.id ▸ h.files
    have hid : fileId (S.user s.os) { s.fp.fcb with record := (k : ℤ) } = f := by
      rw [h.user]
      exact h.id
    have hnamed := S.named _ _ _ hfile
    have hcode := S.write_code _ r _ D k hfile rfl (by omega)
    have hfiles := S.write_files _ r _ D k hfile rfl (by omega)
    simp only [writeLoop, wp_bind, wp_setFp, wp_osifWrite, hcode, ne_eq, not_true_eq_false, if_false]
    refine wp_mono (ih (D := Function.update D k (some r)) (k := k + 1) ⟨?_, ?_, ?_⟩ (by omega)) ?_ (fun _ _ h => h)
    · exact (S.write_user _ _ _).trans h.user
    · exact (S.write_fcb _ _ _ _ hnamed).trans h.id
    · rw [hfiles, hid, Function.update_self]
    · rintro n _ ⟨rfl, fcb, os, rfl, h'⟩
      exact ⟨rfl, fcb, os, rfl, h'⟩

theorem wp_readLoop_of_holds (n : ℕ) {s : Io σ} {k : ℕ} (h : S.Holds f v D s.fp s.os) :
    wp (readLoop B k n)
      (fun l s' => l = getRun D k n ∧ ∃ fcb os, s' = { s with fp := { s.fp with fcb := fcb }, os := os } ∧
        S.Holds f v D s'.fp s'.os)
      (fun _ _ => False) s := by
  induction n generalizing s k with
  | zero => exact ⟨rfl, s.fp.fcb, s.os, rfl, h⟩
  | succ n ih =>
    have hfile : S.files s.os (fileId (S.user s.os) { s.fp.fcb with record := (k : ℤ) }) = some D := by
      rw [h.user]
      exact h.id ▸ h.files
    have hread := S.read_record _ _ D k hfile rfl
    have hafter : ∀ fcb os, fcb = (B.bRead { s.fp.fcb with record := (k : ℤ) } s.os).2.1 →
        os = (B.bRead { s.fp.fcb with record := (k : ℤ) } s.os).2.2 → S.Holds f v D { s.fp with fcb := fcb } os := by
      rintro _ _ rfl rfl
      have hnamed := S.named _ _ _ hfile
      exact ⟨(S.read_user _ _).trans h.user, (S.read_fcb _ _ _ hnamed).trans h.id,
        (congrFun (S.read_files _ _ hnamed) f).trans h.files⟩
    rw [readLoop, wp_bind, wp_setFp, wp_bind, wp_osifRead, getRun]
    cases hD : D k with
    | none =>
      rw [hD] at hread
      obtain ⟨code, hcode⟩ := hread
      simp only [hcode, wp_pure]
      exact ⟨trivial, _, _, rfl, hafter _ _ rfl rfl⟩
    | some r =>
      rw [hD] at hread
      simp only [hread, wp_bind]
      refine wp_mono (ih (k := k + 1) (hafter _ _ rfl rfl)) ?_ (fun _ _ h => h)
      rintro l _ ⟨rfl, fcb, os, rfl, h'⟩
      exact ⟨rfl, fcb, os, rfl, h'⟩

/-- `_blkio` writes the sectors it is given. -/
theorem wp_blkioWrite {k : ℕ} (buffer : List Sector) (h : S.On f u D s.fp s.os) (hk : k + buffer.length ≤ S.cap) :
    wp (blkioWrite B k buffer)
      (fun n s' => n = buffer.length ∧ ∃ fcb os, s' = { s with fp := { s.fp with fcb := fcb }, os := os } ∧
        S.On f u (putRun D k buffer) s'.fp s'.os)
      (fun _ _ => False) s := by
  simp only [blkioWrite, wp_bind, wp_chkuserFp]
  refine wp_mono (wp_writeLoop_of_holds buffer h.chkuser hk) ?_ (fun _ _ h => h)
  rintro n _ ⟨rfl, fcb, os, rfl, h'⟩
  exact ⟨rfl, fcb, _, rfl, h.uchkuser h' rfl⟩

/-- `_blkio` reads up to the first sector that does not exist. -/
theorem wp_blkioRead {k : ℕ} (n : ℕ) (h : S.On f u D s.fp s.os) :
    wp (blkioRead B k n)
      (fun l s' => l = getRun D k n ∧ ∃ fcb os, s' = { s with fp := { s.fp with fcb := fcb }, os := os } ∧
        S.On f u D s'.fp s'.os)
      (fun _ _ => False) s := by
  simp only [blkioRead, wp_bind, wp_chkuserFp]
  refine wp_mono (wp_readLoop_of_holds n h.chkuser) ?_ (fun _ _ h => h)
  rintro l _ ⟨rfl, fcb, os, rfl, h'⟩
  exact ⟨rfl, fcb, _, rfl, h.uchkuser h' rfl⟩

/-! ### The buffer of a channel -/

/-- Writing the buffer. -/
theorem wp_writeBuffer {k : ℕ} (h : S.On f u D s.fp s.os) (hk : k < S.cap) :
    wp (writeBuffer B k)
      (fun _ s' => ∃ fcb os, s' = { s with fp := { s.fp with fcb := fcb }, os := os } ∧
        S.On f u (Function.update D k (some s.fp.buffer)) s'.fp s'.os)
      (fun _ _ => False) s := by
  simp only [writeBuffer, wp_bind, wp_get]
  refine wp_mono (wp_blkioWrite [s.fp.buffer] h hk) ?_ (fun _ _ h => h)
  rintro _ _ ⟨rfl, fcb, os, rfl, h'⟩
  exact ⟨fcb, os, rfl, h'⟩

/-- Reading a sector into the buffer, if it exists. -/
theorem wp_readBuffer (k : ℕ) (h : S.On f u D s.fp s.os) :
    wp (readBuffer B k)
      (fun found s' => found = (D k).isSome ∧ ∃ fcb os,
        s' = { s with fp := { s.fp with fcb := fcb, buffer := (D k).getD s.fp.buffer }, os := os } ∧
        S.On f u D s'.fp s'.os)
      (fun _ _ => False) s := by
  simp only [readBuffer, wp_bind]
  refine wp_mono (wp_blkioRead 1 h) ?_ (fun _ _ h => h)
  rintro l _ ⟨rfl, fcb, os, rfl, h'⟩
  cases hD : D k with
  | none =>
    simp only [getRun, hD, wp_pure]
    exact ⟨rfl, fcb, os, rfl, h'⟩
  | some r =>
    simp only [getRun, hD, wp_bind, wp_setFp, wp_pure]
    exact ⟨rfl, fcb, os, rfl, h'.user, h'.id, h'.files⟩

/-- The records of the file with the dirty buffer among them. -/
def flushed (D : ℕ → Option Sector) (fp : Ccb) : ℕ → Option Sector :=
  if fp.flags.DIRTY = true then Function.update D fp.sector.toNat (some fp.buffer) else D

/-- A dirty buffer has a label that can be written. -/
def Labelled (cap : ℕ) (fp : Ccb) : Prop := fp.flags.DIRTY = true → 0 ≤ fp.sector ∧ fp.sector < cap

/-- A buffer that is not dirty is what the disk has in its sector, if it has that sector. -/
def Coherent (fp : Ccb) (D : ℕ → Option Sector) : Prop :=
  fp.flags.DIRTY = false → ∀ k : ℕ, fp.sector = k → ∀ r, D k = some r → fp.buffer = r

theorem flushed_of_clean {fp : Ccb} (h : fp.flags.DIRTY = false) : flushed D fp = D := by
  rw [flushed, if_neg (by rw [h]; exact Bool.false_ne_true)]

theorem flushed_of_dirty {fp : Ccb} (h : fp.flags.DIRTY = true) :
    flushed D fp = Function.update D fp.sector.toNat (some fp.buffer) := by
  rw [flushed, if_pos h]

/-- Writing the buffer when it is dirty. -/
theorem wp_writeDirty (h : S.On f u D s.fp s.os) (hl : Labelled S.cap s.fp) :
    wp (whenever (s.fp.flags.DIRTY = true) (writeBuffer B s.fp.sector))
      (fun _ s' => ∃ fcb os, s' = { s with fp := { s.fp with fcb := fcb }, os := os } ∧
        S.On f u (flushed D s.fp) s'.fp s'.os)
      (fun _ _ => False) s := by
  rw [wp_whenever]
  split_ifs with hd
  · obtain ⟨hnonneg, hcap⟩ := hl hd
    have hk : (s.fp.sector.toNat : ℤ) = s.fp.sector := Int.toNat_of_nonneg hnonneg
    have hwrite := wp_writeBuffer (k := s.fp.sector.toNat) h (by omega)
    rw [hk] at hwrite
    refine wp_mono hwrite ?_ (fun _ _ h => h)
    rintro _ _ ⟨fcb, os, rfl, h'⟩
    refine ⟨fcb, os, rfl, ?_⟩
    rw [flushed, if_pos hd]
    exact h'
  · refine ⟨s.fp.fcb, s.os, rfl, ?_⟩
    rw [flushed, if_neg hd]
    exact h

/-- Writing the buffer when it is dirty, and clearing the flag. -/
theorem wp_flush (h : S.On f u D s.fp s.os) (hl : Labelled S.cap s.fp) :
    wp (flush B)
      (fun _ s' => ∃ fcb os,
        s' = { s with fp := { s.fp with fcb := fcb, flags := { s.fp.flags with DIRTY := false } }, os := os } ∧
        S.On f u (flushed D s.fp) s'.fp s'.os)
      (fun _ _ => False) s := by
  have hw := wp_writeDirty h hl
  simp only [flush, wp_bind, wp_get, wp_whenever] at hw ⊢
  split_ifs at hw ⊢ with hd
  · refine wp_mono hw ?_ (fun _ _ h => h)
    rintro _ _ ⟨fcb, os, rfl, h'⟩
    exact ⟨fcb, os, rfl, h'.user, h'.id, h'.files⟩
  · refine ⟨s.fp.fcb, s.os, ?_, ?_⟩
    · rw [Bool.not_eq_true] at hd
      rw [← hd]
    · rw [flushed, if_neg hd]
      exact h

end RecordStore

end Cpm68k.Cpmlib
