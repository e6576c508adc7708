import Cpm68k.Cpmlib.ChannelAlloc
import Cpm68k.Cpmlib.RecordStore

/-!
# Opening and closing files of a record store

What `_creat`, `_open` and `close` do when the BDOS stores records: which file a name is,
the state of a channel that was just opened, and what closing leaves on disk.

## What is proved

* `wp_fileszFp_clean`, `wp_fileszFp_dirty` — where `_filesz` puts the end of the file.
* `wp_openFcb_create_store`, `wp_openFcb_open_store` — the file that `_creat` and `_open` find or make.
* `wp_closeFcb_store` — closing writes the dirty buffer.
-/

namespace Cpm68k.Cpmlib

open Cpm68k.Library RecordStore

variable {σ : Type} {B : Osif σ} {S : RecordStore B} {file : FileId} {u : UInt16} {D : ℕ → Option Sector} {s : Io σ}

/-! ### The end of a file -/

theorem exists_isSize {D : ℕ → Option Sector} {c : ℕ} (h : ∀ k ≥ c, D k = none) : ∃ n ≤ c, IsSize D n := by
  induction c with
  | zero => exact ⟨0, le_rfl, h, .inl rfl⟩
  | succ c ih =>
    cases hc : D c with
    | some r => exact ⟨c + 1, le_rfl, h, .inr (by simp [hc])⟩
    | none =>
      obtain ⟨n, hn, hsize⟩ := ih fun k hk => by
        rcases Nat.eq_or_lt_of_le hk with rfl | hk
        · exact hc
        · exact h k hk
      exact ⟨n, by omega, hsize⟩

/-- The end of an ASCII file with the records `D`: the first end of file character of its
last record. -/
def asciiEnd (D : ℕ → Option Sector) (n : ℕ) : ℕ :=
  match n with
  | 0 => 0
  | n + 1 => 128 * n + scanEof ((D n).getD (Bytes.fill 0)).bytes

/-- The size of a file of `n` records, of either type. -/
def diskEnd (isascii : Bool) (D : ℕ → Option Sector) (n : ℕ) : ℕ := if isascii = true then asciiEnd D n else 128 * n

/-- The label of the buffer stays, or the disk has the sector of the new one. -/
def KeepsLabel (D : ℕ → Option Sector) (sector sector' : ℤ) : Prop := sector' = sector ∨ ∃ k : ℕ, sector' = k ∧ D k ≠ none

/-- The scan of the last sector of an ASCII file. -/
theorem wp_fileszAscii {n : ℕ} (hon : S.On file u D s.fp s.os) (hclean : s.fp.flags.DIRTY = false)
    (hc : Coherent s.fp D) (hn : IsSize D n) :
    wp (fileszAscii B (n - 1))
      (fun _ s' => ∃ fcb os sector buffer, s' = { s with
          fp := { s.fp with fcb := fcb, sector := sector, buffer := buffer, offset := asciiEnd D n }, os := os } ∧
        S.On file u D s'.fp s'.os ∧ Coherent s'.fp D ∧ KeepsLabel D s.fp.sector sector)
      (fun _ _ => False) s := by
  cases n with
  | zero =>
    rw [fileszAscii, wp_bind, wp_get, wp_ite, if_neg (by omega)]
    exact ⟨s.fp.fcb, s.os, s.fp.sector, s.fp.buffer, rfl, ⟨hon.user, hon.id, hon.files⟩, hc, .inl rfl⟩
  | succ n =>
    obtain ⟨r, hr⟩ : ∃ r, D n = some r := Option.ne_none_iff_exists'.mp (hn.2.resolve_left (by omega))
    have hlast : ((n + 1 : ℕ) : ℤ) - 1 = n := by omega
    have hend : ∀ b : Sector, b = r → (n : ℤ) * 128 + scanEof b.bytes = asciiEnd D (n + 1) := by
      rintro b rfl
      rw [asciiEnd, hr, Option.getD_some]
      omega
    have hcoh : ∀ fp : Ccb, fp.sector = n → fp.buffer = r → Coherent fp D := by
      intro fp hsec hbuf _ k hk r' hr'
      obtain rfl : n = k := by omega
      rw [hbuf, Option.some.inj (hr.symm.trans hr')]
    have hlabel : KeepsLabel D s.fp.sector n := .inr ⟨n, rfl, by rw [hr]; exact Option.some_ne_none r⟩
    rw [hlast, fileszAscii, wp_bind, wp_get, wp_ite, if_pos (by omega), wp_bind, wp_whenever]
    split_ifs with hsec
    · rw [wp_bind]
      refine wp_mono (wp_flush hon fun hd => ?_) ?_ (fun _ _ h => h)
      · rw [hclean] at hd
        cases hd
      · rintro _ _ ⟨fcb, os, rfl, hon'⟩
        rw [flushed_of_clean hclean] at hon'
        rw [wp_bind]
        refine wp_mono (wp_readBuffer n hon') ?_ (fun _ _ h => h)
        rintro _ _ ⟨rfl, fcb, os, rfl, hon''⟩
        simp only [hr, Option.isSome_some, Bool.true_eq_false, wp_whenever, if_false, wp_setFp, Option.getD_some]
        refine ⟨fcb, os, n, r, ?_, ⟨hon''.user, hon''.id, hon''.files⟩, hcoh _ rfl rfl, hlabel⟩
        rw [hend r rfl, ← hclean]
    · have hbuf := hc hclean n (not_not.mp hsec).symm r hr
      rw [wp_setFp]
      refine ⟨s.fp.fcb, s.os, n, s.fp.buffer, ?_, ⟨hon.user, hon.id, hon.files⟩, hcoh _ rfl hbuf, hlabel⟩
      rw [hend s.fp.buffer hbuf]

/-- `_filesz` of a file whose buffer is not dirty: the size on disk. -/
theorem wp_fileszDisk {n : ℕ} (hon : S.On file u D s.fp s.os) (hclean : s.fp.flags.DIRTY = false)
    (hc : s.fp.flags.ISASCII = true → Coherent s.fp D) (hn : IsSize D n) :
    wp (fileszDisk B)
      (fun _ s' => ∃ fcb os sector buffer, s' = { s with
          fp := { s.fp with fcb := fcb, sector := sector, buffer := buffer, offset := diskEnd s.fp.flags.ISASCII D n }, os := os } ∧
        S.On file u D s'.fp s'.os ∧ (Coherent s.fp D → Coherent s'.fp D) ∧ KeepsLabel D s.fp.sector sector)
      (fun _ _ => False) s := by
  obtain ⟨os₁, hos₁⟩ : ∃ os₁, (chkuser B s.fp.user.toInt16 s.os).2 = os₁ := ⟨_, rfl⟩
  have hk := hos₁ ▸ hon.chkuser
  have hfile : S.files os₁ (fileId (S.user os₁) s.fp.fcb) = some D := by
    rw [hk.user, hk.id]
    exact hk.files
  have hsize := S.filsiz s.fp.fcb os₁ D n hfile hn
  have hon' := hon.uchkuser (c := { s.fp with fcb := (B.file .FILSIZ s.fp.fcb os₁).2.1 })
    ⟨(S.file_user .FILSIZ s.fp.fcb os₁).trans hk.user, (S.file_fcb .FILSIZ s.fp.fcb os₁ _ hk.named).trans hk.id,
      (congrFun (S.filsiz_files s.fp.fcb os₁ hk.named) file).trans hk.files⟩ rfl
  rw [fileszDisk, wp_bind, wp_chkuserFp, wp_bind, wp_osif, wp_bind, wp_uchkuserFp, wp_bind, wp_setFp, wp_bind, wp_get]
  simp only [hos₁, hsize, wp_ite]
  unfold diskEnd
  split_ifs with hascii
  · refine wp_mono (wp_fileszAscii ⟨hon'.user, hon'.id, hon'.files⟩ hclean (hc hascii) hn) ?_ (fun _ _ h => h)
    rintro _ _ ⟨fcb, os, sector, buffer, rfl, hon'', hc', hlabel⟩
    exact ⟨fcb, os, sector, buffer, rfl, hon'', fun _ => hc', hlabel⟩
  · have hn' : ((n : ℤ) - 1 + 1) * 128 = (128 * n : ℕ) := by omega
    rw [wp_setFp, hn']
    exact ⟨_, _, s.fp.sector, s.fp.buffer, rfl, ⟨hon'.user, hon'.id, hon'.files⟩, fun hc => hc, .inl rfl⟩

/-- A dirty buffer says that the high water mark is right. -/
theorem wp_fileszFp_dirty {Q : ℤ → Io σ → Prop} {E : Errno → Io σ → Prop} (htty : s.fp.flags.ISTTY = false)
    (hlpt : s.fp.flags.ISLPT = false) (hd : s.fp.flags.DIRTY = true) :
    wp (fileszFp B) Q E s =
      Q s.fp.hiwater
        { s with fp := { s.fp with offset := s.fp.hiwater, flags := { s.fp.flags with ATEOF := true } } } := by
  rw [fileszFp, wp_bind, wp_get, wp_ite, if_neg (by simp [htty, hlpt]), wp_bind, wp_ite, if_pos hd]
  simp only [wp_setFp, wp_bind, wp_get, wp_pure]

/-- Otherwise the size is that on disk. -/
theorem wp_fileszFp_clean {n : ℕ} (htty : s.fp.flags.ISTTY = false) (hlpt : s.fp.flags.ISLPT = false)
    (hon : S.On file u D s.fp s.os) (hclean : s.fp.flags.DIRTY = false) (hc : s.fp.flags.ISASCII = true → Coherent s.fp D)
    (hn : IsSize D n) :
    wp (fileszFp B)
      (fun size s' => size = diskEnd s.fp.flags.ISASCII D n ∧ ∃ fcb os sector buffer, s' = { s with
          fp :=
            { s.fp with
              fcb := fcb, sector := sector, buffer := buffer, offset := diskEnd s.fp.flags.ISASCII D n, hiwater := diskEnd s.fp.flags.ISASCII D n
              flags := { s.fp.flags with ATEOF := true } }
          os := os } ∧
        S.On file u D s'.fp s'.os ∧ (Coherent s.fp D → Coherent s'.fp D) ∧ KeepsLabel D s.fp.sector sector)
      (fun _ _ => False) s := by
  rw [fileszFp, wp_bind, wp_get, wp_ite, if_neg (by simp [htty, hlpt]), wp_bind, wp_ite, if_neg (by simp [hclean])]
  refine wp_mono (wp_fileszDisk hon hclean hc hn) ?_ (fun _ _ h => h)
  rintro _ _ ⟨fcb, os, sector, buffer, rfl, hon', hc', hsame⟩
  simp only [wp_setFp, wp_bind, wp_get, wp_pure]
  exact ⟨trivial, fcb, os, sector, buffer, rfl, ⟨hon'.user, hon'.id, hon'.files⟩, hc', hsame⟩

/-- Where a seek to `x` gets: every place before the beginning is the same. -/
def seekTo (x : ℤ) : ℤ := if x < 0 then -1 else x

theorem seekTo_of_nonneg {x : ℤ} (h : 0 ≤ x) : seekTo x = x := if_neg (by omega)

/-- A seek to an offset. -/
theorem wp_lseekFp_start {Q : ℤ → Io σ → Prop} {E : Errno → Io σ → Prop} (offs : ℤ) :
    wp (lseekFp B offs 0) Q E s =
      Q (seekTo offs) { s with fp := { s.fp with offset := seekTo offs, flags := { s.fp.flags with ATEOF := false } } } := by
  simp only [lseekFp, lseekOffset, wp_bind, wp_setFp, wp_get, wp_pure, if_true]
  rfl

/-- A seek from the beginning of the file. -/
theorem wp_lseekFp_set {Q : ℤ → Io σ → Prop} {E : Errno → Io σ → Prop} {offs : ℤ} (h : 0 ≤ offs) :
    wp (lseekFp B offs 0) Q E s =
      Q offs { s with fp := { s.fp with offset := offs, flags := { s.fp.flags with ATEOF := false } } } := by
  rw [wp_lseekFp_start, seekTo_of_nonneg h]

/-- A seek from the present position. -/
theorem wp_lseekFp_current {Q : ℤ → Io σ → Prop} {E : Errno → Io σ → Prop} (offs : ℤ) :
    wp (lseekFp B offs 1) Q E s =
      Q (seekTo (s.fp.offset + offs))
        { s with fp := { s.fp with offset := seekTo (s.fp.offset + offs), flags := { s.fp.flags with ATEOF := false } } } := by
  rw [lseekFp, lseekOffset, if_neg (by decide), if_pos rfl]
  simp only [wp_bind, wp_setFp, wp_get, wp_pure]
  rfl

/-- A seek from the end of the file. -/
theorem wp_lseekFp_end {Q : ℤ → Io σ → Prop} {E : Errno → Io σ → Prop} (offs : ℤ) :
    wp (lseekFp B offs 2) Q E s =
      wp (orFailure (fileszFp B)) (fun size s' => Q (seekTo (size + offs)) { s' with
        fp := { s'.fp with hiwater := size, offset := seekTo (size + offs), flags := { s'.fp.flags with ATEOF := false } } })
        E s := by
  rw [lseekFp, lseekOffset, if_neg (by decide), if_neg (by decide), if_pos rfl]
  simp only [wp_bind]
  rfl

/-- A seek to the end, as the disk has it. -/
theorem wp_lseekFp_end_clean {n : ℕ} (htty : s.fp.flags.ISTTY = false) (hlpt : s.fp.flags.ISLPT = false)
    (hon : S.On file u D s.fp s.os) (hclean : s.fp.flags.DIRTY = false) (hc : s.fp.flags.ISASCII = true → Coherent s.fp D)
    (hn : IsSize D n) :
    wp (lseekFp B 0 2)
      (fun size s' => size = diskEnd s.fp.flags.ISASCII D n ∧ ∃ fcb os sector buffer, s' = { s with
          fp :=
            { s.fp with
              fcb := fcb, sector := sector, buffer := buffer, offset := diskEnd s.fp.flags.ISASCII D n, hiwater := diskEnd s.fp.flags.ISASCII D n
              flags := { s.fp.flags with ATEOF := false } }
          os := os } ∧
        S.On file u D s'.fp s'.os ∧ (Coherent s.fp D → Coherent s'.fp D) ∧ KeepsLabel D s.fp.sector sector)
      (fun _ _ => False) s := by
  rw [wp_lseekFp_end, wp_orFailure]
  refine wp_mono (wp_fileszFp_clean htty hlpt hon hclean hc hn) ?_ (fun _ _ h => h.elim)
  rintro _ _ ⟨rfl, fcb, os, sector, buffer, rfl, hon', hc', hsame⟩
  rw [Int.add_zero, seekTo_of_nonneg (Int.natCast_nonneg _)]
  exact ⟨rfl, fcb, os, sector, buffer, rfl, ⟨hon'.user, hon'.id, hon'.files⟩, hc', hsame⟩

/-! ### Closing -/

/-- Closing the file control block writes a dirty buffer. -/
theorem wp_closeFcb_store (hon : S.On file u D s.fp s.os) (hl : Labelled S.cap s.fp) :
    wp (closeFcb B)
      (fun ok s' => ok = true ∧ S.user s'.os = u ∧ S.files s'.os file = some (flushed D s.fp))
      (fun _ _ => False) s := by
  have hlast : ∀ s₁ : Io σ, S.On file u (flushed D s.fp) s₁.fp s₁.os →
      wp (do
        let xuser ← chkuserFp B
        let code ← osif B .CLOSE
        uchkuserFp B xuser
        pure (decide ((1 : ℕ) = 1 ∧ code &&& 0xff ≠ 0xff)))
        (fun ok s' => ok = true ∧ S.user s'.os = u ∧ S.files s'.os file = some (flushed D s.fp)) (fun _ _ => False) s₁ := by
    intro s₁ h
    obtain ⟨os₁, hos₁⟩ : ∃ os₁, (chkuser B s₁.fp.user.toInt16 s₁.os).2 = os₁ := ⟨_, rfl⟩
    have hk := hos₁ ▸ h.chkuser
    have hcode := S.close_code s₁.fp.fcb os₁ (by
      rw [hk.user, hk.id, hk.files]
      exact Option.some_ne_none _)
    have h' := h.uchkuser (c := { s₁.fp with fcb := (B.file .CLOSE s₁.fp.fcb os₁).2.1 })
      ⟨(S.file_user .CLOSE s₁.fp.fcb os₁).trans hk.user, (S.file_fcb .CLOSE s₁.fp.fcb os₁ _ hk.named).trans hk.id,
        (congrFun (S.close_files s₁.fp.fcb os₁ hk.named) file).trans hk.files⟩ rfl
    simp only [wp_bind, wp_chkuserFp, wp_osif, wp_uchkuserFp, wp_pure, hos₁]
    exact ⟨by simpa using hcode, h'.user, h'.files⟩
  rw [closeFcb, wp_bind, wp_get, wp_bind, wp_ite]
  by_cases hd : s.fp.flags.DIRTY = true
  · obtain ⟨hnonneg, hcap⟩ := hl hd
    have hk : (s.fp.sector.toNat : ℤ) = s.fp.sector := Int.toNat_of_nonneg hnonneg
    have hwrite := wp_blkioWrite (k := s.fp.sector.toNat) [s.fp.buffer] hon (by rw [List.length_singleton]; omega)
    rw [hk] at hwrite
    rw [if_pos hd]
    refine wp_mono hwrite ?_ (fun _ _ h => h)
    rintro _ _ ⟨rfl, fcb, os, rfl, h'⟩
    refine hlast _ ?_
    rw [flushed_of_dirty hd]
    exact h'
  · rw [if_neg hd]
    refine hlast s ?_
    rw [flushed_of_clean (by simpa using hd)]
    exact hon

/-! ### Names -/

/-- The name is legal. -/
def Legal (fname : List UInt8) : Prop := (parsefn fname Fcb.zero).2 = true

/-- The name is not one of the console or the list device. -/
def NotDevice (fname : List UInt8) : Prop := sameName fname tname = false ∧ sameName fname lname = false

/-- The file that a name is, when the current user number is `u`. -/
def namedFile (u : UInt16) (fname : List UInt8) : FileId :=
  fileId (fileUser (parsefn fname Fcb.zero).1.fuser u) (parsefn fname Fcb.zero).1

theorem fileId_parsefn (fname : List UInt8) (fcbp : Fcb) (u : UInt16) :
    fileId (fileUser (parsefn fname fcbp).1.fuser u) (parsefn fname fcbp).1 = namedFile u fname := by
  rw [parsefn_record fname fcbp Fcb.zero]
  rfl

theorem legal_iff (fname : List UInt8) (fcbp : Fcb) : (parsefn fname fcbp).2 = true ↔ Legal fname := by
  rw [parsefn_record fname fcbp Fcb.zero]
  rfl

/-- `__open` with `CREATE` makes an empty file of that name, or fails. -/
theorem wp_openFcb_create_store {fname : List UInt8} (huser : s.fp.user = 0) (hu : S.user s.os = u)
    (hknown : S.users (namedFile u fname).user) :
    wp (openFcb B fname .CREATE)
      (fun rv s' => Legal fname ∧ ∃ fcb user os, s' = { s with fp := { s.fp with fcb := fcb, user := user }, os := os } ∧
        (rv = 0 → S.On (namedFile u fname) u (fun _ => none) s'.fp s'.os))
      (fun _ _ => True) s := by
  obtain ⟨fcb, hfcb⟩ : ∃ fcb, (parsefn fname s.fp.fcb).1 = fcb := ⟨_, rfl⟩
  have hid : fileId (fileUser fcb.fuser u) fcb = namedFile u fname := hfcb ▸ fileId_parsefn fname s.fp.fcb u
  have hfuser := fuser_of_zero fcb.fuser huser
  have hfileUser : S.users (fileUser fcb.fuser (S.user s.os)) := by rwa [← hid, ← hu] at hknown
  have hin := S.isUser.user_chkuser hfileUser
  obtain ⟨os₁, hos₁⟩ : ∃ os₁, (chkuser B fcb.fuser.toInt16 s.os).2 = os₁ := ⟨_, rfl⟩
  obtain ⟨fcb₂, hfcb₂⟩ : ∃ fcb₂, (B.file .DELETE fcb os₁).2.1 = fcb₂ := ⟨_, rfl⟩
  obtain ⟨os₂, hos₂⟩ : ∃ os₂, (B.file .DELETE fcb os₁).2.2 = os₂ := ⟨_, rfl⟩
  have huser₂ : S.user os₂ = fileUser fcb.fuser u := by
    rw [← hos₂, S.file_user, ← hos₁, hin, hu]
  have hback := S.uchkuser_user fcb.fuser s.os (B.file .CREATE fcb₂ os₂).2.2 fun _ => by rw [S.file_user, huser₂, hu]
  rw [openFcb, wp_bind, wp_get, wp_bind, wp_setFp, wp_bind, wp_whenever]
  by_cases hlegal : (parsefn fname s.fp.fcb).2 = false
  · rw [if_pos hlegal]
    trivial
  rw [if_neg hlegal, wp_bind, wp_setFp, wp_bind, wp_whenever]
  by_cases hwild : BdosFunc.CREATE = .CREATE ∧ hasWildcard (parsefn fname s.fp.fcb).1 = true
  · rw [if_pos hwild]
    trivial
  rw [if_neg hwild]
  rw [hfcb] at hwild
  obtain ⟨hwild₂, hid₂⟩ := hfcb₂ ▸ S.delete_fcb fcb os₁ (by simpa using hwild)
  simp only [openCall, hfcb, hfuser, wp_bind, wp_chkuserFp, wp_whenever, wp_osif, wp_pure, wp_get, wp_uchkuserFp,
    hos₁, hos₂, hfcb₂, reduceCtorEq, false_and, if_true, if_false, or_self, wp_ite]
  -- what the BDOS has created is a file of that name
  have hon : (B.file .CREATE fcb₂ os₂).1.toInt16 ≤ 3 → S.On (namedFile u fname) u (fun _ => none)
      { s.fp with fcb := (B.file .CREATE fcb₂ os₂).2.1, user := fcb.fuser }
      (uchkuser B fcb.fuser.toInt16 (chkuser B fcb.fuser.toInt16 s.os).1 (B.file .CREATE fcb₂ os₂).2.2) := by
    intro hcode
    have hnamed := S.create_named fcb₂ os₂ hwild₂ hcode
    refine ⟨hback.1.trans hu, ((S.file_fcb _ _ _ _ hnamed).trans (hid₂ _)).trans hid, ?_⟩
    rw [hback.2, S.create_files _ _ hnamed, huser₂, hid₂, hid, Function.update_self]
  have hok : Legal fname := (legal_iff fname s.fp.fcb).mp (by simpa using hlegal)
  split_ifs with hcode
  · exact ⟨hok, _, _, _, rfl, fun _ => hon hcode⟩
  · exact ⟨hok, _, _, _, rfl, fun hrv => absurd hrv (by decide)⟩

/-- `__open` with `OPEN` finds a file that is there. -/
theorem wp_openFcb_open_store {fname : List UInt8} (hlegal : Legal fname) (huser : s.fp.user = 0)
    (hu : S.user s.os = u) (hfile : S.files s.os (namedFile u fname) = some D) :
    wp (openFcb B fname .OPEN)
      (fun rv s' => rv = 0 ∧ ∃ fcb user os, s' = { s with fp := { s.fp with fcb := fcb, user := user }, os := os } ∧
        S.On (namedFile u fname) u D s'.fp s'.os)
      (fun _ _ => False) s := by
  obtain ⟨fcb, hfcb⟩ : ∃ fcb, (parsefn fname s.fp.fcb).1 = fcb := ⟨_, rfl⟩
  have hid : fileId (fileUser fcb.fuser u) fcb = namedFile u fname := hfcb ▸ fileId_parsefn fname s.fp.fcb u
  have hfuser := fuser_of_zero fcb.fuser huser
  obtain ⟨os₁, hos₁⟩ : ∃ os₁, (chkuser B fcb.fuser.toInt16 s.os).2 = os₁ := ⟨_, rfl⟩
  have hcall : ∀ fcb₁ : Fcb, (∀ v, fileId v fcb₁ = fileId v fcb) →
      (B.file .OPEN fcb₁ os₁).1.toInt16 ≤ 3 ∧
        S.On (namedFile u fname) u D { s.fp with fcb := (B.file .OPEN fcb₁ os₁).2.1, user := fcb.fuser }
          (uchkuser B fcb.fuser.toInt16 (chkuser B fcb.fuser.toInt16 s.os).1 (B.file .OPEN fcb₁ os₁).2.2) := by
    intro fcb₁ hid₁
    have hon : S.On (namedFile u fname) u D { s.fp with fcb := fcb₁, user := fcb.fuser } s.os :=
      ⟨hu, (hid₁ _).trans hid, hfile⟩
    have hk := hos₁ ▸ hon.chkuser
    refine ⟨S.open_code fcb₁ os₁ ?_, hon.uchkuser (c := { s.fp with fcb := _, user := fcb.fuser }) ⟨?_, ?_, ?_⟩ rfl⟩
    · rw [hk.user, hk.id, hk.files]
      exact Option.some_ne_none D
    · exact (S.file_user .OPEN fcb₁ os₁).trans hk.user
    · exact (S.file_fcb .OPEN fcb₁ os₁ _ hk.named).trans hk.id
    · exact (congrFun (S.open_files fcb₁ os₁ hk.named) _).trans hk.files
  have hok : (parsefn fname s.fp.fcb).2 = true := (legal_iff fname s.fp.fcb).mpr hlegal
  rw [openFcb, wp_bind, wp_get, wp_bind, wp_setFp, wp_bind, wp_whenever, if_neg (by simp [hok]), wp_bind, wp_setFp]
  simp only [openCall, hfcb, hfuser, wp_bind, wp_chkuserFp, wp_whenever, wp_osif, wp_pure, wp_get, wp_uchkuserFp,
    hos₁, reduceCtorEq, false_and, true_and, if_false, or_self, wp_ite, wp_setFp]
  split_ifs with hread hcode hcode
  · exact ⟨_, _, _, rfl, (hcall _ fun v => fileId_setF6 v fcb).2⟩
  · exact absurd (hcall _ fun v => fileId_setF6 v fcb).1 hcode
  · exact ⟨_, _, _, rfl, (hcall _ fun _ => rfl).2⟩
  · exact absurd (hcall _ fun _ => rfl).1 hcode

end Cpm68k.Cpmlib
