import Cpm68k.Cpmlib.RecordStore

/-!
# A record store in memory

The laws of `RecordStore` hold of a concrete BDOS, which keeps its files in memory and can
be run.
-/

namespace Cpm68k.Cpmlib

open Cpm68k.Library

/-- How many records a file in memory can have. -/
def memCap : ℕ := 2 ^ 18

/-- A file in memory. -/
structure MemFile where
  /-- The records. -/
  recs : ℕ → Option Sector
  /-- The highest record number, plus one. -/
  size : ℕ
  isSize : IsSize recs size
  le_cap : size ≤ memCap

/-- A file without records. -/
def MemFile.empty : MemFile := ⟨fun _ => none, 0, ⟨fun _ _ => rfl, .inl rfl⟩, Nat.zero_le _⟩

/-- The file with a record stored in it. -/
def MemFile.put (m : MemFile) (k : ℕ) (hk : k < memCap) (r : Sector) : MemFile where
  recs := Function.update m.recs k (some r)
  size := max m.size (k + 1)
  isSize := by
    refine ⟨fun j hj => ?_, .inr ?_⟩
    · rw [Function.update_of_ne (by omega)]
      exact m.isSize.1 j (by omega)
    · rcases Nat.lt_or_ge k m.size with hlt | hge
      · rw [max_eq_left (by omega)]
        by_cases heq : m.size - 1 = k
        · rw [heq, Function.update_self]
          exact Option.some_ne_none r
        · rw [Function.update_of_ne heq]
          exact m.isSize.2.resolve_left (by omega)
      · rw [max_eq_right (by omega), Nat.add_sub_cancel, Function.update_self]
        exact Option.some_ne_none r
  le_cap := max_le m.le_cap hk

/-- The state of a BDOS that keeps its files in memory. -/
structure MemOs where
  /-- The current user number. -/
  user : UInt16
  user_le : user ≤ 15
  /-- The files. -/
  files : FileId → Option MemFile

/-- The files that the name `f` stands for. -/
def FileId.Matches (f g : FileId) : Prop :=
  f.user = g.user ∧ f.drive = g.drive ∧ (∀ i, f.fname i = 0x3f ∨ f.fname i = g.fname i) ∧
    ∀ i, f.ftype i = 0x3f ∨ f.ftype i = g.ftype i

instance (f g : FileId) : Decidable (f.Matches g) := inferInstanceAs (Decidable (_ ∧ _))

theorem FileId.Plain.matches_iff {f : FileId} (hf : f.Plain) (g : FileId) : f.Matches g ↔ g = f := by
  constructor
  · rintro ⟨huser, hdrive, hname, htype⟩
    have hname' : f.fname = g.fname := funext fun i => (hname i).resolve_left (hf.fname i)
    have htype' : f.ftype = g.ftype := funext fun i => (htype i).resolve_left (hf.ftype i)
    cases f
    cases g
    subst huser hdrive hname' htype'
    rfl
  · rintro rfl
    exact ⟨rfl, rfl, fun _ => .inr rfl, fun _ => .inr rfl⟩

/-- The files without those that the name `f` stands for. -/
def without {τ : Type} (files : FileId → Option τ) (f : FileId) : FileId → Option τ :=
  fun g => if f.Matches g then none else files g

theorem FileId.Plain.without {τ : Type} {f : FileId} (hf : f.Plain) (files : FileId → Option τ) :
    Cpmlib.without files f = Function.update files f none := by
  funext g
  unfold Cpmlib.without
  by_cases hg : g = f
  · rw [if_pos ((hf.matches_iff g).mpr hg), hg, Function.update_self]
  · rw [if_neg (mt (hf.matches_iff g).mp hg), Function.update_of_ne hg]

/-- What the file functions do to the files. -/
def memFile (g : BdosFunc) (fcb : Fcb) (os : MemOs) : UInt16 × Fcb × MemOs :=
  let f := fileId os.user fcb
  let code : UInt16 := if (os.files f).isSome = true then 0 else 0xff
  match g with
  | .OPEN | .CLOSE => (code, fcb, os)
  | .SEARCHF | .SEARCHN => (0xff, fcb, os)
  | .DELETE => (code, fcb, { os with files := without os.files f })
  | .CREATE => if f.Plain then (0, fcb, { os with files := Function.update os.files f (some .empty) }) else (0xff, fcb, os)
  | .FILSIZ => (code, { fcb with record := ((os.files f).map MemFile.size).getD 0 }, os)

/-- The record of a file, if it has it. -/
def memRead (fcb : Fcb) (os : MemOs) : Except UInt16 Sector :=
  match (os.files (fileId os.user fcb)).bind fun m => if 0 ≤ fcb.record then m.recs fcb.record.toNat else none with
  | some r => .ok r
  | none => .error 1

theorem record_lt_memCap {fcb : Fcb} (h : 0 ≤ fcb.record ∧ fcb.record.toNat < memCap) : fcb.record.toNat < memCap := h.2

/-- Store a record of a file. -/
def memWrite (fcb : Fcb) (r : Sector) (os : MemOs) : UInt16 × MemOs :=
  match os.files (fileId os.user fcb) with
  | none => (0xff, os)
  | some m =>
    if h : 0 ≤ fcb.record ∧ fcb.record.toNat < memCap then
      (0, { os with files := Function.update os.files (fileId os.user fcb) (some (m.put fcb.record.toNat (record_lt_memCap h) r)) })
    else (6, os)

/-- A BDOS that keeps its files in memory. -/
def memOsif : Osif MemOs where
  user n os := if n = 0xff then (os.user, os) else if h : n ≤ 15 then (0, { os with user := n, user_le := h }) else (0, os)
  file := memFile
  bRead fcb os := (memRead fcb os, fcb, os)
  bWrite fcb r os := ((memWrite fcb r os).1, fcb, (memWrite fcb r os).2)
  rename _ _ os := (0xff, os)
  conin os := (EOFCHAR, os)
  conout _ os := os
  conio _ os := (0, os)
  writestr _ os := os
  conbuf _ os := ([], os)
  lstout _ os := os
  exit os := os
  behind _ := 0

/-- The records of the files. What could be the name of many files is the name of none. -/
def memFiles (os : MemOs) (f : FileId) : Option (ℕ → Option Sector) :=
  if f.Plain then (os.files f).map MemFile.recs else none

theorem memFiles_of_plain {f : FileId} (hf : f.Plain) (os : MemOs) : memFiles os f = (os.files f).map MemFile.recs := if_pos hf

theorem memFiles_eq_some {os : MemOs} {f : FileId} {D : ℕ → Option Sector} (h : memFiles os f = some D) :
    f.Plain ∧ ∃ m, os.files f = some m ∧ m.recs = D := by
  unfold memFiles at h
  split_ifs at h with hf
  exact ⟨hf, Option.map_eq_some_iff.mp h⟩

theorem isSome_of_memFiles {os : MemOs} {f : FileId} (h : memFiles os f ≠ none) : (os.files f).isSome = true := by
  obtain ⟨D, hD⟩ := Option.ne_none_iff_exists'.mp h
  obtain ⟨-, m, hm, -⟩ := memFiles_eq_some hD
  rw [hm]
  rfl

theorem memFiles_update (os : MemOs) {f : FileId} (hf : f.Plain) (m : Option MemFile) :
    memFiles { os with files := Function.update os.files f m } = Function.update (memFiles os) f (m.map MemFile.recs) := by
  funext g
  by_cases hg : g = f
  · subst hg
    simp [memFiles_of_plain hf]
  · simp [memFiles, Function.update_of_ne hg]

theorem memWrite_eq {fcb : Fcb} {os : MemOs} {m : MemFile} (r : Sector) {k : ℕ}
    (hm : os.files (fileId os.user fcb) = some m) (hk : fcb.record = k) (hcap : k < memCap) :
    memWrite fcb r os =
      (0, { os with files := Function.update os.files (fileId os.user fcb) (some (m.put k hcap r)) }) := by
  have hrec : 0 ≤ fcb.record ∧ fcb.record.toNat < memCap := by omega
  have hk' : fcb.record.toNat = k := by omega
  subst hk'
  rw [memWrite, hm]
  exact dif_pos hrec

/-- **The laws hold**: a record store. -/
def memStore : RecordStore memOsif where
  user := MemOs.user
  users n := n ≤ 15
  names := FileId.Plain
  files := memFiles
  cap := memCap
  cap_lt := by decide
  bounded os f D h k hk := by
    obtain ⟨-, m, -, rfl⟩ := memFiles_eq_some h
    exact m.isSize.1 k (m.le_cap.trans hk)
  names_user _ hf := hf.user
  named os f D h := (memFiles_eq_some h).1
  isUser :=
    { get := fun os => ⟨rfl, rfl⟩
      set := fun n os hn => by
        have hne : n ≠ 0xff := by
          rintro rfl
          exact absurd hn (by decide)
        simp only [memOsif, if_neg hne, dif_pos hn]
      known := MemOs.user_le }
  user_files n os := by
    simp only [memOsif]
    split_ifs
    · rfl
    · rfl
    · rfl
  file_user g fcb os := by
    cases g with
    | CREATE =>
      simp only [memOsif, memFile]
      split_ifs <;> rfl
    | _ => rfl
  file_fcb g fcb os u _ := by
    cases g with
    | CREATE =>
      simp only [memOsif, memFile]
      split_ifs
      rfl
    | _ => rfl
  create_code fcb os hf := by
    simp only [memOsif, memFile, if_pos hf]
    decide
  create_named fcb os _ hcode := by
    by_contra hf
    simp only [memOsif, memFile, if_neg hf] at hcode
    exact absurd hcode (by decide)
  create_files fcb os hf := by
    simp only [memOsif, memFile, if_pos hf]
    exact memFiles_update os hf _
  delete_fcb _ _ hwild := ⟨hwild, fun _ => rfl⟩
  delete_files fcb os hf := by
    have hupdate := memFiles_update os hf none
    rw [← FileId.Plain.without hf] at hupdate
    exact hupdate
  open_code fcb os h := by
    simp only [memOsif, memFile, isSome_of_memFiles h, if_true]
    decide
  open_files fcb os _ := rfl
  close_code fcb os h := by
    simp only [memOsif, memFile, isSome_of_memFiles h, if_true]
    decide
  close_files fcb os _ := rfl
  filsiz fcb os D n h hn := by
    obtain ⟨-, m, hm, rfl⟩ := memFiles_eq_some h
    have hsize := m.isSize.unique hn
    have hcap := m.le_cap
    unfold memCap at hcap
    simp only [memOsif, memFile, hm, Option.map_some, Option.getD_some]
    omega
  filsiz_files fcb os _ := rfl
  read_record fcb os D k h hk := by
    obtain ⟨-, m, hm, rfl⟩ := memFiles_eq_some h
    simp only [memOsif, memRead, hm, Option.bind_some, hk, Int.natCast_nonneg, if_true, Int.toNat_natCast]
    cases m.recs k with
    | none => exact ⟨1, rfl⟩
    | some r => rfl
  read_user _ _ := rfl
  read_fcb _ _ _ _ := rfl
  read_files _ _ _ := rfl
  write_code fcb r os D k h hk hcap := by
    obtain ⟨-, m, hm, rfl⟩ := memFiles_eq_some h
    simp only [memOsif, memWrite_eq r hm hk hcap]
  write_user fcb r os := by
    simp only [memOsif, memWrite]
    split
    · rfl
    · split_ifs <;> rfl
  write_fcb _ _ _ _ _ := rfl
  write_files fcb r os D k h hk hcap := by
    obtain ⟨hf, m, hm, rfl⟩ := memFiles_eq_some h
    simp only [memOsif, memWrite_eq r hm hk hcap]
    exact memFiles_update os hf _

/-- A disk without files. -/
def emptyDisk : MemOs := ⟨0, by decide, fun _ => none⟩

end Cpm68k.Cpmlib
