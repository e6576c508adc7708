import Cpm68k.Tools.ElfLoader

/-!
# From an ELF file to a loader

`tools/elf2cpm.py` reads an ELF file, translates its relocations and saves a load file;
a loader reads that file as `CPMFile.load` does. What `ELFLoader.load` lets through is
`FieldInside`: four bytes wholly in the text or wholly in the data. It lets through fields
at odd addresses, and fields that overlap, and the relocation table can hold neither:
`translateRelocs` and `save` succeed on them, and the loader does not find them.

## What is proved

* `ELFLoader.relocs_of_load` — what is known of every relocation that `load` returns.
* `get?_translateRelocs` — the translation keeps the addresses.
* `relocs_kept_iff` — no relocation is lost exactly when there is none, or there is a whole
  number of words and the fields are on word boundaries and clear of one another.
-/

namespace Cpm68k.Tools

open Cpm68k.Library

/-! ### What the ELF reader lets through -/

/-- Four bytes at an address, wholly in the text or wholly in the data. -/
def FieldInside (text data : List UInt8) (a : ℕ) : Prop :=
  a + 4 ≤ text.length ∨ text.length ≤ a ∧ a + 4 ≤ text.length + data.length

theorem unRelocated_eq_ok {text data : List UInt8} {a v : ℕ} (h : ELFLoader.unRelocated text data a = .ok v) :
    FieldInside text data a := by
  obtain ⟨field, hfield, -⟩ := bind_eq_ok.mp h
  have hlen := (unpack_eq_some.mp (structUnpack_eq_ok.mp hfield)).1
  simp only [slice, calcsize, List.sum_cons, List.sum_nil] at hlen
  unfold FieldInside
  split_ifs at hlen with ht <;> simp only [List.length_drop, List.length_take] at hlen <;> omega

theorem targetSegment_eq_ok {text data : List UInt8} {bssSize relTarget segment : ℕ} {relAddend : ℤ}
    (h : ELFLoader.targetSegment text data bssSize relTarget relAddend = .ok segment) :
    segment = R_TEXT ∨ segment = R_DATA ∨ segment = R_BSS := by
  unfold ELFLoader.targetSegment at h
  split_ifs at h <;> simp only [Except.ok.injEq] at h
  · exact .inl h.symm
  · exact .inr (.inl h.symm)
  · exact .inr (.inr h.symm)

/-- What one relocation does: nothing when it has another type, or an entry for a field that was
checked. -/
theorem loadReloc_cases {text data : List UInt8} {bssSize : ℕ} {symtab : Section} {relocs relocs' : Dict ℕ ℕ}
    {reloc : Reloc} (h : ELFLoader.loadReloc text data bssSize symtab relocs reloc = .ok relocs') :
    reloc.r_info_type ≠ R_68K_32 ∧ relocs' = relocs ∨ ∃ symbols relTarget segment field,
      symtab.symbols = some symbols ∧ symbols[reloc.r_info_sym]? = some relTarget ∧
      reloc.r_info_type = R_68K_32 ∧
      ELFLoader.targetSegment text data bssSize relTarget reloc.r_addend = .ok segment ∧
      ELFLoader.unRelocated text data reloc.r_offset = .ok field ∧ (field : ℤ) = relTarget + reloc.r_addend ∧
      relocs' = relocs.set reloc.r_offset (R_68K_32 ||| segment) := by
  unfold ELFLoader.loadReloc at h
  obtain ⟨-, h⟩ := ite_error_eq_ok.mp h
  obtain ⟨-, h⟩ := ite_error_eq_ok.mp h
  cases hsym : symtab.symbols with
  | none => simp [hsym] at h
  | some symbols =>
    cases htar : symbols[reloc.r_info_sym]? with
    | none => simp [hsym, htar] at h
    | some relTarget =>
      simp only [hsym, htar] at h
      by_cases htype : reloc.r_info_type = R_68K_32
      · rw [if_pos htype] at h
        obtain ⟨segment, hseg, h⟩ := bind_eq_ok.mp h
        obtain ⟨field, hfield, h⟩ := bind_eq_ok.mp h
        obtain ⟨hval, h⟩ := ite_error_eq_ok.mp h
        rw [htype, Except.ok.injEq] at h
        exact .inr ⟨symbols, relTarget, segment, field, rfl, htar, htype, hseg, hfield, not_not.mp hval, h.symm⟩
      · rw [if_neg htype] at h
        split_ifs at h
        rw [Except.ok.injEq] at h
        exact .inl ⟨htype, h.symm⟩

/-- What is known of a relocation map on the way through the loader: its entries are
32-bit fields inside the image, of a type that has a translation. -/
def ElfRelocs (text data : List UInt8) (relocs : Dict ℕ ℕ) : Prop :=
  ∀ k v, relocs.get? k = some v → FieldInside text data k ∧
    (v = R_68K_32 ||| R_TEXT ∨ v = R_68K_32 ||| R_DATA ∨ v = R_68K_32 ||| R_BSS)

theorem ElfRelocs.loadReloc {text data : List UInt8} {bssSize : ℕ} {symtab : Section} {relocs relocs' : Dict ℕ ℕ}
    {reloc : Reloc} (hr : ElfRelocs text data relocs)
    (h : ELFLoader.loadReloc text data bssSize symtab relocs reloc = .ok relocs') : ElfRelocs text data relocs' := by
  obtain ⟨-, rfl⟩ | ⟨_, _, segment, field, -, -, -, hseg, hfield, -, rfl⟩ := loadReloc_cases h
  · exact hr
  · intro k v hk
    rw [Dict.get?_set] at hk
    split_ifs at hk with he
    · rw [Option.some.injEq] at hk
      subst he hk
      refine ⟨unRelocated_eq_ok hfield, ?_⟩
      rcases targetSegment_eq_ok hseg with rfl | rfl | rfl
      · exact .inl rfl
      · exact .inr (.inl rfl)
      · exact .inr (.inr rfl)
    · exact hr k v hk

theorem ElfRelocs.loadSection {ef : ELFFile} {text data : List UInt8} {bssSize : ℕ} {s : Section}
    {relocs relocs' : Dict ℕ ℕ} (hr : ElfRelocs text data relocs)
    (h : ELFLoader.loadSection ef text data bssSize relocs s = .ok relocs') : ElfRelocs text data relocs' := by
  unfold ELFLoader.loadSection at h
  cases hs : s.relocations with
  | none =>
    simp only [hs, Except.ok.injEq] at h
    exact h ▸ hr
  | some relocations =>
    simp only [hs] at h
    obtain ⟨relocSection, -, h⟩ := bind_eq_ok.mp h
    split_ifs at h
    · rw [Except.ok.injEq] at h
      exact h ▸ hr
    · obtain ⟨symtab, -, h⟩ := bind_eq_ok.mp h
      exact foldlM_invariant (fun _ _ _ _ hp hf => ElfRelocs.loadReloc hp hf) hr h

/-- **What `load` does** with a file that it accepts: the segments are checked, and then the sections
are gone through. -/
theorem ELFLoader.load_eq_ok {ef : ELFFile} {image : ELFLoader} (h : ELFLoader.load ef = .ok image) :
    ∃ textSegment dataSegment, ef.segments = [textSegment, dataSegment] ∧
      ELFLoader.loadSegments ef textSegment dataSegment = .ok (image.text, image.data, image.bssSize) ∧
      ef.sections.foldlM (ELFLoader.loadSection ef image.text image.data image.bssSize) Dict.empty = .ok image.relocs := by
  unfold ELFLoader.load at h
  obtain ⟨-, h⟩ := ite_error_eq_ok.mp h
  obtain ⟨-, h⟩ := ite_error_eq_ok.mp h
  split at h
  · next textSegment dataSegment hsegments =>
    obtain ⟨⟨text, data, bssSize⟩, hload, h⟩ := bind_eq_ok.mp h
    obtain ⟨relocs, hrelocs, h⟩ := bind_eq_ok.mp h
    injection h with h
    rw [← h]
    exact ⟨textSegment, dataSegment, hsegments, hload, hrelocs⟩
  · cases h

/-- **Every relocation the loader returns** is a 32-bit field inside the image. -/
theorem ELFLoader.relocs_of_load {ef : ELFFile} {image : ELFLoader} (h : ELFLoader.load ef = .ok image) :
    ElfRelocs image.text image.data image.relocs := by
  obtain ⟨-, -, -, -, hrelocs⟩ := ELFLoader.load_eq_ok h
  refine foldlM_invariant (fun _ _ _ _ hp hf => ElfRelocs.loadSection hp hf) ?_ hrelocs
  intro k v hk
  simp at hk

/-! ### The translation -/

theorem get?_translateLoop {es : List (ℕ × ℕ)} (hn : (es.map Prod.fst).Nodup) :
    ∀ {cpmRelocs cpmRelocs' : Dict ℕ ℕ}, translateLoop es cpmRelocs = .ok cpmRelocs' →
      ∀ k, cpmRelocs'.get? k = (lookup k es).elim (cpmRelocs.get? k) relocTypeMappings := by
  induction es with
  | nil =>
    intro cpmRelocs cpmRelocs' h k
    simp only [translateLoop, Except.ok.injEq] at h
    simp [lookup, h]
  | cons e es ih =>
    intro cpmRelocs cpmRelocs' h k
    obtain ⟨address, elfReloc⟩ := e
    rw [List.map_cons, List.nodup_cons] at hn
    simp only [translateLoop] at h
    cases hm : relocTypeMappings elfReloc with
    | none => simp [hm] at h
    | some cpmReloc =>
      simp only [hm] at h
      rw [ih hn.2 h k, lookup]
      by_cases hk : address = k
      · subst hk
        rw [if_pos rfl, (lookup_eq_none_iff _ _).mpr hn.1]
        simp [Dict.get?_set, hm]
      · rw [if_neg hk, Dict.get?_set, if_neg (Ne.symm hk)]

/-- The translation keeps the addresses and maps the types. -/
theorem get?_translateRelocs {relocs cpmRelocs : Dict ℕ ℕ} (h : translateRelocs relocs = .ok cpmRelocs) (k : ℕ) :
    cpmRelocs.get? k = (relocs.get? k).bind relocTypeMappings := by
  rw [get?_translateLoop relocs.nodup h k]
  unfold Dict.get?
  cases lookup k relocs.entries <;> rfl

/-- Every type the ELF reader produces becomes a 32-bit relocation. -/
theorem relocTypeMappings_of_elf {v : ℕ}
    (h : v = R_68K_32 ||| R_TEXT ∨ v = R_68K_32 ||| R_DATA ∨ v = R_68K_32 ||| R_BSS) :
    ∃ v', relocTypeMappings v = some v' ∧ IsReloc v' ∧ relocLength v' = 4 := by
  rcases h with rfl | rfl | rfl <;> exact ⟨_, rfl, by decide, by decide⟩

/-- The addresses of the load file's map are those of the ELF map. -/
theorem get?_translate_eq_some_iff {text data : List UInt8} {relocs cpmRelocs : Dict ℕ ℕ}
    (hr : ElfRelocs text data relocs) (h : translateRelocs relocs = .ok cpmRelocs) (k : ℕ) :
    (∃ v, relocs.get? k = some v) ↔ ∃ v', cpmRelocs.get? k = some v' ∧ IsReloc v' ∧ relocLength v' = 4 := by
  rw [get?_translateRelocs h]
  constructor
  · rintro ⟨v, hv⟩
    obtain ⟨v', hv', hcode⟩ := relocTypeMappings_of_elf (hr k v hv).2
    exact ⟨v', by rw [hv]; exact hv', hcode⟩
  · rintro ⟨v', hv', -⟩
    obtain ⟨v, hv, -⟩ := Option.bind_eq_some_iff.mp hv'
    exact ⟨v, hv⟩

theorem size_translateRelocs {text data : List UInt8} {relocs cpmRelocs : Dict ℕ ℕ}
    (hr : ElfRelocs text data relocs) (h : translateRelocs relocs = .ok cpmRelocs) :
    cpmRelocs.size = 0 ↔ relocs.size = 0 := by
  rw [Dict.size_eq_zero_iff, Dict.size_eq_zero_iff]
  constructor <;> intro hz k
  · cases hk : relocs.get? k with
    | none => rfl
    | some v =>
      obtain ⟨v', hv', -⟩ := (get?_translate_eq_some_iff hr h k).mp ⟨v, hk⟩
      rw [hz k] at hv'
      exact absurd hv' (by simp)
  · rw [get?_translateRelocs h, hz k]
    rfl

/-! ### What the loader finds -/

/-- The fields can all be held by a relocation table: there are none, or text and data are a
whole number of words, and the fields are on word boundaries and do not overlap. -/
def FieldsAligned (relocs : Dict ℕ ℕ) (size : ℕ) : Prop :=
  relocs.size = 0 ∨ size % 2 = 0 ∧ (∀ k v, relocs.get? k = some v → k % 2 = 0) ∧
    ∀ k v k' v', relocs.get? k = some v → relocs.get? k' = some v' → k < k' → k + 4 ≤ k'

/-- The load file `elf2cpm.py` builds. -/
def cpmImage (image : ELFLoader) (cpmRelocs : Dict ℕ ℕ) : CPMFile where
  text := image.text
  textAddress := 0
  data := image.data
  bssSize := image.bssSize
  relocs := cpmRelocs

/-- **Which relocations survive**: for whatever the ELF reader returns, and a load file
that `save` wrote, `load` finds the same file exactly when the fields are aligned. -/
theorem relocs_kept_iff (ef : ELFFile) (image : ELFLoader) (hload : ELFLoader.load ef = .ok image)
    (htext : image.text.length < 2 ^ 32) (hdata : image.data.length < 2 ^ 32) (hbss : image.bssSize < 2 ^ 32)
    (cpmRelocs : Dict ℕ ℕ) (htr : translateRelocs image.relocs = .ok cpmRelocs)
    (bytes : List UInt8) (hsave : (cpmImage image cpmRelocs).save = .ok bytes) :
    (∃ file, CPMFile.load bytes = .ok file ∧ CPMFile.Same file (cpmImage image cpmRelocs)) ↔
      FieldsAligned image.relocs (image.text.length + image.data.length) := by
  have hr := ELFLoader.relocs_of_load hload
  have hiff := get?_translate_eq_some_iff hr htr
  have hcode : ∀ {k v}, cpmRelocs.get? k = some v → IsReloc v ∧ relocLength v = 4 := by
    intro k v hk
    obtain ⟨w, hw⟩ := Option.bind_eq_some_iff.mp ((get?_translateRelocs htr k).symm.trans hk)
    obtain ⟨v', hv', hc⟩ := (hiff k).mp ⟨w, hw.1⟩
    rw [hk, Option.some.injEq] at hv'
    exact hv' ▸ hc
  constructor
  · rintro ⟨file, hfile, hsame⟩
    by_cases hz : image.relocs.size = 0
    · exact .inl hz
    have hst := storable_of_load hfile
    have hne : ¬ file.relocs.size = 0 := by
      intro h0
      refine hz ((size_translateRelocs hr htr).mp ?_)
      rw [Dict.size_eq_zero_iff] at h0 ⊢
      exact fun k => (hsame.relocs k).symm.trans (h0 k)
    have hmem : ∀ k v, image.relocs.get? k = some v → ∃ v', file.relocs.get? k = some v' ∧ relocLength v' = 4 := by
      intro k v hk
      obtain ⟨v', hv', hc⟩ := (hiff k).mp ⟨v, hk⟩
      exact ⟨v', (hsame.relocs k).trans hv', hc.2⟩
    refine .inr ⟨?_, fun k v hk => ?_, fun k v k' v' hk hk' hlt => ?_⟩
    · have := (hst.relocatable.resolve_left hne).2
      rwa [hsame.text, hsame.data] at this
    · obtain ⟨w, hw, -⟩ := hmem k v hk
      exact hst.placed.even hw
    · obtain ⟨w, hw, hl⟩ := hmem k v hk
      obtain ⟨w', hw', -⟩ := hmem k' v' hk'
      have := hst.placed.apart hw hw' hlt
      omega
  · intro halign
    have hplaced : WellPlaced cpmRelocs (image.text.length + image.data.length) := by
      rcases halign with hz | ⟨-, heven, hapart⟩
      · have hnone := (Dict.size_eq_zero_iff _).mp ((size_translateRelocs hr htr).mpr hz)
        constructor <;> simp [hnone]
      · refine ⟨fun hk => (hcode hk).1, fun {k v} hk => ?_, fun {k v} hk => ?_, fun {k v k' v'} hk hk' hlt => ?_⟩
        · obtain ⟨w, hw⟩ := (hiff k).mpr ⟨v, hk, hcode hk⟩
          exact heven k w hw
        · obtain ⟨w, hw⟩ := (hiff k).mpr ⟨v, hk, hcode hk⟩
          rw [(hcode hk).2]
          rcases (hr k w hw).1 with hin | ⟨-, hin⟩ <;> omega
        · obtain ⟨w, hw⟩ := (hiff k).mpr ⟨v, hk, hcode hk⟩
          obtain ⟨w', hw'⟩ := (hiff k').mpr ⟨v', hk', hcode hk'⟩
          rw [(hcode hk).2]
          exact hapart k w k' w' hw hw' hlt
    have hst : CPMFile.Storable (cpmImage image cpmRelocs) := by
      refine ⟨htext, hdata, hbss, Nat.two_pow_pos 32, hplaced, ?_⟩
      rcases halign with hz | ⟨heven, -⟩
      · exact .inl ((size_translateRelocs hr htr).mpr hz)
      · exact .inr ⟨rfl, heven⟩
    obtain ⟨bytes', file, hsave', hfile, hsame⟩ := hst.load_save
    rw [hsave, Except.ok.injEq] at hsave'
    exact ⟨file, hsave' ▸ hfile, hsame⟩

/-- An executable of eight bytes of text and two of data, with one relocation: the long
word at `address` holds the address 0. -/
def oneReloc (address : ℕ) : ELFFile where
  e_type := ET_EXEC
  e_machine := EM_68K
  segments := [⟨PT_LOAD, ELFLoader.P_FLAGS_RX, 0, 8, [0, 0, 0, 0, 0, 0, 0, 0]⟩, ⟨PT_LOAD, ELFLoader.P_FLAGS_RW, 8, 2, [0, 1]⟩]
  sections := [⟨4, 0, 0, 12, 1, 2, some [⟨address, R_68K_32, 0, 0, true⟩], none⟩]
  getSection i := if i = 1 then .ok ⟨2, 0, 0, 16, 0, 0, none, some [0]⟩ else .ok ⟨1, SHF_ALLOC, 0, 8, 0, 0, none, none⟩

/-- The bytes of the load file of `oneReloc address`, but for the relocation table. -/
def oneRelocHeader : List UInt8 :=
  [0x60, 0x1a, 0, 0, 0, 8, 0, 0, 0, 2, 0, 0, 0, 0, 0, 0, 0, 0, 0, 0, 0, 0, 0, 0, 0, 0, 0, 0,
    0, 0, 0, 0, 0, 0, 0, 0, 0, 1]

/-- The field at address 2 is found by the loader. -/
theorem relocs_kept_iff_aligned :
    (∃ file, CPMFile.load (oneRelocHeader ++ [0, 0, 0, 5, 0, 2, 0, 0, 0, 0]) = .ok file ∧
      CPMFile.Same file (cpmImage ⟨[0, 0, 0, 0, 0, 0, 0, 0], [0, 1], 0, Dict.empty.set 2 R_68K_32⟩
        (Dict.empty.set 2 (RELOC_TYPE_TEXT ||| RELOC_SIZE_32)))) ↔
      FieldsAligned (Dict.empty.set 2 R_68K_32) 10 :=
  relocs_kept_iff (oneReloc 2) ⟨[0, 0, 0, 0, 0, 0, 0, 0], [0, 1], 0, Dict.empty.set 2 R_68K_32⟩ rfl
    (by decide) (by decide) (by decide) _ rfl _ rfl

/-- **A relocation is lost**: the field is at address 1, every step of `elf2cpm.py`
succeeds, and the loader finds no relocation at 1. -/
theorem reloc_lost_at_odd_address :
    ∃ image cpmRelocs bytes file, ELFLoader.load (oneReloc 1) = .ok image ∧
      translateRelocs image.relocs = .ok cpmRelocs ∧ (cpmImage image cpmRelocs).save = .ok bytes ∧
      CPMFile.load bytes = .ok file ∧ (∃ v, cpmRelocs.get? 1 = some v) ∧ file.relocs.get? 1 = none :=
  ⟨_, _, _, _, rfl, rfl, rfl, rfl, ⟨_, rfl⟩, rfl⟩

end Cpm68k.Tools
