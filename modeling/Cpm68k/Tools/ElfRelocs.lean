import Cpm68k.Tools.Elf2Cpm68k
import Mathlib.Data.Nat.Bitwise

/-!
# Which relocations are recorded, and with which types

`load_elf_relocs` goes through the relocations of an ELF file and records an address and the type
of a target for each that is to be fixed up when the program is loaded.

## What is proved

* `recorded_of_load` — what is recorded, and in which order.
* `relocated_fields` — these are the fields that refer to symbols, but for undefined weak ones, as
  long as a weak symbol has the value 0 exactly when it is undefined.
* `weak_symbol_at_zero` — a weak symbol at address 0 is not relocated.
* `fixup_types` — the type is that of the segment that the symbol lies in, unless it lies in the
  padding between the text and the data, or at the end of the data.
-/

namespace Cpm68k.Tools.Elf2Cpm68k

open Cpm68k.Library

variable {inp : Input} {hs : Headers} {l : Layout} {ef : ElfFile}

/-! ### Words of `rel_data` -/

theorem READ32_lt (m : Memory) (o : ℕ) : READ32 m o < 2 ^ 32 := by
  have h₀ := (m o).toNat_lt
  have h₁ := (m (o + 1)).toNat_lt
  have h₂ := (m (o + 2)).toNat_lt
  have h₃ := (m (o + 3)).toNat_lt
  unfold READ32
  omega

/-- An address that leaves room for a type is kept when one is added. -/
theorem relAddr_or {a t : ℕ} (ha : a < 2 ^ 32) (hroom : a &&& REL_TYPE_MASK = 0) (ht : t &&& REL_TYPE_MASK = t) :
    relAddr (a ||| t) = a := by
  have hmask : t &&& (0xffffffff ^^^ REL_TYPE_MASK) = 0 := by
    rw [← ht, Nat.and_assoc]
    exact Nat.and_zero t
  have hall : a &&& 0xffffffff = a := by
    rw [show (0xffffffff : ℕ) = 2 ^ 32 - 1 from rfl, Nat.and_two_pow_sub_one_eq_mod, Nat.mod_eq_of_lt ha]
  have hsplit : a &&& (REL_TYPE_MASK ||| (0xffffffff ^^^ REL_TYPE_MASK)) = a := hall
  rw [Nat.and_or_distrib_left, hroom, Nat.zero_or] at hsplit
  rw [relAddr, Nat.and_or_distrib_right, hsplit, hmask, Nat.or_zero]

theorem relType_or {a t : ℕ} (hroom : a &&& REL_TYPE_MASK = 0) (ht : t &&& REL_TYPE_MASK = t) :
    relType (a ||| t) = t >>> REL_TYPE_SHIFT := by
  rw [relType, Nat.and_or_distrib_right, hroom, Nat.zero_or, ht]

/-- The three types. -/
theorem relTargetType_eq_ok {rel_offset rel_target t : ℕ} (h : relTargetType l rel_offset rel_target = .ok t) :
    t = REL_TYPE_TEXT ∨ t = REL_TYPE_DATA ∨ t = REL_TYPE_BSS := by
  unfold relTargetType at h
  split_ifs at h
  · injection h with h
    exact .inl h.symm
  · injection h with h
    exact .inr (.inl h.symm)
  · injection h with h
    exact .inr (.inr h.symm)

theorem and_mask_of_type {rel_offset rel_target t : ℕ} (h : relTargetType l rel_offset rel_target = .ok t) :
    t &&& REL_TYPE_MASK = t := by
  rcases relTargetType_eq_ok h with rfl | rfl | rfl <;> decide

/-! ### What is recorded -/

/-- `load_elf_relocs` records the relocation. -/
def Rela.recorded (rel : Rela) : Bool :=
  rel.rel_type = R_68K_32 && !(decide (rel.st_value = 0) && decide (rel.st_bind = STB_WEAK))

/-- A relocation, and the word that is recorded for it. -/
structure Records (l : Layout) (rel : Rela) (word : ℕ) : Prop where
  room : rel.r_offset &&& REL_TYPE_MASK = 0
  word : ∃ t, relTargetType l rel.r_offset rel.st_value = .ok t ∧ word = rel.r_offset ||| t

/-- The words `rel_data'` are `rel_data`, and those for the relocations. -/
def Appends (l : Layout) (rel_data : List ℕ) (rels : List Rela) (rel_data' : List ℕ) : Prop :=
  ∃ words, rel_data' = rel_data ++ words ∧ List.Forall₂ (Records l) (rels.filter Rela.recorded) words

theorem Appends.refl (rel_data : List ℕ) : Appends l rel_data [] rel_data := ⟨[], (List.append_nil _).symm, .nil⟩

theorem Appends.append {rel_data rel_data' rel_data'' : List ℕ} {rels rels' : List Rela}
    (h : Appends l rel_data rels rel_data') (h' : Appends l rel_data' rels' rel_data'') :
    Appends l rel_data (rels ++ rels') rel_data'' := by
  obtain ⟨words, rfl, hwords⟩ := h
  obtain ⟨words', rfl, hwords'⟩ := h'
  refine ⟨words ++ words', List.append_assoc _ _ _, ?_⟩
  rw [List.filter_append]
  exact List.rel_append hwords hwords'

/-- **What one relocation does.** -/
theorem loadReloc_appends {rel_data rel_data' : List ℕ} {rel : Rela} (h : loadReloc l rel_data rel = .ok rel_data') :
    Appends l rel_data [rel] rel_data' := by
  have hskip : rel.recorded = false → Appends l rel_data [rel] rel_data := by
    intro hno
    refine ⟨[], (List.append_nil _).symm, ?_⟩
    rw [List.filter_cons_of_neg (by simp [hno])]
    exact .nil
  unfold loadReloc at h
  unfold Rela.recorded at hskip
  by_cases hweak : rel.st_value = 0 ∧ rel.st_bind = STB_WEAK
  · rw [if_pos hweak] at h
    injection h with h
    rw [← h]
    exact hskip (by simp [hweak])
  · rw [if_neg hweak] at h
    by_cases htype : rel.rel_type = R_68K_32
    · rw [if_pos htype] at h
      obtain ⟨-, h⟩ := ite_error_eq_ok.mp h
      obtain ⟨t, ht, h⟩ := bind_eq_ok.mp h
      obtain ⟨hroom, h⟩ := ite_error_eq_ok.mp h
      injection h with h
      have hrecorded : rel.recorded = true := by
        unfold Rela.recorded
        simp only [htype, decide_true, Bool.true_and, Bool.not_eq_true']
        rw [← Bool.decide_and, decide_eq_false hweak]
      refine ⟨[rel.r_offset ||| t], h.symm, ?_⟩
      rw [List.filter_cons_of_pos hrecorded]
      exact .cons ⟨not_not.mp hroom, t, ht, rfl⟩ .nil
    · rw [if_neg htype] at h
      split_ifs at h
      injection h with h
      rw [← h]
      exact hskip (by simp [htype])

/-- The relocations of a section. -/
def sectionRelas (inp : Input) (hs : Headers) (index count : ℕ) : List Rela :=
  (List.range count).map (rela (sectionMemory inp hs index) (sectionMemory inp hs (sectionHeader hs.sections index).sh_link))

/-- A section of relocations for a section that is loaded. -/
def RelocatesLoaded (hs : Headers) (index : ℕ) : Bool :=
  (sectionHeader hs.sections index).sh_type = SHT_RELA &&
    (sectionHeader hs.sections (sectionHeader hs.sections index).sh_info).sh_flags &&& SHF_ALLOC ≠ 0

/-- The relocations that are looked at, when a section has `count` of them. -/
def loadedRelas (inp : Input) (hs : Headers) (count : SectionHeader → ℕ) : List Rela :=
  ((List.range hs.header.e_shnum).filter (RelocatesLoaded hs)).flatMap fun index =>
    sectionRelas inp hs index (count (sectionHeader hs.sections index))

theorem elf_section_data_eq_ok {index : ℕ} {m : Memory} (h : elf_section_data inp hs index = .ok m) :
    m = sectionMemory inp hs index := by
  unfold elf_section_data at h
  unfold sectionMemory
  split_ifs at h ⊢
  · obtain ⟨bytes, hbytes, h⟩ := bind_eq_ok.mp h
    obtain ⟨-, hread⟩ := ite_error_eq_ok.mp hbytes
    injection h with h
    injection hread with hread
    rw [← h, ← hread]
  · injection h with h
    exact h.symm

theorem elf_section_header_eq_ok {index : ℕ} {sh : SectionHeader} (h : elf_section_header hs index = .ok sh) :
    sh = sectionHeader hs.sections index := by
  obtain ⟨-, h⟩ := ite_error_eq_ok.mp h
  injection h with h
  exact h.symm

/-- What one section does. -/
theorem loadSection_appends {rel_data rel_data' : List ℕ} {index : ℕ}
    (h : loadSection inp hs l rel_data index = .ok rel_data') :
    Appends l rel_data (if RelocatesLoaded hs index then
        sectionRelas inp hs index ((sectionHeader hs.sections index).sh_size / (sectionHeader hs.sections index).sh_entsize)
      else []) rel_data' := by
  obtain ⟨sh, hsh, h⟩ := bind_eq_ok.mp h
  rw [elf_section_header_eq_ok hsh] at h
  obtain ⟨-, h⟩ := ite_error_eq_ok.mp h
  unfold RelocatesLoaded
  by_cases htype : (sectionHeader hs.sections index).sh_type ≠ SHT_RELA
  · rw [if_pos htype] at h
    injection h with h
    rw [← h, if_neg (by simp [htype])]
    exact .refl _
  · rw [if_neg htype] at h
    obtain ⟨relocated, hrelocated, h⟩ := bind_eq_ok.mp h
    rw [elf_section_header_eq_ok hrelocated] at h
    by_cases halloc : (sectionHeader hs.sections (sectionHeader hs.sections index).sh_info).sh_flags &&& SHF_ALLOC = 0
    · rw [if_pos halloc] at h
      injection h with h
      rw [← h, if_neg (by simp [halloc])]
      exact .refl _
    · rw [if_neg halloc] at h
      obtain ⟨rels, hrels, h⟩ := bind_eq_ok.mp h
      obtain ⟨symtab, hsymtab, h⟩ := bind_eq_ok.mp h
      obtain ⟨-, h⟩ := ite_error_eq_ok.mp h
      rw [elf_section_data_eq_ok hrels, elf_section_data_eq_ok hsymtab] at h
      rw [if_pos (by simp [not_not.mp htype, halloc])]
      -- over the relocations that have been gone through
      have hloop := foldlM_prefix (P := fun done s => Appends l rel_data (done.map (rela (sectionMemory inp hs index)
        (sectionMemory inp hs (sectionHeader hs.sections index).sh_link))) s)
        (fun done i _ s s' hdone hstep => by
          rw [List.map_append]
          exact hdone.append (loadReloc_appends hstep)) (Appends.refl rel_data) h
      exact hloop

theorem loadedRelas_append (done : List ℕ) (index : ℕ) (count : SectionHeader → ℕ) :
    ((done ++ [index]).filter (RelocatesLoaded hs)).flatMap (fun index =>
        sectionRelas inp hs index (count (sectionHeader hs.sections index))) =
      (done.filter (RelocatesLoaded hs)).flatMap (fun index =>
        sectionRelas inp hs index (count (sectionHeader hs.sections index))) ++
      if RelocatesLoaded hs index then sectionRelas inp hs index (count (sectionHeader hs.sections index)) else [] := by
  rw [List.filter_append, List.flatMap_append]
  congr 1
  split_ifs with hindex
  · rw [List.filter_cons_of_pos hindex, List.filter_nil, List.flatMap_singleton]
  · rw [List.filter_cons_of_neg hindex, List.filter_nil, List.flatMap_nil]

/-- How many relocations `load_elf_relocs` takes a section to have. -/
def relaCount (sh : SectionHeader) : ℕ := sh.sh_size / sh.sh_entsize

/-- What is known of a file that `load_elf` accepts. -/
structure Loads (inp : Input) (hs : Headers) (ef : ElfFile) : Prop where
  headers : loadHeaders inp = .ok hs
  segments : loadSegments (programHeader hs.segments 0) (programHeader hs.segments 1) = .ok ef.toLayout
  records : List.Forall₂ (Records ef.toLayout) ((loadedRelas inp hs relaCount).filter Rela.recorded) ef.rel_data

/-- **What is recorded**: a word for each relocation of a loaded section that is recorded at all, in
the order of the file. -/
theorem recorded_of_load (h : load_elf inp = .ok ef) : ∃ hs, Loads inp hs ef := by
  obtain ⟨hs, hhs, h⟩ := bind_eq_ok.mp h
  obtain ⟨l, hl, h⟩ := bind_eq_ok.mp h
  obtain ⟨rel_data, hrels, h⟩ := bind_eq_ok.mp h
  injection h with h
  obtain ⟨rel_data', hloop, hrels⟩ := bind_eq_ok.mp hrels
  obtain ⟨-, -, hrels⟩ := bind_eq_ok.mp hrels
  injection hrels with hrels
  have hsections := foldlM_prefix (P := fun done s => Appends l [] ((done.filter (RelocatesLoaded hs)).flatMap fun index =>
      sectionRelas inp hs index (relaCount (sectionHeader hs.sections index))) s)
    (fun done index _ s s' hdone hstep => by
      rw [loadedRelas_append]
      exact hdone.append (loadSection_appends hstep)) (Appends.refl []) hloop
  obtain ⟨words, hwords, hrecords⟩ := hsections
  rw [← h]
  refine ⟨hs, hhs, hl, ?_⟩
  rw [← hrels, hwords, List.nil_append]
  exact hrecords

theorem loads_of_load (h : load_elf inp = .ok ef) (hhs : loadHeaders inp = .ok hs) : Loads inp hs ef := by
  obtain ⟨hs', hloads⟩ := recorded_of_load h
  have heq := hhs.symm.trans hloads.headers
  injection heq with heq
  exact heq ▸ hloads

/-- The numbers of a relocation are 32-bit numbers. -/
theorem lt_of_mem_loadedRelas {count : SectionHeader → ℕ} {rel : Rela} (h : rel ∈ loadedRelas inp hs count) :
    rel.r_offset < 2 ^ 32 ∧ rel.st_value < 2 ^ 32 := by
  obtain ⟨index, -, hindex⟩ := List.mem_flatMap.mp h
  obtain ⟨i, -, rfl⟩ := List.mem_map.mp hindex
  exact ⟨READ32_lt _ _, READ32_lt _ _⟩

/-- What is known of the segments of a file that `load_elf` accepts. -/
structure Layout.Sane (l : Layout) : Prop where
  text_le : l.text_filesize ≤ l.data_vmaddr
  data_lt : l.data_vmaddr < 2 ^ 32
  size_lt : l.data_filesize < 2 ^ 32
  bss_lt : l.bss_memsize < 2 ^ 32

/-- The layout has the numbers of the segment headers. -/
theorem Loads.layout (h : Loads inp hs ef) : ef.toLayout =
    { text_offset := (programHeader hs.segments 0).p_offset
      text_filesize := (programHeader hs.segments 0).p_filesz
      data_offset := (programHeader hs.segments 1).p_offset
      data_vmaddr := (programHeader hs.segments 1).p_vaddr
      data_filesize := (programHeader hs.segments 1).p_filesz
      bss_memsize := sub32 (programHeader hs.segments 1).p_memsz (programHeader hs.segments 1).p_filesz } := by
  obtain ⟨-, hdata⟩ := ite_error_eq_ok.mp h.segments
  obtain ⟨-, hl⟩ := ite_error_eq_ok.mp hdata
  injection hl with hl
  exact hl.symm

theorem Loads.sane (h : Loads inp hs ef) : ef.toLayout.Sane := by
  obtain ⟨-, hdata⟩ := ite_error_eq_ok.mp h.segments
  obtain ⟨hbad, -⟩ := ite_error_eq_ok.mp hdata
  simp only [not_or, not_lt] at hbad
  rw [h.layout]
  exact ⟨hbad.2.2, READ32_lt _ _, READ32_lt _ _, Nat.mod_lt _ (Nat.two_pow_pos 32)⟩

/-! ### The fields that are relocated -/

/-- The relocation is for a field that holds an address: an `R_68K_32` relocation, but not of an
undefined weak symbol. -/
def Rela.isFixup (rel : Rela) : Bool :=
  rel.rel_type = R_68K_32 && !(decide (rel.st_shndx = 0) && decide (rel.st_bind = STB_WEAK))

/-- All relocations of the sections that are loaded, with entries of 12 bytes. -/
def elfRelas (inp : Input) (hs : Headers) : List Rela := loadedRelas inp hs fun sh => sh.sh_size / 12

/-- An entry of a relocation section has 12 bytes. -/
def TwelveBytes (hs : Headers) : Prop :=
  ∀ index < hs.header.e_shnum, (sectionHeader hs.sections index).sh_type = SHT_RELA →
    (sectionHeader hs.sections index).sh_entsize = 12

theorem loadedRelas_eq (h : TwelveBytes hs) : loadedRelas inp hs relaCount = elfRelas inp hs := by
  refine List.flatMap_congr fun index hindex => ?_
  obtain ⟨hrange, hloaded⟩ := List.mem_filter.mp hindex
  unfold RelocatesLoaded at hloaded
  simp only [Bool.and_eq_true, decide_eq_true_eq] at hloaded
  rw [relaCount, h index (List.mem_range.mp hrange) hloaded.1]

/-- The addresses that are recorded. -/
theorem relAddr_of_records {rels : List Rela} {words : List ℕ} (h : List.Forall₂ (Records l) rels words)
    (hlt : ∀ rel ∈ rels, rel.r_offset < 2 ^ 32) : words.map relAddr = rels.map Rela.r_offset := by
  induction h with
  | nil => rfl
  | cons hrecords _ ih =>
    obtain ⟨hroom, t, ht, rfl⟩ := hrecords
    rw [List.map_cons, List.map_cons, relAddr_or (hlt _ List.mem_cons_self) hroom (and_mask_of_type ht),
      ih fun rel hrel => hlt rel (List.mem_cons_of_mem _ hrel)]

/-- A weak symbol that the relocation refers to has the value 0 exactly when it is undefined. -/
def Rela.WeakAtZero (rel : Rela) : Prop :=
  rel.rel_type = R_68K_32 → rel.st_bind = STB_WEAK → (rel.st_value = 0 ↔ rel.st_shndx = 0)

theorem recorded_eq_isFixup {rel : Rela} (h : rel.WeakAtZero) : rel.recorded = rel.isFixup := by
  unfold Rela.recorded Rela.isFixup
  by_cases htype : rel.rel_type = R_68K_32
  · by_cases hweak : rel.st_bind = STB_WEAK
    · simp only [htype, hweak, h htype hweak]
    · simp [hweak]
  · simp [htype]

/-- **The fields that are relocated** are the right ones, in the order of the file, if every weak
symbol has the value 0 exactly when it is undefined; and only if, when undefined weak symbols have
the value 0. -/
theorem relocated_fields (h : load_elf inp = .ok ef) (hhs : loadHeaders inp = .ok hs) (hsize : TwelveBytes hs) :
    ((∀ rel ∈ elfRelas inp hs, rel.WeakAtZero) →
        ef.rel_data.map relAddr = ((elfRelas inp hs).filter Rela.isFixup).map Rela.r_offset) ∧
      ((∀ rel ∈ elfRelas inp hs, rel.st_bind = STB_WEAK → rel.st_shndx = 0 → rel.st_value = 0) →
        ef.rel_data.map relAddr = ((elfRelas inp hs).filter Rela.isFixup).map Rela.r_offset →
          ∀ rel ∈ elfRelas inp hs, rel.WeakAtZero) := by
  have hloads := loads_of_load h hhs
  have hrecords := hloads.records
  rw [loadedRelas_eq hsize] at hrecords
  have haddr := relAddr_of_records hrecords fun rel hrel => (lt_of_mem_loadedRelas (List.mem_of_mem_filter hrel)).1
  rw [haddr]
  constructor
  · intro hweak
    rw [List.filter_congr fun rel hrel => recorded_eq_isFixup (hweak rel hrel)]
  · intro hundefined heq rel hrel htype hbind
    -- nothing is recorded that should not be, so nothing is missing either
    have hsub : ∀ rel ∈ elfRelas inp hs, rel.recorded = (rel.recorded && rel.isFixup) := by
      intro rel hrel
      cases hrec : rel.recorded with
      | false => rfl
      | true =>
        unfold Rela.recorded at hrec
        unfold Rela.isFixup
        simp only [Bool.and_eq_true, decide_eq_true_eq, Bool.not_eq_true', Bool.and_eq_false_iff, decide_eq_false_iff_not] at hrec
        by_cases hweak : rel.st_bind = STB_WEAK
        · have hvalue := hrec.2.resolve_right (not_not.mpr hweak)
          have hshndx : rel.st_shndx ≠ 0 := fun hzero => hvalue (hundefined rel hrel hweak hzero)
          simp [hrec.1, hshndx]
        · simp [hrec.1, hweak]
    rw [List.filter_congr hsub, ← List.filter_filter] at heq
    have hlen := congrArg List.length heq
    rw [List.length_map, List.length_map] at hlen
    have hall := List.filter_eq_self.mp (List.filter_sublist.eq_of_length hlen)
    refine ⟨fun hzero => ?_, hundefined rel hrel hbind⟩
    by_contra hshndx
    have hfixup : rel.isFixup = true := by
      unfold Rela.isFixup
      simp [htype, hshndx]
    have hrec := hall rel (List.mem_filter.mpr ⟨hrel, hfixup⟩)
    unfold Rela.recorded at hrec
    simp [htype, hzero, hbind] at hrec

/-! ### Small files -/

instance : Decidable (TwelveBytes hs) :=
  inferInstanceAs (Decidable (∀ index < hs.header.e_shnum, (sectionHeader hs.sections index).sh_type = SHT_RELA →
    (sectionHeader hs.sections index).sh_entsize = 12))

/-- The file is accepted, and something holds of what is read. -/
def accepts (inp : Input) (p : Headers → ElfFile → Bool) : Bool :=
  match loadHeaders inp, load_elf inp with
  | .ok hs, .ok ef => p hs ef
  | _, _ => false

theorem exists_of_accepts {p : Headers → ElfFile → Bool} (h : accepts inp p = true) :
    ∃ hs ef, loadHeaders inp = .ok hs ∧ load_elf inp = .ok ef ∧ p hs ef = true := by
  unfold accepts at h
  split at h
  · next hs ef hhs hef => exact ⟨hs, ef, hhs, hef, h⟩
  · cases h

/-- A file with a text and a data segment, symbols (value, binding and type, section) and
relocations (address, symbol and type). -/
def smallElf (textSize dataAddress dataFilesz dataMemsz : ℕ) (syms : List (ℕ × UInt8 × ℕ)) (relas : List (ℕ × ℕ)) : Input where
  file :=
    [0x7f, 0x45, 0x4c, 0x46, 1, 2, 1, 0, 0, 0, 0, 0, 0, 0, 0, 0] ++ bigEndian 2 2 ++ bigEndian 2 4 ++
      [1, 0, 52, 116, 0].flatMap (bigEndian 4) ++ [52, 32, 2, 40, 4, 0].flatMap (bigEndian 2) ++
      [1, 0, 0, 0, textSize, textSize, 5, 0].flatMap (bigEndian 4) ++
      [1, 0, dataAddress, 0, dataFilesz, dataMemsz, 6, 0].flatMap (bigEndian 4) ++
      List.replicate 40 0 ++ [0, 1, 2, 0, 0, 0, 0, 0, 0, 0].flatMap (bigEndian 4) ++
      [0, 2, 0, 0, 276, 16 * syms.length, 0, 0, 0, 16].flatMap (bigEndian 4) ++
      [0, 4, 0, 0, 276 + 16 * syms.length, 12 * relas.length, 2, 1, 0, 12].flatMap (bigEndian 4) ++
      syms.flatMap (fun sym => [0, sym.1, 0].flatMap (bigEndian 4) ++ [sym.2.1, 0] ++ bigEndian 2 sym.2.2) ++
      relas.flatMap fun rel => [rel.1, rel.2, 0].flatMap (bigEndian 4)
  behind _ _ := 0

/-- A field that refers to a function. -/
theorem relocated_fields_small : ∃ hs ef, load_elf (smallElf 8 8 0 0 [(4, 0x12, 1)] [(0, 1)]) = .ok ef ∧
    ef.rel_data.map relAddr = ((elfRelas (smallElf 8 8 0 0 [(4, 0x12, 1)] [(0, 1)]) hs).filter Rela.isFixup).map Rela.r_offset := by
  obtain ⟨hs, ef, hhs, hef, htest⟩ := exists_of_accepts (show accepts (smallElf 8 8 0 0 [(4, 0x12, 1)] [(0, 1)])
    (fun hs _ => decide (TwelveBytes hs) &&
      (elfRelas (smallElf 8 8 0 0 [(4, 0x12, 1)] [(0, 1)]) hs).all fun rel => decide (rel.st_bind ≠ STB_WEAK)) = true by
        decide +kernel)
  obtain ⟨hsize, hbind⟩ := Bool.and_eq_true_iff.mp htest
  refine ⟨hs, ef, hef, (relocated_fields hef hhs (of_decide_eq_true hsize)).1 fun rel hrel _ hweak => ?_⟩
  exact absurd hweak (of_decide_eq_true (List.all_eq_true.mp hbind rel hrel))

/-- **A weak symbol at address 0 is not relocated**, although it is defined. -/
theorem weak_symbol_at_zero : ∃ hs ef, loadHeaders (smallElf 8 8 0 0 [(0, 0x22, 1)] [(4, 1)]) = .ok hs ∧
    load_elf (smallElf 8 8 0 0 [(0, 0x22, 1)] [(4, 1)]) = .ok ef ∧ TwelveBytes hs ∧
    ef.rel_data.map relAddr ≠ ((elfRelas (smallElf 8 8 0 0 [(0, 0x22, 1)] [(4, 1)]) hs).filter Rela.isFixup).map Rela.r_offset := by
  obtain ⟨hs, ef, hhs, hef, htest⟩ := exists_of_accepts (show accepts (smallElf 8 8 0 0 [(0, 0x22, 1)] [(4, 1)])
    (fun hs ef => decide (TwelveBytes hs) && decide (ef.rel_data.map relAddr ≠
      ((elfRelas (smallElf 8 8 0 0 [(0, 0x22, 1)] [(4, 1)]) hs).filter Rela.isFixup).map Rela.r_offset)) = true by
        decide +kernel)
  obtain ⟨hsize, hne⟩ := Bool.and_eq_true_iff.mp htest
  exact ⟨hs, ef, hhs, hef, of_decide_eq_true hsize, of_decide_eq_true hne⟩

/-! ### The types of the targets -/

/-- The end of the data, as a number that does not wrap. -/
def Layout.dataEnd (l : Layout) : ℕ := l.data_vmaddr + l.data_filesize

/-- The end of the BSS. -/
def Layout.bssEnd (l : Layout) : ℕ := l.dataEnd + l.bss_memsize

/-- The type in the word is that of the segment in which the target lies. The padding after the
text belongs to the text, and the end of the BSS to the BSS. -/
structure SegmentOf (l : Layout) (target word : ℕ) : Prop where
  text : word &&& REL_TYPE_MASK = REL_TYPE_TEXT ↔ target < l.data_vmaddr
  data : word &&& REL_TYPE_MASK = REL_TYPE_DATA ↔ l.data_vmaddr ≤ target ∧ target < l.dataEnd
  bss : word &&& REL_TYPE_MASK = REL_TYPE_BSS ↔ l.dataEnd ≤ target ∧ target ≤ l.bssEnd
  inside : target ≤ l.bssEnd

/-- The target is in the text as it is in the file, or from the data on, but not at their end. -/
def ClearTarget (l : Layout) (target : ℕ) : Prop :=
  target < l.text_filesize ∨ l.data_vmaddr ≤ target ∧ target ≠ l.dataEnd ∧ l.dataEnd < 2 ^ 32

/-- The type of one target. -/
theorem segmentOf_iff {rel : Rela} {word : ℕ} (hl : l.Sane) (h : Records l rel word) (ht : rel.st_value < 2 ^ 32) :
    SegmentOf l rel.st_value word ↔ ClearTarget l rel.st_value := by
  obtain ⟨hroom, t, htype, rfl⟩ := h
  obtain ⟨htext, hdata, hsize, hbss⟩ := hl
  have hmask : (rel.r_offset ||| t) &&& REL_TYPE_MASK = t := by
    rw [Nat.and_or_distrib_right, hroom, Nat.zero_or, and_mask_of_type htype]
  have hiff : SegmentOf l rel.st_value (rel.r_offset ||| t) ↔
      (t = REL_TYPE_TEXT ↔ rel.st_value < l.data_vmaddr) ∧
        (t = REL_TYPE_DATA ↔ l.data_vmaddr ≤ rel.st_value ∧ rel.st_value < l.dataEnd) ∧
        (t = REL_TYPE_BSS ↔ l.dataEnd ≤ rel.st_value ∧ rel.st_value ≤ l.bssEnd) ∧ rel.st_value ≤ l.bssEnd := by
    constructor
    · intro ⟨h₁, h₂, h₃, h₄⟩
      rw [hmask] at h₁ h₂ h₃
      exact ⟨h₁, h₂, h₃, h₄⟩
    · intro ⟨h₁, h₂, h₃, h₄⟩
      rw [← hmask] at h₁ h₂ h₃
      exact ⟨h₁, h₂, h₃, h₄⟩
  rw [hiff]
  unfold relTargetType at htype
  unfold ClearTarget Layout.bssEnd Layout.dataEnd
  have hne : REL_TYPE_TEXT ≠ REL_TYPE_DATA ∧ REL_TYPE_TEXT ≠ REL_TYPE_BSS ∧ REL_TYPE_DATA ≠ REL_TYPE_BSS := by decide
  split_ifs at htype with hin hin' hin''
  · injection htype with htype
    subst htype
    simp only [hne.1, hne.2.1, true_iff, false_iff]
    omega
  · injection htype with htype
    subst htype
    unfold add32 at hin'
    simp only [hne.1.symm, hne.2.2, true_iff, false_iff]
    omega
  · injection htype with htype
    subst htype
    unfold add32 at hin' hin''
    simp only [hne.2.1.symm, hne.2.2.symm, true_iff, false_iff]
    omega

/-- **The type of every fixup is that of the segment of its target**, if and only if no target
lies in the padding after the text or at the end of the data, and the data end below `2 ^ 32`
when there are targets behind the text. -/
theorem fixup_types (h : load_elf inp = .ok ef) (hhs : loadHeaders inp = .ok hs) :
    List.Forall₂ (fun rel word => SegmentOf ef.toLayout rel.st_value word)
        ((loadedRelas inp hs relaCount).filter Rela.recorded) ef.rel_data ↔
      ∀ rel ∈ (loadedRelas inp hs relaCount).filter Rela.recorded, ClearTarget ef.toLayout rel.st_value := by
  have hloads := loads_of_load h hhs
  have hlt : ∀ rel ∈ (loadedRelas inp hs relaCount).filter Rela.recorded, rel.st_value < 2 ^ 32 :=
    fun rel hrel => (lt_of_mem_loadedRelas (List.mem_of_mem_filter hrel)).2
  have hrecords := hloads.records
  generalize (loadedRelas inp hs relaCount).filter Rela.recorded = rels at hlt hrecords ⊢
  generalize ef.rel_data = words at hrecords ⊢
  induction hrecords with
  | nil => exact iff_of_true .nil fun _ hrel => absurd hrel List.not_mem_nil
  | cons hrecord _ ih =>
    have hrest := ih fun rel hrel => hlt rel (List.mem_cons_of_mem _ hrel)
    rw [List.forall₂_cons, List.forall_mem_cons]
    exact and_congr (segmentOf_iff hloads.sane hrecord (hlt _ List.mem_cons_self)) hrest

/-- A target in the text. -/
theorem fixup_types_small : ∃ hs ef, load_elf (smallElf 8 8 4 4 [(4, 0x12, 1)] [(0, 1)]) = .ok ef ∧
    List.Forall₂ (fun rel word => SegmentOf ef.toLayout rel.st_value word)
      ((loadedRelas (smallElf 8 8 4 4 [(4, 0x12, 1)] [(0, 1)]) hs relaCount).filter Rela.recorded) ef.rel_data := by
  obtain ⟨hs, ef, hhs, hef, htest⟩ := exists_of_accepts (show accepts (smallElf 8 8 4 4 [(4, 0x12, 1)] [(0, 1)])
    (fun hs ef => ((loadedRelas (smallElf 8 8 4 4 [(4, 0x12, 1)] [(0, 1)]) hs relaCount).filter Rela.recorded).all
      fun rel => decide (rel.st_value < ef.text_filesize)) = true by decide +kernel)
  exact ⟨hs, ef, hef, (fixup_types hef hhs).mpr fun rel hrel => .inl (of_decide_eq_true (List.all_eq_true.mp htest rel hrel))⟩

/-- **The start of the BSS is taken for data**: the target is the end of the data. -/
theorem bss_start_typed_data : ∃ hs ef, loadHeaders (smallElf 8 8 4 12 [(12, 0x12, 1)] [(0, 1)]) = .ok hs ∧
    load_elf (smallElf 8 8 4 12 [(12, 0x12, 1)] [(0, 1)]) = .ok ef ∧
    ¬ List.Forall₂ (fun rel word => SegmentOf ef.toLayout rel.st_value word)
      ((loadedRelas (smallElf 8 8 4 12 [(12, 0x12, 1)] [(0, 1)]) hs relaCount).filter Rela.recorded) ef.rel_data := by
  obtain ⟨hs, ef, hhs, hef, htest⟩ := exists_of_accepts (show accepts (smallElf 8 8 4 12 [(12, 0x12, 1)] [(0, 1)])
    (fun hs ef => decide (ef.dataEnd = 12 ∧ ef.bssEnd = 20 ∧ ef.rel_data = [REL_TYPE_DATA]) &&
      decide (((loadedRelas (smallElf 8 8 4 12 [(12, 0x12, 1)] [(0, 1)]) hs relaCount).filter Rela.recorded).map
        Rela.st_value = [12])) = true by decide +kernel)
  obtain ⟨hlayout, htargets⟩ := Bool.and_eq_true_iff.mp htest
  obtain ⟨hdata, hbss, hwords⟩ := of_decide_eq_true hlayout
  have htargets := of_decide_eq_true htargets
  refine ⟨hs, ef, hhs, hef, fun hall => ?_⟩
  rw [hwords] at hall
  generalize (loadedRelas _ hs relaCount).filter Rela.recorded = rels at htargets hall
  cases hall with
  | cons hsegment hnil =>
    cases hnil
    injection htargets with htarget
    have hword : REL_TYPE_DATA &&& REL_TYPE_MASK = REL_TYPE_BSS := hsegment.bss.mpr (by omega)
    exact absurd hword (by decide)

end Cpm68k.Tools.Elf2Cpm68k
