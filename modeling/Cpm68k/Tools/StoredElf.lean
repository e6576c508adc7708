import Cpm68k.Tools.CpmProgram
import Cpm68k.Tools.ElfRelocs
import Cpm68k.Tools.SegmentTargets

/-!
# One ELF file for two programs

`tools/elf2cpm68k.c` reads the headers of an ELF file itself; `tools/elf2cpm.py` has the pyelftools
library read them. This module says that both read the same file, and what `tools/elf2cpm.py` makes of
it.

## The model

`AsStored` is what is assumed of the library: it returns the headers, the sections and the
relocations with the fields that are stored in the file. It finds no sections when the header does
not say where they are, and it refuses a section of relocations whose entries do not have 12 bytes.
Of the symbols nothing is assumed. `readElf` is a library that does this (`asStored_readElf`).

## What is proved

* `keys_of_load` — `ELFLoader.load` records the fields of all `R_68K_32` relocations, in the order in
  which they are first met.
* `limits_bss` — it takes the BSS to end where the last of its sections ends.
* `programOf_elf2cpm` — the program in the load file that `tools/elf2cpm.py` writes.
-/

namespace Cpm68k.Tools

open Cpm68k.Library Elf2Cpm68k

/-! ### The file as it is stored -/

/-- The sections that the file header lists: none when it does not say where they are. -/
def sectionIndices (hs : Headers) : List ℕ := if hs.header.e_shoff = 0 then [] else List.range hs.header.e_shnum

/-- `sh_addr` of a section. -/
def sectionAddr (hs : Headers) (index : ℕ) : ℕ := READ32 hs.sections (40 * index + 12)

/-- A segment as it is stored: its header, and its bytes. -/
def storedSegment (inp : Input) (hs : Headers) (index : ℕ) : Segment :=
  let header := programHeader hs.segments index
  { p_type := header.p_type
    p_flags := header.p_flags
    p_vaddr := header.p_vaddr
    p_filesz := header.p_filesz
    data := slice inp.file header.p_offset (header.p_offset + header.p_filesz) }

/-- A relocation as it is stored. -/
def storedReloc (rels : Memory) (index : ℕ) : Reloc where
  r_offset := READ32 rels (12 * index)
  r_info_type := READ32 rels (12 * index + 4) &&& 0xff
  r_info_sym := READ32 rels (12 * index + 4) >>> 8
  r_addend := (BitVec.ofNat 32 (READ32 rels (12 * index + 8))).toInt
  is_RELA := true

/-- The section is as it is stored. -/
structure StoredSection (inp : Input) (hs : Headers) (index : ℕ) (s : Section) : Prop where
  type : s.sh_type = (sectionHeader hs.sections index).sh_type
  flags : s.sh_flags = (sectionHeader hs.sections index).sh_flags
  addr : s.sh_addr = sectionAddr hs index
  size : s.sh_size = (sectionHeader hs.sections index).sh_size
  link : s.sh_link = (sectionHeader hs.sections index).sh_link
  info : s.sh_info = (sectionHeader hs.sections index).sh_info
  relocations : s.sh_type = SHT_RELA → (sectionHeader hs.sections index).sh_entsize = 12 ∧
    s.relocations = some ((List.range (s.sh_size / 12)).map (storedReloc (sectionMemory inp hs index)))
  others : s.sh_type ≠ SHT_RELA → s.sh_type ≠ SHT_REL → s.relocations = none

/-- **The ELF library returns what is stored** in the file. -/
structure AsStored (inp : Input) (hs : Headers) (ef : ELFFile) : Prop where
  type : ef.e_type = hs.header.e_type
  machine : ef.e_machine = hs.header.e_machine
  segments : ∀ index segment, ef.segments[index]? = some segment → segment = storedSegment inp hs index
  sections : List.Forall₂ (StoredSection inp hs) (sectionIndices hs) ef.sections
  getSection : ∀ index < hs.header.e_shnum, ∀ s, ef.getSection index = .ok s → StoredSection inp hs index s

/-- A symbol table. -/
def SHT_SYMTAB : ℕ := 2

/-- A section, with its relocations or its symbols. -/
def readSection (inp : Input) (hs : Headers) (index : ℕ) : Section :=
  let header := sectionHeader hs.sections index
  { sh_type := header.sh_type
    sh_flags := header.sh_flags
    sh_addr := sectionAddr hs index
    sh_size := header.sh_size
    sh_link := header.sh_link
    sh_info := header.sh_info
    relocations :=
      if header.sh_type = SHT_RELA then
        some ((List.range (header.sh_size / 12)).map (storedReloc (sectionMemory inp hs index)))
      else none
    symbols :=
      if header.sh_type = SHT_SYMTAB then
        some ((List.range (header.sh_size / 16)).map fun i => READ32 (sectionMemory inp hs index) (16 * i + 4))
      else none }

/-- An ELF library, for files without relocations that have no addends. -/
def readElf (inp : Input) (hs : Headers) : ELFFile where
  e_type := hs.header.e_type
  e_machine := hs.header.e_machine
  segments := (List.range hs.header.e_phnum).map (storedSegment inp hs)
  sections := (sectionIndices hs).map (readSection inp hs)
  getSection index := if index < hs.header.e_shnum then .ok (readSection inp hs index) else .error .elfError

variable {inp : Input} {hs : Headers} {ef : ELFFile}

theorem storedSection_readSection (h : TwelveBytes hs) {index : ℕ} (hindex : index < hs.header.e_shnum) :
    StoredSection inp hs index (readSection inp hs index) where
  type := rfl
  flags := rfl
  addr := rfl
  size := rfl
  link := rfl
  info := rfl
  relocations htype := ⟨h index hindex htype, if_pos htype⟩
  others htype _ := if_neg htype

/-- There is such a library. -/
theorem asStored_readElf (h : TwelveBytes hs) : AsStored inp hs (readElf inp hs) where
  type := rfl
  machine := rfl
  segments index segment hsegment := by
    rw [readElf, List.getElem?_map] at hsegment
    obtain ⟨i, hi, rfl⟩ := Option.map_eq_some_iff.mp hsegment
    rw [(List.getElem?_eq_some_iff.mp hi).2.symm, List.getElem_range]
  sections := by
    rw [readElf, List.forall₂_map_right_iff, List.forall₂_same]
    intro index hindex
    unfold sectionIndices at hindex
    split_ifs at hindex
    · exact absurd hindex List.not_mem_nil
    · exact storedSection_readSection h (List.mem_range.mp hindex)
  getSection index hindex s hsection := by
    have hread : (readElf inp hs).getSection index = .ok (readSection inp hs index) := if_pos hindex
    rw [hread] at hsection
    injection hsection with hsection
    exact hsection ▸ storedSection_readSection h hindex

/-! ### The sections that `load_elf` accepts -/

/-- There are no relocations without addends, and relocations are for sections that exist. -/
structure SectionsFound (hs : Headers) : Prop where
  no_rel : ∀ index < hs.header.e_shnum, (sectionHeader hs.sections index).sh_type ≠ SHT_REL
  info : ∀ index < hs.header.e_shnum, (sectionHeader hs.sections index).sh_type = SHT_RELA →
    (sectionHeader hs.sections index).sh_info < hs.header.e_shnum

theorem section_of_loadSection {l : Layout} {rel_data rel_data' : List ℕ} {index : ℕ}
    (h : Elf2Cpm68k.loadSection inp hs l rel_data index = .ok rel_data') :
    (sectionHeader hs.sections index).sh_type ≠ SHT_REL ∧
      ((sectionHeader hs.sections index).sh_type = SHT_RELA →
        (sectionHeader hs.sections index).sh_info < hs.header.e_shnum) := by
  obtain ⟨sh, hsh, h⟩ := bind_eq_ok.mp h
  rw [elf_section_header_eq_ok hsh] at h
  obtain ⟨hrel, h⟩ := ite_error_eq_ok.mp h
  refine ⟨hrel, fun htype => ?_⟩
  rw [if_neg (not_not.mpr htype)] at h
  obtain ⟨relocated, hrelocated, -⟩ := bind_eq_ok.mp h
  exact not_le.mp (ite_error_eq_ok.mp hrelocated).1

/-- What `load_elf` has checked of the sections. -/
theorem sectionsFound_of_load {file : ElfFile} (h : load_elf inp = .ok file) (hhs : loadHeaders inp = .ok hs) :
    SectionsFound hs := by
  obtain ⟨hs', hhs', h⟩ := bind_eq_ok.mp h
  rw [hhs] at hhs'
  injection hhs' with hhs'
  subst hhs'
  obtain ⟨l, -, h⟩ := bind_eq_ok.mp h
  obtain ⟨rel_data, hrels, -⟩ := bind_eq_ok.mp h
  obtain ⟨rel_data', hloop, -⟩ := bind_eq_ok.mp hrels
  have hall := foldlM_prefix (P := fun done _ => ∀ index ∈ done, (sectionHeader hs.sections index).sh_type ≠ SHT_REL ∧
      ((sectionHeader hs.sections index).sh_type = SHT_RELA →
        (sectionHeader hs.sections index).sh_info < hs.header.e_shnum))
    (fun done index _ _ _ hdone hstep => List.forall_mem_append.mpr
      ⟨hdone, List.forall_mem_singleton.mpr (section_of_loadSection hstep)⟩)
    (fun _ hindex => absurd hindex List.not_mem_nil) hloop
  exact ⟨fun index hindex => (hall index (List.mem_range.mpr hindex)).1,
    fun index hindex => (hall index (List.mem_range.mpr hindex)).2⟩

/-! ### The fields that `ELFLoader.load` records -/

/-- The addresses of the `R_68K_32` relocations of a section. -/
def addressFields (inp : Input) (hs : Headers) (index : ℕ) : List ℕ :=
  ((sectionRelas inp hs index ((sectionHeader hs.sections index).sh_size / 12)).filter fun rel =>
    rel.rel_type = R_68K_32).map Rela.r_offset

/-- The addresses of all `R_68K_32` relocations of the sections that are loaded, in the order of the
file. -/
def allFields (inp : Input) (hs : Headers) : List ℕ :=
  ((sectionIndices hs).filter (RelocatesLoaded hs)).flatMap (addressFields inp hs)

/-- The field at `a` is in the table that `tools/elf2cpm.py` makes: it is not overwritten by a field
that is first met later. -/
def StaysSet (inp : Input) (hs : Headers) (a : ℕ) : Prop := SetLast (allFields inp hs).eraseDups a

variable {text data : List UInt8} {bssSize index : ℕ} {relocs relocs' : Dict ℕ ℕ} {done : List ℕ}

/-- One relocation: its address comes last, unless it is there already. -/
theorem keys_loadReloc {symtab : Section} {reloc : Reloc} (hkeys : relocs.keys = done.eraseDups)
    (h : ELFLoader.loadReloc text data bssSize symtab relocs reloc = .ok relocs') :
    relocs'.keys = (done ++ ([reloc].filter fun r => r.r_info_type = R_68K_32).map Reloc.r_offset).eraseDups := by
  obtain ⟨htype, rfl⟩ | ⟨-, -, segment, -, -, -, htype, -, -, -, rfl⟩ := loadReloc_cases h
  · rw [List.filter_cons_of_neg (by simp [htype]), List.filter_nil, List.map_nil, List.append_nil]
    exact hkeys
  · rw [List.filter_cons_of_pos (by simp [htype])]
    exact Dict.keys_set_eraseDups hkeys _ _

/-- The addresses of the relocations, as either program reads them. -/
theorem addresses_storedReloc (rels symtab : Memory) (count : ℕ) :
    ((((List.range count).map (storedReloc rels)).filter fun r => r.r_info_type = R_68K_32).map Reloc.r_offset) =
      (((List.range count).map (rela rels symtab)).filter fun rel => rel.rel_type = R_68K_32).map Rela.r_offset := by
  rw [List.filter_map, List.filter_map, List.map_map, List.map_map]
  rfl

/-- One section. -/
theorem keys_loadSection {s : Section} (hstored : AsStored inp hs ef) (hfound : SectionsFound hs)
    (hindex : index < hs.header.e_shnum) (hs' : StoredSection inp hs index s) (hkeys : relocs.keys = done.eraseDups)
    (h : ELFLoader.loadSection ef text data bssSize relocs s = .ok relocs') :
    relocs'.keys = (done ++ if RelocatesLoaded hs index then addressFields inp hs index else []).eraseDups := by
  unfold ELFLoader.loadSection at h
  unfold RelocatesLoaded
  by_cases htype : s.sh_type = SHT_RELA
  · obtain ⟨-, hrelocs⟩ := hs'.relocations htype
    rw [hrelocs] at h
    obtain ⟨relocSection, hsection, h⟩ := bind_eq_ok.mp h
    have hinfo := hfound.info index hindex (hs'.type ▸ htype)
    rw [hs'.info] at hsection
    rw [(hstored.getSection _ hinfo _ hsection).flags] at h
    by_cases halloc : (sectionHeader hs.sections (sectionHeader hs.sections index).sh_info).sh_flags &&& SHF_ALLOC = 0
    · rw [if_pos halloc] at h
      injection h with h
      rw [← h, if_neg (by simp [halloc]), List.append_nil]
      exact hkeys
    · rw [if_neg halloc] at h
      obtain ⟨symtab, -, h⟩ := bind_eq_ok.mp h
      rw [if_pos (by simp [← hs'.type, htype, halloc]), addressFields, sectionRelas, ← addresses_storedReloc, ← hs'.size]
      -- over the relocations that have been gone through
      exact foldlM_prefix (P := fun gone relocs =>
          relocs.keys = (done ++ (gone.filter fun r => r.r_info_type = R_68K_32).map Reloc.r_offset).eraseDups)
        (fun gone reloc _ _ _ hgone hstep => by
          rw [List.filter_append, List.map_append, ← List.append_assoc]
          exact keys_loadReloc hgone hstep) (by rwa [List.filter_nil, List.map_nil, List.append_nil]) h
  · rw [hs'.others htype (hs'.type ▸ hfound.no_rel index hindex)] at h
    injection h with h
    rw [← h, if_neg (by simp [← hs'.type, htype]), List.append_nil]
    exact hkeys

/-- All sections. -/
theorem keys_loadSections (hstored : AsStored inp hs ef) (hfound : SectionsFound hs) {indices : List ℕ}
    {sections : List Section} (hall : List.Forall₂ (StoredSection inp hs) indices sections)
    (hlt : ∀ index ∈ indices, index < hs.header.e_shnum) :
    ∀ {done : List ℕ} {relocs : Dict ℕ ℕ}, relocs.keys = done.eraseDups →
      sections.foldlM (ELFLoader.loadSection ef text data bssSize) relocs = .ok relocs' →
        relocs'.keys = (done ++ (indices.filter (RelocatesLoaded hs)).flatMap (addressFields inp hs)).eraseDups := by
  induction hall with
  | nil =>
    intro done relocs hkeys h
    injection h with h
    rw [← h, List.filter_nil, List.flatMap_nil, List.append_nil]
    exact hkeys
  | @cons index s indices sections hs' _ ih =>
    intro done relocs hkeys h
    rw [List.foldlM_cons] at h
    obtain ⟨relocs₁, hstep, h⟩ := bind_eq_ok.mp h
    obtain ⟨hindex, hlt⟩ := List.forall_mem_cons.mp hlt
    have hnext := ih hlt (keys_loadSection hstored hfound hindex hs' hkeys hstep) h
    rw [hnext, List.append_assoc]
    by_cases hloaded : RelocatesLoaded hs index = true
    · rw [if_pos hloaded, List.filter_cons_of_pos hloaded, List.flatMap_cons]
    · rw [if_neg hloaded, List.filter_cons_of_neg hloaded, List.nil_append]

theorem lt_of_mem_sectionIndices (h : index ∈ sectionIndices hs) : index < hs.header.e_shnum := by
  unfold sectionIndices at h
  split_ifs at h
  · exact absurd h List.not_mem_nil
  · exact List.mem_range.mp h

/-- **The fields that `ELFLoader.load` records**, in the order in which they are first met. -/
theorem keys_of_load {image : ELFLoader} (hstored : AsStored inp hs ef) (hfound : SectionsFound hs)
    (h : ELFLoader.load ef = .ok image) : image.relocs.keys = (allFields inp hs).eraseDups := by
  obtain ⟨-, -, -, -, hrelocs⟩ := ELFLoader.load_eq_ok h
  have hempty : (Dict.empty : Dict ℕ ℕ).keys = ([] : List ℕ).eraseDups := rfl
  exact keys_loadSections hstored hfound hstored.sections (fun _ => lt_of_mem_sectionIndices) hempty hrelocs

/-! ### The text and the memory behind it -/

/-- A section of the BSS. -/
def IsBss (hs : Headers) (index : ℕ) : Bool :=
  (sectionHeader hs.sections index).sh_type = SHT_NOBITS && (sectionHeader hs.sections index).sh_flags &&& SHF_ALLOC ≠ 0

/-- Where the sections of the BSS end. -/
def bssLimits (hs : Headers) : List ℕ :=
  ((sectionIndices hs).filter (IsBss hs)).map fun index => sectionAddr hs index + (sectionHeader hs.sections index).sh_size

/-- Where the memory of the program ends: at the end of the last section of the BSS, or at the end of
the data segment when there is none. -/
def memoryEnd (hs : Headers) : ℕ :=
  (bssLimits hs).max?.getD ((programHeader hs.segments 1).p_vaddr + (programHeader hs.segments 1).p_filesz)

/-- The limits of the sections that `findBss` looks at. -/
def nobitsLimits (sections : List Section) : List ℕ :=
  (sections.filter fun s => s.sh_type = SHT_NOBITS ∧ s.sh_flags &&& SHF_ALLOC ≠ 0).map fun s => s.sh_addr + s.sh_size

theorem nobitsLimits_cons (s : Section) (sections : List Section) : nobitsLimits (s :: sections) =
    if s.sh_type = SHT_NOBITS ∧ s.sh_flags &&& SHF_ALLOC ≠ 0 then (s.sh_addr + s.sh_size) :: nobitsLimits sections
    else nobitsLimits sections := by
  rw [nobitsLimits, List.filter_cons]
  simp only [decide_eq_true_eq]
  split_ifs <;> rfl

/-- The search goes on from a section that was found. -/
theorem findBss_some (sections : List Section) (address limit : ℕ) :
    ∃ address' limit', ELFLoader.findBss sections (some address) (some limit) = (some address', some limit') ∧
      (limit :: nobitsLimits sections).max? = some limit' := by
  induction sections generalizing address limit with
  | nil => exact ⟨address, limit, rfl, rfl⟩
  | cons s sections ih =>
    rw [ELFLoader.findBss, nobitsLimits_cons]
    by_cases hbss : s.sh_type = SHT_NOBITS ∧ s.sh_flags &&& SHF_ALLOC ≠ 0
    · rw [if_pos hbss, if_pos hbss]
      obtain ⟨address', limit', hfind, hmax⟩ := ih (if s.sh_addr < address then s.sh_addr else address)
        (if s.sh_addr + s.sh_size > limit then s.sh_addr + s.sh_size else limit)
      refine ⟨address', limit', hfind, ?_⟩
      obtain ⟨hmem, hle⟩ := List.max?_eq_some_iff.mp hmax
      have hfirst := hle _ List.mem_cons_self
      refine List.max?_eq_some_iff.mpr ⟨?_, fun x hx => ?_⟩
      · rcases List.mem_cons.mp hmem with heq | hmem
        · split_ifs at heq
          · exact List.mem_cons_of_mem _ (heq ▸ List.mem_cons_self)
          · exact heq ▸ List.mem_cons_self
        · exact List.mem_cons_of_mem _ (List.mem_cons_of_mem _ hmem)
      · rcases List.mem_cons.mp hx with rfl | hx
        · split_ifs at hfirst <;> omega
        · rcases List.mem_cons.mp hx with rfl | hx
          · split_ifs at hfirst <;> omega
          · exact hle x (List.mem_cons_of_mem _ hx)
    · rw [if_neg hbss, if_neg hbss]
      exact ih address limit

/-- What `findBss` finds: nothing, or the highest limit. -/
theorem findBss_none (sections : List Section) :
    ELFLoader.findBss sections none none = (none, none) ∧ (nobitsLimits sections).max? = none ∨
      ∃ address limit, ELFLoader.findBss sections none none = (some address, some limit) ∧
        (nobitsLimits sections).max? = some limit := by
  induction sections with
  | nil => exact .inl ⟨rfl, rfl⟩
  | cons s sections ih =>
    rw [ELFLoader.findBss, nobitsLimits_cons]
    by_cases hbss : s.sh_type = SHT_NOBITS ∧ s.sh_flags &&& SHF_ALLOC ≠ 0
    · rw [if_pos hbss, if_pos hbss]
      exact .inr (findBss_some sections s.sh_addr (s.sh_addr + s.sh_size))
    · rw [if_neg hbss, if_neg hbss]
      exact ih

theorem nobitsLimits_eq {indices : List ℕ} {sections : List Section}
    (hall : List.Forall₂ (StoredSection inp hs) indices sections) : nobitsLimits sections =
      (indices.filter (IsBss hs)).map fun index => sectionAddr hs index + (sectionHeader hs.sections index).sh_size := by
  induction hall with
  | nil => rfl
  | @cons index s indices sections hs' _ ih =>
    have hbss : decide (s.sh_type = SHT_NOBITS ∧ s.sh_flags &&& SHF_ALLOC ≠ 0) = IsBss hs index := by
      rw [hs'.type, hs'.flags, IsBss, Bool.decide_and]
    rw [nobitsLimits] at ih ⊢
    rw [List.filter_cons, List.filter_cons, hbss]
    split_ifs
    · rw [List.map_cons, List.map_cons, ih, hs'.addr, hs'.size]
    · exact ih

/-- The end of the BSS, as `ELFLoader.load` finds it. -/
theorem limits_bss (hstored : AsStored inp hs ef) : (ELFLoader.limits ef (storedSegment inp hs 1)).bss = memoryEnd hs := by
  have hmax : (bssLimits hs).max? = (nobitsLimits ef.sections).max? := by
    rw [nobitsLimits_eq hstored.sections]
    rfl
  unfold ELFLoader.limits memoryEnd
  rw [hmax]
  rcases findBss_none ef.sections with ⟨hfind, hlimits⟩ | ⟨address, limit, hfind, hlimits⟩
  · rw [hfind, hlimits, Option.getD_none]
    simp only [storedSegment]
  · rw [hfind, hlimits, Option.getD_some]

/-! ### The load file that `tools/elf2cpm.py` writes -/

/-- `elf2cpm.py`: the bytes of the load file. -/
def elf2cpm (ef : ELFFile) : Except PyError (List UInt8) := do
  let elfImage ← ELFLoader.load ef
  let relocs ← translateRelocs elfImage.relocs
  (cpmImage elfImage relocs).save

theorem keys_translateLoop {es : List (ℕ × ℕ)} (hn : (es.map Prod.fst).Nodup) :
    ∀ {cpmRelocs cpmRelocs' : Dict ℕ ℕ}, (∀ k ∈ es.map Prod.fst, k ∉ cpmRelocs.keys) →
      translateLoop es cpmRelocs = .ok cpmRelocs' → cpmRelocs'.keys = cpmRelocs.keys ++ es.map Prod.fst := by
  induction es with
  | nil =>
    intro cpmRelocs cpmRelocs' _ h
    injection h with h
    rw [← h, List.map_nil, List.append_nil]
  | cons e es ih =>
    intro cpmRelocs cpmRelocs' hnew h
    rw [List.map_cons, List.nodup_cons] at hn
    rw [List.map_cons, List.forall_mem_cons] at hnew
    simp only [translateLoop] at h
    cases hm : relocTypeMappings e.2 with
    | none => simp [hm] at h
    | some cpmReloc =>
      simp only [hm] at h
      have hset : (cpmRelocs.set e.1 cpmReloc).keys = cpmRelocs.keys ++ [e.1] := by
        rw [Dict.keys_set, if_neg hnew.1]
      have hrest : ∀ k ∈ es.map Prod.fst, k ∉ (cpmRelocs.set e.1 cpmReloc).keys := by
        intro k hk hmem
        rw [hset] at hmem
        rcases List.mem_append.mp hmem with hmem | hmem
        · exact hnew.2 k hk hmem
        · exact hn.1 (List.mem_singleton.mp hmem ▸ hk)
      rw [ih hn.2 hrest h, hset, List.map_cons, List.append_assoc, List.singleton_append]

/-- The translation keeps the order. -/
theorem keys_translateRelocs {cpmRelocs : Dict ℕ ℕ} (h : translateRelocs relocs = .ok cpmRelocs) :
    cpmRelocs.keys = relocs.keys :=
  keys_translateLoop relocs.nodup (fun _ _ => List.not_mem_nil) h

/-- The relocations are 32-bit fields inside text and data. -/
theorem fields_of_load {image : ELFLoader} {cpmRelocs : Dict ℕ ℕ} (h : ELFLoader.load ef = .ok image)
    (htr : translateRelocs image.relocs = .ok cpmRelocs) :
    Fields cpmRelocs.entries (image.text.length + image.data.length) := by
  have hall : ∀ e ∈ cpmRelocs.entries, (IsReloc e.2 ∧ relocLength e.2 = 4) ∧ e.1 + 4 ≤ image.text.length + image.data.length := by
    intro e he
    have hget := (cpmRelocs.mem_entries_iff e.1 e.2).mp he
    obtain ⟨v, hv, hmap⟩ := Option.bind_eq_some_iff.mp ((get?_translateRelocs htr e.1).symm.trans hget)
    obtain ⟨hinside, htype⟩ := ELFLoader.relocs_of_load h e.1 v hv
    obtain ⟨v', hv', hcode⟩ := relocTypeMappings_of_elf htype
    rw [hmap] at hv'
    injection hv' with hv'
    rw [hv']
    refine ⟨hcode, ?_⟩
    rcases hinside with hin | ⟨-, hin⟩ <;> omega
  exact ⟨fun e he => (hall e he).1.1, fun e he => (hall e he).1.2, fun e he => (hall e he).2⟩

theorem structPack_eq_ok {fmt fields : List ℕ} {bs : List UInt8} (h : structPack fmt fields = .ok bs) :
    pack fmt fields = some bs := by
  unfold structPack at h
  split at h
  · next hpack =>
    injection h with h
    rwa [h] at hpack
  · cases h

theorem mem_of_setLast {addrs : List ℕ} {a : ℕ} (h : SetLast addrs a) : a ∈ addrs := by
  obtain ⟨earlier, later, rfl, -⟩ := h
  exact List.mem_append_right _ List.mem_cons_self

/-- **The program in a load file that `save` writes**: the fields that it marks are those that are not
overwritten. -/
theorem programOf_save {file : CPMFile} {bytes : List UInt8} (h : file.save = .ok bytes)
    (hfields : Fields file.relocs.entries (file.text.length + file.data.length)) :
    programOf bytes =
      { text := file.text, memory := file.data ++ List.replicate file.bssSize 0
        marked := {a | a % 2 = 0 ∧ SetLast file.relocs.keys a} } := by
  obtain ⟨-, h⟩ := ite_error_eq_ok.mp h
  obtain ⟨header, hheader, h⟩ := bind_eq_ok.mp h
  obtain ⟨relocBytes, hrelocs, h⟩ := bind_eq_ok.mp h
  injection h with h
  rw [← h, programOf_parts (structPack_eq_ok hheader), Program.mk.injEq]
  refine ⟨rfl, rfl, Set.ext fun a => ?_⟩
  show _ ∧ a % 2 = 0 ∧ _ ∧ _ ↔ a % 2 = 0 ∧ SetLast file.relocs.keys a
  unfold CPMFile.saveRelocs at hrelocs
  by_cases hsize : file.relocs.size > 0
  · rw [if_pos hsize, CPMFile.encodeRelocs, encodeLoop_eq (List.length_replicate ..) fun e he => by
      rw [hfields.length e he]; exact hfields.inside e he] at hrelocs
    injection hrelocs with hrelocs
    rw [if_pos hsize, ← hrelocs, marks_spliceAll hfields file.relocs.nodup]
    constructor
    · exact fun ⟨_, heven, _, hlast⟩ => ⟨heven, hlast⟩
    · intro ⟨heven, hlast⟩
      obtain ⟨e, he, rfl⟩ := List.mem_map.mp (mem_of_setLast hlast)
      exact ⟨rfl, heven, hfields.inside e he, hlast⟩
  · rw [if_neg hsize]
    refine iff_of_false (fun hmarks => absurd hmarks.1 (by decide)) fun hlast => hsize ?_
    have hmem := List.length_pos_of_mem (mem_of_setLast hlast.2)
    rwa [Dict.keys, List.length_map] at hmem

theorem segments_of_image {image : ELFLoader} (hstored : AsStored inp hs ef) (h : ELFLoader.load ef = .ok image) :
    ELFLoader.Padded ef (storedSegment inp hs 0) (storedSegment inp hs 1) image.text image.data image.bssSize := by
  obtain ⟨textSegment, dataSegment, hsegments, hload, -⟩ := ELFLoader.load_eq_ok h
  have htext := hstored.segments 0 textSegment (by rw [hsegments]; rfl)
  have hdata := hstored.segments 1 dataSegment (by rw [hsegments]; rfl)
  rw [htext, hdata] at hload
  exact ELFLoader.padded_of_loadSegments hload

theorem ljust_append {bs padded : List UInt8} (h : padded = ELFLoader.ljust bs padded.length) (count : ℕ) :
    padded ++ List.replicate count 0 = ELFLoader.ljust bs (padded.length + count) := by
  have hlen := congrArg List.length h
  rw [ELFLoader.ljust, List.length_append, List.length_replicate] at hlen
  calc padded ++ List.replicate count 0
      = bs ++ (List.replicate (padded.length - bs.length) 0 ++ List.replicate count 0) := by
        rw [← List.append_assoc]
        exact congrArg (· ++ List.replicate count 0) h
    _ = ELFLoader.ljust bs (padded.length + count) := by
        rw [List.replicate_append_replicate, ELFLoader.ljust]
        congr 2
        omega

/-- **The program that `elf2cpm.py` makes** of a stored file. -/
theorem programOf_elf2cpm {bytes : List UInt8} (hstored : AsStored inp hs ef) (hfound : SectionsFound hs)
    (h : elf2cpm ef = .ok bytes) :
    programOf bytes =
        { text := ELFLoader.ljust (storedSegment inp hs 0).data (storedSegment inp hs 1).p_vaddr
          memory := ELFLoader.ljust (storedSegment inp hs 1).data (memoryEnd hs - (storedSegment inp hs 1).p_vaddr)
          marked := {a | a % 2 = 0 ∧ StaysSet inp hs a} } ∧
      (storedSegment inp hs 1).p_vaddr + (storedSegment inp hs 1).data.length ≤ memoryEnd hs := by
  obtain ⟨image, himage, h⟩ := bind_eq_ok.mp h
  obtain ⟨cpmRelocs, htr, hsave⟩ := bind_eq_ok.mp h
  have hkeys : (cpmImage image cpmRelocs).relocs.keys = (allFields inp hs).eraseDups :=
    (keys_translateRelocs htr).trans (keys_of_load hstored hfound himage)
  have hpadded := segments_of_image hstored himage
  have hvaddr : image.text.length = (storedSegment inp hs 1).p_vaddr := by
    rw [hpadded.textEnd, ELFLoader.limits]
    split <;> rfl
  have hend := hpadded.bssEnd
  rw [limits_bss hstored, hvaddr] at hend
  have htext : image.text = ELFLoader.ljust (storedSegment inp hs 0).data (storedSegment inp hs 1).p_vaddr := by
    rw [← hvaddr]
    exact hpadded.textBytes
  have hmemory : image.data ++ List.replicate image.bssSize 0 =
      ELFLoader.ljust (storedSegment inp hs 1).data (memoryEnd hs - (storedSegment inp hs 1).p_vaddr) := by
    rw [ljust_append hpadded.dataBytes, ← hend]
    congr 1
    omega
  have hlen := congrArg List.length hpadded.dataBytes
  rw [ELFLoader.ljust, List.length_append, List.length_replicate] at hlen
  refine ⟨?_, by omega⟩
  rw [programOf_save hsave (fields_of_load himage htr), hkeys, ← htext, ← hmemory]
  rfl

end Cpm68k.Tools
