import Cpm68k.Library.ShortWrites
import Cpm68k.Tools.ElfLoader

/-!
# From an ELF file to a load file, in C

`tools/elf2cpm68k.c`: the ELF file is read by `load_elf`, with the relocations by
`load_elf_relocs`, and the load file is written by `write_cpm`.

## The model

A 32-bit number is a natural number, and its sums and differences are taken modulo `2 ^ 32`
(`add32`, `sub32`). A function that may call `error` returns `Except String`; the message is the
source's, without what `strerror` adds to it. Allocations do not fail.

The source goes through pointers into blocks that hold parts of the file, and it does not check
all the indices it uses. `Input` has what it finds there: the file, and whatever memory holds
behind each block. Nothing is assumed of it.

The output is a `Writer`: each call of `fwrite` stores as much as there is room for.
-/

namespace Cpm68k.Tools.Elf2Cpm68k

open Cpm68k.Library

/-! ### Constants -/

/-- How many relocations there can be. -/
def MAX_RELOCS : ℕ := 5000
/-- The size of the buffer of `copy_bytes`. -/
def COPY_BUF : ℕ := 1024

/-- A section of relocations with addends. -/
def SHT_RELA : ℕ := 4
/-- A section of relocations without addends. -/
def SHT_REL : ℕ := 9
/-- The binding of a weak symbol. -/
def STB_WEAK : ℕ := 2
/-- The flags of a segment that are looked at. -/
def PF_MASK : ℕ := PF_X ||| PF_W ||| PF_R

/-- Where the type is in a word of `rel_data`. -/
def REL_TYPE_SHIFT : ℕ := 28
/-- The target is in the data. -/
def REL_TYPE_DATA : ℕ := 1 <<< REL_TYPE_SHIFT
/-- The target is in the text. -/
def REL_TYPE_TEXT : ℕ := 2 <<< REL_TYPE_SHIFT
/-- The target is in the BSS. -/
def REL_TYPE_BSS : ℕ := 3 <<< REL_TYPE_SHIFT
/-- The bits of the type. -/
def REL_TYPE_MASK : ℕ := 3 <<< REL_TYPE_SHIFT

/-- The type of a contiguous load file. -/
def FH_CONTIG : ℕ := 0x601a
/-- There are no relocations. -/
def FH_NO_RELOC : ℕ := 0xffff
/-- There are relocations. -/
def FH_WITH_RELOC : ℕ := 0x0000

/-! ### Numbers and memory -/

/-- A sum of `uint32_t`. -/
def add32 (a b : ℕ) : ℕ := (a + b) % 2 ^ 32

/-- A difference of `uint32_t`. -/
def sub32 (a b : ℕ) : ℕ := (a + 2 ^ 32 - b) % 2 ^ 32

/-- The bytes from an address on. -/
abbrev Memory := ℕ → UInt8

/-- `READ16`. -/
def READ16 (m : Memory) (o : ℕ) : ℕ := (m o).toNat * 2 ^ 8 + (m (o + 1)).toNat

/-- `READ32`. -/
def READ32 (m : Memory) (o : ℕ) : ℕ :=
  (m o).toNat * 2 ^ 24 + (m (o + 1)).toNat * 2 ^ 16 + (m (o + 2)).toNat * 2 ^ 8 + (m (o + 3)).toNat

/-- The blocks that are allocated for parts of the file. -/
inductive Block
  | header | segments | sections
  | sectionData (index : ℕ)

/-- What the program finds when it runs. -/
structure Input where
  /-- The bytes of the ELF file. -/
  file : List UInt8
  /-- What is behind the blocks. -/
  behind : Block → Memory

/-- `read_at`: the bytes of the file at an offset. -/
def read_at (inp : Input) (what : String) (offset count : ℕ) : Except String (List UInt8) :=
  let buffer := slice inp.file offset (offset + count)
  if buffer.length ≠ count then .error ("reading " ++ what) else .ok buffer

/-- A block that holds some bytes, and what is behind it. -/
def Input.block (inp : Input) (b : Block) (bytes : List UInt8) : Memory :=
  fun i => if i < bytes.length then bytes.getD i 0 else inp.behind b i

/-! ### The ELF file -/

/-- `elf32_file_header_t`. -/
structure FileHeader where
  /-- The identification: the magic number, the class, the byte order and the version. -/
  e_ident : List UInt8
  /-- The object file type. -/
  e_type : ℕ
  /-- The machine. -/
  e_machine : ℕ
  /-- The version. -/
  e_version : ℕ
  /-- Where the segment headers are. -/
  e_phoff : ℕ
  /-- Where the section headers are. -/
  e_shoff : ℕ
  /-- The size of this header. -/
  e_ehsize : ℕ
  /-- The size of a segment header. -/
  e_phentsize : ℕ
  /-- The number of segments. -/
  e_phnum : ℕ
  /-- The size of a section header. -/
  e_shentsize : ℕ
  /-- The number of sections. -/
  e_shnum : ℕ

/-- `elf32_program_header_t`. -/
structure ProgramHeader where
  /-- The segment type. -/
  p_type : ℕ
  /-- Where the segment is in the file. -/
  p_offset : ℕ
  /-- The address in memory. -/
  p_vaddr : ℕ
  /-- The size in the file. -/
  p_filesz : ℕ
  /-- The size in memory. -/
  p_memsz : ℕ
  /-- The segment flags. -/
  p_flags : ℕ

/-- `elf32_section_header_t`. -/
structure SectionHeader where
  /-- The section type. -/
  sh_type : ℕ
  /-- The section flags. -/
  sh_flags : ℕ
  /-- Where the section is in the file. -/
  sh_offset : ℕ
  /-- The size. -/
  sh_size : ℕ
  /-- The index of the symbol table. -/
  sh_link : ℕ
  /-- The index of the section that is relocated. -/
  sh_info : ℕ
  /-- The size of an entry. -/
  sh_entsize : ℕ

/-- A relocation, with its symbol. -/
structure Rela where
  /-- The address of the field. -/
  r_offset : ℕ
  /-- `REL_TYPE(rel_info)`. -/
  rel_type : ℕ
  /-- `st_value` of the symbol. -/
  st_value : ℕ
  /-- `st_bind` of the symbol. -/
  st_bind : ℕ
  /-- `st_shndx` of the symbol. -/
  st_shndx : ℕ

/-- The file header in memory. -/
def fileHeader (m : Memory) : FileHeader where
  e_ident := (List.range 16).map m
  e_type := READ16 m 16
  e_machine := READ16 m 18
  e_version := READ32 m 20
  e_phoff := READ32 m 28
  e_shoff := READ32 m 32
  e_ehsize := READ16 m 40
  e_phentsize := READ16 m 42
  e_phnum := READ16 m 44
  e_shentsize := READ16 m 46
  e_shnum := READ16 m 48

/-- `segments + index`. -/
def programHeader (segments : Memory) (index : ℕ) : ProgramHeader where
  p_type := READ32 segments (32 * index)
  p_offset := READ32 segments (32 * index + 4)
  p_vaddr := READ32 segments (32 * index + 8)
  p_filesz := READ32 segments (32 * index + 16)
  p_memsz := READ32 segments (32 * index + 20)
  p_flags := READ32 segments (32 * index + 24)

/-- `sections + index`. -/
def sectionHeader (sections : Memory) (index : ℕ) : SectionHeader where
  sh_type := READ32 sections (40 * index + 4)
  sh_flags := READ32 sections (40 * index + 8)
  sh_offset := READ32 sections (40 * index + 16)
  sh_size := READ32 sections (40 * index + 20)
  sh_link := READ32 sections (40 * index + 24)
  sh_info := READ32 sections (40 * index + 28)
  sh_entsize := READ32 sections (40 * index + 36)

/-- `rels + index`, with the symbol that it refers to. -/
def rela (rels symtab : Memory) (index : ℕ) : Rela :=
  let rel_info := READ32 rels (12 * index + 4)
  let sym := 16 * (rel_info >>> 8)
  { r_offset := READ32 rels (12 * index)
    rel_type := rel_info &&& 0xff
    st_value := READ32 symtab (sym + 4)
    st_bind := (symtab (sym + 12)).toNat >>> 4
    st_shndx := READ16 symtab (sym + 14) }

/-- The headers, when they have been read. -/
structure Headers where
  /-- The file header. -/
  header : FileHeader
  /-- The segment headers. -/
  segments : Memory
  /-- The section headers. -/
  sections : Memory

/-- What is derived from the segments. -/
structure Layout where
  /-- Where the text is in the file. -/
  text_offset : ℕ
  /-- The size of the text. -/
  text_filesize : ℕ
  /-- Where the data are in the file. -/
  data_offset : ℕ
  /-- The address of the data. -/
  data_vmaddr : ℕ
  /-- The size of the data. -/
  data_filesize : ℕ
  /-- The size of the BSS. -/
  bss_memsize : ℕ

/-- `elf_file_t`. -/
structure ElfFile extends Layout where
  /-- The relocations: addresses, each with the type of its target. -/
  rel_data : List ℕ

/-! ### Relocations -/

/-- `elf_section_header`. -/
def elf_section_header (hs : Headers) (index : ℕ) : Except String SectionHeader :=
  if index ≥ hs.header.e_shnum then .error s!"reference to invalid section {index}"
  else .ok (sectionHeader hs.sections index)

/-- What is in memory for a section. An index that is too large leads to a pointer that is not
one of the program's. -/
def sectionMemory (inp : Input) (hs : Headers) (index : ℕ) : Memory :=
  if index < hs.header.e_shnum then
    let sp := sectionHeader hs.sections index
    inp.block (.sectionData index) (slice inp.file sp.sh_offset (sp.sh_offset + sp.sh_size))
  else inp.behind (.sectionData index)

/-- `elf_section_data`. -/
def elf_section_data (inp : Input) (hs : Headers) (index : ℕ) : Except String Memory :=
  if index < hs.header.e_shnum then do
    let sp := sectionHeader hs.sections index
    let bytes ← read_at inp "section data" sp.sh_offset sp.sh_size
    return inp.block (.sectionData index) bytes
  else return inp.behind (.sectionData index)

/-- What the relocated pointer refers to. -/
def relTargetType (l : Layout) (rel_offset rel_target : ℕ) : Except String ℕ :=
  if rel_target < l.text_filesize then .ok REL_TYPE_TEXT
  else if rel_target ≥ l.data_vmaddr ∧ rel_target ≤ add32 l.data_vmaddr l.data_filesize then .ok REL_TYPE_DATA
  else if rel_target ≤ add32 (add32 l.data_vmaddr l.data_filesize) l.bss_memsize then .ok REL_TYPE_BSS
  else .error ("relocation at 0x" ++ hexString 0 rel_offset ++ " not pointing to text/data/bss (0x" ++
    hexString 0 rel_target ++ ")")

/-- One relocation: `rel_data` after it. -/
def loadReloc (l : Layout) (rel_data : List ℕ) (rel : Rela) : Except String (List ℕ) :=
  -- ignore undef weak references, they should not be fixed up
  if rel.st_value = 0 ∧ rel.st_bind = STB_WEAK then .ok rel_data
  else if rel.rel_type = R_68K_32 then
    if rel_data.length + 1 ≥ MAX_RELOCS then .error "too many relocations (increase MAX_RELOCS and recompile)"
    else do
      let rel_target_type ← relTargetType l rel.r_offset rel.st_value
      if rel.r_offset &&& REL_TYPE_MASK ≠ 0 then
        .error ("program too large to encode relocation " ++ hexString 0 rel.r_offset)
      else .ok (rel_data ++ [rel.r_offset ||| rel_target_type])
  else if rel.rel_type = R_68K_PC32 ∨ rel.rel_type = R_68K_NONE then .ok rel_data
  else .error s!"unsupported relocation type {rel.rel_type}"

/-- One section: `rel_data` after its relocations. -/
def loadSection (inp : Input) (hs : Headers) (l : Layout) (rel_data : List ℕ) (section_index : ℕ) :
    Except String (List ℕ) := do
  let sh ← elf_section_header hs section_index
  if sh.sh_type = SHT_REL then .error "not expecting SHT_REL"
  else if sh.sh_type ≠ SHT_RELA then return rel_data
  else do
    let relocated ← elf_section_header hs sh.sh_info
    if relocated.sh_flags &&& SHF_ALLOC = 0 then return rel_data
    else do
      let rels ← elf_section_data inp hs section_index
      let symtab ← elf_section_data inp hs sh.sh_link
      if sh.sh_entsize = 0 then .error "relocation section entry size is zero"
      else (List.range (sh.sh_size / sh.sh_entsize)).foldlM (fun rel_data i => loadReloc l rel_data (rela rels symtab i)) rel_data

/-- The address in a word of `rel_data`. -/
def relAddr (rel : ℕ) : ℕ := rel &&& (0xffffffff ^^^ REL_TYPE_MASK)

/-- The type in a word of `rel_data`. -/
def relType (rel : ℕ) : ℕ := (rel &&& REL_TYPE_MASK) >>> REL_TYPE_SHIFT

/-- The addresses do not go down. -/
def checkSorted : List ℕ → Except String Unit
  | prev :: this :: rel_data =>
    if relAddr this < relAddr prev then
      .error ("relocations not sorted (0x" ++ hexString 0 (relAddr this) ++ " < 0x" ++ hexString 0 (relAddr prev) ++ ")")
    else checkSorted (this :: rel_data)
  | _ => .ok ()

/-- `load_elf_relocs`. -/
def load_elf_relocs (inp : Input) (hs : Headers) (l : Layout) : Except String (List ℕ) := do
  let rel_data ← (List.range hs.header.e_shnum).foldlM (loadSection inp hs l) []
  checkSorted rel_data
  return rel_data

/-! ### `load_elf` -/

/-- The header is not that of an executable this program can read. -/
def badHeader (h : FileHeader) : Bool :=
  h.e_ident.take 7 ≠ [0x7f, 0x45, 0x4c, 0x46, 1, 2, 1] || h.e_type ≠ ET_EXEC || h.e_machine ≠ EM_68K || h.e_version ≠ 1 ||
    h.e_ehsize ≠ 52 || h.e_phentsize ≠ 32 || h.e_shentsize ≠ 40 || h.e_shnum < 2

/-- The headers are read. -/
def loadHeaders (inp : Input) : Except String Headers := do
  let bytes ← read_at inp "ELF header" 0 52
  let header := fileHeader (inp.block .header bytes)
  if badHeader header then .error "bad ELF header"
  else do
    let segments ← read_at inp "segment headers" header.e_phoff (header.e_phentsize * header.e_phnum)
    let sections ← read_at inp "section headers" header.e_shoff (header.e_shentsize * header.e_shnum)
    return { header, segments := inp.block .segments segments, sections := inp.block .sections sections }

/-- The segments are parsed: segment 0 is to be the text, and segment 1 the data. -/
def loadSegments (text_segment data_segment : ProgramHeader) : Except String Layout :=
  if text_segment.p_type ≠ PT_LOAD ∨ text_segment.p_flags &&& PF_MASK ≠ PF_X ||| PF_R ∨ text_segment.p_vaddr ≠ 0 ∨
      text_segment.p_memsz ≠ text_segment.p_filesz then
    .error "bad text segment (type, flags, p/v size or address)"
  else if data_segment.p_type ≠ PT_LOAD ∨ data_segment.p_flags &&& PF_MASK ≠ PF_W ||| PF_R ∨
      data_segment.p_vaddr < text_segment.p_filesz then
    .error "bad data segment (type, flags, p/v size or address)"
  else
    .ok
      { text_offset := text_segment.p_offset
        text_filesize := text_segment.p_filesz
        data_offset := data_segment.p_offset
        data_vmaddr := data_segment.p_vaddr
        data_filesize := data_segment.p_filesz
        bss_memsize := sub32 data_segment.p_memsz data_segment.p_filesz }

/-- `load_elf`. -/
def load_elf (inp : Input) : Except String ElfFile := do
  let hs ← loadHeaders inp
  let l ← loadSegments (programHeader hs.segments 0) (programHeader hs.segments 1)
  let rel_data ← load_elf_relocs inp hs l
  return { l with rel_data }

/-! ### `write_cpm` -/

/-- `write_out`. -/
def write_out (room : ℕ → ℕ) (what : String) (buffer : List UInt8) : Writer String UInt8 Unit :=
  fwriteChecked room buffer ("writing " ++ what)

/-- The loop of `copy_bytes`. -/
def copyLoop (inp : Input) (room : ℕ → ℕ) (what : String) : ℕ → ℕ → ℕ → Writer String UInt8 Unit
  | 0, _, _ => pure ()
  | fuel + 1, source_offset, count =>
    if count > 0 then do
      let resid := if count < COPY_BUF then count else COPY_BUF
      let copy_buffer ← (read_at inp what source_offset resid : Except String (List UInt8))
      write_out room what copy_buffer
      copyLoop inp room what fuel (source_offset + resid) (count - resid)
    else pure ()

/-- `copy_bytes`. Every turn copies something. -/
def copy_bytes (inp : Input) (room : ℕ → ℕ) (what : String) (source_offset count : ℕ) : Writer String UInt8 Unit :=
  copyLoop inp room what count source_offset count

/-- `zerofill`. The answer of `fwrite` is unsigned. -/
def zerofill (room : ℕ → ℕ) (what : String) : ℕ → Writer String UInt8 Unit
  | 0 => pure ()
  | count + 1 => do
    let stored ← fwrite room [0]
    if stored < 0 then throw ("writing " ++ what)
    else zerofill room what count

/-- The loop of `write_cpm_relocs`, from the address `current_vma` on: where it ends. -/
def relocLoop (room : ℕ → ℕ) : List ℕ → ℕ → Writer String UInt8 ℕ
  | [], current_vma => pure current_vma
  | rel :: rel_data, current_vma => do
    let next_rel_addr := relAddr rel
    zerofill room "relocation padding" (sub32 next_rel_addr current_vma)
    write_out room "relocation" (bigEndian 2 5)
    write_out room "relocation" (bigEndian 2 (relType rel))
    relocLoop room rel_data (add32 next_rel_addr 4)

/-- `write_cpm_relocs`. -/
def write_cpm_relocs (room : ℕ → ℕ) (ef : ElfFile) : Writer String UInt8 Unit := do
  let current_vma ← relocLoop room ef.rel_data 0
  -- pad to the end of the file
  zerofill room "relocation padding" (sub32 (add32 ef.data_vmaddr ef.data_filesize) current_vma)

/-- `text_pad`: text must be contiguous with data. -/
def textPad (ef : ElfFile) : ℕ := sub32 ef.data_vmaddr ef.text_filesize

/-- The header of the load file. -/
def cpmHeader (ef : ElfFile) : List UInt8 :=
  bigEndian 2 FH_CONTIG ++ bigEndian 4 (add32 ef.text_filesize (textPad ef)) ++ bigEndian 4 ef.data_filesize ++
    bigEndian 4 ef.bss_memsize ++ bigEndian 4 0 ++ bigEndian 4 0 ++ bigEndian 4 0 ++
    bigEndian 2 (if ef.rel_data.length ≠ 0 then FH_WITH_RELOC else FH_NO_RELOC)

/-- The padding of the text. -/
def writePadding (room : ℕ → ℕ) (ef : ElfFile) : Writer String UInt8 Unit :=
  if textPad ef > 0 then zerofill room "text padding" (textPad ef) else pure ()

/-- `write_cpm`. -/
def write_cpm (inp : Input) (room : ℕ → ℕ) (ef : ElfFile) : Writer String UInt8 Unit := do
  write_out room "CP/M-68k exec header" (cpmHeader ef)
  copy_bytes inp room "text segment" ef.text_offset ef.text_filesize
  writePadding room ef
  copy_bytes inp room "data segment" ef.data_offset ef.data_filesize
  write_cpm_relocs room ef

end Cpm68k.Tools.Elf2Cpm68k
