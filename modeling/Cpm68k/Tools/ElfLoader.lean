import Cpm68k.Tools.CpmCodec

/-!
# Reading an ELF executable

`tools/elf.py`, `ELFLoader.load`, and `translateRelocs` of `tools/elf2cpm.py`.

## The model

The source reads ELF files through the pyelftools library, which is not part of the
repository. `ELFFile` is what the source asks of it: header fields, segments, and
sections with their relocations and symbols, each field a number as it is stored in the
file. Nothing else is assumed of the library: the numbers are arbitrary, a section that
the file does not have may be anything (`getSection`), and a segment may have fewer bytes
than its header says.

The order of the checks is the source's, and so are the texts of its errors, but for the
values some of them print. `R_68K_NONE` and the PC-relative types make no entry; the other
relocation types of the source are only names for numbers it rejects.
-/

namespace Cpm68k.Tools

open Cpm68k.Library

/-! ### What the ELF library gives -/

/-- `'ET_EXEC'`. -/
def ET_EXEC : ℕ := 2
/-- `'EM_68K'`. -/
def EM_68K : ℕ := 4
/-- `'PT_LOAD'`. -/
def PT_LOAD : ℕ := 1
/-- `'SHT_NOBITS'`. -/
def SHT_NOBITS : ℕ := 8
/-- `SH_FLAGS.SHF_ALLOC`. -/
def SHF_ALLOC : ℕ := 2
/-- `P_FLAGS.PF_X`. -/
def PF_X : ℕ := 1
/-- `P_FLAGS.PF_W`. -/
def PF_W : ℕ := 2
/-- `P_FLAGS.PF_R`. -/
def PF_R : ℕ := 4

/-- A program header, and the bytes `segment.data()` reads from the file. -/
structure Segment where
  /-- The segment type. -/
  p_type : ℕ
  /-- The segment flags. -/
  p_flags : ℕ
  /-- The address in memory. -/
  p_vaddr : ℕ
  /-- The size in the file. -/
  p_filesz : ℕ
  /-- The bytes of the segment. -/
  data : List UInt8

/-- A relocation. -/
structure Reloc where
  /-- The address of the field. -/
  r_offset : ℕ
  /-- The relocation type. -/
  r_info_type : ℕ
  /-- The index of the symbol. -/
  r_info_sym : ℕ
  /-- The addend. -/
  r_addend : ℤ
  /-- `reloc.is_RELA()`. -/
  is_RELA : Bool

/-- A section header, with the relocations of a relocation section and the symbol values
of a symbol table. -/
structure Section where
  /-- The section type. -/
  sh_type : ℕ
  /-- The section flags. -/
  sh_flags : ℕ
  /-- The address in memory. -/
  sh_addr : ℕ
  /-- The size. -/
  sh_size : ℕ
  /-- The index of the symbol table. -/
  sh_link : ℕ
  /-- The index of the section that is relocated. -/
  sh_info : ℕ
  /-- The relocations, when this is a `RelocationSection`. -/
  relocations : Option (List Reloc)
  /-- The `st_value` fields, when this is a symbol table. -/
  symbols : Option (List ℕ)

/-- An ELF file. -/
structure ELFFile where
  /-- The object file type. -/
  e_type : ℕ
  /-- The machine. -/
  e_machine : ℕ
  /-- The segments. -/
  segments : List Segment
  /-- The sections, as `iter_sections` goes through them. -/
  sections : List Section
  /-- `get_section`. -/
  getSection : ℕ → Except PyError Section

/-! ### The loader -/

/-- No relocation. -/
def R_68K_NONE : ℕ := 0x00
/-- A 32-bit absolute address. -/
def R_68K_32 : ℕ := 0x01
/-- A 16-bit absolute address. -/
def R_68K_16 : ℕ := 0x02
/-- A 32-bit PC-relative address. -/
def R_68K_PC32 : ℕ := 4
/-- A 16-bit PC-relative address. -/
def R_68K_PC16 : ℕ := 5
/-- An 8-bit PC-relative address. -/
def R_68K_PC8 : ℕ := 6

/-- The target is in the text. -/
def R_TEXT : ℕ := 0x000
/-- The target is in the data. -/
def R_DATA : ℕ := 0x100
/-- The target is in the BSS. -/
def R_BSS : ℕ := 0x200

/-- What the loader makes of an ELF file. -/
structure ELFLoader where
  /-- The text, up to the data. -/
  text : List UInt8
  /-- The data, up to the BSS. -/
  data : List UInt8
  /-- The length of the BSS. -/
  bssSize : ℕ
  /-- The relocations: address, to type and segment of the target. -/
  relocs : Dict ℕ ℕ

namespace ELFLoader

/-- `P_FLAGS_MASK`. -/
def P_FLAGS_MASK : ℕ := PF_X ||| PF_R ||| PF_W
/-- `P_FLAGS_RX`. -/
def P_FLAGS_RX : ℕ := PF_X ||| PF_R
/-- `P_FLAGS_RW`. -/
def P_FLAGS_RW : ℕ := PF_R ||| PF_W

/-- `bytes.ljust(width, b'\0')`. -/
def ljust (bs : List UInt8) (width : ℕ) : List UInt8 := bs ++ List.replicate (width - bs.length) 0

/-- Look for BSS sections: the lowest address and the highest limit. -/
def findBss : List Section → Option ℕ → Option ℕ → Option ℕ × Option ℕ
  | [], bssAddress, bssLimit => (bssAddress, bssLimit)
  | s :: sections, bssAddress, bssLimit =>
    if s.sh_type = SHT_NOBITS ∧ s.sh_flags &&& SHF_ALLOC ≠ 0 then
      let secStart := s.sh_addr
      let secLimit := s.sh_addr + s.sh_size
      let bssAddress := match bssAddress with
        | none => secStart
        | some address => if secStart < address then secStart else address
      let bssLimit := match bssLimit with
        | none => secLimit
        | some limit => if secLimit > limit then secLimit else limit
      findBss sections (some bssAddress) (some bssLimit)
    else findBss sections bssAddress bssLimit

/-- The segment the relocation target is in, after the check of the addend. -/
def targetSegment (text data : List UInt8) (bssSize relTarget : ℕ) (relAddend : ℤ) : Except PyError ℕ :=
  if relTarget < text.length then
    if relAddend > text.length then .error (.runtimeError "addend outside of text section") else .ok R_TEXT
  else if relTarget < text.length + data.length then
    if relAddend > data.length then .error (.runtimeError "addend outside of data section") else .ok R_DATA
  else if relTarget ≤ text.length + data.length + bssSize then
    -- note, <= to allow a pointer to _end, which is immediately *after* the BSS
    if relAddend > bssSize then .error (.runtimeError "addend outside of bss section") else .ok R_BSS
  else .error (.runtimeError "relocation target not in known space")

/-- The unrelocated field at an address of text and data. -/
def unRelocated (text data : List UInt8) (relAddress : ℕ) : Except PyError ℕ := do
  let field ←
    structUnpack [4] (if relAddress < text.length then slice text relAddress (relAddress + 4)
      else slice data (relAddress - text.length) (relAddress - text.length + 4))
  return field.getD 0 0

/-- One relocation: the relocation map after it. -/
def loadReloc (text data : List UInt8) (bssSize : ℕ) (symtab : Section) (relocs : Dict ℕ ℕ) (reloc : Reloc) :
    Except PyError (Dict ℕ ℕ) :=
  let relAddress := reloc.r_offset
  if relAddress ≥ text.length + data.length then .error (.runtimeError "relocation outside known space")
  else if reloc.is_RELA = false then .error (.runtimeError "unexpected REL reloc")
  else
    match symtab.symbols with
    | none => .error .attributeError
    | some symbols =>
      match symbols[reloc.r_info_sym]? with
      | none => .error (.runtimeError "symbol reference in relocation out of bounds")
      | some relTarget =>
        let relType := reloc.r_info_type
        if relType = R_68K_32 then do
          let segment ← targetSegment text data bssSize relTarget reloc.r_addend
          let field ← unRelocated text data relAddress
          if (field : ℤ) ≠ relTarget + reloc.r_addend then .error (.runtimeError "unrelocated field != target + addend")
          else .ok (relocs.set relAddress (relType ||| segment))
        else if relType = R_68K_NONE ∨ relType = R_68K_PC32 ∨ relType = R_68K_PC16 ∨ relType = R_68K_PC8 then
          .ok relocs
        else .error (.runtimeError "unexpected relocation type")

/-- One section: the relocation map after its relocations. -/
def loadSection (ef : ELFFile) (text data : List UInt8) (bssSize : ℕ) (relocs : Dict ℕ ℕ) (s : Section) :
    Except PyError (Dict ℕ ℕ) :=
  match s.relocations with
  | none => .ok relocs
  | some relocations => do
    let relocSection ← ef.getSection s.sh_info
    if relocSection.sh_flags &&& SHF_ALLOC = 0 then .ok relocs
    else do
      let symtab ← ef.getSection s.sh_link
      relocations.foldlM (loadReloc text data bssSize symtab) relocs

/-- The text, the data and the length of the BSS, after the checks of the segments. -/
def loadSegments (ef : ELFFile) (textSegment dataSegment : Segment) :
    Except PyError (List UInt8 × List UInt8 × ℕ) :=
  let textAddress := textSegment.p_vaddr
  let dataAddress := dataSegment.p_vaddr
  let (bssAddress, bssSize) := match findBss ef.sections none none with
    | (some address, some limit) => (address, limit - address)
    | _ => (dataAddress + dataSegment.p_filesz, 0)
  -- extend text to cover the gap created by data segment alignment
  let dataGap : ℤ := dataAddress - (textAddress + textSegment.p_filesz)
  if dataGap < 0 then .error (.runtimeError "data segment before text")
  else
    let textSize := textSegment.p_filesz + dataGap.toNat
    -- extend data to cover the gap created by BSS alignment
    let bssGap : ℤ := bssAddress - (dataAddress + dataSegment.p_filesz)
    if bssGap < 0 then .error (.runtimeError "BSS before data segment")
    else
      let dataSize := dataSegment.p_filesz + bssGap.toNat
      if textSegment.p_type ≠ PT_LOAD ∨ dataSegment.p_type ≠ PT_LOAD then
        .error (.runtimeError "expected two PT_LOAD segments")
      else if textSegment.p_flags &&& P_FLAGS_MASK ≠ P_FLAGS_RX then
        .error (.runtimeError "text segment is not RX")
      else if textAddress ≠ 0 then .error (.runtimeError "text segment is not at 0")
      else if dataSegment.p_flags &&& P_FLAGS_MASK ≠ P_FLAGS_RW then
        .error (.runtimeError "data segment is not RW")
      else if dataAddress ≠ textAddress + textSize then
        .error (.runtimeError "data segment does not follow text")
      else
        let text := ljust textSegment.data textSize
        let data := ljust dataSegment.data dataSize
        if text.length ≠ textSize then .error (.runtimeError "text size mismatch")
        else if data.length ≠ dataSize then .error (.runtimeError "data size mismatch")
        else .ok (text, data, bssSize)

/-- Read a simple ELF executable. -/
def load (ef : ELFFile) : Except PyError ELFLoader :=
  if ef.e_type ≠ ET_EXEC then .error (.runtimeError "not an ELF executable file")
  else if ef.e_machine ≠ EM_68K then .error (.runtimeError "not an M68K ELF file")
  else
    match ef.segments with
    | [textSegment, dataSegment] => do
      let (text, data, bssSize) ← loadSegments ef textSegment dataSegment
      let relocs ← ef.sections.foldlM (loadSection ef text data bssSize) Dict.empty
      return { text, data, bssSize, relocs }
    | _ => .error (.runtimeError "wrong number of segments in ELF file")

end ELFLoader

/-- `relocTypeMappings`. -/
def relocTypeMappings (elfReloc : ℕ) : Option ℕ :=
  if elfReloc = R_TEXT ||| R_68K_32 then some (RELOC_TYPE_TEXT ||| RELOC_SIZE_32)
  else if elfReloc = R_TEXT ||| R_68K_16 then some (RELOC_TYPE_TEXT ||| RELOC_SIZE_16)
  else if elfReloc = R_DATA ||| R_68K_32 then some (RELOC_TYPE_DATA ||| RELOC_SIZE_32)
  else if elfReloc = R_DATA ||| R_68K_16 then some (RELOC_TYPE_DATA ||| RELOC_SIZE_16)
  else if elfReloc = R_BSS ||| R_68K_32 then some (RELOC_TYPE_BSS ||| RELOC_SIZE_32)
  else if elfReloc = R_BSS ||| R_68K_16 then some (RELOC_TYPE_BSS ||| RELOC_SIZE_16)
  else none

/-- The loop of `translateRelocs`. -/
def translateLoop : List (ℕ × ℕ) → Dict ℕ ℕ → Except PyError (Dict ℕ ℕ)
  | [], cpmRelocs => .ok cpmRelocs
  | (address, elfReloc) :: elfRelocs, cpmRelocs =>
    match relocTypeMappings elfReloc with
    | none => .error (.runtimeError ("unhandled ELF relocation 0x" ++ hexString 0 elfReloc))
    | some cpmReloc => translateLoop elfRelocs (cpmRelocs.set address cpmReloc)

/-- Translate the relocations of an ELF file to those of a load file. -/
def translateRelocs (elfRelocs : Dict ℕ ℕ) : Except PyError (Dict ℕ ℕ) :=
  translateLoop elfRelocs.entries Dict.empty

end Cpm68k.Tools
