import Cpm68k.Library.Dict
import Cpm68k.Library.Struct

/-!
# The CP/M-68K executable format

`tools/cpm.py`: reading (`CPMFile.load`) and writing (`CPMFile.save`) of a CP/M-68K load
file. A load file is a header, the text and data sections, a symbol table, and, when
its header says so, a table of relocation words, one for each word of text and data.

## The model

A file is the list of its bytes. A function of the tool returns `Except PyError`: the
value it returns, or the exception it raises. The relocation map is a Python
dictionary, so it is a `Dict`: the encoder goes through it in insertion order, and the
order decides what the table holds when entries overlap. Offsets are natural numbers;
`decodeRelocs` computes `offset - 2` only after it has passed a prefix word, so the
difference is never negative (`Decoded` in `RelocTable` shows it).

The symbol type flags and the `SYM_TYPE` constants of the source are used by no
function of it and are left out, and so is the listing its `__main__` prints.
-/

namespace Cpm68k.Tools

open Cpm68k.Library

/-- The exceptions the Python tools raise. -/
inductive PyError where
  /-- `raise RuntimeError(msg)`. -/
  | runtimeError (msg : String)
  /-- `struct.error`. -/
  | structError
  /-- `TypeError`. -/
  | typeError
  /-- `AttributeError`. -/
  | attributeError
  /-- An exception of the ELF library. -/
  | elfError
  deriving DecidableEq, Repr

/-- `'{:x}'.format(n)`, padded with zeros to the given width. -/
def hexString (width n : ℕ) : String :=
  let digits := Nat.toDigits 16 n
  String.ofList (List.replicate (width - digits.length) '0' ++ digits)

/-- `bs[lo:hi]`. -/
def slice (bs : List UInt8) (lo hi : ℕ) : List UInt8 := (bs.take hi).drop lo

/-- `struct.unpack`. -/
def structUnpack (fmt : List ℕ) (bs : List UInt8) : Except PyError (List ℕ) :=
  match unpack fmt bs with
  | some fields => .ok fields
  | none => .error .structError

/-- `struct.pack`. -/
def structPack (fmt fields : List ℕ) : Except PyError (List UInt8) :=
  match pack fmt fields with
  | some bs => .ok bs
  | none => .error .structError

/-- `struct.pack_into('>H', buffer, offset, value)`. -/
def packInto (buffer : List UInt8) (offset value : ℕ) : Except PyError (List UInt8) :=
  if value < 65536 ∧ offset + 2 ≤ buffer.length then .ok (splice buffer offset (bigEndian 2 value))
  else .error .structError

/-! ### Constants -/

/-- Object file type: contiguous sections. -/
def TYPE_CONTIG : ℕ := 0x601a
/-- Object file type: sections at addresses of their own. -/
def TYPE_NONCONTIG : ℕ := 0x601b

/-- Header relocation-present flag: no relocation words. -/
def NO_RELOCS : ℕ := 0xffff
/-- Header relocation-present flag: relocation words follow. -/
def WITH_RELOCS : ℕ := 0x0000

/-- Relocation type: nothing to do. -/
def RELOC_TYPE_ABSOLUTE : ℕ := 0x0000
/-- Relocation type: relative to the data section. -/
def RELOC_TYPE_DATA : ℕ := 0x0001
/-- Relocation type: relative to the text section. -/
def RELOC_TYPE_TEXT : ℕ := 0x0002
/-- Relocation type: relative to the BSS. -/
def RELOC_TYPE_BSS : ℕ := 0x0003
/-- Relocation type: the upper word of a 32-bit field; a prefix of the next word. -/
def RELOC_TYPE_UPPER : ℕ := 0x0005
/-- Relocation type: the first word of an instruction. -/
def RELOC_TYPE_INSTRUCTION : ℕ := 0x0007
/-- The type bits of a relocation word. -/
def RELOC_TYPE_MASK : ℕ := 0x0007

/-- Internal relocation code: a 16-bit field. -/
def RELOC_SIZE_16 : ℕ := 0x10000
/-- Internal relocation code: a 32-bit field. -/
def RELOC_SIZE_32 : ℕ := 0x20000
/-- The size bits of an internal relocation code. -/
def RELOC_SIZE_MASK : ℕ := 0x30000

/-- `'>HLLLLLLH'`: the header of a contiguous file. -/
def contigFormat : List ℕ := [2, 4, 4, 4, 4, 4, 4, 2]

/-- `'>HLLLLLLHLL'`: the header of a non-contiguous file. -/
def noncontigFormat : List ℕ := [2, 4, 4, 4, 4, 4, 4, 2, 4, 4]

/-! ### The tool -/

/-- A CPM executable ("load file" or "command file"). -/
structure CPMFile where
  /-- The text section. -/
  text : List UInt8
  /-- Where the text section is loaded. -/
  textAddress : ℕ
  /-- The data section. -/
  data : List UInt8
  /-- The length of the BSS. -/
  bssSize : ℕ
  /-- The relocations: offset into text and data, to size and type. -/
  relocs : Dict ℕ ℕ

namespace CPMFile

/-- The loop of `decodeRelocs` over the relocation words. -/
def decodeLoop : List ℕ → ℕ → Bool → Dict ℕ ℕ → Except PyError (Dict ℕ ℕ)
  | [], _, _, relocs => .ok relocs
  | reloc :: relocEntries, offset, size32, relocs =>
    let relocType := reloc &&& RELOC_TYPE_MASK
    if relocType = RELOC_TYPE_ABSOLUTE ∨ relocType = RELOC_TYPE_INSTRUCTION then
      decodeLoop relocEntries (offset + 2) false relocs
    else if relocType = RELOC_TYPE_DATA ∨ relocType = RELOC_TYPE_TEXT ∨ relocType = RELOC_TYPE_BSS then
      let relocs :=
        if size32 then relocs.set (offset - 2) (relocType ||| RELOC_SIZE_32)
        else relocs.set offset (relocType ||| RELOC_SIZE_16)
      decodeLoop relocEntries (offset + 2) false relocs
    else if relocType = RELOC_TYPE_UPPER then
      decodeLoop relocEntries (offset + 2) true relocs
    else
      .error (.runtimeError ("unexpected reloc 0x" ++ hexString 4 relocType))

/-- Decode in-file relocations and produce a collection of only the interesting ones. -/
def decodeRelocs (relocBytes : List UInt8) : Except PyError (Dict ℕ ℕ) := do
  let relocEntries ← structUnpack (List.replicate (relocBytes.length / 2) 2) relocBytes
  decodeLoop relocEntries 0 false Dict.empty

/-- `'reloc offset out of bounds: {}:{}'`. -/
def outOfBounds (offset reloc : ℕ) : PyError :=
  .runtimeError s!"reloc offset out of bounds: {offset}:{reloc}"

/-- The loop of `_encodeRelocs` over the entries of the map. -/
def encodeLoop (outputSize : ℕ) : List (ℕ × ℕ) → List UInt8 → Except PyError (List UInt8)
  | [], relocBytes => .ok relocBytes
  | (offset, reloc) :: relocs, relocBytes =>
    let relocSize := reloc &&& RELOC_SIZE_MASK
    let relocType := reloc &&& RELOC_TYPE_MASK
    if relocSize = RELOC_SIZE_32 then
      if (offset : ℤ) > outputSize - 4 then .error (outOfBounds offset reloc)
      else do
        let relocBytes ← packInto relocBytes offset RELOC_TYPE_UPPER
        let relocBytes ← packInto relocBytes (offset + 2) relocType
        encodeLoop outputSize relocs relocBytes
    else
      if (offset : ℤ) > outputSize - 2 then .error (outOfBounds offset reloc)
      else do
        let relocBytes ← packInto relocBytes offset relocType
        encodeLoop outputSize relocs relocBytes

/-- `_encodeRelocs`: encode relocations in a format suitable for writing to a file. -/
def encodeRelocs (relocs : Dict ℕ ℕ) (outputSize : ℕ) : Except PyError (List UInt8) :=
  encodeLoop outputSize relocs.entries (List.replicate outputSize 0)

/-- The header format that goes with the magic number. -/
def headerFormat (magic : ℕ) : Except PyError (List ℕ) :=
  if magic = TYPE_CONTIG then .ok contigFormat
  else if magic = TYPE_NONCONTIG then .ok noncontigFormat
  -- the message formats the tuple that `struct.unpack` returned as a number
  else .error .typeError

/-- The relocations `load` puts in the object: none when the header says so. -/
def loadRelocs (flag textAddress : ℕ) (relocBytes : List UInt8) : Except PyError (Dict ℕ ℕ) :=
  if flag = WITH_RELOCS then
    if textAddress > 0 then .error (.runtimeError "relocatable file but text address != 0")
    else decodeRelocs relocBytes
  else .ok Dict.empty

/-- Parse a CP/M 68K executable and load the interesting parts. -/
def load (fileBytes : List UInt8) : Except PyError CPMFile := do
  -- get the filetype
  let magic ← structUnpack [2] (slice fileBytes 0 2)
  let fmt ← headerFormat (magic.getD 0 0)
  -- decode the header to find things in the file
  let headerSize := calcsize fmt
  let fields ← structUnpack fmt (slice fileBytes 0 headerSize)
  let textSize := fields.getD 1 0
  let textStart := headerSize
  let textEnd := textStart + textSize
  let dataSize := fields.getD 2 0
  let dataStart := textEnd
  let dataEnd := dataStart + dataSize
  let symtabSize := fields.getD 4 0
  let symtabStart := dataEnd
  let symtabEnd := symtabStart + symtabSize
  let relocStart := symtabEnd
  let relocEnd := if fields.getD 7 0 = WITH_RELOCS then relocStart + textSize + dataSize else symtabEnd
  let fileSize := fileBytes.length
  -- check filesize
  if relocEnd > fileSize then
    .error (.runtimeError s!"header / file size mismatch; expect {relocEnd} but have {fileSize}")
  else do
    -- build out our internal representation of the file; ignore syms
    let textAddress := fields.getD 6 0
    let relocs ← loadRelocs (fields.getD 7 0) textAddress (slice fileBytes relocStart relocEnd)
    return { text := slice fileBytes textStart textEnd, textAddress,
             data := slice fileBytes dataStart dataEnd, bssSize := fields.getD 3 0, relocs }

/-- The relocation table `save` writes: nothing for a file without relocations. -/
def saveRelocs (file : CPMFile) : Except PyError (List UInt8) :=
  if file.relocs.size > 0 then encodeRelocs file.relocs (file.text.length + file.data.length)
  else .ok []

/-- Write the object to a file: the bytes written. -/
def save (file : CPMFile) : Except PyError (List UInt8) :=
  if file.relocs.size > 0 ∧ file.textAddress ≠ 0 then
    .error (.runtimeError "cannot write relocatable file with text address != 0")
  else do
    let header ← structPack contigFormat
      [TYPE_CONTIG, file.text.length, file.data.length, file.bssSize, 0, 0, file.textAddress,
        if file.relocs.size > 0 then WITH_RELOCS else NO_RELOCS]
    let relocBytes ← file.saveRelocs
    return header ++ file.text ++ file.data ++ relocBytes

end CPMFile

end Cpm68k.Tools
