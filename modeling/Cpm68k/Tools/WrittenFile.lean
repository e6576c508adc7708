import Cpm68k.Tools.Converters
import Cpm68k.Tools.Relinked

/-!
# Loading what `elf2cpm68k.c` writes

`tools/cpm.py` reads load files of any origin. It takes all that `elf2cpm68k.c` writes, unless there
are relocations and text and data are not a whole number of words.

What is written is then loaded, at any address, as if the program were linked at that address, just
when what is stored in the ELF file comes to the same for both converters.

## What is proved

* `load_elf2cpm68k` — when `cpm.py` accepts the file, and what it finds in it.
* `loadAt_eq_linkAt_iff` — when loading the file is linking.
-/

namespace Cpm68k.Tools

open Cpm68k.Library CPMFile

/-! ### Tables of 32-bit fields -/

/-- The bytes of a table that has 32-bit fields only: each has a type that is known, and where there is
a segment, there is a prefix in front of it. -/
structure Wide (bs : List UInt8) : Prop where
  known : ∀ b ∈ bs, b.toNat &&& RELOC_TYPE_MASK = RELOC_TYPE_ABSOLUTE ∨ IsSegment (b.toNat &&& RELOC_TYPE_MASK) ∨
    b.toNat &&& RELOC_TYPE_MASK = RELOC_TYPE_UPPER
  prefixed : ∀ i, IsSegment ((bs.getD i 0).toNat &&& RELOC_TYPE_MASK) →
    2 ≤ i ∧ (bs.getD (i - 2) 0).toNat &&& RELOC_TYPE_MASK = RELOC_TYPE_UPPER

theorem not_isSegment_zero : ¬ IsSegment ((0 : UInt8).toNat &&& RELOC_TYPE_MASK) := by decide

theorem wide_zeros (count : ℕ) : Wide (List.replicate count 0) where
  known b hb := by
    rw [List.eq_of_mem_replicate hb]
    exact .inl rfl
  prefixed i hi := by
    have hzero : (List.replicate count (0 : UInt8)).getD i 0 = 0 := by
      rw [List.getD_eq_getElem?_getD, List.getElem?_replicate]
      split_ifs <;> rfl
    rw [hzero] at hi
    exact absurd hi not_isSegment_zero

theorem Wide.append {bs cs : List UInt8} (hb : Wide bs) (hc : Wide cs) : Wide (bs ++ cs) where
  known b hmem := (List.mem_append.mp hmem).elim (hb.known b) (hc.known b)
  prefixed i hi := by
    rcases Nat.lt_or_ge i bs.length with hlt | hge
    · rw [List.getD_append _ _ _ _ hlt] at hi
      rw [List.getD_append _ _ _ _ (by omega)]
      exact hb.prefixed i hi
    · rw [List.getD_append_right _ _ _ _ hge] at hi
      obtain ⟨hle, hup⟩ := hc.prefixed _ hi
      rw [List.getD_append_right _ _ _ _ (by omega), show i - 2 - bs.length = i - bs.length - 2 by omega]
      exact ⟨by omega, hup⟩

theorem Wide.take {bs : List UInt8} (h : Wide bs) (n : ℕ) : Wide (bs.take n) where
  known b hb := h.known b (List.mem_of_mem_take hb)
  prefixed i hi := by
    rw [getD_take] at hi
    split_ifs at hi with hlt
    · rw [getD_take, if_pos (by omega)]
      exact h.prefixed i hi
    · exact absurd hi not_isSegment_zero

/-- The two words of a field. -/
theorem wide_field {t : ℕ} (ht : IsSegment t) : Wide (bigEndian 2 5 ++ bigEndian 2 t) := by
  have hfield : ∀ u : UInt8, IsSegment (u.toNat &&& RELOC_TYPE_MASK) → Wide [0, 5, 0, u] := by
    refine fun u hu => ⟨fun b hb => ?_, fun i hi => ?_⟩
    · simp only [List.mem_cons, List.not_mem_nil, or_false] at hb
      rcases hb with rfl | rfl | rfl | rfl
      · exact .inl rfl
      · exact .inr (.inr rfl)
      · exact .inl rfl
      · exact .inr (.inl hu)
    · rcases Nat.lt_or_ge i 4 with hlt | hge
      · obtain rfl := eq_three_of_segment hlt hi
        have hupper : (5 : UInt8).toNat &&& RELOC_TYPE_MASK = RELOC_TYPE_UPPER := by decide
        exact ⟨by decide, hupper⟩
      · rw [List.getD_eq_default _ _ hge] at hi
        exact absurd hi not_isSegment_zero
  rcases ht with rfl | rfl | rfl
  · exact hfield 1 (by decide)
  · exact hfield 2 (by decide)
  · exact hfield 3 (by decide)

/-- **Such a table is decoded**, if it is a whole number of words, and all its fields have 32 bits. -/
theorem decodeRelocs_of_wide {bs : List UInt8} (h : Wide bs) (heven : bs.length % 2 = 0) :
    ∃ relocs, decodeRelocs bs = .ok relocs ∧ ∀ k v, relocs.get? k = some v → relocLength v = 4 := by
  obtain ⟨ws, hdef⟩ : ∃ ws, ws = fieldsOf (List.replicate (bs.length / 2) 2) bs := ⟨_, rfl⟩
  have hws : structUnpack (List.replicate (bs.length / 2) 2) bs = .ok ws := by
    rw [structUnpack_eq_ok, unpack_eq_some, calcsize_replicate]
    exact ⟨by omega, hdef.symm⟩
  have htype : ∀ i, typeAt ws i = wordType bs (2 * i) := fun i => hdef ▸ typeAt_fieldsOf heven i
  have hknown : ∀ i < ws.length, typeAt ws i = RELOC_TYPE_ABSOLUTE ∨ IsSegment (typeAt ws i) ∨ typeAt ws i = RELOC_TYPE_UPPER := by
    intro i hi
    rw [hdef, length_fieldsOf, List.length_replicate] at hi
    rw [htype, wordType, List.getD_eq_getElem _ _ (by omega)]
    exact h.known _ (List.getElem_mem _)
  obtain ⟨relocs, hloop⟩ := decodeLoop_isOk 0 false Dict.empty hknown
  refine ⟨relocs, bind_eq_ok.mpr ⟨ws, hws, hloop⟩, fun k v hk => ?_⟩
  rw [Decoded.start.loop hloop, List.nil_append] at hk
  split_ifs at hk
  obtain ⟨-, ⟨hseg, hnot, -⟩ | ⟨-, hseg, -, rfl⟩⟩ := wordReloc_eq_some hk
  · rw [htype] at hseg
    obtain ⟨hle, hup⟩ := h.prefixed _ hseg
    refine absurd ⟨by omega, ?_⟩ hnot
    rw [htype, wordType, show 2 * (k / 2 - 1) + 1 = 2 * (k / 2) + 1 - 2 by omega]
    exact hup
  · exact relocLength_or_32 hseg

/-! ### Load files with a longer table -/

/-- What `load` makes of a contiguous load file that is long enough. -/
theorem load_contig {bytes : List UInt8} {relocEnd : ℕ} (hlen : calcsize contigFormat ≤ bytes.length)
    (hcontig : headerField bytes 0 = TYPE_CONTIG)
    (hend : relocEnd = if headerField bytes 7 = WITH_RELOCS then
      fileDataEnd bytes + headerField bytes 4 + headerField bytes 1 + headerField bytes 2
      else fileDataEnd bytes + headerField bytes 4) (hfit : relocEnd ≤ bytes.length) :
    load bytes = (loadRelocs (headerField bytes 7) (headerField bytes 6)
      (slice bytes (fileDataEnd bytes + headerField bytes 4) relocEnd)).bind fun relocs => .ok
        { text := (programOf bytes).text, textAddress := headerField bytes 6
          data := slice bytes (calcsize contigFormat + headerField bytes 1) (fileDataEnd bytes)
          bssSize := headerField bytes 3, relocs } := by
  have hmagic : structUnpack [2] (slice bytes 0 2) = .ok [TYPE_CONTIG] := by
    have hfirst : ofBigEndian (bytes.take 2) = TYPE_CONTIG := hcontig
    have hsize : calcsize contigFormat = 28 := rfl
    rw [structUnpack_eq_ok, unpack_eq_some, slice_zero, List.length_take]
    refine ⟨?_, ?_⟩
    · show min 2 bytes.length = 2
      omega
    · simp only [fieldsOf, List.take_take, min_self, hfirst]
  have hfields : structUnpack contigFormat (slice bytes 0 (calcsize contigFormat)) = .ok (fieldsOf contigFormat bytes) := by
    rw [structUnpack_eq_ok, unpack_eq_some, slice_zero, fieldsOf_take, List.length_take]
    exact ⟨min_eq_left hlen, rfl⟩
  have hsize : ¬ relocEnd > bytes.length := not_lt.mpr hfit
  unfold fileDataEnd headerField at *
  simp only [load, hmagic, hfields, headerFormat, List.getD_cons_zero, if_true, bind, Except.bind, ← hend, if_neg hsize]
  rfl

/-- A load file from its parts, with a table that has at least the length that the header tells. -/
theorem load_parts_of_le {header text data rel : List UInt8} {b a f : ℕ}
    (hp : pack contigFormat [TYPE_CONTIG, text.length, data.length, b, 0, 0, a, f] = some header)
    (hrel : f = WITH_RELOCS → text.length + data.length ≤ rel.length) :
    load (header ++ text ++ data ++ rel) =
      (loadRelocs f a (if f = WITH_RELOCS then rel.take (text.length + data.length) else [])).bind
        fun relocs => .ok ⟨text, a, data, b, relocs⟩ := by
  have hlen : header.length = 28 := length_of_pack hp
  have hsize : calcsize contigFormat = 28 := rfl
  have hall : (header ++ text ++ data ++ rel).length = 28 + text.length + data.length + rel.length := by
    simp only [List.length_append, hlen]
  have hfield : ∀ i, headerField (header ++ text ++ data ++ rel) i =
      [TYPE_CONTIG, text.length, data.length, b, 0, 0, a, f].getD i 0 := by
    intro i
    rw [headerField, List.append_assoc, List.append_assoc, fieldsOf_pack hp]
  have hend : fileDataEnd (header ++ text ++ data ++ rel) = 28 + text.length + data.length := by
    rw [fileDataEnd, hfield, hfield]
    rfl
  have hdata : slice (header ++ text ++ data ++ rel) (28 + text.length) (28 + text.length + data.length) = data :=
    slice_append _ _ _ (by simp [hlen]) (by simp [hlen])
  have htable : ∀ n, slice (header ++ text ++ data ++ rel) (28 + text.length + data.length)
      (28 + text.length + data.length + n) = rel.take n := by
    intro n
    have hstart : (header ++ text ++ data).length = 28 + text.length + data.length := by simp [hlen, Nat.add_assoc]
    rw [slice, List.drop_take, List.drop_left' hstart, Nat.add_sub_cancel_left]
  rw [load_contig (by omega) (hfield 0) rfl]
  · simp only [programOf_parts hp, hfield, hend, hsize, List.getD_cons_zero, List.getD_cons_succ, hdata, Nat.add_zero]
    split_ifs
    · rw [Nat.add_assoc (28 + text.length + data.length), htable]
    · have hnone := htable 0
      rw [Nat.add_zero, List.take_zero] at hnone
      rw [hnone]
  · simp only [hfield, hend, List.getD_cons_zero, List.getD_cons_succ]
    split_ifs with hflag
    · have hle := hrel hflag
      omega
    · omega

end Cpm68k.Tools

namespace Cpm68k.Tools.Elf2Cpm68k

open Cpm68k.Library CPMFile

variable {inp : Input} {hs : Headers} {ef : ElfFile} {room : ℕ → ℕ} {log : List (Call UInt8)}

/-! ### The table that is sent -/

/-- How long the stream is, modulo `2 ^ 32`. -/
theorem length_sent_mod (rel_data : List ℕ) {current_vma : ℕ} (h : current_vma < 2 ^ 32) :
    (current_vma + (sent (relocRequests rel_data current_vma)).length) % 2 ^ 32 = relocEnd rel_data current_vma % 2 ^ 32 := by
  induction rel_data generalizing current_vma with
  | nil => rfl
  | cons rel rel_data ih =>
    have hlt := relAddr_le rel
    have hnext := @ih (add32 (relAddr rel) 4) (Nat.mod_lt _ (Nat.two_pow_pos 32))
    rw [sent_relocRequests_cons, relocEnd, ← hnext, add32_relAddr]
    simp only [List.length_append, List.length_replicate, length_bigEndian, sub32]
    omega

/-- The table is at least as long as text and data, when they end before 4 GB. -/
theorem dataEnd_le_table (hlt : ef.dataEnd < 2 ^ 32) : ef.dataEnd ≤ (sent (tableRequests ef)).length := by
  have hmod := length_sent_mod ef.rel_data (Nat.two_pow_pos 32)
  have hend : relocEnd ef.rel_data 0 < 2 ^ 32 := relocEnd_lt (Nat.two_pow_pos 32)
  have hsum : add32 ef.data_vmaddr ef.data_filesize = ef.dataEnd := Nat.mod_eq_of_lt hlt
  rw [sent_tableRequests, List.length_append, List.length_replicate, hsum, sub32]
  omega

theorem wide_relocRequests {rel_data : List ℕ} (htypes : ∀ rel ∈ rel_data, IsSegment (relType rel)) (current_vma : ℕ) :
    Wide (sent (relocRequests rel_data current_vma)) := by
  induction rel_data generalizing current_vma with
  | nil => exact wide_zeros 0
  | cons rel rel_data ih =>
    obtain ⟨htype, htypes⟩ := List.forall_mem_cons.mp htypes
    have hfield := (wide_field htype).append (ih htypes (add32 (relAddr rel) 4))
    rw [sent_relocRequests_cons]
    rw [List.append_assoc] at hfield
    simpa only [List.append_assoc] using (wide_zeros (sub32 (relAddr rel) current_vma)).append hfield

/-- **The table that is sent** has 32-bit fields only. -/
theorem wide_tableRequests (h : Loads inp hs ef) : Wide (sent (tableRequests ef)) := by
  rw [sent_tableRequests]
  exact (wide_relocRequests (isSegment_of_records h.records) 0).append (wide_zeros _)

/-! ### The load file -/

/-- The text as it is written: it is padded up to the data. -/
def writtenText (inp : Input) (hs : Headers) : List UInt8 :=
  ELFLoader.ljust (storedSegment inp hs 0).data (storedSegment inp hs 1).p_vaddr

/-- The data as they are written. -/
def writtenData (inp : Input) (hs : Headers) : List UInt8 := (storedSegment inp hs 1).data

/-- Where the data end, by the header of the data segment. -/
def storedDataEnd (hs : Headers) : ℕ := (programHeader hs.segments 1).p_vaddr + (programHeader hs.segments 1).p_filesz

/-- What `cpm.py` finds in the load file: text and data, and the fields of the table that is sent, which
all have 32 bits. -/
structure ReadBack (inp : Input) (hs : Headers) (file : CPMFile) : Prop where
  text : file.text = writtenText inp hs
  textAddress : file.textAddress = 0
  data : file.data = writtenData inp hs
  bssSize : file.bssSize = sub32 (programHeader hs.segments 1).p_memsz (programHeader hs.segments 1).p_filesz
  wide : ∀ a v, file.relocs.get? a = some v → relocLength v = 4
  relocs : ∀ a, (∃ v, file.relocs.get? a = some v) ↔ a % 2 = 0 ∧ StaysSent inp hs a

/-- The parts of the load file. -/
structure WrittenParts (inp : Input) (hs : Headers) (ef : ElfFile) (bytes : List UInt8) : Prop where
  loads : Loads inp hs ef
  dataEnd : (writtenText inp hs).length + (writtenData inp hs).length = storedDataEnd hs
  header : pack contigFormat [TYPE_CONTIG, (writtenText inp hs).length, (writtenData inp hs).length, ef.bss_memsize, 0, 0, 0,
    if ef.rel_data.length ≠ 0 then FH_WITH_RELOC else FH_NO_RELOC] = some (cpmHeader ef)
  bytes_eq : bytes = cpmHeader ef ++ writtenText inp hs ++ writtenData inp hs ++ sent (tableRequests ef)

section

variable (hhs : loadHeaders inp = .ok hs) (h : elf2cpm68k inp room [] = .ok ((), log))
  (hstored : ∀ call ∈ log, call.stored = call.given.length)

include hhs h hstored

theorem writtenParts_of_elf2cpm68k : ∃ ef, WrittenParts inp hs ef (written log) := by
  obtain ⟨ef, hload, hrun⟩ := load_of_elf2cpm68k h
  have hloads := loads_of_load hload hhs
  obtain ⟨⟨htext, hdata⟩, hwritten⟩ := written_of_write_cpm hrun hstored
  have htextBytes : slice inp.file ef.text_offset (ef.text_offset + ef.text_filesize) = (storedSegment inp hs 0).data := by
    rw [hloads.layout]
    rfl
  have hdataBytes : slice inp.file ef.data_offset (ef.data_offset + ef.data_filesize) = writtenData inp hs := by
    rw [hloads.layout]
    rfl
  have htextLen := length_slice_of_hasBytes htext
  have hdataLen := length_slice_of_hasBytes hdata
  rw [htextBytes] at htextLen
  rw [hdataBytes] at hdataLen
  have hle := hloads.sane.text_le
  have hvmaddr : (storedSegment inp hs 1).p_vaddr = ef.data_vmaddr := by
    rw [hloads.layout]
    rfl
  have hpadded : (storedSegment inp hs 0).data ++ List.replicate (textPad ef) 0 = writtenText inp hs := by
    rw [writtenText, ELFLoader.ljust, htextLen, hvmaddr, textPad, sub32_of_le hloads.sane.data_lt hle]
  have hvaddr : (writtenText inp hs).length = ef.data_vmaddr := by
    rw [writtenText, ELFLoader.ljust, List.length_append, List.length_replicate, htextLen, hvmaddr]
    omega
  refine ⟨ef, hloads, ?_, ?_, ?_⟩
  · rw [hvaddr, hdataLen]
    exact hloads.dataEnd
  · rw [hvaddr, hdataLen]
    exact pack_cpmHeader hloads.sane
  · rw [hwritten, sent_cpmRequests, htextBytes, hdataBytes, hpadded]

/-- **When `cpm.py` accepts what `elf2cpm68k.c` writes**: when there are no relocations, or text and data
are a whole number of words. It then finds in it what has been written. -/
theorem load_elf2cpm68k (hsize : storedDataEnd hs < 2 ^ 32) :
    if fieldAddrs inp hs = [] ∨ storedDataEnd hs % 2 = 0 then ∃ file, CPMFile.load (written log) = .ok file ∧ ReadBack inp hs file
    else CPMFile.load (written log) = .error .structError := by
  obtain ⟨ef, hparts⟩ := writtenParts_of_elf2cpm68k hhs h hstored
  have hend : ef.dataEnd = storedDataEnd hs := hparts.loads.dataEnd
  have htable : storedDataEnd hs ≤ (sent (tableRequests ef)).length := hend ▸ dataEnd_le_table (hend ▸ hsize)
  have hlen : ((sent (tableRequests ef)).take (storedDataEnd hs)).length = storedDataEnd hs := List.length_take_of_le htable
  have hwide := (wide_tableRequests hparts.loads).take (storedDataEnd hs)
  have hnone : fieldAddrs inp hs = [] ↔ ef.rel_data.length = 0 := by
    rw [← hparts.loads.relAddrs, List.map_eq_nil_iff, List.length_eq_zero_iff]
  have hload := load_parts_of_le hparts.header fun _ => hparts.dataEnd.trans_le htable
  rw [← hparts.bytes_eq, hparts.dataEnd] at hload
  have hfound : ∀ relocs, CPMFile.load (written log) = .ok ⟨writtenText inp hs, 0, writtenData inp hs, ef.bss_memsize, relocs⟩ →
      (∀ a v, relocs.get? a = some v → relocLength v = 4) →
      ∃ file, CPMFile.load (written log) = .ok file ∧ ReadBack inp hs file := by
    intro relocs hfile hfour
    refine ⟨_, hfile, rfl, rfl, rfl, by rw [hparts.loads.layout], hfour, fun a => ?_⟩
    have hcontig : headerField (written log) 0 = TYPE_CONTIG := by
      rw [hparts.bytes_eq, List.append_assoc, List.append_assoc, headerField, fieldsOf_pack hparts.header]
      rfl
    have hmarked := (programOf_of_load hfile hcontig).2.2 a
    rw [(programOf_elf2cpm68k hhs h hstored).1] at hmarked
    refine Iff.trans ?_ hmarked.symm
    exact exists_congr fun v => (and_iff_left_of_imp (hfour a v)).symm
  by_cases hrels : ef.rel_data.length = 0
  · rw [if_pos (.inl (hnone.mpr hrels))]
    rw [if_neg (not_not.mpr hrels), loadRelocs, if_neg (by decide)] at hload
    exact hfound _ hload fun a v hget => absurd hget (by rw [Dict.get?_empty]; exact Option.some_ne_none v ∘ Eq.symm)
  · have hflag : FH_WITH_RELOC = WITH_RELOCS := rfl
    rw [if_pos hrels, loadRelocs, if_pos hflag, if_neg (lt_irrefl 0), if_pos hflag] at hload
    by_cases heven : storedDataEnd hs % 2 = 0
    · rw [if_pos (.inr heven)]
      obtain ⟨relocs, hdecode, hfour⟩ := decodeRelocs_of_wide hwide (hlen.symm ▸ heven)
      rw [hdecode] at hload
      exact hfound relocs hload hfour
    · rw [if_neg fun hc => hc.elim (fun h => hrels (hnone.mp h)) heven]
      have hodd : structUnpack (List.replicate (((sent (tableRequests ef)).take (storedDataEnd hs)).length / 2) 2)
          ((sent (tableRequests ef)).take (storedDataEnd hs)) = .error .structError := by
        rw [structUnpack, unpack, calcsize_replicate, if_neg (by omega)]
      rw [hload, decodeRelocs, hodd]
      rfl

end

/-! ### Loading is linking -/

/-- The fields of a file that is loaded are the ones that are marked, when they all have 32 bits. -/
theorem mem_relocFields_iff_marked {bytes : List UInt8} {file : CPMFile} (h : CPMFile.load bytes = .ok file)
    (hcontig : headerField bytes 0 = TYPE_CONTIG) (hwide : ∀ a v, file.relocs.get? a = some v → relocLength v = 4)
    (f : ImageField) : f ∈ relocFields file.relocs ↔ f.width = 4 ∧ f.address ∈ (programOf bytes).marked := by
  rw [(programOf_of_load h hcontig).2.2]
  constructor
  · intro hf
    obtain ⟨e, he, rfl⟩ := List.mem_map.mp hf
    have hget := (file.relocs.mem_entries_iff e.1 e.2).mp he
    exact ⟨hwide _ _ hget, e.2, hget, hwide _ _ hget⟩
  · rintro ⟨hwidth, v, hget, hlen⟩
    refine List.mem_map.mpr ⟨(f.address, v), (file.relocs.mem_entries_iff _ _).mpr hget, ?_⟩
    rw [hlen, ← hwidth]

/-- **Load files with 32-bit fields load alike** at all addresses if and only if they have the same
memory, with the same fields marked. -/
theorem loadAt_eq_iff {bytes bytes' : List UInt8} {file file' : CPMFile} (h : CPMFile.load bytes = .ok file)
    (h' : CPMFile.load bytes' = .ok file') (hcontig : headerField bytes 0 = TYPE_CONTIG)
    (hcontig' : headerField bytes' 0 = TYPE_CONTIG) (hwide : ∀ a v, file.relocs.get? a = some v → relocLength v = 4)
    (hwide' : ∀ a v, file'.relocs.get? a = some v → relocLength v = 4) :
    (∀ base, loadAt base bytes = loadAt base bytes') ↔
      file.memory = file'.memory ∧ (programOf bytes).marked = (programOf bytes').marked := by
  have hload : ∀ base, loadAt base bytes = .ok (rebase base (relocFields file.relocs) file.memory) :=
    fun base => bind_eq_ok.mpr ⟨file, h, rfl⟩
  have hload' : ∀ base, loadAt base bytes' = .ok (rebase base (relocFields file'.relocs) file'.memory) :=
    fun base => bind_eq_ok.mpr ⟨file', h', rfl⟩
  have hmem := mem_relocFields_iff_marked h hcontig hwide
  have hmem' := mem_relocFields_iff_marked h' hcontig' hwide'
  obtain ⟨hin, hp⟩ := placed_of_load h
  obtain ⟨hin', hp'⟩ := placed_of_load h'
  constructor
  · intro hsame
    have hmoved : ∀ base, rebase base (relocFields file.relocs) file.memory = rebase base (relocFields file'.relocs) file'.memory := by
      intro base
      have heq := hsame base
      rw [hload, hload'] at heq
      exact Except.ok.inj heq
    have hmemory : file.memory = file'.memory := by
      have hzero := hmoved 0
      rwa [rebase_zero hin hp, rebase_zero hin' hp'] at hzero
    refine ⟨hmemory, Set.ext fun a => ?_⟩
    have hseen : (∃ f ∈ relocFields file.relocs, f.address = a) ↔ ∃ f ∈ relocFields file'.relocs, f.address = a := by
      rw [address_mem_iff_of_rebase (n := 3) hin hp fun f hf => ((hmem f).mp hf).1,
        address_mem_iff_of_rebase (n := 3) hin' hp' fun f hf => ((hmem' f).mp hf).1, hmoved, hmemory]
    have hmarked : a ∈ (programOf bytes).marked ↔ ∃ f ∈ relocFields file.relocs, f.address = a :=
      ⟨fun ha => ⟨⟨a, 4⟩, (hmem _).mpr ⟨rfl, ha⟩, rfl⟩, fun ⟨f, hf, ha⟩ => ha ▸ ((hmem f).mp hf).2⟩
    have hmarked' : a ∈ (programOf bytes').marked ↔ ∃ f ∈ relocFields file'.relocs, f.address = a :=
      ⟨fun ha => ⟨⟨a, 4⟩, (hmem' _).mpr ⟨rfl, ha⟩, rfl⟩, fun ⟨f, hf, ha⟩ => ha ▸ ((hmem' f).mp hf).2⟩
    rw [hmarked, hseen, hmarked']
  · rintro ⟨hmemory, hmarked⟩ base
    rw [hload, hload', ← hmemory, rebase_congr hin hp hp' fun f => by rw [hmem, hmem', hmarked]]

theorem programs_eq_iff {p q : Program} : p = q ↔ p.text = q.text ∧ p.memory = q.memory ∧ p.marked = q.marked := by
  cases p
  cases q
  exact Eq.to_iff (Program.mk.injEq ..)

theorem contig_of_save {file : CPMFile} {bytes : List UInt8} (h : file.save = .ok bytes) : headerField bytes 0 = TYPE_CONTIG := by
  obtain ⟨-, h⟩ := ite_error_eq_ok.mp h
  obtain ⟨header, hheader, h⟩ := bind_eq_ok.mp h
  obtain ⟨relocBytes, -, h⟩ := bind_eq_ok.mp h
  injection h with h
  rw [← h, List.append_assoc, List.append_assoc, headerField, fieldsOf_pack (structPack_eq_ok hheader)]
  rfl

/-- **When loading is linking**: the load file that `elf2cpm68k.c` writes is, loaded at any address, the
program linked at that address, if and only if what is stored comes to the same for both converters. -/
theorem loadAt_eq_linkAt_iff {elf : ELFFile} {image : ELFLoader} (hhs : loadHeaders inp = .ok hs)
    (hc : elf2cpm68k inp room [] = .ok ((), log)) (hstored : ∀ call ∈ log, call.stored = call.given.length)
    (helf : AsStored inp hs elf) (hload : ELFLoader.load elf = .ok image) (hsizes : SizesFit image)
    (halign : FieldsAligned image.relocs (image.text.length + image.data.length)) (hsize : storedDataEnd hs < 2 ^ 32)
    (heven : fieldAddrs inp hs = [] ∨ storedDataEnd hs % 2 = 0) :
    (∀ base, loadAt base (written log) = .ok (linkAt base elf)) ↔ StoredAlike inp hs := by
  have houtcome := elf2cpm_outcome elf
  rw [hload] at houtcome
  simp only [if_pos hsizes] at houtcome
  obtain ⟨bytes, hpy⟩ := houtcome
  have hread := load_elf2cpm68k hhs hc hstored hsize
  rw [if_pos heven] at hread
  obtain ⟨file, hfile, hback⟩ := hread
  obtain ⟨file', hfile', -, hfields, -, -⟩ := load_of_elf2cpm hload hpy halign
  obtain ⟨ef, hparts⟩ := writtenParts_of_elf2cpm68k hhs hc hstored
  have hcontig : headerField (written log) 0 = TYPE_CONTIG := by
    rw [hparts.bytes_eq, List.append_assoc, List.append_assoc, headerField, fieldsOf_pack hparts.header]
    rfl
  have hcontig' : headerField bytes 0 = TYPE_CONTIG := by
    obtain ⟨image, -, h⟩ := bind_eq_ok.mp hpy
    obtain ⟨cpmRelocs, -, hsave⟩ := bind_eq_ok.mp h
    exact contig_of_save hsave
  have hwide' : ∀ a v, file'.relocs.get? a = some v → relocLength v = 4 := fun a v hget =>
    ((hfields ⟨a, relocLength v⟩).mp (List.mem_map.mpr ⟨(a, v), (file'.relocs.mem_entries_iff a v).mpr hget, rfl⟩)).1
  obtain ⟨htext, hmemory, -⟩ := programOf_of_load hfile hcontig
  obtain ⟨htext', hmemory', -⟩ := programOf_of_load hfile' hcontig'
  have hsameText : (programOf (written log)).text = (programOf bytes).text := by
    obtain ⟨ef, hload, -⟩ := load_of_elf2cpm68k hc
    rw [(programOf_elf2cpm68k hhs hc hstored).1, (programOf_elf2cpm helf (sectionsFound_of_load hload hhs) hpy).1]
  rw [← converters_agree_iff hhs hc hstored helf hpy]
  calc (∀ base, loadAt base (written log) = .ok (linkAt base elf))
      ↔ ∀ base, loadAt base (written log) = loadAt base bytes :=
        forall_congr' fun base => by rw [loadAt_eq_linkAt hload hpy halign base]
    _ ↔ file.memory = file'.memory ∧ (programOf (written log)).marked = (programOf bytes).marked :=
        loadAt_eq_iff hfile hfile' hcontig hcontig' hback.wide hwide'
    _ ↔ programOf (written log) = programOf bytes := by
        rw [CPMFile.memory, CPMFile.memory, List.append_assoc, List.append_assoc, ← hmemory, ← hmemory', ← htext, ← htext',
          hsameText, List.append_cancel_left_eq, programs_eq_iff, and_iff_right hsameText]

/-- A file of a whole number of words is loaded, with one field, at an even address `a`. -/
def oneField (inp : Input) (a : ℕ) : Bool :=
  match loadHeaders inp with
  | .ok hs =>
    match ELFLoader.load (readElf inp hs) with
    | .ok image => decide (SizesFit image) && decide (a % 2 = 0 ∧ image.relocs.entries.map Prod.fst = [a]) &&
        decide ((image.text.length + image.data.length) % 2 = 0) && decide (storedDataEnd hs < 2 ^ 32 ∧ storedDataEnd hs % 2 = 0)
    | .error _ => false
  | .error _ => false

theorem exists_of_oneField {a : ℕ} (hhs : loadHeaders inp = .ok hs) (h : oneField inp a = true) :
    (∃ image, ELFLoader.load (readElf inp hs) = .ok image ∧ SizesFit image ∧
      FieldsAligned image.relocs (image.text.length + image.data.length)) ∧ storedDataEnd hs < 2 ^ 32 ∧ storedDataEnd hs % 2 = 0 := by
  rw [oneField, hhs] at h
  cases hload : ELFLoader.load (readElf inp hs) with
  | error e => simp only [hload, Bool.false_eq_true] at h
  | ok image =>
    simp only [hload, Bool.and_eq_true, decide_eq_true_iff] at h
    obtain ⟨⟨⟨hsizes, ha, hkeys⟩, heven⟩, hend⟩ := h
    have hat : ∀ k v, image.relocs.get? k = some v → k = a := by
      intro k v hget
      have hmem := List.mem_map_of_mem (f := Prod.fst) ((image.relocs.mem_entries_iff k v).mpr hget)
      rwa [hkeys, List.mem_singleton] at hmem
    refine ⟨⟨image, rfl, hsizes, .inr ⟨heven, fun k v hk => ?_, fun k v k' v' hk hk' hlt => ?_⟩⟩, hend⟩
    · exact (hat k v hk).symm ▸ ha
    · have heq := (hat k v hk).trans (hat k' v' hk').symm
      omega

/-- A file with a field that refers to a function: it is accepted, and loaded as if it were linked. -/
theorem load_elf2cpm68k_small : ∃ hs log,
    elf2cpm68k (smallElf 16 16 0 0 [(0, 0x12, 1)] [(8, 1)]) (fun _ => COPY_BUF) [] = .ok ((), log) ∧
      if fieldAddrs (smallElf 16 16 0 0 [(0, 0x12, 1)] [(8, 1)]) hs = [] ∨ storedDataEnd hs % 2 = 0 then
        ∃ file, CPMFile.load (written log) = .ok file ∧ ReadBack (smallElf 16 16 0 0 [(0, 0x12, 1)] [(8, 1)]) hs file
      else CPMFile.load (written log) = .error .structError := by
  obtain ⟨hs, log, bytes, hhs, hc, hstored, -, -, -⟩ := exists_of_bothAccept
    (show bothAccept (smallElf 16 16 0 0 [(0, 0x12, 1)] [(8, 1)]) (fun _ _ => true) = true by decide +kernel)
  obtain ⟨-, hsize, -⟩ := exists_of_oneField hhs
    (show oneField (smallElf 16 16 0 0 [(0, 0x12, 1)] [(8, 1)]) 8 = true by decide +kernel)
  exact ⟨hs, log, hc, load_elf2cpm68k hhs hc hstored hsize⟩

theorem loadAt_eq_linkAt_iff_small : ∃ hs log,
    elf2cpm68k (smallElf 16 16 0 0 [(0, 0x12, 1)] [(8, 1)]) (fun _ => COPY_BUF) [] = .ok ((), log) ∧
      ((∀ base, loadAt base (written log) = .ok (linkAt base (readElf (smallElf 16 16 0 0 [(0, 0x12, 1)] [(8, 1)]) hs))) ↔
        StoredAlike (smallElf 16 16 0 0 [(0, 0x12, 1)] [(8, 1)]) hs) := by
  obtain ⟨hs, log, bytes, hhs, hc, hstored, helf, -, -⟩ := exists_of_bothAccept
    (show bothAccept (smallElf 16 16 0 0 [(0, 0x12, 1)] [(8, 1)]) (fun _ _ => true) = true by decide +kernel)
  obtain ⟨⟨image, hload, hsizes, halign⟩, hsize, heven⟩ := exists_of_oneField hhs
    (show oneField (smallElf 16 16 0 0 [(0, 0x12, 1)] [(8, 1)]) 8 = true by decide +kernel)
  exact ⟨hs, log, hc, loadAt_eq_linkAt_iff hhs hc hstored helf hload hsizes halign hsize (.inr heven)⟩

end Cpm68k.Tools.Elf2Cpm68k
