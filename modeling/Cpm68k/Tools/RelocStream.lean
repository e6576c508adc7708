import Cpm68k.Tools.CpmOutput
import Cpm68k.Tools.RelocTable
import Mathlib.Data.List.Chain

/-!
# The relocation table as a stream

`write_cpm_relocs` sends the relocation table out from its start to its end: zeros up to the next
field, two words for the field, and so on. How many zeros there are is a difference of 32-bit
numbers, and nothing checks that it is not negative.

`_encodeRelocs` of `tools/cpm.py` overwrites a table of zeros instead, in the order of a map. When
the fields are in order, apart, and inside the table, both come to the same.

## What is proved

* `exact_output_iff` — when no difference is negative and the table has the size of text and data.
* `fields_overlap` — two relocations of one field make the gap negative.
* `encoders_agree` — the two encoders emit the same table.
-/

namespace Cpm68k.Tools.Elf2Cpm68k

open Cpm68k.Library

variable {inp : Input} {hs : Headers} {ef : ElfFile}

/-! ### What is sent -/

/-- The bytes of the requests. -/
def sent (requests : List (Request UInt8)) : List UInt8 := requests.flatMap Request.given

theorem sent_append (requests requests' : List (Request UInt8)) : sent (requests ++ requests') = sent requests ++ sent requests' :=
  List.flatMap_append

theorem sent_fill (count : ℕ) : sent (fill count) = List.replicate count 0 := by
  induction count with
  | zero => rfl
  | succ count ih =>
    rw [List.replicate_succ, ← ih]
    rfl

theorem sent_relocRequests_cons (rel : ℕ) (rel_data : List ℕ) (current_vma : ℕ) :
    sent (relocRequests (rel :: rel_data) current_vma) =
      List.replicate (sub32 (relAddr rel) current_vma) 0 ++ (bigEndian 2 5 ++ (bigEndian 2 (relType rel) ++
        sent (relocRequests rel_data (add32 (relAddr rel) 4)))) := by
  rw [relocRequests, sent_append, sent_fill]
  rfl

/-- No request for the table is longer than a word. -/
theorem length_le_of_mem_tableRequests {r : Request UInt8} (h : r ∈ tableRequests ef) : r.given.length ≤ 2 := by
  have hfill : ∀ {count : ℕ}, r ∈ fill count → r.given.length ≤ 2 := by
    intro count hr
    rw [List.eq_of_mem_replicate hr]
    decide
  have hrelocs : ∀ (rel_data : List ℕ) (current_vma : ℕ), r ∈ relocRequests rel_data current_vma → r.given.length ≤ 2 := by
    intro rel_data
    induction rel_data with
    | nil => exact fun _ hr => absurd hr List.not_mem_nil
    | cons rel rel_data ih =>
      intro current_vma hr
      rcases List.mem_append.mp hr with hr | hr
      · exact hfill hr
      · rcases List.mem_cons.mp hr with rfl | hr
        · exact le_of_eq (length_bigEndian _ _)
        · rcases List.mem_cons.mp hr with rfl | hr
          · exact le_of_eq (length_bigEndian _ _)
          · exact ih _ hr
  rcases List.mem_append.mp h with hr | hr
  · exact hrelocs _ _ hr
  · exact hfill hr

/-- The program ends without an error and writes the bytes, on a stream with room for a word at
every call. -/
def Emits (m : (ℕ → ℕ) → Writer String UInt8 Unit) (bytes : List UInt8) : Prop :=
  ∀ room : ℕ → ℕ, (∀ k, 2 ≤ room k) → ∃ log, m room [] = .ok ((), log) ∧ written log = bytes

/-- **The bytes of the table.** -/
theorem emits_write_cpm_relocs (ef : ElfFile) : Emits (fun room => write_cpm_relocs room ef) (sent (tableRequests ef)) :=
  fun _ hroom => (issues_write_cpm_relocs ef).written hroom fun _ => length_le_of_mem_tableRequests

theorem sent_tableRequests (ef : ElfFile) : sent (tableRequests ef) = sent (relocRequests ef.rel_data 0) ++
    List.replicate (sub32 (add32 ef.data_vmaddr ef.data_filesize) (relocEnd ef.rel_data 0)) 0 := by
  rw [tableRequests, sent_append, sent_fill]

/-! ### Differences -/

theorem relAddr_le (rel : ℕ) : relAddr rel + 4 < 2 ^ 32 := by
  have hle : relAddr rel ≤ 0xffffffff ^^^ REL_TYPE_MASK := Nat.and_le_right
  have hmask : 0xffffffff ^^^ REL_TYPE_MASK = 0xcfffffff := by decide
  omega

theorem add32_relAddr (rel : ℕ) : add32 (relAddr rel) 4 = relAddr rel + 4 := Nat.mod_eq_of_lt (relAddr_le rel)

/-- The gaps to the relocations, from the address `current_vma` on, as numbers that do not wrap. -/
def gaps : List ℕ → ℕ → List ℤ
  | [], _ => []
  | rel :: rel_data, current_vma => ((relAddr rel : ℤ) - current_vma) :: gaps rel_data (add32 (relAddr rel) 4)

/-- The fields at these addresses do not overlap. -/
def Spaced (addrs : List ℕ) : Prop := addrs.IsChain fun a b => a + 4 ≤ b

/-- Where the last of the fields at these addresses ends. -/
def fieldsEnd (addrs : List ℕ) (start : ℕ) : ℕ := (addrs.getLast?.map (· + 4)).getD start

theorem fieldsEnd_cons (a : ℕ) (addrs : List ℕ) (start : ℕ) : fieldsEnd (a :: addrs) start = fieldsEnd addrs (a + 4) := by
  unfold fieldsEnd
  rw [List.getLast?_cons]
  cases addrs.getLast? with
  | none => rfl
  | some b => rfl

theorem relocEnd_eq (rel_data : List ℕ) (current_vma : ℕ) :
    relocEnd rel_data current_vma = fieldsEnd (rel_data.map relAddr) current_vma := by
  induction rel_data generalizing current_vma with
  | nil => rfl
  | cons rel rel_data ih => rw [relocEnd, ih, List.map_cons, fieldsEnd_cons, add32_relAddr]

theorem relocEnd_lt {rel_data : List ℕ} {current_vma : ℕ} (h : current_vma < 2 ^ 32) : relocEnd rel_data current_vma < 2 ^ 32 := by
  induction rel_data generalizing current_vma with
  | nil => exact h
  | cons rel rel_data ih => exact ih (Nat.mod_lt _ (Nat.two_pow_pos 32))

/-- No gap is negative when the fields do not overlap. -/
theorem gaps_nonneg_iff (rel_data : List ℕ) (current_vma : ℕ) :
    (∀ gap ∈ gaps rel_data current_vma, 0 ≤ gap) ↔
      Spaced (rel_data.map relAddr) ∧ ∀ a ∈ (rel_data.map relAddr).head?, current_vma ≤ a := by
  induction rel_data generalizing current_vma with
  | nil => simp [gaps, Spaced]
  | cons rel rel_data ih =>
    have hfirst : 0 ≤ (relAddr rel : ℤ) - current_vma ↔ current_vma ≤ relAddr rel := by omega
    rw [gaps, List.forall_mem_cons, ih, hfirst, add32_relAddr, List.map_cons, Spaced, Spaced, List.isChain_cons]
    simp only [List.head?_cons, Option.mem_some_iff, forall_eq']
    exact ⟨fun ⟨h₁, h₂, h₃⟩ => ⟨⟨h₃, h₂⟩, h₁⟩, fun ⟨⟨h₃, h₂⟩, h₁⟩ => ⟨h₁, h₂, h₃⟩⟩

theorem sub32_of_le {a b : ℕ} (ha : a < 2 ^ 32) (h : b ≤ a) : sub32 a b = a - b := by
  unfold sub32
  omega

/-- The stream ends where the last field ends, when no gap is negative. -/
theorem length_sent_relocRequests {rel_data : List ℕ} {current_vma : ℕ} (h : ∀ gap ∈ gaps rel_data current_vma, 0 ≤ gap) :
    current_vma + (sent (relocRequests rel_data current_vma)).length = relocEnd rel_data current_vma := by
  induction rel_data generalizing current_vma with
  | nil => rfl
  | cons rel rel_data ih =>
    obtain ⟨hgap, hrest⟩ := List.forall_mem_cons.mp h
    have hlt := relAddr_le rel
    have hlen := ih hrest
    rw [add32_relAddr] at hlen
    rw [sent_relocRequests_cons, sub32_of_le (by omega) (by omega), relocEnd, add32_relAddr, ← hlen]
    simp only [List.length_append, List.length_replicate, length_bigEndian]
    omega

/-! ### The length of the output -/

/-- The addresses of the fields that are recorded. -/
def fieldAddrs (inp : Input) (hs : Headers) : List ℕ :=
  ((loadedRelas inp hs relaCount).filter Rela.recorded).map Rela.r_offset

/-- No difference that is computed from the file is negative, and the relocation table is as long
as the text and the data. -/
structure ExactOutput (hs : Headers) (ef : ElfFile) : Prop where
  bss : 0 ≤ ((programHeader hs.segments 1).p_memsz : ℤ) - (programHeader hs.segments 1).p_filesz
  padding : 0 ≤ (ef.data_vmaddr : ℤ) - ef.text_filesize
  gap : ∀ gap ∈ gaps ef.rel_data 0, 0 ≤ gap
  rest : 0 ≤ (ef.dataEnd : ℤ) - relocEnd ef.rel_data 0
  table : ∃ bytes, Emits (fun room => write_cpm_relocs room ef) bytes ∧ bytes.length = ef.dataEnd
  header : add32 ef.text_filesize (textPad ef) + ef.data_filesize = ef.dataEnd

/-- The data segment is not larger in the file than in memory. The fields do not overlap, and they
lie before the end of the data, but not 4 GB before it. -/
structure RoomyFields (data_segment : ProgramHeader) (addrs : List ℕ) : Prop where
  memsz : data_segment.p_filesz ≤ data_segment.p_memsz
  spaced : Spaced addrs
  inside : fieldsEnd addrs 0 ≤ data_segment.p_vaddr + data_segment.p_filesz
  near : data_segment.p_vaddr + data_segment.p_filesz < fieldsEnd addrs 0 + 2 ^ 32

theorem Emits.unique {m : (ℕ → ℕ) → Writer String UInt8 Unit} {bytes bytes' : List UInt8} (h : Emits m bytes) (h' : Emits m bytes') :
    bytes = bytes' := by
  obtain ⟨log, hrun, hlog⟩ := h (fun _ => 2) fun _ => le_rfl
  obtain ⟨log', hrun', hlog'⟩ := h' (fun _ => 2) fun _ => le_rfl
  rw [hrun] at hrun'
  injection hrun' with hrun'
  injection hrun' with _ heq
  rw [← hlog, ← hlog', heq]

/-- The length of the table. -/
theorem length_table_iff (hgap : ∀ gap ∈ gaps ef.rel_data 0, 0 ≤ gap) (hrest : relocEnd ef.rel_data 0 ≤ ef.dataEnd) :
    (∃ bytes, Emits (fun room => write_cpm_relocs room ef) bytes ∧ bytes.length = ef.dataEnd) ↔
      ef.dataEnd < relocEnd ef.rel_data 0 + 2 ^ 32 := by
  have hlen := length_sent_relocRequests hgap
  have hlt : relocEnd ef.rel_data 0 < 2 ^ 32 := relocEnd_lt (Nat.two_pow_pos 32)
  have htable : (sent (tableRequests ef)).length = relocEnd ef.rel_data 0 + (ef.dataEnd - relocEnd ef.rel_data 0) % 2 ^ 32 := by
    rw [sent_tableRequests, List.length_append, List.length_replicate, sub32, add32, ← Layout.dataEnd]
    omega
  constructor
  · rintro ⟨bytes, hbytes, heq⟩
    rw [hbytes.unique (emits_write_cpm_relocs ef), htable] at heq
    omega
  · intro hnear
    refine ⟨_, emits_write_cpm_relocs ef, ?_⟩
    rw [htable]
    omega

theorem Loads.dataEnd (h : Loads inp hs ef) :
    ef.dataEnd = (programHeader hs.segments 1).p_vaddr + (programHeader hs.segments 1).p_filesz := by
  rw [h.layout]
  rfl

theorem Loads.relAddrs (h : Loads inp hs ef) : ef.rel_data.map relAddr = fieldAddrs inp hs :=
  relAddr_of_records h.records fun _ hrel => (lt_of_mem_loadedRelas (List.mem_of_mem_filter hrel)).1

/-- **No difference wraps, and the table has the size of text and data**, if and only if the data
segment is not larger in the file than in memory, and the fields do not overlap and end inside text
and data. -/
theorem exact_output_iff (h : load_elf inp = .ok ef) (hhs : loadHeaders inp = .ok hs) :
    ExactOutput hs ef ↔ RoomyFields (programHeader hs.segments 1) (fieldAddrs inp hs) := by
  have hloads := loads_of_load h hhs
  have hend := relocEnd_eq ef.rel_data 0
  have hgaps := gaps_nonneg_iff ef.rel_data 0
  rw [hloads.relAddrs] at hend hgaps
  simp only [Nat.zero_le, implies_true, and_true] at hgaps
  constructor
  · intro hexact
    have hbss := hexact.bss
    have hrest := hexact.rest
    have hnear := (length_table_iff hexact.gap (by omega)).mp hexact.table
    rw [hend, hloads.dataEnd] at hnear hrest
    exact ⟨by omega, hgaps.mp hexact.gap, by omega, hnear⟩
  · intro hroomy
    have hmemsz := hroomy.memsz
    have hinside := hroomy.inside
    have hnear := hroomy.near
    have hpadding := hloads.sane.text_le
    have hvmaddr := hloads.sane.data_lt
    have hgap := hgaps.mpr hroomy.spaced
    rw [← hend, ← hloads.dataEnd] at hinside hnear
    refine ⟨by omega, by omega, hgap, by omega, (length_table_iff hgap hinside).mpr hnear, ?_⟩
    unfold textPad add32 sub32 Layout.dataEnd
    omega

/-- Two fields that touch. -/
theorem exact_output_iff_small : ∃ hs ef, load_elf (smallElf 8 8 4 4 [(4, 0x12, 1)] [(0, 1), (4, 1)]) = .ok ef ∧
    (ExactOutput hs ef ↔ RoomyFields (programHeader hs.segments 1) (fieldAddrs (smallElf 8 8 4 4 [(4, 0x12, 1)] [(0, 1), (4, 1)]) hs)) := by
  obtain ⟨hs, ef, hhs, hef, -⟩ := exists_of_accepts (show accepts (smallElf 8 8 4 4 [(4, 0x12, 1)] [(0, 1), (4, 1)])
    (fun _ _ => true) = true by decide +kernel)
  exact ⟨hs, ef, hef, exact_output_iff hef hhs⟩

/-- **Two relocations of one field** are accepted, and the gap to the second one is negative. -/
theorem fields_overlap : ∃ hs ef, loadHeaders (smallElf 8 8 4 4 [(4, 0x12, 1)] [(0, 1), (0, 1)]) = .ok hs ∧
    load_elf (smallElf 8 8 4 4 [(4, 0x12, 1)] [(0, 1), (0, 1)]) = .ok ef ∧ ¬ ExactOutput hs ef := by
  obtain ⟨hs, ef, hhs, hef, htest⟩ := exists_of_accepts (show accepts (smallElf 8 8 4 4 [(4, 0x12, 1)] [(0, 1), (0, 1)])
    (fun _ ef => decide (gaps ef.rel_data 0 = [0, -4])) = true by decide +kernel)
  refine ⟨hs, ef, hhs, hef, fun hexact => ?_⟩
  have hgap := hexact.gap (-4) (by rw [of_decide_eq_true htest]; decide)
  exact absurd hgap (by decide)

/-! ### The two encoders -/

/-- The word of `rel_data` for an offset and a type. -/
def relWord (r : ℕ × ℕ) : ℕ := r.1 ||| r.2 <<< REL_TYPE_SHIFT

theorem and_mask_eq_zero {a : ℕ} (h : a < 2 ^ REL_TYPE_SHIFT) : a &&& REL_TYPE_MASK = 0 := by
  apply Nat.eq_of_testBit_eq
  intro i
  rw [Nat.testBit_and, Nat.zero_testBit]
  rcases Nat.lt_or_ge i REL_TYPE_SHIFT with hi | hi
  · have hmask : REL_TYPE_MASK.testBit i = false := by
      rw [REL_TYPE_MASK, Nat.testBit_shiftLeft]
      simp [Nat.not_le.mpr hi]
    rw [hmask, Bool.and_false]
  · rw [Nat.testBit_lt_two_pow (lt_of_lt_of_le h (Nat.pow_le_pow_right (by decide) hi)), Bool.false_and]

theorem type_and_mask {t : ℕ} (ht : IsSegment t) : t <<< REL_TYPE_SHIFT &&& REL_TYPE_MASK = t <<< REL_TYPE_SHIFT := by
  rcases ht with rfl | rfl | rfl <;> decide +kernel

theorem relAddr_relWord {r : ℕ × ℕ} (hr : r.1 < 2 ^ 28) (ht : IsSegment r.2) : relAddr (relWord r) = r.1 :=
  relAddr_or (lt_trans hr (by decide)) (and_mask_eq_zero hr) (type_and_mask ht)

theorem relType_relWord {r : ℕ × ℕ} (hr : r.1 < 2 ^ 28) (ht : IsSegment r.2) : relType (relWord r) = r.2 := by
  rw [relWord, relType_or (and_mask_eq_zero hr) (type_and_mask ht), Nat.shiftLeft_shiftRight]

/-- The entry of the map for an offset and a type: the size of the field is 32 bits. -/
def relEntry (r : ℕ × ℕ) : ℕ × ℕ := (r.1, r.2 ||| RELOC_SIZE_32)

theorem image_relEntry {r : ℕ × ℕ} (ht : IsSegment r.2) : image (relEntry r).2 = bigEndian 2 5 ++ bigEndian 2 r.2 := by
  have himage : ∀ {t : ℕ}, IsSegment t → image (t ||| RELOC_SIZE_32) = bigEndian 2 5 ++ bigEndian 2 t := by
    rintro t (rfl | rfl | rfl) <;> rfl
  exact himage ht

/-- The relocations that both encoders are given: in order, apart, and inside the table. -/
structure Encodable (rels : List (ℕ × ℕ)) (size : ℕ) : Prop where
  type : ∀ r ∈ rels, IsSegment r.2
  lt : ∀ r ∈ rels, r.1 < 2 ^ 28
  spaced : rels.IsChain fun r r' => r.1 + 4 ≤ r'.1
  inside : ∀ r ∈ rels.getLast?, r.1 + 4 ≤ size

variable {rels : List (ℕ × ℕ)} {size : ℕ}

theorem Encodable.tail {r : ℕ × ℕ} (h : Encodable (r :: rels) size) : Encodable rels size where
  type r' hr' := h.type r' (List.mem_cons_of_mem _ hr')
  lt r' hr' := h.lt r' (List.mem_cons_of_mem _ hr')
  spaced := (List.isChain_cons.mp h.spaced).2
  inside r' hr' := by
    refine h.inside r' ?_
    rw [List.getLast?_cons, Option.mem_def.mp hr']
    rfl

/-- All fields are inside the table. -/
theorem Encodable.le_size (h : Encodable rels size) : ∀ r ∈ rels, r.1 + 4 ≤ size := by
  induction rels with
  | nil => exact fun r hr => absurd hr List.not_mem_nil
  | cons r rels ih =>
    have hrest := ih h.tail
    refine List.forall_mem_cons.mpr ⟨?_, hrest⟩
    cases rels with
    | nil => exact h.inside r rfl
    | cons r' rels =>
      have hspaced := (List.isChain_cons.mp h.spaced).1 r' rfl
      have hnext := hrest r' List.mem_cons_self
      omega

theorem Encodable.length_image {r : ℕ × ℕ} (h : Encodable rels size) (hr : r ∈ rels) : (image (relEntry r).2).length = 4 := by
  rw [Tools.length_image]
  exact relocLength_or_32 (h.type r hr)

/-- The overwrites are in order. -/
theorem Encodable.inOrder {start : ℕ} (h : Encodable rels size) (hstart : ∀ r ∈ rels.head?, start ≤ r.1)
    (hsize : start ≤ size) : InOrder size (writes (rels.map relEntry)) start := by
  induction rels generalizing start with
  | nil => exact hsize
  | cons r rels ih =>
    refine ⟨hstart r rfl, ?_⟩
    show InOrder size _ (r.1 + (image (relEntry r).2).length)
    rw [h.length_image List.mem_cons_self]
    exact ih h.tail (List.isChain_cons.mp h.spaced).1 (h.le_size r List.mem_cons_self)

/-- **What `write_cpm_relocs` sends** is what the overwrites make, sent from start to end. -/
theorem Encodable.sent_eq {start : ℕ} (h : Encodable rels size) (hstart : ∀ r ∈ rels.head?, start ≤ r.1)
    (hsize : start ≤ size) (hlt : size < 2 ^ 32) :
    sent (relocRequests (rels.map relWord) start) ++ List.replicate (sub32 size (relocEnd (rels.map relWord) start)) 0 =
      streamed 0 size (writes (rels.map relEntry)) start := by
  induction rels generalizing start with
  | nil =>
    have hnone : sent (relocRequests [] start) = [] := rfl
    rw [List.map_nil, List.map_nil, hnone, List.nil_append, relocEnd, sub32_of_le hlt hsize]
    rfl
  | cons r rels ih =>
    have hr := h.lt r List.mem_cons_self
    have ht := h.type r List.mem_cons_self
    have hfirst := hstart r rfl
    have hrest := ih h.tail (List.isChain_cons.mp h.spaced).1 (h.le_size r List.mem_cons_self)
    have hcons : streamed 0 size (writes ((r :: rels).map relEntry)) start = List.replicate (r.1 - start) 0 ++
        (image (relEntry r).2 ++ streamed 0 size (writes (rels.map relEntry)) (r.1 + (image (relEntry r).2).length)) := rfl
    rw [List.map_cons, sent_relocRequests_cons, relocEnd, add32_relAddr, relAddr_relWord hr ht, relType_relWord hr ht,
      sub32_of_le (by omega) hfirst, hcons, h.length_image List.mem_cons_self, ← hrest, image_relEntry ht]
    simp only [List.append_assoc]

/-- The map has these relocations, with 32-bit fields, and no others. -/
def HasEntries (relocs : Dict ℕ ℕ) (rels : List (ℕ × ℕ)) : Prop :=
  ∀ k v, relocs.get? k = some v ↔ ∃ t, (k, t) ∈ rels ∧ v = t ||| RELOC_SIZE_32

variable {relocs : Dict ℕ ℕ}

theorem Encodable.pairwise (h : Encodable rels size) : rels.Pairwise fun r r' => r.1 + 4 ≤ r'.1 := by
  have htrans : IsTrans (ℕ × ℕ) fun r r' => r.1 + 4 ≤ r'.1 := ⟨fun _ _ _ h₁ h₂ => by omega⟩
  exact List.isChain_iff_pairwise.mp h.spaced

/-- The entries of the map are these, in some order. -/
theorem Encodable.perm (h : Encodable rels size) (hrelocs : HasEntries relocs rels) :
    relocs.entries.Perm (rels.map relEntry) := by
  have hnodup : (rels.map relEntry).Nodup := by
    refine List.pairwise_map.mpr (h.pairwise.imp fun {r r'} hspaced heq => ?_)
    have hoffset := congrArg Prod.fst heq
    unfold relEntry at hoffset
    omega
  refine (List.perm_ext_iff_of_nodup (List.Nodup.of_map Prod.fst relocs.nodup) hnodup).mpr fun e => ?_
  rw [relocs.mem_entries_iff e.1 e.2, hrelocs, List.mem_map]
  constructor
  · rintro ⟨t, ht, hv⟩
    exact ⟨(e.1, t), ht, Prod.ext rfl hv.symm⟩
  · rintro ⟨r, hr, rfl⟩
    exact ⟨r.2, hr, rfl⟩

theorem Encodable.wellPlaced (h : Encodable rels size) (hrelocs : HasEntries relocs rels) (heven : ∀ r ∈ rels, r.1 % 2 = 0) :
    WellPlaced relocs size := by
  refine ⟨fun {k v} hk => ?_, fun {k v} hk => ?_, fun {k v} hk => ?_, fun {k v k' v'} hk hk' hlt => ?_⟩
  · obtain ⟨t, ht, rfl⟩ := (hrelocs k v).mp hk
    exact isReloc_or_32 (h.type _ ht)
  · obtain ⟨t, ht, rfl⟩ := (hrelocs k v).mp hk
    exact heven _ ht
  · obtain ⟨t, ht, rfl⟩ := (hrelocs k v).mp hk
    rw [relocLength_or_32 (h.type _ ht)]
    exact h.le_size _ ht
  · obtain ⟨t, ht, rfl⟩ := (hrelocs k v).mp hk
    obtain ⟨t', ht', rfl⟩ := (hrelocs k' v').mp hk'
    rw [relocLength_or_32 (h.type _ ht)]
    have hne : (k, t) ≠ (k', t') := fun heq => absurd (congrArg Prod.fst heq) (Nat.ne_of_lt hlt)
    have hsymm : Std.Symm fun r r' : ℕ × ℕ => r.1 + 4 ≤ r'.1 ∨ r'.1 + 4 ≤ r.1 := ⟨fun _ _ => Or.symm⟩
    have hpair : rels.Pairwise fun r r' => r.1 + 4 ≤ r'.1 ∨ r'.1 + 4 ≤ r.1 := h.pairwise.imp Or.inl
    have hapart : k + 4 ≤ k' ∨ k' + 4 ≤ k := hpair.forall ht ht' hne
    omega

/-- **The two encoders emit the same table**: what `write_cpm_relocs` writes is what `_encodeRelocs`
makes of the map, whatever the order of its entries; and when the offsets and the size are even,
`decodeRelocs` makes the map of it again. -/
theorem encoders_agree (h : Encodable rels size) (hrel_data : ef.rel_data = rels.map relWord)
    (hsize : size = add32 ef.data_vmaddr ef.data_filesize) (hrelocs : HasEntries relocs rels) :
    ∃ bytes, CPMFile.encodeRelocs relocs size = .ok bytes ∧ Emits (fun room => write_cpm_relocs room ef) bytes ∧
      ((∀ r ∈ rels, r.1 % 2 = 0) → size % 2 = 0 →
        ∃ relocs', CPMFile.decodeRelocs bytes = .ok relocs' ∧ Dict.Same relocs' relocs) := by
  have hperm := h.perm hrelocs
  have horder : InOrder size (writes (rels.map relEntry)) 0 := h.inOrder (fun _ _ => Nat.zero_le _) (Nat.zero_le _)
  have hinside : ∀ e ∈ relocs.entries, e.1 + relocLength e.2 ≤ size := by
    intro e he
    obtain ⟨r, hr, rfl⟩ := List.mem_map.mp (hperm.mem_iff.mp he)
    rw [relEntry, relocLength_or_32 (h.type r hr)]
    exact h.le_size r hr
  have htable : table relocs size = sent (tableRequests ef) := by
    have hlt : size < 2 ^ 32 := hsize ▸ Nat.mod_lt _ (Nat.two_pow_pos 32)
    have hwrites : (writes (rels.map relEntry)).Perm (writes relocs.entries) := hperm.symm.map _
    have hroom : ∀ w ∈ writes (rels.map relEntry), w.1 + w.2.length ≤ (List.replicate size (0 : UInt8)).length := by
      intro w hw
      rw [List.length_replicate]
      exact (horder.inside w hw).2
    rw [sent_tableRequests, hrel_data, ← hsize, h.sent_eq (fun _ _ => Nat.zero_le _) (Nat.zero_le _) hlt, table,
      ← spliceAll_perm hwrites hroom horder.apart]
    exact spliceAll_streamed (l := []) horder
  refine ⟨table relocs size, encodeLoop_eq (List.length_replicate ..) hinside, ?_, fun heven hsize => ?_⟩
  · rw [htable]
    exact emits_write_cpm_relocs ef
  · exact (h.wellPlaced hrelocs heven).decodeRelocs_table hsize

/-- Two fields of eight bytes of text, and a map that has the second one first. -/
theorem encoders_agree_small :
    ∃ bytes, CPMFile.encodeRelocs (Dict.empty.set 6 (RELOC_TYPE_BSS ||| RELOC_SIZE_32) |>.set 0 (RELOC_TYPE_TEXT ||| RELOC_SIZE_32))
        10 = .ok bytes ∧
      Emits (fun room => write_cpm_relocs room ⟨⟨0, 8, 0, 8, 2, 4⟩, [(0, RELOC_TYPE_TEXT), (6, RELOC_TYPE_BSS)].map relWord⟩) bytes ∧
      ((∀ r ∈ [(0, RELOC_TYPE_TEXT), (6, RELOC_TYPE_BSS)], r.1 % 2 = 0) → 10 % 2 = 0 →
        ∃ relocs', CPMFile.decodeRelocs bytes = .ok relocs' ∧
          Dict.Same relocs' (Dict.empty.set 6 (RELOC_TYPE_BSS ||| RELOC_SIZE_32) |>.set 0 (RELOC_TYPE_TEXT ||| RELOC_SIZE_32))) := by
  refine encoders_agree ⟨by decide, by decide, by simp, by simp⟩ rfl rfl fun k v => ?_
  by_cases hfirst : k = 0
  · simp [hfirst, Dict.get?_set, eq_comm]
  · by_cases hsecond : k = 6
    · simp [hsecond, Dict.get?_set, eq_comm]
    · simp [hfirst, hsecond, Dict.get?_set]

end Cpm68k.Tools.Elf2Cpm68k
