import Cpm68k.Tools.RelocStream
import Cpm68k.Tools.StoredElf

/-!
# The two converters

`tools/elf2cpm68k.c` and `tools/elf2cpm.py` make a load file of the same ELF file. They find the end of
the BSS in different places (the size of the data segment in memory, the sections without bits), they
skip different relocations, and they write the relocation table in different ways (from its start to
its end, or over a table of zeros).

`elf2cpm68k.c` skips the relocations of weak symbols with the value 0, "they should not be fixed up";
`elf2cpm.py` does not.

## What is proved

* `programOf_elf2cpm68k` — the program in the load file that `elf2cpm68k.c` writes.
* `converters_agree_iff` — when the two load files have the same program.
* `keep_iff_of_spaced` — for fields that do not overlap: when no relocation is of a weak symbol with the
  value 0.
* `weak_symbol_marked` — such a relocation, which only one of the load files marks.
-/

namespace Cpm68k.Tools.Elf2Cpm68k

open Cpm68k.Library

variable {inp : Input} {hs : Headers} {ef : ElfFile}

/-! ### What `elf2cpm68k.c` writes -/

/-- `main`, but for the opening and the closing of the files. -/
def elf2cpm68k (inp : Input) (room : ℕ → ℕ) : Writer String UInt8 Unit := do
  let ef ← (load_elf inp : Except String ElfFile)
  write_cpm inp room ef

theorem slice_append_slice (bs : List UInt8) {a b c : ℕ} (hab : a ≤ b) (hbc : b ≤ c) :
    slice bs a b ++ slice bs b c = slice bs a c := by
  unfold slice
  rw [List.drop_take, List.drop_take, List.drop_take, show c - a = b - a + (c - b) by omega, List.take_add, List.drop_drop,
    show a + (b - a) = b by omega]

/-- `copy_bytes` sends the bytes of the file. -/
theorem sent_copyRequests (fuel : ℕ) {offset count : ℕ} (h : count ≤ fuel) :
    sent (copyRequests inp fuel offset count) = slice inp.file offset (offset + count) := by
  have hnil : ∀ offset, slice inp.file offset (offset + 0) = [] := by
    intro offset
    rw [slice, Nat.add_zero, List.drop_eq_nil_of_le (by rw [List.length_take]; omega)]
  induction fuel generalizing offset count with
  | zero =>
    obtain rfl : count = 0 := by omega
    exact (hnil offset).symm
  | succ fuel ih =>
    rw [copyRequests]
    by_cases hcount : count > 0
    · rw [if_pos hcount]
      have hle : 0 < (if count < COPY_BUF then count else COPY_BUF) ∧ (if count < COPY_BUF then count else COPY_BUF) ≤ count := by
        unfold COPY_BUF
        split_ifs <;> omega
      generalize (if count < COPY_BUF then count else COPY_BUF) = resid at hle
      have hrest := @ih (offset + resid) (count - resid) (by omega)
      rw [show offset + resid + (count - resid) = offset + count by omega] at hrest
      show slice inp.file offset (offset + resid) ++ sent (copyRequests inp fuel (offset + resid) (count - resid)) = _
      rw [hrest, slice_append_slice _ (by omega) (by omega)]
    · rw [if_neg hcount]
      obtain rfl : count = 0 := by omega
      exact (hnil offset).symm

/-- What `write_cpm` sends: the header, the text and its padding, the data, and the table. -/
theorem sent_cpmRequests (inp : Input) (ef : ElfFile) :
    sent (cpmRequests inp ef) = cpmHeader ef ++
      (slice inp.file ef.text_offset (ef.text_offset + ef.text_filesize) ++ List.replicate (textPad ef) 0) ++
      slice inp.file ef.data_offset (ef.data_offset + ef.data_filesize) ++ sent (tableRequests ef) := by
  have hcons : ∀ (r : Request UInt8) (rs : List (Request UInt8)), sent (r :: rs) = r.given ++ sent rs := fun _ _ => rfl
  rw [cpmRequests, hcons, sent_append, sent_append, sent_append, sent_copyRequests _ le_rfl, sent_copyRequests _ le_rfl,
    sent_fill]
  simp only [List.append_assoc]

/-- The header is the one that `struct.pack` makes. -/
theorem pack_cpmHeader (hl : ef.toLayout.Sane) : pack contigFormat [TYPE_CONTIG, ef.data_vmaddr, ef.data_filesize,
    ef.bss_memsize, 0, 0, 0, if ef.rel_data.length ≠ 0 then FH_WITH_RELOC else FH_NO_RELOC] = some (cpmHeader ef) := by
  obtain ⟨htext, hdata, hsize, hbss⟩ := hl
  have hlen : add32 ef.text_filesize (textPad ef) = ef.data_vmaddr := by
    unfold textPad add32 sub32
    omega
  have hflag : (if ef.rel_data.length ≠ 0 then FH_WITH_RELOC else FH_NO_RELOC) < 256 ^ 2 := by
    split_ifs <;> decide
  rw [cpmHeader, hlen]
  simp only [contigFormat, pack, if_pos (show TYPE_CONTIG < 256 ^ 2 by decide), if_pos (show ef.data_vmaddr < 256 ^ 4 from hdata),
    if_pos (show ef.data_filesize < 256 ^ 4 from hsize), if_pos (show ef.bss_memsize < 256 ^ 4 from hbss),
    if_pos (show 0 < 256 ^ 4 by decide), if_pos hflag, Option.map_some, List.append_assoc, List.append_nil]
  rfl

/-! ### The table as it is sent -/

/-- Where the fields at these addresses are in the table that is sent: each at the first place behind
the one before that is its address, modulo `2 ^ 32`. -/
def fieldPlaces : List ℕ → ℕ → List ℕ
  | [], _ => []
  | addr :: addrs, start =>
    (start + sub32 addr (start % 2 ^ 32)) :: fieldPlaces addrs (start + sub32 addr (start % 2 ^ 32) + 4)

theorem le_of_mem_fieldPlaces {addrs : List ℕ} {start p : ℕ} (h : p ∈ fieldPlaces addrs start) : start ≤ p := by
  induction addrs generalizing start with
  | nil => exact absurd h List.not_mem_nil
  | cons addr addrs ih =>
    rcases List.mem_cons.mp h with rfl | h
    · exact Nat.le_add_right _ _
    · have hle := ih h
      omega

theorem getD_gap (gap : ℕ) (l : List UInt8) {i : ℕ} (hi : i < gap) : (List.replicate gap 0 ++ l).getD i 0 = 0 := by
  rw [List.getD_append _ _ _ _ (by rwa [List.length_replicate]), List.getD_replicate _ hi]

theorem getD_behind_gap (gap : ℕ) (l : List UInt8) (j : ℕ) : (List.replicate gap 0 ++ l).getD (gap + j) 0 = l.getD j 0 := by
  rw [List.getD_append_right _ _ _ _ (by rw [List.length_replicate]; omega), List.length_replicate, Nat.add_sub_cancel_left]

/-- The two words of a field. -/
theorem exists_field {t : ℕ} (ht : IsSegment t) (rest : List UInt8) : ∃ u : UInt8,
    IsSegment (u.toNat &&& RELOC_TYPE_MASK) ∧ bigEndian 2 5 ++ (bigEndian 2 t ++ rest) = [0, 5, 0, u] ++ rest := by
  rcases ht with rfl | rfl | rfl
  · exact ⟨1, by decide, rfl⟩
  · exact ⟨2, by decide, rfl⟩
  · exact ⟨3, by decide, rfl⟩

/-- A field after a gap. What comes next starts with a zero byte. -/
theorem marks_field_cons {t : ℕ} (ht : IsSegment t) (gap : ℕ) {rest : List UInt8} (hrest : rest.getD 0 0 = 0) (a : ℕ) :
    Marks (List.replicate gap 0 ++ (bigEndian 2 5 ++ (bigEndian 2 t ++ rest))) a ↔
      a = gap ∨ ∃ b, a = gap + 4 + b ∧ Marks rest b := by
  obtain ⟨u, hu, hfield⟩ := exists_field ht rest
  rw [hfield]
  have hgap : ∀ i < gap, (List.replicate gap 0 ++ ([0, 5, 0, u] ++ rest)).getD i 0 = 0 := fun _ => getD_gap gap _
  have hin : ∀ j < 4, (List.replicate gap 0 ++ ([0, 5, 0, u] ++ rest)).getD (gap + j) 0 = [0, 5, 0, u].getD j 0 := by
    intro j hj
    rw [getD_behind_gap, List.getD_append _ _ _ _ hj]
  have hbehind : ∀ j, (List.replicate gap 0 ++ ([0, 5, 0, u] ++ rest)).getD (gap + 4 + j) 0 = rest.getD j 0 := by
    intro j
    rw [Nat.add_assoc, getD_behind_gap, List.getD_append_right _ _ _ _ (Nat.le_add_right 4 j)]
    exact congrArg (rest.getD · 0) (Nat.add_sub_cancel_left 4 j)
  have hzero : ¬ (0 : UInt8).toNat &&& RELOC_TYPE_MASK = RELOC_TYPE_UPPER := by decide
  unfold Marks wordType
  constructor
  · rintro ⟨hup, hseg⟩
    rcases Nat.lt_or_ge (a + 1) gap with ha | ha
    · rw [hgap _ ha] at hup
      exact absurd hup hzero
    rcases Nat.lt_or_ge (a + 1) (gap + 4) with ha' | ha'
    · rw [show a + 1 = gap + (a + 1 - gap) by omega, hin _ (by omega)] at hup
      have hoffset := eq_one_of_upper hu (by omega) hup
      exact .inl (by omega)
    obtain ⟨j, hj⟩ := Nat.exists_eq_add_of_le ha'
    rcases Nat.eq_zero_or_pos j with rfl | hpos
    · rw [hj, hbehind, hrest] at hup
      exact absurd hup hzero
    · refine .inr ⟨j - 1, by omega, ?_⟩
      rw [show a + 1 = gap + 4 + (j - 1 + 1) by omega, hbehind] at hup
      rw [show a + 2 + 1 = gap + 4 + (j - 1 + 2 + 1) by omega, hbehind] at hseg
      exact ⟨hup, hseg⟩
  · rintro (rfl | ⟨b, rfl, hup, hseg⟩)
    · rw [hin 1 (by decide), Nat.add_assoc, hin 3 (by decide)]
      have hupper : (5 : UInt8).toNat &&& RELOC_TYPE_MASK = RELOC_TYPE_UPPER := by decide
      exact ⟨hupper, hu⟩
    · rw [Nat.add_assoc _ b 1, Nat.add_assoc _ b 2, Nat.add_assoc _ (b + 2) 1, hbehind, hbehind]
      exact ⟨hup, hseg⟩

/-- The table starts with a zero byte: of a gap, of a prefix, or of the end. -/
theorem getD_zero_stream (rel_data : List ℕ) (current_vma count : ℕ) :
    (sent (relocRequests rel_data current_vma) ++ List.replicate count 0).getD 0 0 = 0 := by
  cases rel_data with
  | nil =>
    show (List.replicate count (0 : UInt8)).getD 0 0 = 0
    cases count <;> rfl
  | cons rel rel_data =>
    rw [sent_relocRequests_cons]
    cases sub32 (relAddr rel) current_vma <;> rfl

/-- **Which fields the table marks that is sent.** -/
theorem marks_stream {rel_data : List ℕ} (htypes : ∀ rel ∈ rel_data, IsSegment (relType rel)) (start count a : ℕ) :
    Marks (sent (relocRequests rel_data (start % 2 ^ 32)) ++ List.replicate count 0) a ↔
      start + a ∈ fieldPlaces (rel_data.map relAddr) start := by
  induction rel_data generalizing start a with
  | nil =>
    refine iff_of_false (fun hmarks => ?_) List.not_mem_nil
    have hzero : (List.replicate count (0 : UInt8)).getD (a + 1) 0 = 0 := by
      rw [List.getD_eq_getElem?_getD, List.getElem?_replicate]
      split_ifs <;> rfl
    have hup : ((List.replicate count (0 : UInt8)).getD (a + 1) 0).toNat &&& RELOC_TYPE_MASK = RELOC_TYPE_UPPER := hmarks.1
    rw [hzero] at hup
    exact absurd hup (by decide)
  | cons rel rel_data ih =>
    obtain ⟨htype, htypes⟩ := List.forall_mem_cons.mp htypes
    have hlt := relAddr_le rel
    have hnext : (start + sub32 (relAddr rel) (start % 2 ^ 32) + 4) % 2 ^ 32 = add32 (relAddr rel) 4 := by
      unfold sub32 add32
      omega
    rw [sent_relocRequests_cons, ← hnext, List.append_assoc, List.append_assoc, List.append_assoc,
      marks_field_cons htype _ (getD_zero_stream _ _ _), List.map_cons, fieldPlaces, List.mem_cons]
    refine or_congr (by omega) ?_
    constructor
    · rintro ⟨b, rfl, hmarks⟩
      have hplace := (ih htypes _ b).mp hmarks
      rwa [show start + (sub32 (relAddr rel) (start % 2 ^ 32) + 4 + b) =
        start + sub32 (relAddr rel) (start % 2 ^ 32) + 4 + b by omega]
    · intro hplace
      have hle := le_of_mem_fieldPlaces hplace
      refine ⟨a - sub32 (relAddr rel) (start % 2 ^ 32) - 4, by omega, (ih htypes _ _).mpr ?_⟩
      rwa [show start + sub32 (relAddr rel) (start % 2 ^ 32) + 4 + (a - sub32 (relAddr rel) (start % 2 ^ 32) - 4) =
        start + a by omega]

/-- The field at `a` is in the table that `elf2cpm68k.c` sends: wholly before the end of the data, and at
its place. -/
def StaysSent (inp : Input) (hs : Headers) (a : ℕ) : Prop :=
  a + 4 ≤ (programHeader hs.segments 1).p_vaddr + (programHeader hs.segments 1).p_filesz ∧
    a ∈ fieldPlaces (fieldAddrs inp hs) 0

theorem isSegment_relType {l : Layout} {rel : Rela} {word : ℕ} (h : Records l rel word) : IsSegment (relType word) := by
  obtain ⟨hroom, t, ht, rfl⟩ := h
  rw [relType_or hroom (and_mask_of_type ht)]
  rcases relTargetType_eq_ok ht with rfl | rfl | rfl <;> decide

theorem isSegment_of_records {l : Layout} {rels : List Rela} {words : List ℕ} (h : List.Forall₂ (Records l) rels words) :
    ∀ word ∈ words, IsSegment (relType word) := by
  induction h with
  | nil => exact fun _ hword => absurd hword List.not_mem_nil
  | cons hrecord _ ih => exact List.forall_mem_cons.mpr ⟨isSegment_relType hrecord, ih⟩

/-! ### The program -/

/-- What is known of a run that ends without an error: the file has the segments, and what is written
is what is sent. -/
theorem written_of_write_cpm {room : ℕ → ℕ} {log : List (Call UInt8)} (h : write_cpm inp room ef [] = .ok ((), log))
    (hstored : ∀ call ∈ log, call.stored = call.given.length) :
    HasSegments inp ef ∧ written log = sent (cpmRequests inp ef) := by
  by_cases hhas : HasSegments inp ef
  · exact ⟨hhas, (issues_write_cpm hhas).written_of_stored h hstored⟩
  · obtain ⟨e, he⟩ := @raises_write_cpm inp room ef hhas []
    rw [h] at he
    cases he

theorem load_of_elf2cpm68k {room : ℕ → ℕ} {log : List (Call UInt8)} (h : elf2cpm68k inp room [] = .ok ((), log)) :
    ∃ ef, load_elf inp = .ok ef ∧ write_cpm inp room ef [] = .ok ((), log) := by
  unfold elf2cpm68k at h
  cases hload : load_elf inp with
  | error e =>
    rw [hload] at h
    cases h
  | ok ef =>
    rw [hload] at h
    exact ⟨ef, rfl, h⟩

/-- **The program that `elf2cpm68k.c` makes** of a file. -/
theorem programOf_elf2cpm68k {room : ℕ → ℕ} {log : List (Call UInt8)} (hhs : loadHeaders inp = .ok hs)
    (h : elf2cpm68k inp room [] = .ok ((), log)) (hstored : ∀ call ∈ log, call.stored = call.given.length) :
    programOf (written log) =
        { text := ELFLoader.ljust (storedSegment inp hs 0).data (storedSegment inp hs 1).p_vaddr
          memory := (storedSegment inp hs 1).data ++
            List.replicate (sub32 (programHeader hs.segments 1).p_memsz (programHeader hs.segments 1).p_filesz) 0
          marked := {a | a % 2 = 0 ∧ StaysSent inp hs a} } ∧
      (storedSegment inp hs 1).data.length = (programHeader hs.segments 1).p_filesz := by
  obtain ⟨ef, hload, hrun⟩ := load_of_elf2cpm68k h
  have hloads := loads_of_load hload hhs
  obtain ⟨⟨htext, hdata⟩, hwritten⟩ := written_of_write_cpm hrun hstored
  have htextBytes : slice inp.file ef.text_offset (ef.text_offset + ef.text_filesize) = (storedSegment inp hs 0).data := by
    rw [hloads.layout]
    rfl
  have hdataBytes : slice inp.file ef.data_offset (ef.data_offset + ef.data_filesize) = (storedSegment inp hs 1).data := by
    rw [hloads.layout]
    rfl
  have htextLen := length_slice_of_hasBytes htext
  have hdataLen := length_slice_of_hasBytes hdata
  rw [htextBytes] at htextLen
  rw [hdataBytes] at hdataLen
  have hle := hloads.sane.text_le
  have hpad : textPad ef = ef.data_vmaddr - (storedSegment inp hs 0).data.length := by
    rw [htextLen]
    exact sub32_of_le hloads.sane.data_lt hle
  have hvaddr : ((storedSegment inp hs 0).data ++ List.replicate (textPad ef) 0).length = ef.data_vmaddr := by
    rw [List.length_append, List.length_replicate, hpad]
    omega
  have hpack := pack_cpmHeader hloads.sane
  rw [← hvaddr, ← hdataLen] at hpack
  have hend := hloads.dataEnd
  rw [Layout.dataEnd, ← hvaddr, ← hdataLen] at hend
  rw [hwritten, sent_cpmRequests, htextBytes, hdataBytes, programOf_parts hpack, Program.mk.injEq]
  refine ⟨⟨?_, ?_, Set.ext fun a => ?_⟩, ?_⟩
  · rw [hpad, hloads.layout]
    rfl
  · rw [hloads.layout]
  · show _ ∧ a % 2 = 0 ∧ _ ∧ Marks (sent (tableRequests ef)) a ↔ a % 2 = 0 ∧ _ ∧ _
    have hstream := marks_stream (isSegment_of_records hloads.records) 0
      (sub32 (add32 ef.data_vmaddr ef.data_filesize) (relocEnd ef.rel_data 0)) a
    rw [Nat.zero_mod, Nat.zero_add, ← sent_tableRequests, hloads.relAddrs] at hstream
    rw [hend, hstream]
    constructor
    · exact fun hmarks => hmarks.2
    · intro hmarks
      refine ⟨if_pos fun hlen => ?_, hmarks⟩
      have hnone := hmarks.2.2
      rw [← hloads.relAddrs, List.length_eq_zero_iff.mp hlen] at hnone
      exact List.not_mem_nil hnone
  · rw [hdataLen, hloads.layout]

/-! ### When the programs are the same -/

/-- What is stored in the file comes to the same for both converters: the data segment ends in memory
where the sections of the BSS end, and both tables have the same fields at even addresses. -/
structure StoredAlike (inp : Input) (hs : Headers) : Prop where
  memory : (programHeader hs.segments 1).p_vaddr + (programHeader hs.segments 1).p_filesz +
    sub32 (programHeader hs.segments 1).p_memsz (programHeader hs.segments 1).p_filesz = memoryEnd hs
  fields : ∀ a, a % 2 = 0 → (StaysSent inp hs a ↔ StaysSet inp hs a)

/-- **The two load files have the same program** if and only if what is stored comes to the same for
both converters. -/
theorem converters_agree_iff {elf : ELFFile} {room : ℕ → ℕ} {log : List (Call UInt8)} {bytes : List UInt8}
    (hhs : loadHeaders inp = .ok hs) (hc : elf2cpm68k inp room [] = .ok ((), log))
    (hstored : ∀ call ∈ log, call.stored = call.given.length) (helf : AsStored inp hs elf) (hpy : elf2cpm elf = .ok bytes) :
    programOf (written log) = programOf bytes ↔ StoredAlike inp hs := by
  obtain ⟨ef, hload, -⟩ := load_of_elf2cpm68k hc
  obtain ⟨hprogram, hlen⟩ := programOf_elf2cpm68k hhs hc hstored
  obtain ⟨hprogram', hend⟩ := programOf_elf2cpm helf (sectionsFound_of_load hload hhs) hpy
  rw [hlen] at hend
  have hmemory : ∀ n m, (storedSegment inp hs 1).data ++ List.replicate n 0 = ELFLoader.ljust (storedSegment inp hs 1).data m ↔
      n = m - (programHeader hs.segments 1).p_filesz := by
    intro n m
    rw [ELFLoader.ljust, List.append_cancel_left_eq, List.replicate_inj, hlen]
    exact and_iff_left (.inr rfl)
  have hvaddr : (storedSegment inp hs 1).p_vaddr = (programHeader hs.segments 1).p_vaddr := rfl
  rw [hprogram, hprogram', Program.mk.injEq, hmemory]
  constructor
  · rintro ⟨-, hmem, hmarked⟩
    refine ⟨by omega, fun a ha => ?_⟩
    have hiff := Set.ext_iff.mp hmarked a
    exact and_congr_right_iff.mp hiff ha
  · rintro ⟨hmem, hfields⟩
    refine ⟨rfl, by omega, Set.ext fun a => ?_⟩
    exact and_congr_right_iff.mpr (hfields a)

/-- Both converters accept the file, there is room for what they write, and something holds of the load
files. -/
def bothAccept (inp : Input) (p : List UInt8 → List UInt8 → Bool) : Bool :=
  match loadHeaders inp, elf2cpm68k inp (fun _ => COPY_BUF) [] with
  | .ok hs, .ok (_, log) =>
    match elf2cpm (readElf inp hs) with
    | .ok bytes => decide (TwelveBytes hs) && log.all (fun call => call.stored = call.given.length) && p (written log) bytes
    | .error _ => false
  | _, _ => false

theorem exists_of_bothAccept {p : List UInt8 → List UInt8 → Bool} (h : bothAccept inp p = true) :
    ∃ hs log bytes, loadHeaders inp = .ok hs ∧ elf2cpm68k inp (fun _ => COPY_BUF) [] = .ok ((), log) ∧
      (∀ call ∈ log, call.stored = call.given.length) ∧ AsStored inp hs (readElf inp hs) ∧
      elf2cpm (readElf inp hs) = .ok bytes ∧ p (written log) bytes = true := by
  unfold bothAccept at h
  split at h
  · next hs u log hhs hc =>
    split at h
    · next bytes hpy =>
      rw [Bool.and_eq_true, Bool.and_eq_true, List.all_eq_true] at h
      obtain ⟨⟨htwelve, hstored⟩, hp⟩ := h
      exact ⟨hs, log, bytes, hhs, hc, fun call hcall => of_decide_eq_true (hstored call hcall),
        asStored_readElf (of_decide_eq_true htwelve), hpy, hp⟩
    · cases h
  · cases h

/-- A file with a field that refers to a function. -/
theorem converters_agree_iff_small : ∃ hs log bytes,
    elf2cpm68k (smallElf 16 16 0 0 [(0, 0x12, 1)] [(8, 1)]) (fun _ => COPY_BUF) [] = .ok ((), log) ∧
      elf2cpm (readElf (smallElf 16 16 0 0 [(0, 0x12, 1)] [(8, 1)]) hs) = .ok bytes ∧
      (programOf (written log) = programOf bytes ↔ StoredAlike (smallElf 16 16 0 0 [(0, 0x12, 1)] [(8, 1)]) hs) := by
  obtain ⟨hs, log, bytes, hhs, hc, hstored, helf, hpy, -⟩ := exists_of_bothAccept
    (show bothAccept (smallElf 16 16 0 0 [(0, 0x12, 1)] [(8, 1)]) (fun _ _ => true) = true by decide +kernel)
  exact ⟨hs, log, bytes, hc, hpy, converters_agree_iff hhs hc hstored helf hpy⟩

/-- **A reference to an undefined weak symbol** is marked by one converter only. -/
theorem weak_symbol_marked : ∃ hs log bytes,
    loadHeaders (smallElf 16 16 0 0 [(0, 0x20, 0)] [(8, 1)]) = .ok hs ∧
      elf2cpm68k (smallElf 16 16 0 0 [(0, 0x20, 0)] [(8, 1)]) (fun _ => COPY_BUF) [] = .ok ((), log) ∧
      (∀ call ∈ log, call.stored = call.given.length) ∧
      AsStored (smallElf 16 16 0 0 [(0, 0x20, 0)] [(8, 1)]) hs (readElf (smallElf 16 16 0 0 [(0, 0x20, 0)] [(8, 1)]) hs) ∧
      elf2cpm (readElf (smallElf 16 16 0 0 [(0, 0x20, 0)] [(8, 1)]) hs) = .ok bytes ∧
      programOf (written log) ≠ programOf bytes := by
  obtain ⟨hs, log, bytes, hhs, hc, hstored, helf, hpy, htest⟩ := exists_of_bothAccept
    (show bothAccept (smallElf 16 16 0 0 [(0, 0x20, 0)] [(8, 1)]) (fun written bytes =>
      decide (¬ Marks (relocationTable written) 8) && decide (Marks (relocationTable bytes) 8)) = true by decide +kernel)
  obtain ⟨hno, hmarks⟩ := Bool.and_eq_true_iff.mp htest
  refine ⟨hs, log, bytes, hhs, hc, hstored, helf, hpy, fun heq => ?_⟩
  have hmem : 8 ∈ (programOf bytes).marked := ⟨rfl, of_decide_eq_true hmarks⟩
  rw [← heq] at hmem
  exact of_decide_eq_true hno hmem.2

/-! ### Fields that do not overlap -/

/-- Fields in order keep their places. -/
theorem fieldPlaces_of_spaced {addrs : List ℕ} {start : ℕ} (hspaced : Spaced addrs) (hlt : ∀ a ∈ addrs, a < 2 ^ 32)
    (hstart : ∀ a ∈ addrs.head?, start ≤ a) : fieldPlaces addrs start = addrs := by
  induction addrs generalizing start with
  | nil => rfl
  | cons a addrs ih =>
    obtain ⟨ha, hlt⟩ := List.forall_mem_cons.mp hlt
    have hle := hstart a rfl
    have hplace : start + sub32 a (start % 2 ^ 32) = a := by
      unfold sub32
      omega
    rw [Spaced, List.isChain_cons] at hspaced
    rw [fieldPlaces, hplace, ih hspaced.2 hlt hspaced.1]

theorem Spaced.pairwise {addrs : List ℕ} (h : Spaced addrs) : addrs.Pairwise fun a b => a + 4 ≤ b := by
  have htrans : IsTrans ℕ fun a b => a + 4 ≤ b := ⟨fun _ _ _ h₁ h₂ => by omega⟩
  exact List.isChain_iff_pairwise.mp h

/-- Fields in order do not overwrite one another. -/
theorem setLast_of_spaced {addrs : List ℕ} (h : Spaced addrs) (a : ℕ) : SetLast addrs.eraseDups a ↔ a ∈ addrs := by
  rw [Dict.eraseDups_of_nodup (h.pairwise.imp fun hlt => by omega)]
  refine ⟨mem_of_setLast, fun ha => ?_⟩
  obtain ⟨earlier, later, rfl⟩ := List.append_of_mem ha
  have hlater := (List.pairwise_cons.mp (List.pairwise_append.mp h.pairwise).2.1).1
  exact ⟨earlier, later, rfl, fun k hk => .inr (hlater k hk)⟩

theorem allFields_eq (hoff : hs.header.e_shoff ≠ 0) :
    allFields inp hs = ((elfRelas inp hs).filter fun rel => rel.rel_type = R_68K_32).map Rela.r_offset := by
  rw [allFields, sectionIndices, if_neg hoff, elfRelas, loadedRelas, List.filter_flatMap, List.map_flatMap]
  rfl

theorem fieldAddrs_eq (h : TwelveBytes hs) : fieldAddrs inp hs = ((elfRelas inp hs).filter Rela.recorded).map Rela.r_offset := by
  rw [fieldAddrs, loadedRelas_eq h]

/-- The relocation is of a weak symbol with the value 0. -/
def Rela.weakZero (rel : Rela) : Prop := rel.st_value = 0 ∧ rel.st_bind = STB_WEAK

theorem recorded_iff (rel : Rela) : rel.recorded = true ↔ rel.rel_type = R_68K_32 ∧ ¬ rel.weakZero := by
  unfold Rela.recorded Rela.weakZero
  rw [← Bool.decide_and, Bool.and_eq_true, decide_eq_true_iff, Bool.not_eq_true', decide_eq_false_iff_not]

/-- **For fields that do not overlap**, in order and inside the data segment: both tables have the same
fields if and only if no relocation of an even address is of a weak symbol with the value 0. -/
theorem keep_iff_of_spaced (hoff : hs.header.e_shoff ≠ 0) (htwelve : TwelveBytes hs) (hspaced : Spaced (allFields inp hs))
    (hinside : ∀ a ∈ allFields inp hs, a + 4 ≤ (programHeader hs.segments 1).p_vaddr + (programHeader hs.segments 1).p_filesz) :
    (∀ a, a % 2 = 0 → (StaysSent inp hs a ↔ StaysSet inp hs a)) ↔
      ∀ rel ∈ elfRelas inp hs, rel.rel_type = R_68K_32 → rel.r_offset % 2 = 0 → ¬ rel.weakZero := by
  have hall := @allFields_eq inp hs hoff
  have hrecorded := @fieldAddrs_eq inp hs htwelve
  have hsub : (fieldAddrs inp hs).Sublist (allFields inp hs) := by
    rw [hall, hrecorded]
    refine (List.monotone_filter_right _ fun rel hrel => ?_).map _
    exact decide_eq_true ((recorded_iff rel).mp hrel).1
  have hplaces : fieldPlaces (fieldAddrs inp hs) 0 = fieldAddrs inp hs := by
    refine fieldPlaces_of_spaced (hspaced.pairwise.sublist hsub).isChain (fun a ha => ?_) fun _ _ => Nat.zero_le _
    obtain ⟨rel, hrel, rfl⟩ := List.mem_map.mp ha
    exact (lt_of_mem_loadedRelas (List.mem_of_mem_filter hrel)).1
  have hset : ∀ a, StaysSet inp hs a ↔ a ∈ allFields inp hs := setLast_of_spaced hspaced
  have hsent : ∀ a, StaysSent inp hs a ↔ a ∈ fieldAddrs inp hs := by
    intro a
    rw [StaysSent, hplaces]
    exact and_iff_right_of_imp fun ha => hinside a (hsub.subset ha)
  simp only [hset, hsent]
  rw [hall] at hspaced ⊢
  rw [hrecorded]
  constructor
  · intro hkeep rel hrel htype heven
    have hmem : rel ∈ (elfRelas inp hs).filter fun rel => rel.rel_type = R_68K_32 :=
      List.mem_filter.mpr ⟨hrel, decide_eq_true htype⟩
    obtain ⟨rel', hrel', hoffset⟩ := List.mem_map.mp ((hkeep _ heven).mpr (List.mem_map_of_mem hmem))
    obtain ⟨hin', hrec'⟩ := List.mem_filter.mp hrel'
    have hmem' : rel' ∈ (elfRelas inp hs).filter fun rel => rel.rel_type = R_68K_32 :=
      List.mem_filter.mpr ⟨hin', decide_eq_true ((recorded_iff rel').mp hrec').1⟩
    -- two relocations of one field overlap, so this is the one that is recorded
    have heq : rel' = rel := by
      by_contra hne
      have hsymm : Std.Symm fun r r' : Rela => r.r_offset ≠ r'.r_offset := ⟨fun _ _ => Ne.symm⟩
      have hpair : ((elfRelas inp hs).filter fun rel => rel.rel_type = R_68K_32).Pairwise fun r r' =>
          r.r_offset ≠ r'.r_offset := (List.pairwise_map.mp hspaced.pairwise).imp fun hlt => by omega
      exact hpair.forall hmem' hmem hne hoffset
    exact heq ▸ ((recorded_iff rel').mp hrec').2
  · intro hstrong a heven
    refine ⟨fun ha => ?_, fun ha => ?_⟩
    · exact hall ▸ hsub.subset (hrecorded ▸ ha)
    · obtain ⟨rel, hrel, rfl⟩ := List.mem_map.mp ha
      obtain ⟨hin, htype⟩ := List.mem_filter.mp hrel
      have htype := of_decide_eq_true htype
      exact List.mem_map_of_mem (List.mem_filter.mpr ⟨hin, (recorded_iff rel).mpr ⟨htype, hstrong rel hin htype heven⟩⟩)

end Cpm68k.Tools.Elf2Cpm68k
