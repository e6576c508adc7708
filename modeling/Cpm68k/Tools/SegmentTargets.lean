import Cpm68k.Tools.Elf2Cpm

/-!
# Where the relocated addresses lie

`ELFLoader.load` checks that the target of a relocation lies in the text, the data or the BSS, and
that the addend is not larger than that section is long. It does not check the sum of the two, which
is what the field holds. That the field has no sign keeps the sum from being negative.

## What is proved

* `recorded_of_load` — the type of each relocation that is returned is that of the last entry for
  its address, and the field there holds the target and the addend of that entry.
* `guardsEnough_up_iff`, `guardsEnough_down_iff` — the checks are enough for every addend from 0 on
  exactly for a target at the start of its segment, and for every negative one exactly for a target
  whose segment starts at address 0.
* `stays_in_segment_iff` — from both, the sum stays in the segment of the target exactly when a positive addend
  leads to no target too near to the end of its segment, and a negative one to no target too near to
  the start of the data or the BSS.
* `addend_past_text` — an addend that leads from the text into the data is accepted.
-/

namespace Cpm68k.Tools.ELFLoader

open Cpm68k.Library

/-! ### The entries -/

/-- An entry that makes a relocation. -/
structure Fixup where
  /-- The address of the field. -/
  address : ℕ
  /-- The value of the symbol. -/
  target : ℕ
  /-- The addend. -/
  addend : ℤ
deriving DecidableEq

/-- The fixup for a relocation of a section, if it is one. -/
def relocFixup (symtab : Section) (reloc : Reloc) : Option Fixup :=
  if reloc.r_info_type = R_68K_32 then do
    let symbols ← symtab.symbols
    let target ← symbols[reloc.r_info_sym]?
    return ⟨reloc.r_offset, target, reloc.r_addend⟩
  else none

/-- The fixups of a section. -/
def sectionFixups (ef : ELFFile) (s : Section) : List Fixup :=
  match s.relocations, ef.getSection s.sh_info, ef.getSection s.sh_link with
  | some relocations, .ok relocSection, .ok symtab =>
    if relocSection.sh_flags &&& SHF_ALLOC = 0 then [] else relocations.filterMap (relocFixup symtab)
  | _, _, _ => []

/-- The fixups of the sections that are loaded, in the order of the file. -/
def fixups (ef : ELFFile) : List Fixup := ef.sections.flatMap (sectionFixups ef)

/-- The last fixup of a field. -/
def lastAt (fs : List Fixup) (a : ℕ) : Option Fixup := fs.reverse.find? fun f => f.address = a

theorem lastAt_append_singleton (fs : List Fixup) (f : Fixup) (a : ℕ) :
    lastAt (fs ++ [f]) a = if f.address = a then some f else lastAt fs a := by
  rw [lastAt, List.reverse_append, List.reverse_singleton, List.singleton_append, List.find?_cons]
  by_cases ha : f.address = a
  · simp [ha]
  · simp [ha, lastAt]

theorem mem_of_lastAt {fs : List Fixup} {a : ℕ} {f : Fixup} (h : lastAt fs a = some f) : f ∈ fs ∧ f.address = a := by
  have haddress := List.find?_some (p := fun f : Fixup => decide (f.address = a)) h
  exact ⟨List.mem_reverse.mp (List.mem_of_find?_eq_some h), of_decide_eq_true haddress⟩

/-! ### What is recorded -/

/-- The segment of a target. -/
def segmentOf (text data : List UInt8) (target : ℕ) : ℕ :=
  if target < text.length then R_TEXT else if target < text.length + data.length then R_DATA else R_BSS

theorem segmentOf_eq {text data : List UInt8} {bssSize target segment : ℕ} {addend : ℤ}
    (h : targetSegment text data bssSize target addend = .ok segment) : segment = segmentOf text data target := by
  unfold targetSegment at h
  unfold segmentOf
  split_ifs at h ⊢ <;> injection h with h <;> exact h.symm

theorem target_le {text data : List UInt8} {bssSize target segment : ℕ} {addend : ℤ}
    (h : targetSegment text data bssSize target addend = .ok segment) : target ≤ text.length + data.length + bssSize := by
  unfold targetSegment at h
  split_ifs at h <;> omega

/-- The map after the fixups `done`: each address has the segment of its last fixup, the targets lie
in the image, and each field holds the sum of the target and the addend. -/
structure Recorded (text data : List UInt8) (bssSize : ℕ) (done : List Fixup) (relocs : Dict ℕ ℕ) : Prop where
  get? : ∀ a, relocs.get? a = (lastAt done a).map fun f : Fixup => R_68K_32 ||| segmentOf text data f.target
  inImage : ∀ f ∈ done, f.target ≤ text.length + data.length + bssSize
  stored : ∀ f ∈ done, ∃ field : ℕ, unRelocated text data f.address = .ok field ∧ (field : ℤ) = f.target + f.addend

variable {text data : List UInt8} {bssSize : ℕ} {done : List Fixup} {relocs relocs' : Dict ℕ ℕ} {ef : ELFFile}

theorem Recorded.empty : Recorded text data bssSize [] Dict.empty where
  get? a := Dict.get?_empty a
  inImage _ hf := absurd hf List.not_mem_nil
  stored _ hf := absurd hf List.not_mem_nil

/-- **What one relocation does.** -/
theorem Recorded.loadReloc {symtab : Section} {reloc : Reloc} (hr : Recorded text data bssSize done relocs)
    (h : ELFLoader.loadReloc text data bssSize symtab relocs reloc = .ok relocs') :
    Recorded text data bssSize (done ++ (relocFixup symtab reloc).toList) relocs' := by
  obtain ⟨htype, rfl⟩ | ⟨symbols, target, segment, field, hsymbols, htarget, htype, hsegment, hfield, hsum, rfl⟩ :=
    loadReloc_cases h
  · rw [relocFixup, if_neg htype, Option.toList_none, List.append_nil]
    exact hr
  · have hfixup : relocFixup symtab reloc = some ⟨reloc.r_offset, target, reloc.r_addend⟩ := by
      rw [relocFixup, if_pos htype, hsymbols]
      show (symbols[reloc.r_info_sym]?).bind _ = _
      rw [htarget]
      rfl
    rw [hfixup, Option.toList_some]
    constructor
    · intro a
      rw [lastAt_append_singleton, Dict.get?_set, hr.get?, segmentOf_eq hsegment]
      by_cases ha : a = reloc.r_offset
      · rw [if_pos ha, if_pos ha.symm]
        rfl
      · rw [if_neg ha, if_neg (Ne.symm ha)]
    · intro f hf
      rcases List.mem_append.mp hf with hf | hf
      · exact hr.inImage f hf
      · rw [List.mem_singleton.mp hf]
        exact target_le hsegment
    · intro f hf
      rcases List.mem_append.mp hf with hf | hf
      · exact hr.stored f hf
      · rw [List.mem_singleton.mp hf]
        exact ⟨field, hfield, hsum⟩

/-- What one section does. -/
theorem Recorded.loadSection {s : Section} (hr : Recorded text data bssSize done relocs)
    (h : ELFLoader.loadSection ef text data bssSize relocs s = .ok relocs') :
    Recorded text data bssSize (done ++ sectionFixups ef s) relocs' := by
  unfold ELFLoader.loadSection at h
  unfold sectionFixups
  cases hs : s.relocations with
  | none =>
    simp only [hs, Except.ok.injEq] at h
    rw [← h, List.append_nil]
    exact hr
  | some relocations =>
    simp only [hs] at h
    obtain ⟨relocSection, hsection, h⟩ := bind_eq_ok.mp h
    by_cases halloc : relocSection.sh_flags &&& SHF_ALLOC = 0
    · rw [if_pos halloc, Except.ok.injEq] at h
      have hnone : (match some relocations, ef.getSection s.sh_info, ef.getSection s.sh_link with
          | some relocations, .ok relocSection, .ok symtab =>
            if relocSection.sh_flags &&& SHF_ALLOC = 0 then [] else relocations.filterMap (relocFixup symtab)
          | _, _, _ => []) = [] := by
        rw [hsection]
        cases ef.getSection s.sh_link with
        | ok symtab => exact if_pos halloc
        | error e => rfl
      rw [hnone, ← h, List.append_nil]
      exact hr
    · rw [if_neg halloc] at h
      obtain ⟨symtab, hsymtab, h⟩ := bind_eq_ok.mp h
      simp only [hsection, hsymtab, if_neg halloc]
      -- over the relocations that have been gone through
      exact foldlM_prefix (P := fun gone s => Recorded text data bssSize (done ++ gone.filterMap (relocFixup symtab)) s)
        (fun gone reloc _ s s' hgone hstep => by
          have hnext := hgone.loadReloc hstep
          rw [List.filterMap_append, List.filterMap_cons, List.filterMap_nil, ← List.append_assoc]
          cases hfixup : relocFixup symtab reloc with
          | none => rwa [hfixup] at hnext
          | some f => rwa [hfixup] at hnext) (by rwa [List.filterMap_nil, List.append_nil]) h

/-- **What the loader returns** for each address. -/
theorem recorded_of_load {image : ELFLoader} (h : load ef = .ok image) :
    Recorded image.text image.data image.bssSize (fixups ef) image.relocs := by
  obtain ⟨-, -, -, -, hrelocs⟩ := load_eq_ok h
  exact foldlM_prefix (P := fun gone s => Recorded image.text image.data image.bssSize (gone.flatMap (sectionFixups ef)) s)
    (fun gone s _ _ _ hgone hstep => by
      rw [List.flatMap_append, List.flatMap_singleton]
      exact hgone.loadSection hstep) Recorded.empty hrelocs

/-! ### The segments -/

/-- Where the text, the data and the BSS end. -/
structure Limits where
  /-- The end of the text. -/
  text : ℕ
  /-- The end of the data. -/
  data : ℕ
  /-- The end of the BSS. -/
  bss : ℕ

/-- The limits, as the headers have them: the text goes up to the data, and the data up to the
BSS. -/
def limits (ef : ELFFile) (dataSegment : Segment) : Limits :=
  match findBss ef.sections none none with
  | (some address, some limit) => ⟨dataSegment.p_vaddr, address, limit⟩
  | _ => ⟨dataSegment.p_vaddr, dataSegment.p_vaddr + dataSegment.p_filesz, dataSegment.p_vaddr + dataSegment.p_filesz⟩

/-- The BSS ends behind its start. -/
theorem findBss_le {sections : List Section} {bssAddress bssLimit : Option ℕ}
    (h : ∀ address ∈ bssAddress, ∀ limit ∈ bssLimit, address ≤ limit) :
    ∀ address ∈ (findBss sections bssAddress bssLimit).1, ∀ limit ∈ (findBss sections bssAddress bssLimit).2, address ≤ limit := by
  induction sections generalizing bssAddress bssLimit with
  | nil => exact h
  | cons s sections ih =>
    rw [findBss]
    split_ifs with hbss
    · apply ih
      cases bssAddress with
      | none =>
        cases bssLimit with
        | none => simp
        | some limit =>
          simp only [Option.mem_some_iff, forall_eq']
          split_ifs <;> omega
      | some address =>
        cases bssLimit with
        | none =>
          simp only [Option.mem_some_iff, forall_eq']
          split_ifs <;> omega
        | some limit =>
          have hle := h address rfl limit rfl
          simp only [Option.mem_some_iff, forall_eq']
          split_ifs <;> omega
    · exact ih h

/-- What is made of the segments: the text and the data are padded, up to the limits. -/
structure Padded (ef : ELFFile) (textSegment dataSegment : Segment) (text data : List UInt8) (bssSize : ℕ) : Prop where
  textBytes : text = ljust textSegment.data text.length
  dataBytes : data = ljust dataSegment.data data.length
  textEnd : text.length = (limits ef dataSegment).text
  dataEnd : text.length + data.length = (limits ef dataSegment).data
  bssEnd : text.length + data.length + bssSize = (limits ef dataSegment).bss

theorem padded_of_loadSegments {textSegment dataSegment : Segment}
    (h : loadSegments ef textSegment dataSegment = .ok (text, data, bssSize)) :
    Padded ef textSegment dataSegment text data bssSize := by
  have hle := @findBss_le ef.sections none none (by simp)
  rcases hfind : findBss ef.sections none none with ⟨_ | address, _ | limit⟩
  all_goals
    simp only [hfind, Option.mem_some_iff, forall_eq', Option.not_mem_none, false_imp_iff, implies_true] at hle
    simp only [loadSegments, hfind] at h
    obtain ⟨hdataGap, h⟩ := ite_error_eq_ok.mp h
    obtain ⟨hbssGap, h⟩ := ite_error_eq_ok.mp h
    obtain ⟨-, h⟩ := ite_error_eq_ok.mp h
    obtain ⟨-, h⟩ := ite_error_eq_ok.mp h
    obtain ⟨haddress, h⟩ := ite_error_eq_ok.mp h
    obtain ⟨-, h⟩ := ite_error_eq_ok.mp h
    obtain ⟨-, h⟩ := ite_error_eq_ok.mp h
    obtain ⟨htext, h⟩ := ite_error_eq_ok.mp h
    obtain ⟨hdata, h⟩ := ite_error_eq_ok.mp h
    rw [Except.ok.injEq, Prod.mk.injEq, Prod.mk.injEq] at h
    obtain ⟨htextEq, hdataEq, hsizeEq⟩ := h
    rw [htextEq] at htext
    rw [hdataEq] at hdata
    have htextBytes : text = ljust textSegment.data text.length := by
      rw [not_not.mp htext]
      exact htextEq.symm
    have hdataBytes : data = ljust dataSegment.data data.length := by
      rw [not_not.mp hdata]
      exact hdataEq.symm
    refine ⟨htextBytes, hdataBytes, ?_, ?_, ?_⟩ <;> simp only [limits, hfind] <;> omega

/-- **The sections have the sizes that the headers say.** -/
theorem lengths_of_loadSegments {textSegment dataSegment : Segment}
    (h : loadSegments ef textSegment dataSegment = .ok (text, data, bssSize)) :
    text.length = (limits ef dataSegment).text ∧ text.length + data.length = (limits ef dataSegment).data ∧
      text.length + data.length + bssSize = (limits ef dataSegment).bss :=
  have hpadded := padded_of_loadSegments h
  ⟨hpadded.textEnd, hpadded.dataEnd, hpadded.bssEnd⟩

/-! ### Where the sums lie -/

/-- The field is wholly in the text or wholly in the data, and the address it holds lies in the
segment that the type names, or right behind that segment. -/
structure StaysInSegment (image : ELFLoader) (a v : ℕ) : Prop where
  inside : FieldInside image.text image.data a
  stored : ∃ field, unRelocated image.text image.data a = .ok field ∧
    (v = R_68K_32 ||| R_TEXT ∧ field ≤ image.text.length ∨
      v = R_68K_32 ||| R_DATA ∧ image.text.length ≤ field ∧ field ≤ image.text.length + image.data.length ∨
      v = R_68K_32 ||| R_BSS ∧ image.text.length + image.data.length ≤ field ∧
        field ≤ image.text.length + image.data.length + image.bssSize)

/-- Where the segment of a target starts and ends. -/
def Limits.range (l : Limits) (target : ℕ) : ℕ × ℕ :=
  if target < l.text then (0, l.text) else if target < l.data then (l.text, l.data) else (l.data, l.bss)

/-- How far a target lies behind the start of its segment. -/
def Limits.depth (l : Limits) (target : ℕ) : ℕ := target - (l.range target).1

/-- How far a target lies before the end of its segment. -/
def Limits.room (l : Limits) (target : ℕ) : ℕ := (l.range target).2 - target

/-- The addend asks for no more than there is. A positive one is only compared with the whole
segment, and so may ask for more room than there is behind the target. A negative one is compared
with nothing, but in the text it leads out of no segment. -/
def AddendKept (l : Limits) (f : Fixup) : Prop :=
  match f.addend with
  | .ofNat n => n ≤ l.room f.target
  | .negSucc n => f.target < l.text ∨ n + 1 ≤ l.depth f.target

/-- Whatever addend with `among` the checks let through for this target, its sum with the target lies
in the segment, or right behind it. -/
def GuardsEnough (text data : List UInt8) (bssSize : ℕ) (l : Limits) (among : ℤ → Prop) (target : ℕ) : Prop :=
  ∀ (addend : ℤ) (segment : ℕ), among addend → targetSegment text data bssSize target addend = .ok segment →
    ∀ field : ℕ, field < 2 ^ 32 → (field : ℤ) = target + addend → (l.range target).1 ≤ field ∧ field ≤ (l.range target).2

/-- What is known of the segments of a file that `load` accepts. -/
theorem segments_of_load {image : ELFLoader} {textSegment dataSegment : Segment} (h : load ef = .ok image)
    (hsegments : ef.segments = [textSegment, dataSegment]) :
    loadSegments ef textSegment dataSegment = .ok (image.text, image.data, image.bssSize) := by
  obtain ⟨_, _, heq, hload, -⟩ := load_eq_ok h
  rw [hsegments] at heq
  injection heq with htext heq
  injection heq with hdata _
  rwa [htext, hdata]

/-- The checks let through an addend no larger than the segment of the target. -/
theorem targetSegment_ok_iff {l : Limits} {target : ℕ} {addend : ℤ} (htext : text.length = l.text)
    (hdata : text.length + data.length = l.data) (hbss : text.length + data.length + bssSize = l.bss) (htarget : target ≤ l.bss) :
    (∃ segment, targetSegment text data bssSize target addend = .ok segment) ↔
      addend ≤ (l.range target).2 - (l.range target).1 := by
  have hlarge : ∀ {n : ℕ} {msg : String} {segment : ℕ},
      (∃ s, (if addend > n then Except.error (PyError.runtimeError msg) else .ok segment) = .ok s) ↔ addend ≤ n := by
    intro n msg segment
    split_ifs with h
    · exact iff_of_false (fun ⟨_, hs⟩ => nomatch hs) (not_le.mpr h)
    · exact iff_of_true ⟨segment, rfl⟩ (not_lt.mp h)
  unfold targetSegment Limits.range
  rw [hbss, hdata, htext]
  by_cases hintext : target < l.text
  · rw [if_pos hintext, if_pos hintext, hlarge]
    omega
  by_cases hindata : target < l.data
  · rw [if_neg hintext, if_pos hindata, if_neg hintext, if_pos hindata, hlarge]
    omega
  · rw [if_neg hintext, if_neg hindata, if_pos htarget, if_neg hintext, if_neg hindata, hlarge]
    omega

/-- A target of the image lies in its segment, or right behind the last one. -/
theorem range_of_le {l : Limits} {target : ℕ} (htd : l.text ≤ l.data) (hdb : l.data ≤ l.bss) (htarget : target ≤ l.bss) :
    (l.range target).1 ≤ target ∧ target ≤ (l.range target).2 ∧ (l.range target).2 ≤ l.bss := by
  unfold Limits.range
  split_ifs <;> omega

/-- **The check of the addend is enough** against a sum behind the segment exactly for a target at the
start of the segment: it compares the addend with the whole segment. -/
theorem guardsEnough_up_iff {l : Limits} {target : ℕ} (htext : text.length = l.text)
    (hdata : text.length + data.length = l.data) (hbss : text.length + data.length + bssSize = l.bss)
    (hsmall : l.bss + 1 < 2 ^ 32) (htarget : target ≤ l.bss) :
    GuardsEnough text data bssSize l (0 ≤ ·) target ↔ target = (l.range target).1 := by
  obtain ⟨hstart, hend, hbound⟩ := range_of_le (by omega) (by omega) htarget
  constructor
  · intro henough
    by_contra hne
    -- the first address that is neither in the segment nor right behind it
    have hlet : (l.range target).2 + 1 - (target : ℤ) ≤ (l.range target).2 - (l.range target).1 := by omega
    obtain ⟨segment, hseg⟩ := (targetSegment_ok_iff htext hdata hbss htarget).mpr hlet
    have hout := henough _ segment (by omega) hseg ((l.range target).2 + 1) (by omega) (by push_cast; omega)
    omega
  · intro heq addend segment hpos hseg field _ hfield
    have hlen := (targetSegment_ok_iff htext hdata hbss htarget).mp ⟨segment, hseg⟩
    omega

/-- **No check is needed** against a sum before the segment exactly for a target whose segment starts
at address 0: only the field, which has no sign, bounds a negative addend. -/
theorem guardsEnough_down_iff {l : Limits} {target : ℕ} (htext : text.length = l.text)
    (hdata : text.length + data.length = l.data) (hbss : text.length + data.length + bssSize = l.bss) (htarget : target ≤ l.bss) :
    GuardsEnough text data bssSize l (· < 0) target ↔ (l.range target).1 = 0 := by
  obtain ⟨hstart, hend, -⟩ := range_of_le (by omega) (by omega) htarget
  constructor
  · intro henough
    by_contra hne
    -- the addend that leads back to address 0
    have hlet : -(target : ℤ) ≤ (l.range target).2 - (l.range target).1 := by omega
    obtain ⟨segment, hseg⟩ := (targetSegment_ok_iff htext hdata hbss htarget).mpr hlet
    have hout := henough _ segment (by omega) hseg 0 (by decide) (by omega)
    omega
  · intro hzero addend segment hneg hseg field _ hfield
    omega

/-- One relocation stays in its segment when the addend is kept. -/
theorem staysInSegment_iff {image : ELFLoader} {l : Limits} {a field : ℕ} {f : Fixup}
    (hlimits : image.text.length = l.text ∧ image.text.length + image.data.length = l.data ∧
      image.text.length + image.data.length + image.bssSize = l.bss) (htarget : f.target ≤ l.bss)
    (hfield : unRelocated image.text image.data a = .ok field) (hsum : (field : ℤ) = f.target + f.addend) :
    StaysInSegment image a (R_68K_32 ||| segmentOf image.text image.data f.target) ↔ AddendKept l f := by
  obtain ⟨htext, hdata, hbss⟩ := hlimits
  have hinside := unRelocated_eq_ok hfield
  have hiff : StaysInSegment image a (R_68K_32 ||| segmentOf image.text image.data f.target) ↔
      (R_68K_32 ||| segmentOf image.text image.data f.target = R_68K_32 ||| R_TEXT ∧ field ≤ l.text ∨
        R_68K_32 ||| segmentOf image.text image.data f.target = R_68K_32 ||| R_DATA ∧ l.text ≤ field ∧ field ≤ l.data ∨
        R_68K_32 ||| segmentOf image.text image.data f.target = R_68K_32 ||| R_BSS ∧ l.data ≤ field ∧ field ≤ l.bss) := by
    rw [← hbss, ← hdata, ← htext]
    constructor
    · rintro ⟨-, field', hfield', hseg⟩
      rw [hfield] at hfield'
      injection hfield' with hfield'
      rwa [hfield']
    · exact fun hseg => ⟨hinside, field, hfield, hseg⟩
  have hne : R_68K_32 ||| R_TEXT ≠ R_68K_32 ||| R_DATA ∧ R_68K_32 ||| R_TEXT ≠ R_68K_32 ||| R_BSS ∧
      R_68K_32 ||| R_DATA ≠ R_68K_32 ||| R_BSS := by decide
  have hkept : AddendKept l f ↔ ((l.range f.target).1 : ℤ) ≤ field ∧ (field : ℤ) ≤ (l.range f.target).2 := by
    unfold AddendKept Limits.room Limits.depth Limits.range
    cases haddend : f.addend with
    | ofNat n =>
      rw [haddend, Int.ofNat_eq_natCast] at hsum
      dsimp only
      split_ifs <;> omega
    | negSucc n =>
      rw [haddend, Int.negSucc_eq] at hsum
      dsimp only
      split_ifs <;> omega
  rw [hiff, hkept]
  unfold segmentOf Limits.range
  rw [hdata, htext]
  split_ifs with hin hin'
  · simp only [hne.1, hne.2.1, true_and, false_and, or_false]
    omega
  · simp only [hne.1.symm, hne.2.2, true_and, false_and, or_false, false_or]
    omega
  · simp only [hne.2.1.symm, hne.2.2.symm, true_and, false_and, false_or]
    omega

/-- **Every relocation stays in its segment** if and only if the last entry for each field asks for no
more room behind its target than there is, nor, outside the text, for more before it. The checks see
to that by themselves for a target at the start of its segment, if the addend is not negative, and
for one whose segment starts at address 0, if it is negative, and for no others. -/
theorem stays_in_segment_iff {image : ELFLoader} {textSegment dataSegment : Segment} (h : load ef = .ok image)
    (hsegments : ef.segments = [textSegment, dataSegment]) :
    ((∀ a v, image.relocs.get? a = some v → StaysInSegment image a v) ↔
        ∀ a f, lastAt (fixups ef) a = some f → AddendKept (limits ef dataSegment) f) ∧
      ∀ target ≤ (limits ef dataSegment).bss, (limits ef dataSegment).bss + 1 < 2 ^ 32 →
        (GuardsEnough image.text image.data image.bssSize (limits ef dataSegment) (0 ≤ ·) target ↔
            target = ((limits ef dataSegment).range target).1) ∧
          (GuardsEnough image.text image.data image.bssSize (limits ef dataSegment) (· < 0) target ↔
            ((limits ef dataSegment).range target).1 = 0) := by
  have hr := recorded_of_load h
  have hlimits := lengths_of_loadSegments (segments_of_load h hsegments)
  have hone : ∀ a f, lastAt (fixups ef) a = some f →
      (StaysInSegment image a (R_68K_32 ||| segmentOf image.text image.data f.target) ↔
        AddendKept (limits ef dataSegment) f) := by
    intro a f hf
    obtain ⟨hmem, haddress⟩ := mem_of_lastAt hf
    obtain ⟨field, hfield, hsum⟩ := hr.stored f hmem
    rw [haddress] at hfield
    exact staysInSegment_iff hlimits (hlimits.2.2 ▸ hr.inImage f hmem) hfield hsum
  refine ⟨⟨?_, ?_⟩, fun target htarget hsmall => ⟨?_, ?_⟩⟩
  · intro hstays a f hf
    refine (hone a f hf).mp (hstays a _ ?_)
    rw [hr.get?, hf]
    rfl
  · intro haddend a v hv
    rw [hr.get?] at hv
    obtain ⟨f, hf, hv⟩ := Option.map_eq_some_iff.mp hv
    rw [← hv]
    exact (hone a f hf).mpr (haddend a f hf)
  · exact guardsEnough_up_iff hlimits.1 hlimits.2.1 hlimits.2.2 hsmall htarget
  · exact guardsEnough_down_iff hlimits.1 hlimits.2.1 hlimits.2.2 htarget

/-- An executable of eight bytes of text and two of data: the field at the start of the text refers
to a symbol at 4 with an addend. -/
def addendReloc (field : UInt8) (addend : ℤ) : ELFFile where
  e_type := ET_EXEC
  e_machine := EM_68K
  segments := [⟨PT_LOAD, P_FLAGS_RX, 0, 8, [0, 0, 0, field, 0, 0, 0, 0]⟩, ⟨PT_LOAD, P_FLAGS_RW, 8, 2, [0, 1]⟩]
  sections := [⟨4, 0, 0, 12, 1, 2, some [⟨0, R_68K_32, 0, addend, true⟩], none⟩]
  getSection i := if i = 1 then .ok ⟨2, 0, 0, 16, 0, 0, none, some [4]⟩ else .ok ⟨1, SHF_ALLOC, 0, 8, 0, 0, none, none⟩

/-- Where the text and the data of `addendReloc` end. -/
def addendLimits : Limits := ⟨8, 10, 10⟩

/-- The end of the text is let through. -/
theorem stays_in_segment_iff_small :
    ((∀ a v, (Dict.empty.set 0 R_68K_32).get? a = some v →
        StaysInSegment ⟨[0, 0, 0, 8, 0, 0, 0, 0], [0, 1], 0, Dict.empty.set 0 R_68K_32⟩ a v) ↔
        ∀ a f, lastAt (fixups (addendReloc 8 4)) a = some f → AddendKept addendLimits f) ∧
      ∀ target ≤ addendLimits.bss, addendLimits.bss + 1 < 2 ^ 32 →
        (GuardsEnough [0, 0, 0, 8, 0, 0, 0, 0] [0, 1] 0 addendLimits (0 ≤ ·) target ↔ target = (addendLimits.range target).1) ∧
          (GuardsEnough [0, 0, 0, 8, 0, 0, 0, 0] [0, 1] 0 addendLimits (· < 0) target ↔ (addendLimits.range target).1 = 0) :=
  @stays_in_segment_iff (addendReloc 8 4) ⟨[0, 0, 0, 8, 0, 0, 0, 0], [0, 1], 0, Dict.empty.set 0 R_68K_32⟩
    ⟨PT_LOAD, P_FLAGS_RX, 0, 8, [0, 0, 0, 8, 0, 0, 0, 0]⟩ ⟨PT_LOAD, P_FLAGS_RW, 8, 2, [0, 1]⟩ rfl rfl

/-- **An addend that leads from the text past its end** is accepted: 4 + 6 is in the data. -/
theorem addend_past_text : ∃ image, load (addendReloc 10 6) = .ok image ∧
    ∃ a v, image.relocs.get? a = some v ∧ ¬ StaysInSegment image a v := by
  refine ⟨_, rfl, 0, R_68K_32, rfl, fun hstays => ?_⟩
  obtain ⟨field, hfield, hseg⟩ := hstays.stored
  injection hfield with hfield
  rw [← hfield] at hseg
  exact absurd hseg (by decide)

end Cpm68k.Tools.ELFLoader
