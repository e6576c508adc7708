import Cpm68k.Library.Rebase
import Cpm68k.Tools.StoredElf

/-!
# Loading is linking

A load file is linked at address 0, and whoever loads it at another address adds that address to
the fields that the relocation table names. What is then in memory should be what the linker would
have made of the program at that address: text, data and BSS as they are, and in every field the
target and the addend, with all targets moved.

`elf2cpm.py` gets there as long as the relocation table can hold the fields (`FieldsAligned`). It
checks that each field holds the sum of the target and the addend, and so nothing else needs to be
known of what the linker did.

## What is proved

* `elf2cpm_outcome` — when `elf2cpm.py` fails: when it cannot load the file, and when a size does
  not fit the header. Translating and saving raise nothing else.
* `loadAt_eq_linkAt` — the program that it makes, loaded at any address, is the program linked at
  that address.
* `loadAt_moved` — to move a loaded program, the distance is added to the same fields again.
-/

namespace Cpm68k.Tools

open Cpm68k.Library
open ELFLoader (Fixup fixups)

/-! ### When the conversion fails -/

variable {ef : ELFFile} {image : ELFLoader} {cpmRelocs : Dict ℕ ℕ}

theorem translateLoop_isOk {es : List (ℕ × ℕ)} (h : ∀ e ∈ es, relocTypeMappings e.2 ≠ none) (cpmRelocs : Dict ℕ ℕ) :
    ∃ cpmRelocs', translateLoop es cpmRelocs = .ok cpmRelocs' := by
  induction es generalizing cpmRelocs with
  | nil => exact ⟨cpmRelocs, rfl⟩
  | cons e es ih =>
    obtain ⟨he, hes⟩ := List.forall_mem_cons.mp h
    obtain ⟨cpmReloc, hm⟩ := Option.ne_none_iff_exists'.mp he
    obtain ⟨cpmRelocs', hloop⟩ := ih hes (cpmRelocs.set e.1 cpmReloc)
    refine ⟨cpmRelocs', ?_⟩
    simp only [translateLoop, hm]
    exact hloop

/-- The relocations of a loaded file have translations. -/
theorem translateRelocs_isOk (hload : ELFLoader.load ef = .ok image) :
    ∃ cpmRelocs, translateRelocs image.relocs = .ok cpmRelocs := by
  refine translateLoop_isOk (fun e he => ?_) _
  have hget := (image.relocs.mem_entries_iff e.1 e.2).mp he
  obtain ⟨v, hv, -⟩ := relocTypeMappings_of_elf (ELFLoader.relocs_of_load hload e.1 e.2 hget).2
  rw [hv]
  exact Option.some_ne_none v

/-- The sizes fit the fields of the header. -/
def SizesFit (image : ELFLoader) : Prop :=
  image.text.length < 2 ^ 32 ∧ image.data.length < 2 ^ 32 ∧ image.bssSize < 2 ^ 32

instance (image : ELFLoader) : Decidable (SizesFit image) := inferInstanceAs (Decidable (_ ∧ _ ∧ _))

/-- The table has room for every field of a loaded file. -/
theorem saveRelocs_isOk (hload : ELFLoader.load ef = .ok image) (htr : translateRelocs image.relocs = .ok cpmRelocs) :
    ∃ relocBytes, (cpmImage image cpmRelocs).saveRelocs = .ok relocBytes := by
  rw [CPMFile.saveRelocs]
  split_ifs
  · refine ⟨_, encodeLoop_eq (List.length_replicate ..) fun e he => ?_⟩
    have hget : cpmRelocs.get? e.1 = some e.2 := (cpmRelocs.mem_entries_iff e.1 e.2).mp he
    obtain ⟨v, hv, hm⟩ := Option.bind_eq_some_iff.mp ((get?_translateRelocs htr e.1).symm.trans hget)
    obtain ⟨hin, htype⟩ := ELFLoader.relocs_of_load hload e.1 v hv
    obtain ⟨v', hv', -, hlen⟩ := relocTypeMappings_of_elf htype
    rw [hm, Option.some.injEq] at hv'
    rw [hv', hlen]
    show e.1 + 4 ≤ image.text.length + image.data.length
    rcases hin with hin | ⟨-, hin⟩ <;> omega
  · exact ⟨[], rfl⟩

/-- What packing the header of the load file comes to. -/
theorem structPack_header (image : ELFLoader) {flag : ℕ} (hflag : flag < 2 ^ 16) :
    (SizesFit image → ∃ header, structPack contigFormat
      [TYPE_CONTIG, image.text.length, image.data.length, image.bssSize, 0, 0, 0, flag] = .ok header) ∧
    (¬ SizesFit image → structPack contigFormat
      [TYPE_CONTIG, image.text.length, image.data.length, image.bssSize, 0, 0, 0, flag] = .error .structError) := by
  have hflag' : flag < 256 ^ 2 := by omega
  constructor
  · rintro ⟨htext, hdata, hbss⟩
    have hvalid : List.Forall₂ (fun n v => v < 256 ^ n) contigFormat
        [TYPE_CONTIG, image.text.length, image.data.length, image.bssSize, 0, 0, 0, flag] := by
      simp only [contigFormat, TYPE_CONTIG, List.forall₂_cons, List.forall₂_nil_left_iff]
      norm_num
      omega
    obtain ⟨header, hheader⟩ := pack_isSome hvalid
    exact ⟨header, by rw [structPack, hheader]⟩
  · intro hbig
    have hnone : pack contigFormat
        [TYPE_CONTIG, image.text.length, image.data.length, image.bssSize, 0, 0, 0, flag] = none := by
      unfold SizesFit at hbig
      simp only [pack, contigFormat]
      norm_num [TYPE_CONTIG]
      omega
    rw [structPack, hnone]

/-- **When `elf2cpm.py` fails**: it fails as the loader fails, or because a size of the loaded file
does not fit the header. -/
theorem elf2cpm_outcome (ef : ELFFile) :
    match ELFLoader.load ef with
    | .error e => elf2cpm ef = .error e
    | .ok image => if SizesFit image then ∃ bytes, elf2cpm ef = .ok bytes else elf2cpm ef = .error .structError := by
  cases hload : ELFLoader.load ef with
  | error e =>
    show elf2cpm ef = .error e
    rw [elf2cpm, hload]
    rfl
  | ok image =>
    obtain ⟨cpmRelocs, htr⟩ := translateRelocs_isOk hload
    obtain ⟨relocBytes, hrelocs⟩ := saveRelocs_isOk hload htr
    have hsave : elf2cpm ef = (cpmImage image cpmRelocs).save := by
      rw [elf2cpm, hload]
      show (do
        let relocs ← translateRelocs image.relocs
        (cpmImage image relocs).save) = _
      rw [htr]
      rfl
    have hflag : (if (cpmImage image cpmRelocs).relocs.size > 0 then WITH_RELOCS else NO_RELOCS) < 2 ^ 16 := by
      split_ifs <;> decide
    obtain ⟨hfits, hbig⟩ := structPack_header image hflag
    rw [hsave, CPMFile.save, if_neg fun h => h.2 rfl]
    by_cases hsizes : SizesFit image
    · obtain ⟨header, hheader⟩ := hfits hsizes
      simp only [if_pos hsizes]
      exact ⟨_, bind_eq_ok.mpr ⟨header, hheader, bind_eq_ok.mpr ⟨relocBytes, hrelocs, rfl⟩⟩⟩
    · simp only [if_neg hsizes]
      exact congrArg (· >>= _) (hbig hsizes)

/-! ### Loading and linking -/

/-- The fields that a relocation map names. -/
def relocFields (relocs : Dict ℕ ℕ) : List ImageField := relocs.entries.map fun e => ⟨e.1, relocLength e.2⟩

/-- What a load file fills in memory: the text, the data, and the BSS, which is zero. -/
def CPMFile.memory (file : CPMFile) : List UInt8 := file.text ++ file.data ++ List.replicate file.bssSize 0

/-- The memory of a load file that is loaded at an address. -/
def loadAt (base : ℕ) (bytes : List UInt8) : Except PyError (List UInt8) := do
  let file ← CPMFile.load bytes
  return rebase base (relocFields file.relocs) file.memory

/-- What the linker puts in a field when it links the program at an address: the target, which is
moved with the program, and the addend. -/
def fixupWrite (base : ℕ) (f : Fixup) : ℕ × List UInt8 := fieldWrite ⟨f.address, 4⟩ (f.target + f.addend + base).toNat

/-- The memory of an ELF program that is linked at an address. -/
def linkAt (base : ℕ) (ef : ELFFile) : List UInt8 :=
  match ef.segments with
  | [textSegment, dataSegment] =>
    let l := ELFLoader.limits ef dataSegment
    spliceAll
      (ELFLoader.ljust textSegment.data l.text ++ ELFLoader.ljust dataSegment.data (l.data - l.text) ++
        List.replicate (l.bss - l.data) 0)
      ((fixups ef).map (fixupWrite base))
  | _ => []

/-- The memory of a loaded ELF file. -/
def ELFLoader.memory (image : ELFLoader) : List UInt8 := image.text ++ image.data ++ List.replicate image.bssSize 0

theorem linkAt_eq (hload : ELFLoader.load ef = .ok image) (base : ℕ) :
    linkAt base ef = spliceAll image.memory ((fixups ef).map (fixupWrite base)) := by
  obtain ⟨textSegment, dataSegment, hsegments, hseg, -⟩ := ELFLoader.load_eq_ok hload
  obtain ⟨htext, hdata, htextEnd, hdataEnd, hbssEnd⟩ := ELFLoader.padded_of_loadSegments hseg
  have hlen : (ELFLoader.limits ef dataSegment).data - (ELFLoader.limits ef dataSegment).text = image.data.length := by omega
  have hbss : (ELFLoader.limits ef dataSegment).bss - (ELFLoader.limits ef dataSegment).data = image.bssSize := by omega
  rw [linkAt, hsegments]
  simp only
  rw [hlen, hbss, ← htextEnd, ← htext, ← hdata, ELFLoader.memory]

/-- The field that `load` checks is four bytes of the memory. -/
theorem fieldAt_of_unRelocated {a v : ℕ} (h : ELFLoader.unRelocated image.text image.data a = .ok v) :
    fieldAt image.memory ⟨a, 4⟩ = v := by
  have hin := unRelocated_eq_ok h
  obtain ⟨fields, hfields, h⟩ := bind_eq_ok.mp h
  obtain ⟨-, hfields⟩ := unpack_eq_some.mp (structUnpack_eq_ok.mp hfields)
  injection h with h
  have hbytes : (image.memory.drop a).take 4 =
      (if a < image.text.length then slice image.text a (a + 4)
        else slice image.data (a - image.text.length) (a - image.text.length + 4)) := by
    unfold ELFLoader.memory slice
    rcases hin with hin | ⟨hle, hin⟩
    · rw [if_pos (by omega), List.append_assoc, List.drop_append_of_le_length (by omega),
        List.take_append_of_le_length (by rw [List.length_drop]; omega), List.drop_take, Nat.add_sub_cancel_left]
    · rw [if_neg (by omega), List.append_assoc, List.drop_append, List.drop_eq_nil_of_le hle, List.nil_append,
        List.drop_append_of_le_length (by omega), List.take_append_of_le_length (by rw [List.length_drop]; omega),
        List.drop_take, Nat.add_sub_cancel_left]
  rw [← h, ← hfields, ← hbytes]
  simp only [fieldsOf, List.getD_cons_zero, List.take_take, min_self]
  rfl

/-- The fields of a map that a table can hold are inside, and do not overlap. -/
theorem fields_of_wellPlaced {relocs : Dict ℕ ℕ} {size : ℕ} (h : WellPlaced relocs size) :
    (∀ f ∈ relocFields relocs, f.Inside size) ∧ (relocFields relocs).Pairwise ImageField.Apart := by
  constructor
  · intro f hf
    obtain ⟨e, he, rfl⟩ := List.mem_map.mp hf
    exact h.inside ((relocs.mem_entries_iff e.1 e.2).mp he)
  · have hapart := h.writes_apart
    rw [writes, List.pairwise_map] at hapart
    refine List.pairwise_map.mpr (hapart.imp fun {e e'} he => ?_)
    simp only [Apart, length_image] at he
    exact he

/-- The fields of a load file are inside what it fills in memory, and do not overlap. -/
theorem placed_of_load {bytes : List UInt8} {file : CPMFile} (h : CPMFile.load bytes = .ok file) :
    (∀ f ∈ relocFields file.relocs, f.Inside file.memory.length) ∧ (relocFields file.relocs).Pairwise ImageField.Apart := by
  obtain ⟨hin, hp⟩ := fields_of_wellPlaced (storable_of_load h).placed
  refine ⟨fun f hf => (hin f hf).trans ?_, hp⟩
  simp only [CPMFile.memory, List.length_append, List.length_replicate]
  exact Nat.le_add_right _ _

section

variable (hload : ELFLoader.load ef = .ok image)

include hload

/-- Every fixup has its field in the map, and the field holds the sum. -/
theorem fixup_recorded {f : Fixup} (hf : f ∈ fixups ef) :
    (∃ v, image.relocs.get? f.address = some v) ∧ FieldInside image.text image.data f.address ∧
      (fieldAt image.memory ⟨f.address, 4⟩ : ℤ) = f.target + f.addend := by
  have hrec := ELFLoader.recorded_of_load hload
  obtain ⟨field, hfield, hsum⟩ := hrec.stored f hf
  refine ⟨?_, unRelocated_eq_ok hfield, by rw [fieldAt_of_unRelocated hfield, hsum]⟩
  have hsome : (ELFLoader.lastAt (fixups ef) f.address).isSome = true := by
    rw [ELFLoader.lastAt, List.find?_isSome]
    exact ⟨f, List.mem_reverse.mpr hf, decide_eq_true rfl⟩
  obtain ⟨g, hg⟩ := Option.isSome_iff_exists.mp hsome
  exact ⟨_, by rw [hrec.get?, hg]; rfl⟩

theorem inside_fixupWrites (base : ℕ) :
    ∀ w ∈ (fixups ef).map (fixupWrite base), w.1 + w.2.length ≤ image.memory.length := by
  intro w hw
  obtain ⟨f, hf, rfl⟩ := List.mem_map.mp hw
  obtain ⟨-, hin, -⟩ := fixup_recorded hload hf
  simp only [fixupWrite, fieldWrite, length_bigEndian, ELFLoader.memory, List.length_append, List.length_replicate]
  rcases hin with hin | ⟨-, hin⟩ <;> omega

/-- The fields of the load file are those of the fixups. -/
theorem mem_relocFields_iff (htr : translateRelocs image.relocs = .ok cpmRelocs) {relocs : Dict ℕ ℕ}
    (hsame : Dict.Same relocs cpmRelocs) (f : ImageField) :
    f ∈ relocFields relocs ↔ f.width = 4 ∧ ∃ g ∈ fixups ef, g.address = f.address := by
  have hiff := get?_translate_eq_some_iff (ELFLoader.relocs_of_load hload) htr f.address
  constructor
  · intro hf
    obtain ⟨e, he, rfl⟩ := List.mem_map.mp hf
    have hget : cpmRelocs.get? e.1 = some e.2 := by
      rw [← hsame]
      exact (relocs.mem_entries_iff e.1 e.2).mp he
    obtain ⟨v, hv, -⟩ := Option.bind_eq_some_iff.mp ((get?_translateRelocs htr e.1).symm.trans hget)
    obtain ⟨v', hv', -, hlen⟩ := hiff.mp ⟨v, hv⟩
    rw [hget, Option.some.injEq] at hv'
    obtain ⟨g, hg, -⟩ := Option.map_eq_some_iff.mp (((ELFLoader.recorded_of_load hload).get? e.1).symm.trans hv)
    obtain ⟨hmem, haddress⟩ := ELFLoader.mem_of_lastAt hg
    exact ⟨by rw [← hlen, hv'], g, hmem, haddress⟩
  · rintro ⟨hwidth, g, hg, haddress⟩
    obtain ⟨v', hv', -, hlen⟩ := hiff.mp (haddress ▸ (fixup_recorded hload hg).1)
    rw [← hsame] at hv'
    refine List.mem_map.mpr ⟨(f.address, v'), (relocs.mem_entries_iff _ _).mpr hv', ?_⟩
    rw [hlen, ← hwidth]

/-- Adding the address to the fields of the fixups puts there what the linker puts. -/
theorem rebase_eq_linkAt {fields : List ImageField}
    (hfields : ∀ f, f ∈ fields ↔ f.width = 4 ∧ ∃ g ∈ fixups ef, g.address = f.address)
    (hin : ∀ f ∈ fields, f.Inside image.memory.length) (hp : fields.Pairwise ImageField.Apart) (base : ℕ) :
    rebase base fields image.memory = linkAt base ef := by
  rw [linkAt_eq hload]
  apply List.ext_getElem?
  intro a
  by_cases ha : ∃ w ∈ (fixups ef).map (fixupWrite base), Covers w a
  · -- the last fixup of the field decides, and all of them put the same there
    obtain ⟨earlier, w, later, hws, hw, hlater⟩ := exists_last_covers ha
    obtain ⟨g, hg, rfl⟩ := List.mem_map.mp (hws ▸ List.mem_append_right earlier (List.mem_cons_self (a := w) (l := later)))
    have hsum := (fixup_recorded hload hg).2.2
    have hput : (g.target + g.addend + base).toNat = fieldAt image.memory ⟨g.address, 4⟩ + base := by omega
    have hinside := inside_fixupWrites hload base
    rw [hws] at hinside ⊢
    rw [getElem?_spliceAll_last hinside hw hlater,
      getElem?_rebase_of_covers hin hp ((hfields ⟨g.address, 4⟩).mpr ⟨rfl, g, hg, rfl⟩) (covers_write.mp hw),
      fixupWrite, hput]
    rfl
  · have hno : ∀ w ∈ (fixups ef).map (fixupWrite base), ¬ Covers w a := fun w hw hc => ha ⟨w, hw, hc⟩
    rw [getElem?_spliceAll_of_not_covers (inside_fixupWrites hload base) hno]
    refine getElem?_rebase_of_not_covers hin hp fun f hf hc => ?_
    obtain ⟨hwidth, g, hg, haddress⟩ := (hfields f).mp hf
    refine hno _ (List.mem_map_of_mem hg) (covers_write.mpr ?_)
    rw [haddress, ← hwidth]
    exact hc

/-- The memory of the load file that `elf2cpm.py` makes, and its fields. -/
theorem load_of_elf2cpm {bytes : List UInt8} (hsave : elf2cpm ef = .ok bytes)
    (halign : FieldsAligned image.relocs (image.text.length + image.data.length)) :
    ∃ file, CPMFile.load bytes = .ok file ∧ file.memory = image.memory ∧
      (∀ f, f ∈ relocFields file.relocs ↔ f.width = 4 ∧ ∃ g ∈ fixups ef, g.address = f.address) ∧
      (∀ f ∈ relocFields file.relocs, f.Inside image.memory.length) ∧
      (relocFields file.relocs).Pairwise ImageField.Apart := by
  have hsizes : SizesFit image := by
    have houtcome := elf2cpm_outcome ef
    rw [hload] at houtcome
    by_contra hbig
    simp only [if_neg hbig, hsave, reduceCtorEq] at houtcome
  obtain ⟨cpmRelocs, htr⟩ := translateRelocs_isOk hload
  have hsave' : (cpmImage image cpmRelocs).save = .ok bytes := by
    rw [← hsave, elf2cpm, hload]
    exact (congrArg (· >>= fun relocs => (cpmImage image relocs).save) htr).symm
  obtain ⟨file, hfile, hsame⟩ :=
    (relocs_kept_iff ef image hload hsizes.1 hsizes.2.1 hsizes.2.2 cpmRelocs htr bytes hsave').mpr halign
  have hmemory : file.memory = image.memory := by
    rw [CPMFile.memory, hsame.text, hsame.data, hsame.bssSize]
    rfl
  obtain ⟨hin, hp⟩ := placed_of_load hfile
  exact ⟨file, hfile, hmemory, mem_relocFields_iff hload htr hsame.relocs, hmemory ▸ hin, hp⟩

/-- **Loading is linking**: what `elf2cpm.py` makes of an ELF file whose fields the relocation table
can hold is, loaded at any address, the program linked at that address. -/
theorem loadAt_eq_linkAt {bytes : List UInt8} (hsave : elf2cpm ef = .ok bytes)
    (halign : FieldsAligned image.relocs (image.text.length + image.data.length)) (base : ℕ) :
    loadAt base bytes = .ok (linkAt base ef) := by
  obtain ⟨file, hfile, hmemory, hfields, hin, hp⟩ := load_of_elf2cpm hload hsave halign
  refine bind_eq_ok.mpr ⟨file, hfile, ?_⟩
  rw [hmemory, rebase_eq_linkAt hload hfields hin hp]
  rfl

end

theorem fieldsAligned_oneReloc : FieldsAligned (Dict.empty.set 2 R_68K_32) 10 := by
  refine .inr ⟨rfl, fun k v hk => ?_, fun k v k' v' hk hk' hlt => ?_⟩
  all_goals simp only [Dict.get?_set, Dict.get?_empty, Option.ite_none_right_eq_some] at *
  · omega
  · omega

theorem load_oneReloc_two :
    ELFLoader.load (oneReloc 2) = .ok ⟨[0, 0, 0, 0, 0, 0, 0, 0], [0, 1], 0, Dict.empty.set 2 R_68K_32⟩ := rfl

/-- The long word at address 2 of `oneReloc 2` holds the address at which the program is loaded. -/
theorem loadAt_eq_linkAt_small :
    loadAt 0x500 (oneRelocHeader ++ [0, 0, 0, 5, 0, 2, 0, 0, 0, 0]) = .ok (linkAt 0x500 (oneReloc 2)) ∧
      linkAt 0x500 (oneReloc 2) = [0, 0, 0, 0, 5, 0, 0, 0, 0, 1] :=
  ⟨loadAt_eq_linkAt load_oneReloc_two rfl fieldsAligned_oneReloc 0x500, rfl⟩

/-- **Moving a loaded program**: adding a distance to the fields of a program in memory comes to the
same as loading it at an address that is larger by the distance. -/
theorem loadAt_moved {bytes : List UInt8} {file : CPMFile} (h : CPMFile.load bytes = .ok file) (base distance : ℕ) :
    ∃ memory, loadAt base bytes = .ok memory ∧
      loadAt (base + distance) bytes = .ok (rebase distance (relocFields file.relocs) memory) := by
  obtain ⟨hin, hp⟩ := placed_of_load h
  refine ⟨_, bind_eq_ok.mpr ⟨file, h, rfl⟩, bind_eq_ok.mpr ⟨file, h, ?_⟩⟩
  rw [rebase_rebase hin hp]
  rfl

theorem load_oneReloc_file :
    CPMFile.load (oneRelocHeader ++ [0, 0, 0, 5, 0, 2, 0, 0, 0, 0]) =
      .ok ⟨[0, 0, 0, 0, 0, 0, 0, 0], 0, [0, 1], 0, Dict.empty.set 2 0x20002⟩ := rfl

theorem loadAt_moved_small :
    ∃ memory, loadAt 0x500 (oneRelocHeader ++ [0, 0, 0, 5, 0, 2, 0, 0, 0, 0]) = .ok memory ∧
      loadAt 0x700 (oneRelocHeader ++ [0, 0, 0, 5, 0, 2, 0, 0, 0, 0]) = .ok (rebase 0x200 [⟨2, 4⟩] memory) :=
  loadAt_moved load_oneReloc_file 0x500 0x200

end Cpm68k.Tools
