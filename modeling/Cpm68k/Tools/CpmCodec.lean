import Cpm68k.Library.Except
import Cpm68k.Tools.RelocTable

/-!
# Writing and reading back a load file

`CPMFile.load` and `CPMFile.save` against one another. A file is `Storable` when its
numbers fit the 32-bit header fields and its relocations, if it has any, can be held by
the table: then `save` succeeds and `load` finds the same file in the bytes
(`Storable.load_save`). Whatever `load` returns is storable (`storable_of_load`), so
loading and saving is a normal form.
-/

namespace Cpm68k.Tools

open Cpm68k.Library

namespace CPMFile

/-- The same executable: the same sections at the same address, and the same map. -/
structure Same (f g : CPMFile) : Prop where
  /-- The same text. -/
  text : f.text = g.text
  /-- The same text address. -/
  textAddress : f.textAddress = g.textAddress
  /-- The same data. -/
  data : f.data = g.data
  /-- The same length of the BSS. -/
  bssSize : f.bssSize = g.bssSize
  /-- The same relocation for every offset. -/
  relocs : Dict.Same f.relocs g.relocs

/-- A file that the format can hold. -/
structure Storable (file : CPMFile) : Prop where
  /-- The text length fits its field. -/
  text_lt : file.text.length < 2 ^ 32
  /-- The data length fits its field. -/
  data_lt : file.data.length < 2 ^ 32
  /-- The BSS length fits its field. -/
  bss_lt : file.bssSize < 2 ^ 32
  /-- The text address fits its field. -/
  address_lt : file.textAddress < 2 ^ 32
  /-- The relocation map can be held by the table. -/
  placed : WellPlaced file.relocs (file.text.length + file.data.length)
  /-- A relocatable file has its text at 0, and text and data of a whole number of words. -/
  relocatable : file.relocs.size = 0 ∨ file.textAddress = 0 ∧ (file.text.length + file.data.length) % 2 = 0

end CPMFile

open CPMFile

theorem structUnpack_eq_ok {fmt : List ℕ} {bs : List UInt8} {fields : List ℕ} :
    structUnpack fmt bs = .ok fields ↔ unpack fmt bs = some fields := by
  unfold structUnpack
  cases unpack fmt bs <;> simp

theorem unpack_eq_some {fmt : List ℕ} {bs : List UInt8} {fields : List ℕ} :
    unpack fmt bs = some fields ↔ bs.length = calcsize fmt ∧ fieldsOf fmt bs = fields := by
  unfold unpack
  split_ifs with h <;> simp [h]

theorem slice_zero (bs : List UInt8) (n : ℕ) : slice bs 0 n = bs.take n := by simp [slice]

theorem length_slice {bs : List UInt8} {lo hi : ℕ} (h : hi ≤ bs.length) : (slice bs lo hi).length = hi - lo := by
  simp only [slice, List.length_drop, List.length_take]
  omega

/-- A slice that is one of the parts a string was put together from. -/
theorem slice_append (a b c : List UInt8) {lo hi : ℕ} (hlo : lo = a.length) (hhi : hi = a.length + b.length) :
    slice (a ++ b ++ c) lo hi = b := by
  subst hlo hhi
  unfold slice
  rw [List.take_left' (by simp), List.drop_left]

/-! ### What `load` accepts -/

theorem loadRelocs_eq_ok {flag textAddress : ℕ} {relocBytes : List UInt8} {relocs : Dict ℕ ℕ}
    (h : loadRelocs flag textAddress relocBytes = .ok relocs) :
    flag ≠ WITH_RELOCS ∧ relocs = Dict.empty ∨
      flag = WITH_RELOCS ∧ textAddress = 0 ∧ decodeRelocs relocBytes = .ok relocs := by
  unfold loadRelocs at h
  split_ifs at h with hf ha
  · exact .inr ⟨hf, by omega, h⟩
  · simp only [Except.ok.injEq] at h
    exact .inl ⟨hf, h.symm⟩

theorem wellPlaced_empty (size : ℕ) : WellPlaced Dict.empty size := by
  constructor <;> simp

/-- **Whatever `load` returns is storable.** -/
theorem storable_of_load {b : List UInt8} {file : CPMFile} (h : load b = .ok file) : Storable file := by
  unfold load at h
  obtain ⟨magic, -, h⟩ := bind_eq_ok.mp h
  obtain ⟨fmt, hfmt, h⟩ := bind_eq_ok.mp h
  obtain ⟨fields, hfields, h⟩ := bind_eq_ok.mp h
  obtain ⟨hsize, h⟩ := ite_error_eq_ok.mp h
  rw [gt_iff_lt, not_lt] at hsize
  obtain ⟨relocs, hrelocs, h⟩ := bind_eq_ok.mp h
  simp only [pure, Except.pure, Except.ok.injEq] at h
  have hlt : fields.getD 1 0 < 2 ^ 32 ∧ fields.getD 2 0 < 2 ^ 32 ∧ fields.getD 3 0 < 2 ^ 32 ∧
      fields.getD 6 0 < 2 ^ 32 := by
    have hf := (unpack_eq_some.mp (structUnpack_eq_ok.mp hfields)).2
    have hall : List.Forall₂ (fun n v => v < 256 ^ n) fmt fields := hf ▸ fieldsOf_lt
    have hcases : fmt = contigFormat ∨ fmt = noncontigFormat := by
      unfold headerFormat at hfmt
      split_ifs at hfmt <;> simp only [Except.ok.injEq] at hfmt
      · exact .inl hfmt.symm
      · exact .inr hfmt.symm
    have hget : ∀ i, fmt.getD i 0 = 4 → fields.getD i 0 < 2 ^ 32 := by
      intro i hi
      have hi' : i < fmt.length := by
        by_contra hc
        rw [List.getD_eq_default _ _ (by omega)] at hi
        omega
      have hlen := hall.length_eq
      have := (List.forall₂_iff_get.mp hall).2 i hi' (by omega)
      rw [List.getD_eq_getElem _ _ hi'] at hi
      rw [List.getD_eq_getElem _ _ (by omega)]
      simpa [hi] using this
    rcases hcases with rfl | rfl <;> exact ⟨hget 1 rfl, hget 2 rfl, hget 3 rfl, hget 6 rfl⟩
  have htext : (slice b (calcsize fmt) (calcsize fmt + fields.getD 1 0)).length = fields.getD 1 0 := by
    rw [length_slice (by split_ifs at hsize <;> omega)]
    omega
  have hdata : (slice b (calcsize fmt + fields.getD 1 0)
      (calcsize fmt + fields.getD 1 0 + fields.getD 2 0)).length = fields.getD 2 0 := by
    rw [length_slice (by split_ifs at hsize <;> omega)]
    omega
  subst h
  refine ⟨by rw [htext]; exact hlt.1, by rw [hdata]; exact hlt.2.1, hlt.2.2.1, hlt.2.2.2, ?_, ?_⟩ <;>
    simp only [htext, hdata] <;>
    rcases loadRelocs_eq_ok hrelocs with ⟨-, rfl⟩ | ⟨hflag, ha, hdec⟩
  · exact wellPlaced_empty _
  · have hw := (decodeRelocs_eq_ok hdec).2
    rw [if_pos hflag] at hsize
    rw [if_pos hflag, length_slice hsize, Nat.add_assoc, Nat.add_sub_cancel_left] at hw
    exact hw
  · exact .inl Dict.size_empty
  · have hw := (decodeRelocs_eq_ok hdec).1
    rw [if_pos hflag] at hsize
    rw [if_pos hflag, length_slice hsize, Nat.add_assoc, Nat.add_sub_cancel_left] at hw
    exact .inr ⟨ha, hw⟩

/-! ### What `save` writes -/

/-- The numbers of the header `save` writes. -/
def headerFields (file : CPMFile) : List ℕ :=
  [TYPE_CONTIG, file.text.length, file.data.length, file.bssSize, 0, 0, file.textAddress,
    if file.relocs.size > 0 then WITH_RELOCS else NO_RELOCS]

theorem CPMFile.Storable.header {file : CPMFile} (h : Storable file) :
    ∃ header, pack contigFormat (headerFields file) = some header := by
  refine pack_isSome (.cons (by decide) (.cons h.text_lt (.cons h.data_lt (.cons h.bss_lt (.cons (by decide)
    (.cons (by decide) (.cons h.address_lt (.cons ?_ .nil))))))))
  split_ifs <;> decide

/-- The relocation words of a file: none when it has no relocations. -/
def relocTable (file : CPMFile) : List UInt8 :=
  if file.relocs.size > 0 then table file.relocs (file.text.length + file.data.length) else []

theorem CPMFile.Storable.saveRelocs_eq {file : CPMFile} (h : Storable file) :
    file.saveRelocs = .ok (relocTable file) := by
  unfold saveRelocs relocTable
  split_ifs
  · exact h.placed.encodeRelocs_eq
  · rfl

theorem CPMFile.Storable.length_relocTable {file : CPMFile} (h : Storable file) :
    (relocTable file).length = if (if file.relocs.size > 0 then WITH_RELOCS else NO_RELOCS) = WITH_RELOCS then
      file.text.length + file.data.length else 0 := by
  unfold relocTable
  by_cases hr : file.relocs.size > 0
  · simp only [if_pos hr, h.placed.length_table, if_true]
  · simp only [if_neg hr, List.length_nil, if_neg (show ¬ NO_RELOCS = WITH_RELOCS by decide)]

/-- The relocations are found again, whether or not there is a table. -/
theorem CPMFile.Storable.loadRelocs_eq {file : CPMFile} (h : Storable file) :
    ∃ relocs, loadRelocs (if file.relocs.size > 0 then WITH_RELOCS else NO_RELOCS) file.textAddress
        (relocTable file) = .ok relocs ∧ Dict.Same relocs file.relocs := by
  unfold relocTable
  by_cases hr : file.relocs.size > 0
  · obtain ⟨ha, heven⟩ := h.relocatable.resolve_left (by omega)
    obtain ⟨relocs, hok, hsame⟩ := h.placed.decodeRelocs_table heven
    refine ⟨relocs, ?_, hsame⟩
    simp only [if_pos hr, loadRelocs, if_neg (show ¬ file.textAddress > 0 by omega), hok, if_true]
  · refine ⟨Dict.empty, ?_, ((Dict.same_empty_iff _).mpr (by omega)).symm⟩
    simp only [if_neg hr, loadRelocs, if_neg (show ¬ NO_RELOCS = WITH_RELOCS by decide)]

/-- Loading a contiguous file without symbols from its parts. -/
theorem load_parts {header text data rel : List UInt8} {b a f : ℕ}
    (hp : pack contigFormat [TYPE_CONTIG, text.length, data.length, b, 0, 0, a, f] = some header)
    (hrel : rel.length = if f = WITH_RELOCS then text.length + data.length else 0) :
    load (header ++ text ++ data ++ rel) =
      (loadRelocs f a rel).bind fun relocs => .ok ⟨text, a, data, b, relocs⟩ := by
  have hlen : header.length = 28 := length_of_pack hp
  have hmagic : structUnpack [2] (slice (header ++ text ++ data ++ rel) 0 2) = .ok [TYPE_CONTIG] := by
    have hf := (unpack_eq_some.mp (unpack_pack hp)).2
    simp only [contigFormat, fieldsOf, List.cons.injEq] at hf
    rw [structUnpack_eq_ok, unpack_eq_some, slice_zero, List.append_assoc, List.append_assoc,
      List.take_append_of_le_length (by omega)]
    exact ⟨by simp [hlen, calcsize], by simp only [fieldsOf, List.take_take, min_self, hf.1]⟩
  have hfields : structUnpack contigFormat (slice (header ++ text ++ data ++ rel) 0 28) =
      .ok [TYPE_CONTIG, text.length, data.length, b, 0, 0, a, f] := by
    rw [structUnpack_eq_ok, slice_zero, List.append_assoc, List.append_assoc, List.take_left' hlen]
    exact unpack_pack hp
  have htext : slice (header ++ text ++ data ++ rel) 28 (28 + text.length) = text := by
    rw [List.append_assoc (header ++ text)]
    exact slice_append _ _ _ hlen.symm (by rw [hlen])
  have hdata : slice (header ++ text ++ data ++ rel) (28 + text.length) (28 + text.length + data.length) = data :=
    slice_append _ _ _ (by simp [hlen]) (by simp [hlen])
  obtain ⟨relocEnd, hend⟩ : ∃ e, e = if f = WITH_RELOCS then 28 + text.length + data.length + 0 + text.length +
      data.length else 28 + text.length + data.length + 0 := ⟨_, rfl⟩
  have hlast : relocEnd = (header ++ text ++ data).length + rel.length := by
    simp only [hend, hrel, List.length_append, hlen]
    split_ifs <;> omega
  have htable : slice (header ++ text ++ data ++ rel) (28 + text.length + data.length + 0) relocEnd = rel := by
    have hstart : 28 + text.length + data.length + 0 = (header ++ text ++ data).length := by simp [hlen, Nat.add_assoc]
    have := slice_append (header ++ text ++ data) rel [] hstart hlast
    rwa [List.append_nil] at this
  have hsize : ¬ relocEnd > (header ++ text ++ data ++ rel).length := by
    have : (header ++ text ++ data ++ rel).length = (header ++ text ++ data).length + rel.length :=
      List.length_append
    omega
  have hcalc : calcsize contigFormat = 28 := rfl
  simp only [load, hmagic, headerFormat, List.getD_cons_zero, if_true, hcalc, hfields, List.getD_cons_succ, bind,
    Except.bind, ← hend, if_neg hsize, htext, hdata, htable, pure, Except.pure]

/-- **A storable file is written and read back.** -/
theorem CPMFile.Storable.load_save {file : CPMFile} (h : Storable file) :
    ∃ bytes file', save file = .ok bytes ∧ load bytes = .ok file' ∧ Same file' file := by
  obtain ⟨header, hpack⟩ := h.header
  obtain ⟨relocs, hrelocs, hsame⟩ := h.loadRelocs_eq
  rw [headerFields] at hpack
  have haddr : ¬ (file.relocs.size > 0 ∧ file.textAddress ≠ 0) := by
    rintro ⟨hr, ha⟩
    rcases h.relocatable with h' | h' <;> omega
  refine ⟨header ++ file.text ++ file.data ++ relocTable file,
    ⟨file.text, file.textAddress, file.data, file.bssSize, relocs⟩, ?_, ?_, ⟨rfl, rfl, rfl, rfl, hsame⟩⟩
  · simp only [save, if_neg haddr, structPack, hpack, h.saveRelocs_eq, bind, Except.bind, pure, Except.pure]
  · rw [load_parts hpack h.length_relocTable, hrelocs]
    rfl

/-! ### The codec -/

/-- **The codec round trip**: a file whose sections, BSS and text address fit the header,
and whose relocation map is well placed (in a file at 0 with a whole number of words,
when it is not empty), is saved, and what is saved loads as the same file. -/
theorem load_of_saved_file (file : CPMFile) (htext : file.text.length < 2 ^ 32) (hdata : file.data.length < 2 ^ 32)
    (hbss : file.bssSize < 2 ^ 32) (haddr : file.textAddress < 2 ^ 32)
    (hplaced : WellPlaced file.relocs (file.text.length + file.data.length))
    (hreloc : file.relocs.size = 0 ∨ file.textAddress = 0 ∧ (file.text.length + file.data.length) % 2 = 0) :
    ∃ bytes file', save file = .ok bytes ∧ load bytes = .ok file' ∧ Same file' file :=
  Storable.load_save ⟨htext, hdata, hbss, haddr, hplaced, hreloc⟩

/-- A file with a 32-bit field in its text and a 16-bit one right after it in its data. -/
def smallFile : CPMFile where
  text := [0x4e, 0x75, 0, 0, 0, 6]
  textAddress := 0
  data := [0, 2]
  bssSize := 10
  relocs := ⟨[(6, RELOC_TYPE_TEXT ||| RELOC_SIZE_16), (2, RELOC_TYPE_DATA ||| RELOC_SIZE_32)], by decide⟩

theorem load_of_saved_file_small :
    ∃ bytes file', save smallFile = .ok bytes ∧ load bytes = .ok file' ∧ Same file' smallFile :=
  load_of_saved_file smallFile (by decide) (by decide) (by decide) (by decide) (by decide) (.inr (by decide))

/-- **Loading then saving is a normal form**: whatever bytes `load` accepts, of either
header format and with any relocation words, the file it returns can be saved, and what
is saved loads as the same file. The map `decodeRelocs` returns is always well placed. -/
theorem load_save_load :
    (∀ (b : List UInt8) (file : CPMFile), load b = .ok file →
      ∃ bytes file', save file = .ok bytes ∧ load bytes = .ok file' ∧ Same file' file) ∧
    ∀ (relocBytes : List UInt8) (relocs : Dict ℕ ℕ), decodeRelocs relocBytes = .ok relocs →
      WellPlaced relocs relocBytes.length :=
  ⟨fun _ _ h => (storable_of_load h).load_save, fun _ _ h => (decodeRelocs_eq_ok h).2⟩

/-- A non-contiguous file with symbols: its relocation words are a prefix twice over, the
second with index bits, and then a type with index bits. -/
def oddBytes : List UInt8 :=
  [0x60, 0x1b, 0, 0, 0, 4, 0, 0, 0, 2, 0, 0, 0, 3, 0, 0, 0, 2, 0, 0, 0, 0, 0, 0, 0, 0, 0, 0,
    0, 0, 1, 0, 0, 0, 2, 0, 0x4e, 0x71, 0, 0, 0, 4, 0xaa, 0xbb, 0, 5, 0, 0x0d, 0, 0x0a]

theorem load_save_load_odd :
    ∃ bytes file', save ⟨[0x4e, 0x71, 0, 0], 0, [0, 4], 3, Dict.empty.set 2 (RELOC_TYPE_TEXT ||| RELOC_SIZE_32)⟩ =
        .ok bytes ∧ load bytes = .ok file' ∧
      Same file' ⟨[0x4e, 0x71, 0, 0], 0, [0, 4], 3, Dict.empty.set 2 (RELOC_TYPE_TEXT ||| RELOC_SIZE_32)⟩ :=
  load_save_load.1 oddBytes _ rfl

end Cpm68k.Tools
