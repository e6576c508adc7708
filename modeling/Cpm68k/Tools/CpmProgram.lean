import Cpm68k.Tools.CpmCodec

/-!
# The program in a load file

What a load file stands for: its text, the memory behind the text (the data, and then the BSS, which
is zero), and the addresses of the fields that are to be relocated. Two load files with the same
program may differ in how much of the memory they take for data, and in bytes of the relocation
table that mark nothing.

`programOf` reads any string of bytes: a load file whose relocation table is garbled still marks some
addresses. Where `CPMFile.load` accepts a contiguous load file, it finds the same (`programOf_of_load`).

## What is proved

* `programOf_of_load` — `programOf` has the text, the memory and the 32-bit relocations that
  `CPMFile.load` returns.
* `programOf_parts` — the program in a load file that is put together from its parts.
* `marks_spliceAll` — which addresses a table marks when the fields in it may overlap.
-/

namespace Cpm68k.Tools

open Cpm68k.Library CPMFile

/-! ### Programs -/

/-- What is loaded of a load file. -/
structure Program where
  /-- The text. -/
  text : List UInt8
  /-- What is behind the text: the data and the BSS. -/
  memory : List UInt8
  /-- The addresses that are marked for 32-bit relocation. -/
  marked : Set ℕ

/-- The type of the word at an offset of a relocation table, which is in its low byte. Past the end of
the table there is nothing to relocate. -/
def wordType (table : List UInt8) (a : ℕ) : ℕ := (table.getD (a + 1) 0).toNat &&& RELOC_TYPE_MASK

/-- The table has a 32-bit field at an offset: a prefix, and then a word with a segment. -/
def Marks (table : List UInt8) (a : ℕ) : Prop :=
  wordType table a = RELOC_TYPE_UPPER ∧ IsSegment (wordType table (a + 2))

instance (table : List UInt8) (a : ℕ) : Decidable (Marks table a) := inferInstanceAs (Decidable (_ ∧ _))

/-- A number of the header of a contiguous load file. -/
def headerField (bytes : List UInt8) (i : ℕ) : ℕ := (fieldsOf contigFormat bytes).getD i 0

/-- Where the data end. -/
def fileDataEnd (bytes : List UInt8) : ℕ := calcsize contigFormat + headerField bytes 1 + headerField bytes 2

/-- The relocation table, behind the symbol table, if the header says that there is one. -/
def relocationTable (bytes : List UInt8) : List UInt8 :=
  if headerField bytes 7 = WITH_RELOCS then
    slice bytes (fileDataEnd bytes + headerField bytes 4)
      (fileDataEnd bytes + headerField bytes 4 + headerField bytes 1 + headerField bytes 2)
  else []

/-- **The program** in a contiguous load file. -/
def programOf (bytes : List UInt8) : Program where
  text := slice bytes (calcsize contigFormat) (calcsize contigFormat + headerField bytes 1)
  memory := slice bytes (calcsize contigFormat + headerField bytes 1) (fileDataEnd bytes) ++
    List.replicate (headerField bytes 3) 0
  marked := {a | a % 2 = 0 ∧ Marks (relocationTable bytes) a}

/-! ### What `CPMFile.load` finds -/

theorem and_typeMask_eq_mod (v : ℕ) : v &&& RELOC_TYPE_MASK = v % 8 := Nat.and_two_pow_sub_one_eq_mod v 3

theorem typeAt_fieldsOf {bs : List UInt8} (heven : bs.length % 2 = 0) (i : ℕ) :
    typeAt (fieldsOf (List.replicate (bs.length / 2) 2) bs) i = wordType bs (2 * i) := by
  unfold wordType
  rcases Nat.lt_or_ge i (bs.length / 2) with hi | hi
  · have hbytes : (bs.drop (2 * i)).take 2 = [bs.getD (2 * i) 0, bs.getD (2 * i + 1) 0] := by
      rw [List.getD_eq_getElem _ _ (by omega), List.getD_eq_getElem _ _ (by omega)]
      rw [List.drop_eq_getElem_cons (by omega), List.drop_eq_getElem_cons (by omega)]
      rfl
    rw [typeAt, List.getD_eq_getElem?_getD, getElem?_fieldsOf_replicate 2 _ _ _ hi, hbytes, Option.getD_some,
      and_typeMask_eq_mod, and_typeMask_eq_mod, ofBigEndian, List.foldl_cons, List.foldl_cons, List.foldl_nil]
    omega
  · rw [typeAt_of_length_le (by rwa [length_fieldsOf, List.length_replicate]), List.getD_eq_default _ _ (by omega)]
    rfl

theorem wordReloc_length_iff (ws : List ℕ) (i : ℕ) :
    (∃ v, wordReloc ws i = some v ∧ relocLength v = 4) ↔
      typeAt ws i = RELOC_TYPE_UPPER ∧ IsSegment (typeAt ws (i + 1)) := by
  constructor
  · rintro ⟨v, hv, hlen⟩
    obtain ⟨-, ⟨hs, -, rfl⟩ | ⟨hup, hs, -, -⟩⟩ := wordReloc_eq_some hv
    · rw [relocLength_or_16 hs] at hlen
      omega
    · exact ⟨hup, hs⟩
  · rintro ⟨hup, hs⟩
    refine ⟨_, ?_, relocLength_or_32 hs⟩
    rw [wordReloc, if_neg (by rw [hup]; decide), if_pos ⟨hup, hs⟩]

/-- The relocations that `decodeRelocs` returns are the ones that the table marks. -/
theorem marks_of_decodeRelocs {bs : List UInt8} {relocs : Dict ℕ ℕ} (h : decodeRelocs bs = .ok relocs) (a : ℕ) :
    (∃ v, relocs.get? a = some v ∧ relocLength v = 4) ↔ a % 2 = 0 ∧ Marks bs a := by
  have heven := (decodeRelocs_eq_ok h).1
  obtain ⟨ws, hws, hloop⟩ := bind_eq_ok.mp h
  have hfields := (unpack_eq_some.mp (structUnpack_eq_ok.mp hws)).2
  rw [Decoded.start.loop hloop, List.nil_append, ← hfields]
  by_cases ha : a % 2 = 0
  · rw [if_pos ha, wordReloc_length_iff, typeAt_fieldsOf heven, typeAt_fieldsOf heven, Marks,
      show 2 * (a / 2) = a by omega, show 2 * (a / 2 + 1) = a + 2 by omega]
    exact (and_iff_right ha).symm
  · simp [ha]

theorem not_marks_nil (a : ℕ) : ¬ Marks [] a := by
  rintro ⟨hup, -⟩
  rw [wordType, List.getD_nil] at hup
  exact absurd hup (by decide)

/-- **What `CPMFile.load` returns** for a contiguous load file is the program in it. -/
theorem programOf_of_load {bytes : List UInt8} {file : CPMFile} (h : load bytes = .ok file)
    (hcontig : headerField bytes 0 = TYPE_CONTIG) :
    (programOf bytes).text = file.text ∧ (programOf bytes).memory = file.data ++ List.replicate file.bssSize 0 ∧
      ∀ a, a ∈ (programOf bytes).marked ↔ ∃ v, file.relocs.get? a = some v ∧ relocLength v = 4 := by
  obtain ⟨magic, hmagic, h⟩ := bind_eq_ok.mp h
  obtain ⟨fmt, hfmt, h⟩ := bind_eq_ok.mp h
  obtain ⟨fields, hfields, h⟩ := bind_eq_ok.mp h
  obtain ⟨-, h⟩ := ite_error_eq_ok.mp h
  obtain ⟨relocs, hrelocs, h⟩ := bind_eq_ok.mp h
  injection h with h
  have hmagic : magic.getD 0 0 = TYPE_CONTIG := by
    rw [← (unpack_eq_some.mp (structUnpack_eq_ok.mp hmagic)).2, slice_zero, ← hcontig]
    simp only [fieldsOf, headerField, contigFormat, List.getD_cons_zero, List.take_take, min_self]
  rw [headerFormat, if_pos hmagic] at hfmt
  injection hfmt with hfmt
  subst hfmt
  have hget : ∀ i, fields.getD i 0 = headerField bytes i := by
    intro i
    rw [← (unpack_eq_some.mp (structUnpack_eq_ok.mp hfields)).2, slice_zero, fieldsOf_take]
    rfl
  simp only [hget] at h hrelocs
  rw [← h]
  refine ⟨rfl, rfl, fun a => ?_⟩
  show a % 2 = 0 ∧ Marks (relocationTable bytes) a ↔ _
  unfold relocationTable fileDataEnd
  rcases loadRelocs_eq_ok hrelocs with ⟨hflag, rfl⟩ | ⟨hflag, -, hdecode⟩
  · simp [hflag, not_marks_nil]
  · rw [if_pos hflag] at hdecode ⊢
    exact (marks_of_decodeRelocs hdecode a).symm

/-! ### A load file from its parts -/

theorem getD_take (table : List UInt8) (n i : ℕ) : (table.take n).getD i 0 = if i < n then table.getD i 0 else 0 := by
  rw [List.getD_eq_getElem?_getD, List.getD_eq_getElem?_getD, List.getElem?_take]
  split_ifs <;> rfl

/-- A field that the start of a table marks is wholly in it. -/
theorem marks_take (table : List UInt8) (n a : ℕ) : Marks (table.take n) a ↔ a + 4 ≤ n ∧ Marks table a := by
  have hzero : ¬ IsSegment ((0 : UInt8).toNat &&& RELOC_TYPE_MASK) := by decide
  unfold Marks wordType
  rw [getD_take, getD_take]
  by_cases ha : a + 2 + 1 < n
  · rw [if_pos (show a + 1 < n by omega), if_pos ha]
    exact (and_iff_right (by omega)).symm
  · rw [if_neg ha]
    exact iff_of_false (fun h => hzero h.2) fun h => ha (by omega)

/-- **The program in a load file** that is put together from its parts. -/
theorem programOf_parts {header text data rel : List UInt8} {b a f : ℕ}
    (hp : pack contigFormat [TYPE_CONTIG, text.length, data.length, b, 0, 0, a, f] = some header) :
    programOf (header ++ text ++ data ++ rel) =
      { text, memory := data ++ List.replicate b 0
        marked := {k | f = WITH_RELOCS ∧ k % 2 = 0 ∧ k + 4 ≤ text.length + data.length ∧ Marks rel k} } := by
  have hlen : header.length = 28 := length_of_pack hp
  have hfield : ∀ i, headerField (header ++ text ++ data ++ rel) i =
      [TYPE_CONTIG, text.length, data.length, b, 0, 0, a, f].getD i 0 := by
    intro i
    rw [headerField, List.append_assoc, List.append_assoc, fieldsOf_pack hp]
  have hend : fileDataEnd (header ++ text ++ data ++ rel) = 28 + text.length + data.length := by
    rw [fileDataEnd, hfield, hfield]
    rfl
  have htext : slice (header ++ text ++ data ++ rel) 28 (28 + text.length) = text := by
    rw [List.append_assoc (header ++ text)]
    exact slice_append _ _ _ hlen.symm (by rw [hlen])
  have hdata : slice (header ++ text ++ data ++ rel) (28 + text.length) (28 + text.length + data.length) = data :=
    slice_append _ _ _ (by simp [hlen]) (by simp [hlen])
  have htable : slice (header ++ text ++ data ++ rel) (28 + text.length + data.length)
      (28 + text.length + data.length + text.length + data.length) = rel.take (text.length + data.length) := by
    have hstart : (header ++ text ++ data).length = 28 + text.length + data.length := by simp [hlen, Nat.add_assoc]
    rw [slice, List.drop_take, List.drop_left' hstart]
    congr 1
    omega
  unfold programOf relocationTable
  simp only [hfield, hend, List.getD_cons_zero, List.getD_cons_succ]
  rw [Program.mk.injEq]
  refine ⟨htext, congrArg (· ++ List.replicate b 0) hdata, Set.ext fun k => ?_⟩
  show k % 2 = 0 ∧ Marks _ k ↔ _ ∧ _
  split_ifs with hflag
  · rw [Nat.add_zero, htable, marks_take, and_iff_right hflag]
  · exact iff_of_false (fun h => not_marks_nil k h.2) fun h => hflag h.1

/-! ### Tables with fields that overlap -/

/-- The relocations are 32-bit fields inside a table. -/
structure Fields (es : List (ℕ × ℕ)) (size : ℕ) : Prop where
  code : ∀ e ∈ es, IsReloc e.2
  length : ∀ e ∈ es, relocLength e.2 = 4
  inside : ∀ e ∈ es, e.1 + 4 ≤ size

/-- The field at `a` is set, and after it no field that reaches the low byte of its prefix or of its
type. -/
def SetLast (addrs : List ℕ) (a : ℕ) : Prop :=
  ∃ earlier later, addrs = earlier ++ a :: later ∧ ∀ k ∈ later, k + 3 ≤ a ∨ a + 4 ≤ k

theorem image_of_length {v : ℕ} (h : IsReloc v) (hlen : relocLength v = 4) :
    ∃ t : UInt8, IsSegment (t.toNat &&& RELOC_TYPE_MASK) ∧ image v = [0, 5, 0, t] := by
  obtain ⟨t, ht, rfl | rfl⟩ := h
  · rw [relocLength_or_16 ht] at hlen
    omega
  · rcases ht with rfl | rfl | rfl
    · exact ⟨1, by decide, rfl⟩
    · exact ⟨2, by decide, rfl⟩
    · exact ⟨3, by decide, rfl⟩

variable {es : List (ℕ × ℕ)} {size : ℕ}

theorem Fields.mem_writes (h : Fields es size) {w : ℕ × List UInt8} (hw : w ∈ writes es) :
    ∃ t : UInt8, IsSegment (t.toNat &&& RELOC_TYPE_MASK) ∧ w.2 = [0, 5, 0, t] ∧ w.1 + 4 ≤ size := by
  obtain ⟨e, he, rfl⟩ := List.mem_map.mp hw
  obtain ⟨t, ht, himage⟩ := image_of_length (h.code e he) (h.length e he)
  exact ⟨t, ht, himage, h.inside e he⟩

theorem Fields.writes_inside (h : Fields es size) :
    ∀ w ∈ writes es, w.1 + w.2.length ≤ (List.replicate size (0 : UInt8)).length := by
  intro w hw
  obtain ⟨t, -, himage, hin⟩ := h.mem_writes hw
  rw [himage, List.length_replicate]
  exact hin

theorem Fields.covers_iff (h : Fields es size) {w : ℕ × List UInt8} (hw : w ∈ writes es) (i : ℕ) :
    Covers w i ↔ w.1 ≤ i ∧ i < w.1 + 4 := by
  obtain ⟨t, -, himage, -⟩ := h.mem_writes hw
  rw [Covers, himage]
  rfl

theorem keys_writes (es : List (ℕ × ℕ)) : (writes es).map Prod.fst = es.map Prod.fst := by
  rw [writes, List.map_map]
  rfl

/-- What is in the table where some field is set: a byte of the one that is set last. -/
theorem Fields.last (h : Fields es size) {earlier later : List (ℕ × List UInt8)} {w : ℕ × List UInt8} {i : ℕ}
    (hes : writes es = earlier ++ w :: later) (hi : w.1 ≤ i ∧ i < w.1 + 4)
    (hlater : ∀ k ∈ later.map Prod.fst, ¬ (k ≤ i ∧ i < k + 4)) :
    ∃ t : UInt8, IsSegment (t.toNat &&& RELOC_TYPE_MASK) ∧
      (spliceAll (List.replicate size 0) (writes es)).getD i 0 = [0, 5, 0, t].getD (i - w.1) 0 := by
  have hmem : ∀ {v}, v ∈ w :: later → v ∈ writes es := fun hv => hes ▸ List.mem_append_right _ hv
  obtain ⟨t, ht, himage, -⟩ := h.mem_writes (hmem List.mem_cons_self)
  have hinside := h.writes_inside
  have hcovers : Covers w i := (h.covers_iff (hmem List.mem_cons_self) i).mpr hi
  have hno : ∀ v ∈ later, ¬ Covers v i := by
    intro v hv hc
    exact hlater v.1 (List.mem_map_of_mem hv) ((h.covers_iff (hmem (List.mem_cons_of_mem _ hv)) i).mp hc)
  rw [hes] at hinside ⊢
  refine ⟨t, ht, ?_⟩
  rw [List.getD_eq_getElem?_getD, getElem?_spliceAll_last hinside hcovers hno, himage]
  rfl

/-- The byte at an index is 0, or a byte of the last field there. -/
theorem Fields.byte (h : Fields es size) (i : ℕ) :
    (spliceAll (List.replicate size 0) (writes es)).getD i 0 = 0 ∨
      ∃ earlier k later, es.map Prod.fst = earlier ++ k :: later ∧ (k ≤ i ∧ i < k + 4) ∧
        (∀ k' ∈ later, ¬ (k' ≤ i ∧ i < k' + 4)) ∧ ∃ t : UInt8, IsSegment (t.toNat &&& RELOC_TYPE_MASK) ∧
          (spliceAll (List.replicate size 0) (writes es)).getD i 0 = [0, 5, 0, t].getD (i - k) 0 := by
  by_cases hi : ∃ w ∈ writes es, Covers w i
  · obtain ⟨earlier, w, later, hes, hw, hlater⟩ := exists_last_covers hi
    have hmem : ∀ {v}, v ∈ w :: later → v ∈ writes es := fun hv => hes ▸ List.mem_append_right _ hv
    have hin := (h.covers_iff (hmem List.mem_cons_self) i).mp hw
    have hno : ∀ k ∈ later.map Prod.fst, ¬ (k ≤ i ∧ i < k + 4) := by
      intro k hk hc
      obtain ⟨v, hv, rfl⟩ := List.mem_map.mp hk
      exact hlater v hv ((h.covers_iff (hmem (List.mem_cons_of_mem _ hv)) i).mpr hc)
    refine .inr ⟨earlier.map Prod.fst, w.1, later.map Prod.fst, ?_, hin, hno, h.last hes hin hno⟩
    rw [← keys_writes, hes, List.map_append, List.map_cons]
  · refine .inl ?_
    rw [List.getD_eq_getElem?_getD, getElem?_spliceAll_of_not_covers h.writes_inside fun w hw hc => hi ⟨w, hw, hc⟩,
      List.getElem?_replicate]
    split_ifs <;> rfl

/-- Only the second byte of a field is the type of a prefix. -/
theorem eq_one_of_upper {t : UInt8} (ht : IsSegment (t.toNat &&& RELOC_TYPE_MASK)) {j : ℕ} (hj : j < 4)
    (h : ([0, 5, 0, t].getD j 0).toNat &&& RELOC_TYPE_MASK = RELOC_TYPE_UPPER) : j = 1 := by
  have hzero : (0 : UInt8).toNat &&& RELOC_TYPE_MASK ≠ RELOC_TYPE_UPPER := by decide
  rcases (show j = 0 ∨ j = 1 ∨ j = 2 ∨ j = 3 by omega) with rfl | rfl | rfl | rfl
  · exact absurd h hzero
  · rfl
  · exact absurd h hzero
  · exact absurd h ht.ne_upper

/-- Only the last byte of a field is the type of a segment. -/
theorem eq_three_of_segment {t : UInt8} {j : ℕ} (hj : j < 4)
    (h : IsSegment (([0, 5, 0, t].getD j 0).toNat &&& RELOC_TYPE_MASK)) : j = 3 := by
  have hzero : ¬ IsSegment ((0 : UInt8).toNat &&& RELOC_TYPE_MASK) := by decide
  have hupper : ¬ IsSegment ((5 : UInt8).toNat &&& RELOC_TYPE_MASK) := by decide
  rcases (show j = 0 ∨ j = 1 ∨ j = 2 ∨ j = 3 by omega) with rfl | rfl | rfl | rfl
  · exact absurd h hzero
  · exact absurd h hupper
  · exact absurd h hzero
  · rfl

/-- **Which fields a table marks**: those whose prefix and type are not overwritten by a later field. -/
theorem marks_spliceAll (h : Fields es size) (hnodup : (es.map Prod.fst).Nodup) (a : ℕ) :
    Marks (spliceAll (List.replicate size 0) (writes es)) a ↔ SetLast (es.map Prod.fst) a := by
  constructor
  · rintro ⟨hup, hseg⟩
    unfold wordType at hup hseg
    rcases h.byte (a + 1) with hzero | ⟨earlier, k, later, hkeys, hk, hno, t, ht, hbyte⟩
    · rw [hzero] at hup
      exact absurd hup (by decide)
    rcases h.byte (a + 2 + 1) with hzero | ⟨earlier', k', later', hkeys', hk', hno', t', -, hbyte'⟩
    · rw [hzero] at hseg
      exact absurd hseg (by decide)
    rw [hbyte] at hup
    rw [hbyte'] at hseg
    -- both bytes belong to the field at `a`
    have hoffset := eq_one_of_upper ht (by omega) hup
    have hoffset' := eq_three_of_segment (by omega) hseg
    obtain rfl : k = a := by omega
    obtain rfl : k' = k := by omega
    rw [hkeys] at hnodup hkeys'
    have hnot := List.nodup_middle.mp hnodup
    rw [List.nodup_cons, List.mem_append, not_or] at hnot
    obtain ⟨-, -, rfl⟩ := (List.append_cons_inj_of_notMem hnot.1.1 hnot.1.2).mp hkeys'
    refine ⟨earlier, later, hkeys, fun i hi => ?_⟩
    have hprefix := hno i hi
    have htype := hno' i hi
    omega
  · rintro ⟨earlier, later, hkeys, hlater⟩
    obtain ⟨es₁, es₂, rfl, -, hrest⟩ := List.map_eq_append_iff.mp hkeys
    obtain ⟨e, es₃, rfl, rfl, rfl⟩ := List.map_eq_cons_iff.mp hrest
    have hwrites : writes (es₁ ++ e :: es₃) = writes es₁ ++ (e.1, image e.2) :: writes es₃ := by
      rw [writes, List.map_append, List.map_cons]
      rfl
    have hbyte : ∀ {i}, e.1 ≤ i ∧ i < e.1 + 4 → (∀ k ∈ es₃.map Prod.fst, ¬ (k ≤ i ∧ i < k + 4)) →
        ∃ t : UInt8, IsSegment (t.toNat &&& RELOC_TYPE_MASK) ∧
          (spliceAll (List.replicate size 0) (writes (es₁ ++ e :: es₃))).getD i 0 = [0, 5, 0, t].getD (i - e.1) 0 :=
      fun hi hno => h.last hwrites hi (by rwa [keys_writes])
    obtain ⟨t, -, hup⟩ := hbyte (i := e.1 + 1) (by omega) fun k hk => by have := hlater k hk; omega
    obtain ⟨t', ht', hseg⟩ := hbyte (i := e.1 + 2 + 1) (by omega) fun k hk => by have := hlater k hk; omega
    rw [Marks, wordType, wordType, hup, hseg, Nat.add_sub_cancel_left, Nat.add_assoc, Nat.add_sub_cancel_left]
    have hupper : (5 : UInt8).toNat &&& RELOC_TYPE_MASK = RELOC_TYPE_UPPER := by decide
    exact ⟨hupper, ht'⟩

end Cpm68k.Tools
