import Cpm68k.Tools.CpmFile

/-!
# The relocation table

What `decodeRelocs` makes of a table of words, and what table `_encodeRelocs` makes of a
map.

The decoder carries a prefix from one word to the next, but what it finds at an offset
depends on three neighbouring words only: `wordReloc ws i` reads it off word `i`, the
word before it (a prefix there makes word `i` the second half of a 32-bit field) and the
word after it (which gives a prefixed field its type). `Decoded` is the state of the
loop in these terms, and it is what every step of the loop keeps.

The encoder is a series of overwrites of a table of zeros (`spliceAll`). When the map is
`WellPlaced` (every entry on a word boundary, inside the table, and clear of the others)
the overwrites do not disturb one another, and the words of the table are known
(`typeAt_of_covered`, `typeAt_of_not_covered`).

## What is proved

* `Decoded.loop` — the map `decodeRelocs` returns is `wordReloc`, whatever the words.
* `Decoded.wellPlaced` — so its entries are on word boundaries, inside the table, and
  clear of one another.
* `wordReloc_table` — the table of a well-placed map reads back as that map.
-/

namespace Cpm68k.Tools

open Cpm68k.Library

/-! ### Types and codes -/

/-- The relocation types that become an entry of the map. -/
def IsSegment (t : ℕ) : Prop := t = RELOC_TYPE_DATA ∨ t = RELOC_TYPE_TEXT ∨ t = RELOC_TYPE_BSS

instance (t : ℕ) : Decidable (IsSegment t) := inferInstanceAs (Decidable (_ ∨ _ ∨ _))

/-- An internal relocation code: a size and a type that becomes an entry. -/
def IsReloc (v : ℕ) : Prop :=
  ∃ t, IsSegment t ∧ (v = t ||| RELOC_SIZE_16 ∨ v = t ||| RELOC_SIZE_32)

/-- How many bytes a relocated field has. -/
def relocLength (v : ℕ) : ℕ := if v &&& RELOC_SIZE_MASK = RELOC_SIZE_32 then 4 else 2

/-- A code is one of two sizes and keeps its type. -/
theorem IsReloc.cases {v : ℕ} (h : IsReloc v) :
    (relocLength v = 2 ∧ v = (v &&& RELOC_TYPE_MASK) ||| RELOC_SIZE_16 ∨
      relocLength v = 4 ∧ v = (v &&& RELOC_TYPE_MASK) ||| RELOC_SIZE_32) ∧
    IsSegment (v &&& RELOC_TYPE_MASK) := by
  obtain ⟨t, rfl | rfl | rfl, rfl | rfl⟩ := h <;> decide

theorem IsReloc.relocLength_eq {v : ℕ} (h : IsReloc v) : relocLength v = 2 ∨ relocLength v = 4 := by
  rcases h.cases.1 with ⟨hl, -⟩ | ⟨hl, -⟩
  · exact .inl hl
  · exact .inr hl

theorem isReloc_or_16 {t : ℕ} (h : IsSegment t) : IsReloc (t ||| RELOC_SIZE_16) := ⟨t, h, .inl rfl⟩

theorem isReloc_or_32 {t : ℕ} (h : IsSegment t) : IsReloc (t ||| RELOC_SIZE_32) := ⟨t, h, .inr rfl⟩

theorem relocLength_or_16 {t : ℕ} (h : IsSegment t) : relocLength (t ||| RELOC_SIZE_16) = 2 := by
  rcases h with rfl | rfl | rfl <;> rfl

theorem relocLength_or_32 {t : ℕ} (h : IsSegment t) : relocLength (t ||| RELOC_SIZE_32) = 4 := by
  rcases h with rfl | rfl | rfl <;> rfl

theorem IsSegment.ne_upper {t : ℕ} (h : IsSegment t) : t ≠ RELOC_TYPE_UPPER := by
  rcases h with rfl | rfl | rfl <;> decide

/-! ### Reading a table -/

/-- The type of word `i`; past the end of the table there is nothing to relocate. -/
def typeAt (ws : List ℕ) (i : ℕ) : ℕ := ws.getD i 0 &&& RELOC_TYPE_MASK

/-- The word before word `i` is a prefix. -/
def prevUpper (ws : List ℕ) (i : ℕ) : Prop := 0 < i ∧ typeAt ws (i - 1) = RELOC_TYPE_UPPER

instance (ws : List ℕ) (i : ℕ) : Decidable (prevUpper ws i) := inferInstanceAs (Decidable (_ ∧ _))

/-- The relocation of the field that starts at word `i`. -/
def wordReloc (ws : List ℕ) (i : ℕ) : Option ℕ :=
  if IsSegment (typeAt ws i) then
    if prevUpper ws i then none else some (typeAt ws i ||| RELOC_SIZE_16)
  else if typeAt ws i = RELOC_TYPE_UPPER ∧ IsSegment (typeAt ws (i + 1)) then
    some (typeAt ws (i + 1) ||| RELOC_SIZE_32)
  else none

theorem typeAt_of_length_le {ws : List ℕ} {i : ℕ} (h : ws.length ≤ i) : typeAt ws i = RELOC_TYPE_ABSOLUTE := by
  rw [typeAt, List.getD_eq_default _ _ h]
  rfl

theorem typeAt_append_left {ws : List ℕ} {i : ℕ} (h : i < ws.length) (vs : List ℕ) :
    typeAt (ws ++ vs) i = typeAt ws i := by
  rw [typeAt, typeAt, List.getD_append _ _ _ _ h]

theorem typeAt_append_self (ws vs : List ℕ) (w : ℕ) :
    typeAt (ws ++ w :: vs) ws.length = w &&& RELOC_TYPE_MASK := by
  rw [typeAt, List.getD_append_right _ _ _ _ le_rfl]
  simp

theorem prevUpper_append {ws : List ℕ} {i : ℕ} (h : i ≤ ws.length) (vs : List ℕ) :
    prevUpper (ws ++ vs) i ↔ prevUpper ws i := by
  unfold prevUpper
  refine and_congr_right fun hi => ?_
  rw [typeAt_append_left (by omega)]

theorem wordReloc_of_length_le {ws : List ℕ} {i : ℕ} (h : ws.length ≤ i) : wordReloc ws i = none := by
  rw [wordReloc, typeAt_of_length_le h, if_neg (by decide), if_neg]
  rintro ⟨h', -⟩
  exact absurd h' (by decide)

/-- One more word changes nothing before the last word. -/
theorem wordReloc_append_of_succ_lt {ws : List ℕ} {i : ℕ} (h : i + 1 < ws.length) (w : ℕ) :
    wordReloc (ws ++ [w]) i = wordReloc ws i := by
  unfold wordReloc
  rw [typeAt_append_left (by omega), typeAt_append_left h]
  simp only [prevUpper_append (show i ≤ ws.length by omega)]

/-- One more word settles the last word: a prefix there gets its type. -/
theorem wordReloc_append_of_succ_eq {ws : List ℕ} {i : ℕ} (h : i + 1 = ws.length) (w : ℕ) :
    wordReloc (ws ++ [w]) i =
      if typeAt ws i = RELOC_TYPE_UPPER ∧ IsSegment (w &&& RELOC_TYPE_MASK) then
        some ((w &&& RELOC_TYPE_MASK) ||| RELOC_SIZE_32)
      else wordReloc ws i := by
  have hnext : typeAt (ws ++ [w]) (i + 1) = w &&& RELOC_TYPE_MASK := by rw [h, typeAt_append_self]
  have hpast : ¬ IsSegment (typeAt ws (i + 1)) := by rw [typeAt_of_length_le (by omega)]; decide
  unfold wordReloc
  rw [typeAt_append_left (by omega), hnext]
  simp only [prevUpper_append (show i ≤ ws.length by omega), hpast, and_false, if_false]
  by_cases hs : IsSegment (typeAt ws i)
  · simp [hs, hs.ne_upper]
  · simp [hs]

/-- The entry of the word just added. -/
theorem wordReloc_append_self (ws : List ℕ) (w : ℕ) :
    wordReloc (ws ++ [w]) ws.length =
      if IsSegment (w &&& RELOC_TYPE_MASK) ∧ ¬ prevUpper ws ws.length then
        some ((w &&& RELOC_TYPE_MASK) ||| RELOC_SIZE_16)
      else none := by
  have hpast : ¬ IsSegment (typeAt (ws ++ [w]) (ws.length + 1)) := by
    rw [typeAt_of_length_le (by simp)]; decide
  unfold wordReloc
  rw [typeAt_append_self]
  simp only [prevUpper_append le_rfl, hpast, and_false, if_false]
  by_cases hs : IsSegment (w &&& RELOC_TYPE_MASK) <;> by_cases hu : prevUpper ws ws.length <;> simp [hs, hu]

/-! ### The decoder -/

/-- The decoder after the words `done`: where it is, whether the last word was a prefix,
and what it has put in the map. -/
structure Decoded (done : List ℕ) (offset : ℕ) (size32 : Bool) (relocs : Dict ℕ ℕ) : Prop where
  /-- The offset counts the bytes of the words gone by. -/
  offset_eq : offset = 2 * done.length
  /-- The flag is the prefix. -/
  size32_iff : size32 = true ↔ prevUpper done done.length
  /-- The map has what the words say, at word boundaries. -/
  get?_eq : ∀ k, relocs.get? k = if k % 2 = 0 then wordReloc done (k / 2) else none

theorem Decoded.start : Decoded [] 0 false Dict.empty where
  offset_eq := rfl
  size32_iff := by simp [prevUpper]
  get?_eq k := by simp [wordReloc_of_length_le]

theorem prevUpper_append_self (ws : List ℕ) (w : ℕ) :
    prevUpper (ws ++ [w]) (ws ++ [w]).length ↔ w &&& RELOC_TYPE_MASK = RELOC_TYPE_UPPER := by
  simp [prevUpper, typeAt_append_self]

/-- A word that makes no entry: the map stays, and nothing that was pending is settled. -/
theorem Decoded.skip {done : List ℕ} {offset w : ℕ} {size32 size32' : Bool} {relocs : Dict ℕ ℕ}
    (h : Decoded done offset size32 relocs) (hw : ¬ IsSegment (w &&& RELOC_TYPE_MASK))
    (hs : size32' = true ↔ w &&& RELOC_TYPE_MASK = RELOC_TYPE_UPPER) :
    Decoded (done ++ [w]) (offset + 2) size32' relocs where
  offset_eq := by rw [h.offset_eq, List.length_append, List.length_singleton]; ring
  size32_iff := by rw [hs, prevUpper_append_self]
  get?_eq k := by
    rw [h.get?_eq]
    refine if_congr Iff.rfl ?_ rfl
    rcases lt_trichotomy (k / 2 + 1) done.length with hk | hk | hk
    · rw [wordReloc_append_of_succ_lt hk]
    · rw [wordReloc_append_of_succ_eq hk, if_neg (fun hc => hw hc.2)]
    · rw [wordReloc_of_length_le (by omega)]
      rcases Nat.lt_or_ge done.length (k / 2) with hk' | hk'
      · rw [wordReloc_of_length_le (by simp; omega)]
      · rw [show k / 2 = done.length by omega, wordReloc_append_self, if_neg (fun hc => hw hc.1)]

/-- A word that makes an entry: at its own offset, or at that of the prefix before it. -/
theorem Decoded.entry {done : List ℕ} {offset w : ℕ} {size32 : Bool} {relocs : Dict ℕ ℕ}
    (h : Decoded done offset size32 relocs) (hw : IsSegment (w &&& RELOC_TYPE_MASK)) :
    Decoded (done ++ [w]) (offset + 2) false
      (if size32 then relocs.set (offset - 2) ((w &&& RELOC_TYPE_MASK) ||| RELOC_SIZE_32)
        else relocs.set offset ((w &&& RELOC_TYPE_MASK) ||| RELOC_SIZE_16)) where
  offset_eq := by rw [h.offset_eq, List.length_append, List.length_singleton]; ring
  size32_iff := by rw [prevUpper_append_self]; simpa using hw.ne_upper
  get?_eq k := by
    have ho := h.offset_eq
    cases size32 with
    | false =>
      have hu : ¬ prevUpper done done.length := fun hp => by simpa using h.size32_iff.mpr hp
      have hlast : ∀ i, i + 1 = done.length → ¬ typeAt done i = RELOC_TYPE_UPPER := by
        intro i hi ht
        exact hu ⟨by omega, by rw [← hi, Nat.add_sub_cancel]; exact ht⟩
      simp only [Bool.false_eq_true, if_false, Dict.get?_set, h.get?_eq]
      by_cases hk : k % 2 = 0
      · simp only [hk, if_true]
        rcases lt_trichotomy (k / 2 + 1) done.length with hl | hl | hl
        · rw [wordReloc_append_of_succ_lt hl, if_neg (by omega)]
        · rw [wordReloc_append_of_succ_eq hl, if_neg (by omega), if_neg (fun hc => hlast _ hl hc.1)]
        · rcases Nat.lt_or_ge done.length (k / 2) with hk' | hk'
          · rw [wordReloc_of_length_le (show done.length ≤ k / 2 by omega),
              wordReloc_of_length_le (by simp; omega), if_neg (by omega)]
          · rw [show k / 2 = done.length by omega, wordReloc_append_self, if_pos (by omega), if_pos ⟨hw, hu⟩]
      · simp only [hk, if_false]
        rw [if_neg (by omega)]
    | true =>
      obtain ⟨hpos, hup⟩ := h.size32_iff.mp rfl
      have hu : prevUpper done done.length := ⟨hpos, hup⟩
      simp only [if_true, Dict.get?_set, h.get?_eq]
      by_cases hk : k % 2 = 0
      · simp only [hk, if_true]
        rcases lt_trichotomy (k / 2 + 1) done.length with hl | hl | hl
        · rw [wordReloc_append_of_succ_lt hl, if_neg (by omega)]
        · have ht : typeAt done (k / 2) = RELOC_TYPE_UPPER := by rw [← hup]; congr 1; omega
          rw [wordReloc_append_of_succ_eq hl, if_pos (by omega), if_pos ⟨ht, hw⟩]
        · rw [if_neg (by omega), wordReloc_of_length_le (by omega)]
          rcases Nat.lt_or_ge done.length (k / 2) with hk' | hk'
          · rw [wordReloc_of_length_le (by simp; omega)]
          · rw [show k / 2 = done.length by omega, wordReloc_append_self, if_neg (fun hc => hc.2 hu)]
      · simp only [hk, if_false]
        rw [if_neg (by omega)]

/-- **The decoder reads `wordReloc` off its words.** -/
theorem Decoded.loop {todo : List ℕ} : ∀ {done : List ℕ} {offset : ℕ} {size32 : Bool} {relocs relocs' : Dict ℕ ℕ},
    Decoded done offset size32 relocs → CPMFile.decodeLoop todo offset size32 relocs = .ok relocs' →
      ∀ k, relocs'.get? k = if k % 2 = 0 then wordReloc (done ++ todo) (k / 2) else none := by
  induction todo with
  | nil =>
    intro done offset size32 relocs relocs' hd h
    simp only [CPMFile.decodeLoop, Except.ok.injEq] at h
    subst h
    simpa using hd.get?_eq
  | cons w todo ih =>
    intro done offset size32 relocs relocs' hd h
    rw [List.append_cons]
    rw [CPMFile.decodeLoop] at h
    by_cases hnop : w &&& RELOC_TYPE_MASK = RELOC_TYPE_ABSOLUTE ∨ w &&& RELOC_TYPE_MASK = RELOC_TYPE_INSTRUCTION
    · rw [if_pos hnop] at h
      refine ih (hd.skip ?_ ?_) h
      · rcases hnop with hn | hn <;> rw [hn] <;> decide
      · rcases hnop with hn | hn <;> rw [hn] <;> decide
    by_cases hseg : IsSegment (w &&& RELOC_TYPE_MASK)
    · rw [if_neg hnop, if_pos (show _ ∨ _ ∨ _ from hseg)] at h
      exact ih (hd.entry hseg) h
    rw [if_neg hnop, if_neg (show ¬ (_ ∨ _ ∨ _) from hseg)] at h
    by_cases hup : w &&& RELOC_TYPE_MASK = RELOC_TYPE_UPPER
    · rw [if_pos hup] at h
      exact ih (hd.skip hseg (by simp [hup])) h
    · rw [if_neg hup] at h
      simp at h

/-- The loop ends without an error when every word has a type it knows. -/
theorem decodeLoop_isOk {todo : List ℕ} : ∀ (offset : ℕ) (size32 : Bool) (relocs : Dict ℕ ℕ),
    (∀ i < todo.length, typeAt todo i = RELOC_TYPE_ABSOLUTE ∨ IsSegment (typeAt todo i) ∨
      typeAt todo i = RELOC_TYPE_UPPER) →
    ∃ relocs', CPMFile.decodeLoop todo offset size32 relocs = .ok relocs' := by
  induction todo with
  | nil => intro offset size32 relocs _; exact ⟨relocs, rfl⟩
  | cons w todo ih =>
    intro offset size32 relocs h
    have hrest : ∀ i < todo.length, typeAt todo i = RELOC_TYPE_ABSOLUTE ∨ IsSegment (typeAt todo i) ∨
        typeAt todo i = RELOC_TYPE_UPPER := fun i hi => by simpa [typeAt] using h (i + 1) (by simp; omega)
    have hw := h 0 (by simp)
    simp only [typeAt, List.getD_cons_zero] at hw
    simp only [CPMFile.decodeLoop]
    split_ifs with hnop hseg hsize hup
    · exact ih _ _ _ hrest
    · exact ih _ _ _ hrest
    · exact ih _ _ _ hrest
    · exact ih _ _ _ hrest
    · rcases hw with hw | hw | hw
      · exact absurd (.inl hw) hnop
      · exact absurd hw hseg
      · exact absurd hw hup

/-! ### Well-placed maps -/

/-- A relocation map that a table of `size` bytes can hold: every entry is a relocation of
a field on a word boundary, inside the table, and clear of the other entries. -/
structure WellPlaced (relocs : Dict ℕ ℕ) (size : ℕ) : Prop where
  /-- Every entry has a size and a type. -/
  code : ∀ {k v}, relocs.get? k = some v → IsReloc v
  /-- Every entry is on a word boundary. -/
  even : ∀ {k v}, relocs.get? k = some v → k % 2 = 0
  /-- Every entry is inside the table. -/
  inside : ∀ {k v}, relocs.get? k = some v → k + relocLength v ≤ size
  /-- An entry ends before the next one starts. -/
  apart : ∀ {k v k' v'}, relocs.get? k = some v → relocs.get? k' = some v' → k < k' → k + relocLength v ≤ k'

theorem isReloc_iff (v : ℕ) : IsReloc v ↔ v ∈ [0x10001, 0x10002, 0x10003, 0x20001, 0x20002, 0x20003] := by
  constructor
  · rintro ⟨t, rfl | rfl | rfl, rfl | rfl⟩ <;> decide
  · intro h
    simp only [List.mem_cons, List.not_mem_nil, or_false] at h
    rcases h with rfl | rfl | rfl | rfl | rfl | rfl
    · exact isReloc_or_16 (.inl rfl)
    · exact isReloc_or_16 (.inr (.inl rfl))
    · exact isReloc_or_16 (.inr (.inr rfl))
    · exact isReloc_or_32 (.inl rfl)
    · exact isReloc_or_32 (.inr (.inl rfl))
    · exact isReloc_or_32 (.inr (.inr rfl))

instance (v : ℕ) : Decidable (IsReloc v) := decidable_of_iff' _ (isReloc_iff v)

/-- Well-placedness can be checked entry by entry. -/
theorem wellPlaced_iff (relocs : Dict ℕ ℕ) (size : ℕ) :
    WellPlaced relocs size ↔ ∀ e ∈ relocs.entries, (IsReloc e.2 ∧ e.1 % 2 = 0 ∧ e.1 + relocLength e.2 ≤ size) ∧
      ∀ e' ∈ relocs.entries, e.1 < e'.1 → e.1 + relocLength e.2 ≤ e'.1 := by
  have hmem := fun e : ℕ × ℕ => relocs.mem_entries_iff e.1 e.2
  constructor
  · intro h e he
    have ge := (hmem e).mp he
    exact ⟨⟨h.code ge, h.even ge, h.inside ge⟩, fun e' he' => h.apart ge ((hmem e').mp he')⟩
  · intro h
    refine ⟨fun {k v} hk => ?_, fun {k v} hk => ?_, fun {k v} hk => ?_, fun {k v k' v'} hk hk' => ?_⟩
    · exact (h (k, v) ((hmem (k, v)).mpr hk)).1.1
    · exact (h (k, v) ((hmem (k, v)).mpr hk)).1.2.1
    · exact (h (k, v) ((hmem (k, v)).mpr hk)).1.2.2
    · exact (h (k, v) ((hmem (k, v)).mpr hk)).2 (k', v') ((hmem (k', v')).mpr hk')

instance (relocs : Dict ℕ ℕ) (size : ℕ) : Decidable (WellPlaced relocs size) :=
  decidable_of_iff' _ (wellPlaced_iff relocs size)

theorem wordReloc_eq_some {ws : List ℕ} {i v : ℕ} (h : wordReloc ws i = some v) :
    i < ws.length ∧
      (IsSegment (typeAt ws i) ∧ ¬ prevUpper ws i ∧ v = typeAt ws i ||| RELOC_SIZE_16 ∨
        typeAt ws i = RELOC_TYPE_UPPER ∧ IsSegment (typeAt ws (i + 1)) ∧ i + 1 < ws.length ∧
          v = typeAt ws (i + 1) ||| RELOC_SIZE_32) := by
  have hlt : ∀ j, typeAt ws j ≠ RELOC_TYPE_ABSOLUTE → j < ws.length := by
    intro j hj
    by_contra hc
    exact hj (typeAt_of_length_le (by omega))
  unfold wordReloc at h
  split_ifs at h with hs hu hp
  · simp only [Option.some.injEq] at h
    exact ⟨hlt i (by rcases hs with hs | hs | hs <;> rw [hs] <;> decide), .inl ⟨hs, hu, h.symm⟩⟩
  · simp only [Option.some.injEq] at h
    refine ⟨hlt i (by rw [hp.1]; decide), .inr ⟨hp.1, hp.2, hlt _ ?_, h.symm⟩⟩
    rcases hp.2 with hs | hs | hs <;> rw [hs] <;> decide

/-- **What the decoder returns is well placed**, whatever the words of the table: a field
that a prefix starts takes its type from the next word, so that word starts no field. -/
theorem Decoded.wellPlaced {ws : List ℕ} {relocs : Dict ℕ ℕ}
    (h : ∀ k, relocs.get? k = if k % 2 = 0 then wordReloc ws (k / 2) else none) :
    WellPlaced relocs (2 * ws.length) := by
  have hget : ∀ {k v}, relocs.get? k = some v → k % 2 = 0 ∧ wordReloc ws (k / 2) = some v := by
    intro k v hk
    rw [h] at hk
    split_ifs at hk with he
    exact ⟨he, hk⟩
  refine ⟨fun {k v} hk => ?_, fun hk => (hget hk).1, fun {k v} hk => ?_, fun {k v k' v'} hk hk' hlt => ?_⟩
  · rcases (wordReloc_eq_some (hget hk).2).2 with ⟨hs, -, rfl⟩ | ⟨-, hs, -, rfl⟩
    · exact isReloc_or_16 hs
    · exact isReloc_or_32 hs
  · obtain ⟨he, hw⟩ := hget hk
    obtain ⟨hi, ⟨hs, -, rfl⟩ | ⟨-, hs, hi', rfl⟩⟩ := wordReloc_eq_some hw
    · rw [relocLength_or_16 hs]; omega
    · rw [relocLength_or_32 hs]; omega
  · obtain ⟨he, hw⟩ := hget hk
    obtain ⟨he', hw'⟩ := hget hk'
    obtain ⟨-, ⟨hs, -, rfl⟩ | ⟨hup, hs, -, rfl⟩⟩ := wordReloc_eq_some hw
    · rw [relocLength_or_16 hs]; omega
    · rw [relocLength_or_32 hs]
      by_contra hc
      have hnext : k' / 2 = k / 2 + 1 := by omega
      rw [hnext] at hw'
      obtain ⟨-, ⟨-, hu, -⟩ | ⟨hup', -⟩⟩ := wordReloc_eq_some hw'
      · exact hu ⟨by omega, by simpa using hup⟩
      · exact hs.ne_upper hup'

/-! ### The encoder -/

/-- The words the encoder writes for an entry. -/
def image (v : ℕ) : List UInt8 :=
  if v &&& RELOC_SIZE_MASK = RELOC_SIZE_32 then
    bigEndian 2 RELOC_TYPE_UPPER ++ bigEndian 2 (v &&& RELOC_TYPE_MASK)
  else bigEndian 2 (v &&& RELOC_TYPE_MASK)

@[simp] theorem length_image (v : ℕ) : (image v).length = relocLength v := by
  unfold image relocLength
  split_ifs <;> simp

/-- The overwrites the encoder makes, in its order. -/
def writes (es : List (ℕ × ℕ)) : List (ℕ × List UInt8) := es.map fun e => (e.1, image e.2)

theorem writes_cons (offset v : ℕ) (es : List (ℕ × ℕ)) :
    writes ((offset, v) :: es) = (offset, image v) :: writes es := rfl

theorem packInto_of_le {buffer : List UInt8} {offset value : ℕ} (hv : value < 65536)
    (h : offset + 2 ≤ buffer.length) :
    packInto buffer offset value = .ok (splice buffer offset (bigEndian 2 value)) := if_pos ⟨hv, h⟩

theorem and_typeMask_lt (v : ℕ) : v &&& RELOC_TYPE_MASK < 65536 :=
  lt_of_le_of_lt Nat.and_le_right (by decide)

/-- The encoder's loop is a series of overwrites when every entry is inside the table. -/
theorem encodeLoop_eq {size : ℕ} {es : List (ℕ × ℕ)} : ∀ {buffer : List UInt8}, buffer.length = size →
    (∀ e ∈ es, e.1 + relocLength e.2 ≤ size) →
      CPMFile.encodeLoop size es buffer = .ok (spliceAll buffer (writes es)) := by
  induction es with
  | nil => intro buffer _ _; rfl
  | cons e es ih =>
    intro buffer hlen h
    obtain ⟨offset, v⟩ := e
    have he : offset + relocLength v ≤ size := h (offset, v) List.mem_cons_self
    have hstep : (splice buffer offset (image v)).length = size := by
      rw [length_splice_of_le (by rw [length_image]; omega), hlen]
    have hrest := ih hstep fun e' he' => h e' (List.mem_cons_of_mem _ he')
    rw [CPMFile.encodeLoop, writes_cons, spliceAll_cons]
    by_cases hs : v &&& RELOC_SIZE_MASK = RELOC_SIZE_32
    · rw [relocLength, if_pos hs] at he
      have hfirst := packInto_of_le (show RELOC_TYPE_UPPER < 65536 by decide)
        (show offset + 2 ≤ buffer.length by omega)
      have hlen' : (splice buffer offset (bigEndian 2 RELOC_TYPE_UPPER)).length = size := by
        rw [length_splice_of_le (by simp; omega), hlen]
      have hsecond := packInto_of_le (and_typeMask_lt v)
        (show offset + 2 + 2 ≤ (splice buffer offset (bigEndian 2 RELOC_TYPE_UPPER)).length by omega)
      have hjoin := splice_splice (l := buffer) (o := offset) (by omega) (bigEndian 2 RELOC_TYPE_UPPER)
        (bigEndian 2 (v &&& RELOC_TYPE_MASK))
      rw [length_bigEndian] at hjoin
      rw [image, if_pos hs] at hrest ⊢
      simp only [if_pos hs, if_neg (show ¬ (offset : ℤ) > size - 4 by omega), hfirst, hsecond, hjoin, bind,
        Except.bind]
      exact hrest
    · rw [relocLength, if_neg hs] at he
      have hfirst := packInto_of_le (and_typeMask_lt v) (show offset + 2 ≤ buffer.length by omega)
      rw [image, if_neg hs] at hrest ⊢
      simp only [if_neg hs, if_neg (show ¬ (offset : ℤ) > size - 2 by omega), hfirst, bind, Except.bind]
      exact hrest

/-- The table of a map. -/
def table (relocs : Dict ℕ ℕ) (size : ℕ) : List UInt8 :=
  spliceAll (List.replicate size 0) (writes relocs.entries)

/-- The words of the table. -/
def tableWords (relocs : Dict ℕ ℕ) (size : ℕ) : List ℕ :=
  fieldsOf (List.replicate (size / 2) 2) (table relocs size)

@[simp] theorem length_tableWords (relocs : Dict ℕ ℕ) (size : ℕ) : (tableWords relocs size).length = size / 2 := by
  simp [tableWords, length_fieldsOf]

namespace WellPlaced

variable {relocs : Dict ℕ ℕ} {size : ℕ}

theorem writes_inside (h : WellPlaced relocs size) :
    ∀ w ∈ writes relocs.entries, w.1 + w.2.length ≤ (List.replicate size (0 : UInt8)).length := by
  intro w hw
  obtain ⟨e, he, rfl⟩ := List.mem_map.mp hw
  simpa using h.inside ((relocs.mem_entries_iff e.1 e.2).mp he)

theorem length_table (h : WellPlaced relocs size) : (table relocs size).length = size := by
  rw [table, length_spliceAll h.writes_inside, List.length_replicate]

theorem encodeRelocs_eq (h : WellPlaced relocs size) : CPMFile.encodeRelocs relocs size = .ok (table relocs size) :=
  encodeLoop_eq (List.length_replicate ..) fun e he => h.inside ((relocs.mem_entries_iff e.1 e.2).mp he)

/-- The encoder's overwrites do not overlap. -/
theorem writes_apart (h : WellPlaced relocs size) : (writes relocs.entries).Pairwise Apart := by
  have hnodup : relocs.entries.Nodup := List.Nodup.of_map Prod.fst relocs.nodup
  refine List.pairwise_map.mpr (hnodup.pairwise_of_forall_ne fun a ha b hb hab => ?_)
  have ga := (relocs.mem_entries_iff a.1 a.2).mp ha
  have gb := (relocs.mem_entries_iff b.1 b.2).mp hb
  have hk : a.1 ≠ b.1 := by
    intro hk
    rw [hk, gb, Option.some.injEq] at ga
    exact hab (Prod.ext hk ga.symm)
  simp only [Apart, length_image]
  rcases Nat.lt_or_gt_of_ne hk with hlt | hlt
  · exact .inl (h.apart ga gb hlt)
  · exact .inr (h.apart gb ga hlt)

/-- A byte of the table that an entry covers. -/
theorem getElem?_table (h : WellPlaced relocs size) {k v i : ℕ} (hk : relocs.get? k = some v)
    (hi : k ≤ i ∧ i < k + relocLength v) : (table relocs size)[i]? = (image v)[i - k]? := by
  have hmem : (k, image v) ∈ writes relocs.entries :=
    List.mem_map.mpr ⟨(k, v), (relocs.mem_entries_iff k v).mpr hk, rfl⟩
  exact getElem?_spliceAll h.writes_inside h.writes_apart hmem (by simpa [Covers] using hi)

/-- A byte of the table that no entry covers. -/
theorem getElem?_table_of_not_covered (h : WellPlaced relocs size) {i : ℕ} (hi : i < size)
    (hk : ∀ k v, relocs.get? k = some v → ¬ (k ≤ i ∧ i < k + relocLength v)) : (table relocs size)[i]? = some 0 := by
  rw [table, getElem?_spliceAll_of_not_covers h.writes_inside]
  · simp [hi]
  · intro w hw hc
    obtain ⟨e, he, rfl⟩ := List.mem_map.mp hw
    exact hk e.1 e.2 ((relocs.mem_entries_iff e.1 e.2).mp he) (by simpa [Covers] using hc)

/-- A word of the table, from its two bytes. -/
theorem typeAt_of_bytes {i : ℕ} {a b : UInt8} (hi : i < size / 2) (ha : (table relocs size)[2 * i]? = some a)
    (hb : (table relocs size)[2 * i + 1]? = some b) :
    typeAt (tableWords relocs size) i = ofBigEndian [a, b] &&& RELOC_TYPE_MASK := by
  have hbytes : ((table relocs size).drop (2 * i)).take 2 = [a, b] := by
    apply List.ext_getElem?
    intro j
    match j with
    | 0 => simpa using ha
    | 1 => simpa using hb
    | j + 2 => simp
  rw [typeAt, List.getD_eq_getElem?_getD, tableWords, getElem?_fieldsOf_replicate 2 _ _ _ hi, hbytes]
  rfl

/-- A word inside an entry: the prefix that starts a 32-bit field, else the entry's type. -/
theorem typeAt_of_covered (h : WellPlaced relocs size) {k v i : ℕ} (hk : relocs.get? k = some v)
    (hi : k ≤ 2 * i ∧ 2 * i < k + relocLength v) :
    typeAt (tableWords relocs size) i =
      if 2 * i = k ∧ relocLength v = 4 then RELOC_TYPE_UPPER else v &&& RELOC_TYPE_MASK := by
  have he := h.even hk
  have hin := h.inside hk
  have hl := (h.code hk).relocLength_eq
  have ha := h.getElem?_table hk hi
  have hb := h.getElem?_table hk (i := 2 * i + 1) (by omega)
  obtain ⟨t, ht, hv⟩ := h.code hk
  have hval : ∀ v, IsReloc v → ∀ j, j = 0 ∨ j = 2 ∧ relocLength v = 4 → ∃ a b, (image v)[j]? = some a ∧
      (image v)[j + 1]? = some b ∧ ofBigEndian [a, b] &&& RELOC_TYPE_MASK =
        if j = 0 ∧ relocLength v = 4 then RELOC_TYPE_UPPER else v &&& RELOC_TYPE_MASK := by
    rintro v ⟨t, rfl | rfl | rfl, rfl | rfl⟩ j (rfl | ⟨rfl, hl⟩) <;>
      first | exact ⟨_, _, rfl, rfl, rfl⟩ | exact absurd hl (by decide)
  obtain ⟨a, b, ha', hb', hab⟩ := hval v (h.code hk) (2 * i - k) (by omega)
  rw [typeAt_of_bytes (by omega) (ha.trans ha') (hb.trans (by rw [← hb']; congr 1; omega)), hab]
  refine if_congr ?_ rfl rfl
  omega

/-- A word that no entry covers. -/
theorem typeAt_of_not_covered (h : WellPlaced relocs size) {i : ℕ} (hi : i < size / 2)
    (hk : ∀ k v, relocs.get? k = some v → ¬ (k ≤ 2 * i ∧ 2 * i < k + relocLength v)) :
    typeAt (tableWords relocs size) i = RELOC_TYPE_ABSOLUTE := by
  have ha := h.getElem?_table_of_not_covered (i := 2 * i) (by omega) hk
  have hb := h.getElem?_table_of_not_covered (i := 2 * i + 1) (by omega) fun k v hkv hc => by
    have he := h.even hkv
    have hl := (h.code hkv).relocLength_eq
    exact hk k v hkv (by omega)
  rw [typeAt_of_bytes hi ha hb]
  rfl

/-- Every word of the table has a type the decoder knows. -/
theorem typeAt_valid (h : WellPlaced relocs size) (i : ℕ) (hi : i < (tableWords relocs size).length) :
    typeAt (tableWords relocs size) i = RELOC_TYPE_ABSOLUTE ∨ IsSegment (typeAt (tableWords relocs size) i) ∨
      typeAt (tableWords relocs size) i = RELOC_TYPE_UPPER := by
  rw [length_tableWords] at hi
  by_cases hc : ∃ k v, relocs.get? k = some v ∧ k ≤ 2 * i ∧ 2 * i < k + relocLength v
  · obtain ⟨k, v, hk, hcov⟩ := hc
    rw [h.typeAt_of_covered hk hcov]
    split_ifs
    · exact .inr (.inr rfl)
    · exact .inr (.inl (h.code hk).cases.2)
  · exact .inl (h.typeAt_of_not_covered hi fun k v hk hcov => hc ⟨k, v, hk, hcov⟩)

/-- **The table of a well-placed map reads back as the map**: the word of a 16-bit field is
its type, with no prefix before it; a 32-bit field is a prefix and its type; and the second
word of a 32-bit field starts no field, since the prefix before it takes its type. -/
theorem wordReloc_table (h : WellPlaced relocs size) (hs : size % 2 = 0) (i : ℕ) :
    wordReloc (tableWords relocs size) i = relocs.get? (2 * i) := by
  rcases Nat.lt_or_ge i (size / 2) with hi | hi
  swap
  · rw [wordReloc_of_length_le (by simpa using hi)]
    cases hk : relocs.get? (2 * i) with
    | none => rfl
    | some v =>
      have hin := h.inside hk
      have := (h.code hk).relocLength_eq
      omega
  cases hk : relocs.get? (2 * i) with
  | some v =>
    have hin := h.inside hk
    obtain ⟨hl, hseg⟩ := (h.code hk).cases
    rcases hl with ⟨hl, hv⟩ | ⟨hl, hv⟩
    · have ht := h.typeAt_of_covered (i := i) hk (by omega)
      rw [if_neg (by omega)] at ht
      have hprev : ¬ prevUpper (tableWords relocs size) i := by
        rintro ⟨hpos, hup⟩
        by_cases hc : ∃ k v, relocs.get? k = some v ∧ k ≤ 2 * (i - 1) ∧ 2 * (i - 1) < k + relocLength v
        · obtain ⟨k, v', hk', hcov⟩ := hc
          rw [h.typeAt_of_covered hk' hcov] at hup
          split_ifs at hup with hstart
          · have := h.apart hk' hk (by omega)
            omega
          · exact (h.code hk').cases.2.ne_upper hup
        · rw [h.typeAt_of_not_covered (by omega) fun k v hk hcov => hc ⟨k, v, hk, hcov⟩] at hup
          exact absurd hup (by decide)
      rw [wordReloc, ht, if_pos hseg, if_neg hprev, ← hv]
    · have ht := h.typeAt_of_covered (i := i) hk (by omega)
      have ht' := h.typeAt_of_covered (i := i + 1) hk (by omega)
      rw [if_pos ⟨rfl, hl⟩] at ht
      rw [if_neg (by omega)] at ht'
      rw [wordReloc, ht, ht', if_neg (by decide), if_pos ⟨rfl, hseg⟩, ← hv]
  | none =>
    by_cases hc : ∃ k v, relocs.get? k = some v ∧ k ≤ 2 * i ∧ 2 * i < k + relocLength v
    · obtain ⟨k, v, hk', hcov⟩ := hc
      have hne : k ≠ 2 * i := by rintro rfl; rw [hk] at hk'; exact absurd hk' (by simp)
      have he := h.even hk'
      have hl := (h.code hk').relocLength_eq
      have ht := h.typeAt_of_covered hk' hcov
      have hp := h.typeAt_of_covered (i := i - 1) hk' (by omega)
      rw [if_neg (by omega)] at ht
      rw [if_pos (by omega)] at hp
      rw [wordReloc, ht, if_pos (h.code hk').cases.2, if_pos ⟨by omega, hp⟩]
    · have ht := h.typeAt_of_not_covered hi fun k v hk hcov => hc ⟨k, v, hk, hcov⟩
      rw [wordReloc, ht, if_neg (by decide), if_neg (fun hu => absurd hu.1 (by decide))]

/-- **Decoding inverts encoding** on well-placed maps. -/
theorem decodeRelocs_table (h : WellPlaced relocs size) (hs : size % 2 = 0) :
    ∃ relocs', CPMFile.decodeRelocs (table relocs size) = .ok relocs' ∧ Dict.Same relocs' relocs := by
  obtain ⟨relocs', hok⟩ := decodeLoop_isOk 0 false Dict.empty h.typeAt_valid
  refine ⟨relocs', ?_, fun k => ?_⟩
  · have hunpack : structUnpack (List.replicate ((table relocs size).length / 2) 2) (table relocs size) =
        .ok (tableWords relocs size) := by
      rw [structUnpack, unpack, calcsize_replicate, h.length_table, if_pos (by omega)]
      rfl
    simpa only [CPMFile.decodeRelocs, hunpack, bind, Except.bind] using hok
  · rw [Decoded.start.loop hok, List.nil_append]
    split_ifs with hk
    · rw [h.wordReloc_table hs, show 2 * (k / 2) = k by omega]
    · cases hg : relocs.get? k with
      | none => rfl
      | some v => exact absurd (h.even hg) hk

end WellPlaced

/-- What `decodeRelocs` accepts: a whole number of words; and what it returns. -/
theorem decodeRelocs_eq_ok {relocBytes : List UInt8} {relocs : Dict ℕ ℕ}
    (h : CPMFile.decodeRelocs relocBytes = .ok relocs) :
    relocBytes.length % 2 = 0 ∧ WellPlaced relocs relocBytes.length := by
  simp only [CPMFile.decodeRelocs, structUnpack, unpack, calcsize_replicate, bind, Except.bind] at h
  split_ifs at h with hlen
  · have hw := Decoded.wellPlaced (Decoded.start.loop h)
    rw [List.nil_append, length_fieldsOf, List.length_replicate, show 2 * (relocBytes.length / 2) = relocBytes.length by omega] at hw
    exact ⟨by omega, hw⟩

end Cpm68k.Tools
