import Cpm68k.Library.Splice
import Cpm68k.Library.Struct
import Mathlib.Data.List.Pairwise

/-!
# Moving an image

The image of a program holds addresses of the program, each in a field of some bytes with the high
byte first. When the program is moved up in memory, the distance is added to every field, modulo
what the field can hold.

## What is proved

* `rebase_eq_spliceAll` — fields that do not overlap are changed as if all were changed at once.
* `fieldAt_rebase`, `getElem?_rebase_of_not_covers` — the distance is added to every field, and
  nothing else is changed.
* `rebase_rebase` — moving twice is moving by the sum of the distances.
* `address_mem_iff_of_rebase` — how the moved image tells where the fields are.
-/

namespace Cpm68k.Library

/-! ### Numbers in fields -/

/-- A field has room for the low-order bytes of a number. -/
theorem bigEndian_congr {n v w : ℕ} (h : v % 256 ^ n = w % 256 ^ n) : bigEndian n v = bigEndian n w := by
  induction n generalizing v w with
  | zero => rfl
  | succ n ih =>
    have hlow : v % 256 = w % 256 := by
      have hdvd : 256 ∣ 256 ^ (n + 1) := Dvd.intro_left _ (pow_succ 256 n).symm
      rw [← Nat.mod_mod_of_dvd v hdvd, h, Nat.mod_mod_of_dvd w hdvd]
    have hhigh : v / 256 % 256 ^ n = w / 256 % 256 ^ n := by
      rw [← Nat.mod_mul_right_div_self v, ← Nat.mod_mul_right_div_self w, ← pow_succ', h]
    have hbyte : UInt8.ofNat v = UInt8.ofNat w := by
      apply UInt8.toNat_inj.mp
      rw [UInt8.toNat_ofNat', UInt8.toNat_ofNat']
      exact hlow
    rw [bigEndian, bigEndian, ih hhigh, hbyte]

theorem ofBigEndian_bigEndian_mod (n v : ℕ) : ofBigEndian (bigEndian n v) = v % 256 ^ n := by
  rw [bigEndian_congr (Nat.mod_mod v (256 ^ n)).symm]
  exact ofBigEndian_bigEndian (Nat.mod_lt _ (Nat.pow_pos (by norm_num)))

theorem bigEndian_ofBigEndian (bs : List UInt8) : bigEndian bs.length (ofBigEndian bs) = bs := by
  induction bs using List.reverseRecOn with
  | nil => rfl
  | append_singleton bs b ih =>
    have hb := b.toNat_lt
    have hlow : UInt8.ofNat (256 * ofBigEndian bs + b.toNat) = b := by
      apply UInt8.toNat_inj.mp
      rw [UInt8.toNat_ofNat']
      omega
    rw [ofBigEndian_append_singleton, List.length_append, List.length_singleton, bigEndian, hlow,
      show (256 * ofBigEndian bs + b.toNat) / 256 = ofBigEndian bs by omega, ih]

/-- The high bytes, and then the low ones. -/
theorem bigEndian_add (m n v : ℕ) : bigEndian (m + n) v = bigEndian m (v / 256 ^ n) ++ bigEndian n v := by
  induction n generalizing v with
  | zero => simp [bigEndian]
  | succ n ih =>
    rw [← Nat.add_assoc, bigEndian, ih, bigEndian, Nat.div_div_eq_div_mul, ← pow_succ', List.append_assoc]

/-- A field of an image. -/
structure ImageField where
  /-- The address of its first byte. -/
  address : ℕ
  /-- How many bytes it has. -/
  width : ℕ
deriving DecidableEq

namespace ImageField

/-- The field is inside an image of `size` bytes. -/
def Inside (size : ℕ) (f : ImageField) : Prop := f.address + f.width ≤ size

/-- Two fields have no byte in common. -/
def Apart (f g : ImageField) : Prop := f.address + f.width ≤ g.address ∨ g.address + g.width ≤ f.address

/-- The field has the byte at an address. -/
def Covers (f : ImageField) (a : ℕ) : Prop := f.address ≤ a ∧ a < f.address + f.width

end ImageField

/-- The number in a field. -/
def fieldAt (image : List UInt8) (f : ImageField) : ℕ := ofBigEndian ((image.drop f.address).take f.width)

/-- The write of a number to a field. -/
def fieldWrite (f : ImageField) (v : ℕ) : ℕ × List UInt8 := (f.address, bigEndian f.width v)

/-- Add a distance to the fields of an image, one after the other. -/
def rebase (distance : ℕ) (fields : List ImageField) (image : List UInt8) : List UInt8 :=
  fields.foldl (fun image f => splice image f.address (bigEndian f.width (fieldAt image f + distance))) image

variable {image image' : List UInt8} {f g : ImageField} {fields fields' : List ImageField} {distance : ℕ}

/-- A field depends on its bytes only. -/
theorem fieldAt_congr (h : ∀ a, f.Covers a → image[a]? = image'[a]?) : fieldAt image f = fieldAt image' f := by
  unfold fieldAt
  congr 1
  apply List.ext_getElem?
  intro i
  rw [List.getElem?_take, List.getElem?_take, List.getElem?_drop, List.getElem?_drop]
  split_ifs with hi
  · exact h _ ⟨by omega, by omega⟩
  · rfl

/-- A number that lies in the bytes of a field. -/
theorem fieldAt_of_bytes {v : ℕ} (h : ∀ i < f.width, image[f.address + i]? = (bigEndian f.width v)[i]?) :
    fieldAt image f = v % 256 ^ f.width := by
  have hbytes : (image.drop f.address).take f.width = bigEndian f.width v := by
    apply List.ext_getElem?
    intro i
    rw [List.getElem?_take, List.getElem?_drop]
    split_ifs with hi
    · exact h i hi
    · rw [List.getElem?_eq_none (by rw [length_bigEndian]; omega)]
  rw [fieldAt, hbytes, ofBigEndian_bigEndian_mod]

/-- The bytes of a field are those of its number. -/
theorem getElem?_of_covers {a : ℕ} (hin : f.Inside image.length) (ha : f.Covers a) :
    image[a]? = (bigEndian f.width (fieldAt image f))[a - f.address]? := by
  obtain ⟨hle, hlt⟩ := ha
  unfold ImageField.Inside at hin
  have hlen : ((image.drop f.address).take f.width).length = f.width := by
    rw [List.length_take, List.length_drop]
    omega
  have hbytes := bigEndian_ofBigEndian ((image.drop f.address).take f.width)
  rw [hlen] at hbytes
  rw [fieldAt, hbytes, List.getElem?_take, if_pos (by omega), List.getElem?_drop]
  congr 1
  omega

/-- Adding to the high byte of a field changes that byte, and no other. -/
theorem getElem?_bigEndian_add_high (n v i : ℕ) :
    (bigEndian (n + 1) (v + 256 ^ n))[i]? = (bigEndian (n + 1) v)[i]? ↔ i ≠ 0 := by
  have hlow : bigEndian n (v + 256 ^ n) = bigEndian n v := bigEndian_congr (Nat.add_mod_right v (256 ^ n))
  have hhigh : (v + 256 ^ n) / 256 ^ n = v / 256 ^ n + 1 := Nat.add_div_right v (Nat.pow_pos (by norm_num))
  have hbyte : ∀ q, bigEndian 1 q = [UInt8.ofNat q] := fun _ => rfl
  rw [Nat.add_comm n 1, bigEndian_add, bigEndian_add, hlow, hhigh, hbyte, hbyte]
  cases i with
  | zero =>
    refine iff_of_false (fun h => ?_) fun h => h rfl
    have heq : UInt8.ofNat (v / 256 ^ n + 1) = UInt8.ofNat (v / 256 ^ n) := Option.some.inj h
    have hnat := congrArg UInt8.toNat heq
    rw [UInt8.toNat_ofNat', UInt8.toNat_ofNat'] at hnat
    omega
  | succ i => exact iff_of_true rfl (Nat.succ_ne_zero i)

/-! ### Changing all fields at once -/

/-- The writes that move an image: to every field what was in it, and the distance. -/
def rebaseWrites (distance : ℕ) (fields : List ImageField) (image : List UInt8) : List (ℕ × List UInt8) :=
  fields.map fun f => fieldWrite f (fieldAt image f + distance)

theorem apart_writes {v w : ℕ} : Apart (fieldWrite f v) (fieldWrite g w) ↔ f.Apart g := by
  simp only [Apart, fieldWrite, ImageField.Apart, length_bigEndian]

theorem covers_write {v a : ℕ} : Covers (fieldWrite f v) a ↔ f.Covers a := by
  simp only [Covers, fieldWrite, ImageField.Covers, length_bigEndian]

theorem inside_rebaseWrites (h : ∀ f ∈ fields, f.Inside image.length) :
    ∀ w ∈ rebaseWrites distance fields image', w.1 + w.2.length ≤ image.length := by
  intro w hw
  obtain ⟨f, hf, rfl⟩ := List.mem_map.mp hw
  have hin := h f hf
  unfold ImageField.Inside at hin
  simpa [fieldWrite] using hin

theorem pairwise_rebaseWrites (h : fields.Pairwise ImageField.Apart) :
    (rebaseWrites distance fields image).Pairwise Apart :=
  h.map _ fun _ _ => apart_writes.mpr

/-- **Fields that do not overlap** do not see one another change. -/
theorem rebase_eq_spliceAll (h : ∀ f ∈ fields, f.Inside image.length) (hp : fields.Pairwise ImageField.Apart) :
    rebase distance fields image = spliceAll image (rebaseWrites distance fields image) := by
  induction fields generalizing image with
  | nil => rfl
  | cons f fields ih =>
    obtain ⟨hf, hrest⟩ := List.forall_mem_cons.mp h
    obtain ⟨hapart, hp⟩ := List.pairwise_cons.mp hp
    unfold ImageField.Inside at hf
    have hlen : (splice image f.address (bigEndian f.width (fieldAt image f + distance))).length = image.length :=
      length_splice_of_le (by rwa [length_bigEndian])
    have hsame : rebaseWrites distance fields (splice image f.address (bigEndian f.width (fieldAt image f + distance))) =
        rebaseWrites distance fields image := by
      refine List.map_congr_left fun g hg => ?_
      have hold := hapart g hg
      unfold ImageField.Apart at hold
      rw [fieldAt_congr fun a ha => ?_]
      unfold ImageField.Covers at ha
      rw [getElem?_splice (by omega), length_bigEndian, if_neg (by omega)]
    calc rebase distance (f :: fields) image
        = rebase distance fields (splice image f.address (bigEndian f.width (fieldAt image f + distance))) := rfl
      _ = spliceAll (splice image f.address (bigEndian f.width (fieldAt image f + distance)))
            (rebaseWrites distance fields image) := by
          rw [ih (fun g hg => by rw [hlen]; exact hrest g hg) hp, hsame]
      _ = spliceAll image (rebaseWrites distance (f :: fields) image) := rfl

section

variable (h : ∀ f ∈ fields, f.Inside image.length) (hp : fields.Pairwise ImageField.Apart)

include h hp

theorem length_rebase : (rebase distance fields image).length = image.length := by
  rw [rebase_eq_spliceAll h hp, length_spliceAll (inside_rebaseWrites h)]

/-- What is in no field stays as it was. -/
theorem getElem?_rebase_of_not_covers {a : ℕ} (ha : ∀ f ∈ fields, ¬ f.Covers a) :
    (rebase distance fields image)[a]? = image[a]? := by
  rw [rebase_eq_spliceAll h hp]
  refine getElem?_spliceAll_of_not_covers (inside_rebaseWrites h) fun w hw => ?_
  obtain ⟨f, hf, rfl⟩ := List.mem_map.mp hw
  rw [covers_write]
  exact ha f hf

/-- What is in a field. -/
theorem getElem?_rebase_of_covers {a : ℕ} (hf : f ∈ fields) (ha : f.Covers a) :
    (rebase distance fields image)[a]? = (bigEndian f.width (fieldAt image f + distance))[a - f.address]? := by
  rw [rebase_eq_spliceAll h hp]
  exact getElem?_spliceAll (w := fieldWrite f (fieldAt image f + distance)) (inside_rebaseWrites h)
    (pairwise_rebaseWrites hp) (List.mem_map_of_mem hf) (covers_write.mpr ha)

/-- **The distance is added to every field.** -/
theorem fieldAt_rebase (hf : f ∈ fields) :
    fieldAt (rebase distance fields image) f = (fieldAt image f + distance) % 256 ^ f.width := by
  refine fieldAt_of_bytes fun i hi => ?_
  rw [getElem?_rebase_of_covers h hp hf ⟨by omega, by omega⟩, Nat.add_sub_cancel_left]

/-- **Moving twice** is moving by the sum of the distances. -/
theorem rebase_rebase (distance' : ℕ) :
    rebase distance' fields (rebase distance fields image) = rebase (distance + distance') fields image := by
  have h' : ∀ f ∈ fields, f.Inside (rebase distance fields image).length := by rwa [length_rebase h hp]
  apply List.ext_getElem?
  intro a
  by_cases ha : ∃ f ∈ fields, f.Covers a
  · obtain ⟨f, hf, ha⟩ := ha
    rw [getElem?_rebase_of_covers h' hp hf ha, getElem?_rebase_of_covers h hp hf ha, fieldAt_rebase h hp hf]
    congr 1
    refine bigEndian_congr ?_
    rw [Nat.mod_add_mod, Nat.add_assoc]
  · have hno : ∀ f ∈ fields, ¬ f.Covers a := fun f hf hc => ha ⟨f, hf, hc⟩
    rw [getElem?_rebase_of_not_covers h' hp hno, getElem?_rebase_of_not_covers h hp hno,
      getElem?_rebase_of_not_covers h hp hno]

theorem rebase_zero : rebase 0 fields image = image := by
  apply List.ext_getElem?
  intro a
  by_cases ha : ∃ f ∈ fields, f.Covers a
  · obtain ⟨f, hf, ha⟩ := ha
    rw [getElem?_rebase_of_covers h hp hf ha, Nat.add_zero, getElem?_of_covers (h f hf) ha]
  · exact getElem?_rebase_of_not_covers h hp fun f hf hc => ha ⟨f, hf, hc⟩

/-- The order of the fields does not matter. -/
theorem rebase_congr (hp' : fields'.Pairwise ImageField.Apart) (hsame : ∀ f, f ∈ fields ↔ f ∈ fields') :
    rebase distance fields image = rebase distance fields' image := by
  have h' : ∀ f ∈ fields', f.Inside image.length := fun f hf => h f ((hsame f).mpr hf)
  apply List.ext_getElem?
  intro a
  by_cases ha : ∃ f ∈ fields, f.Covers a
  · obtain ⟨f, hf, ha⟩ := ha
    rw [getElem?_rebase_of_covers h hp hf ha, getElem?_rebase_of_covers h' hp' ((hsame f).mp hf) ha]
  · have hno : ∀ f ∈ fields, ¬ f.Covers a := fun f hf hc => ha ⟨f, hf, hc⟩
    rw [getElem?_rebase_of_not_covers h hp hno,
      getElem?_rebase_of_not_covers h' hp' fun f hf => hno f ((hsame f).mpr hf)]

/-- **Where the fields are** can be seen: when only their high bytes are added to, only their first
bytes change. -/
theorem address_mem_iff_of_rebase {n : ℕ} (hwidth : ∀ f ∈ fields, f.width = n + 1) (a : ℕ) :
    (∃ f ∈ fields, f.address = a) ↔ (rebase (256 ^ n) fields image)[a]? ≠ image[a]? := by
  by_cases ha : ∃ f ∈ fields, f.Covers a
  · obtain ⟨f, hf, hc⟩ := ha
    rw [getElem?_rebase_of_covers h hp hf hc, getElem?_of_covers (h f hf) hc, hwidth f hf, ne_eq,
      getElem?_bigEndian_add_high, not_not]
    constructor
    · rintro ⟨g, hg, rfl⟩
      by_contra hne
      have hgw := hwidth g hg
      have hsymm : Std.Symm ImageField.Apart := ⟨fun _ _ => Or.symm⟩
      have hfg : f ≠ g := fun heq => hne (by rw [heq, Nat.sub_self])
      have hapart := hp.forall hf hg hfg
      unfold ImageField.Apart at hapart
      unfold ImageField.Covers at hc
      omega
    · intro hzero
      exact ⟨f, hf, le_antisymm hc.1 (Nat.sub_eq_zero_iff_le.mp hzero)⟩
  · have hno : ∀ f ∈ fields, ¬ f.Covers a := fun f hf hc => ha ⟨f, hf, hc⟩
    refine iff_of_false ?_ fun hne => hne (getElem?_rebase_of_not_covers h hp hno)
    rintro ⟨f, hf, rfl⟩
    have hw := hwidth f hf
    exact hno f hf ⟨le_rfl, by omega⟩

end

end Cpm68k.Library
