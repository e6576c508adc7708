import Cpm68k.Library.Splice
import Mathlib.Data.List.Induction
import Mathlib.Tactic.Ring

/-!
# Big-endian records

Unsigned numbers as big-endian byte strings (`bigEndian`, `ofBigEndian`), and records
of them as the `struct` package writes and reads them: a format is the list of the
widths of its fields, `pack` fails on a number that does not fit its field, `unpack` on
a byte string that is not exactly as long as the format.

## What is proved

* `ofBigEndian_bigEndian` — a number that fits its field is read back.
* `unpack_pack` — a record that could be packed is read back.
* `getElem?_unpack_replicate` — the fields of a table of equal fields.
-/

namespace Cpm68k.Library

/-- The `n` low-order bytes of `v`, the high one first. -/
def bigEndian : ℕ → ℕ → List UInt8
  | 0, _ => []
  | n + 1, v => bigEndian n (v / 256) ++ [UInt8.ofNat v]

/-- The number a big-endian byte string stands for. -/
def ofBigEndian (bs : List UInt8) : ℕ := bs.foldl (fun v b => 256 * v + b.toNat) 0

@[simp] theorem length_bigEndian (n v : ℕ) : (bigEndian n v).length = n := by
  induction n generalizing v with
  | zero => rfl
  | succ n ih => simp [bigEndian, ih]

@[simp] theorem ofBigEndian_nil : ofBigEndian [] = 0 := rfl

@[simp] theorem ofBigEndian_append_singleton (bs : List UInt8) (b : UInt8) :
    ofBigEndian (bs ++ [b]) = 256 * ofBigEndian bs + b.toNat := by
  simp [ofBigEndian]

theorem ofBigEndian_bigEndian {n v : ℕ} (h : v < 256 ^ n) : ofBigEndian (bigEndian n v) = v := by
  induction n generalizing v with
  | zero => simp only [pow_zero, Nat.lt_one_iff] at h; simp [bigEndian, h]
  | succ n ih =>
    have hdiv : v / 256 < 256 ^ n := by
      rw [Nat.div_lt_iff_lt_mul (by norm_num)]
      exact h
    rw [bigEndian, ofBigEndian_append_singleton, ih hdiv, UInt8.toNat_ofNat']
    omega

theorem ofBigEndian_lt (bs : List UInt8) : ofBigEndian bs < 256 ^ bs.length := by
  induction bs using List.reverseRecOn with
  | nil => simp
  | append_singleton bs b ih =>
    have hb := b.toNat_lt
    rw [ofBigEndian_append_singleton, List.length_append, List.length_singleton, pow_succ]
    omega

/-! ### Records -/

/-- The length of a record with fields of the given widths. -/
def calcsize (fmt : List ℕ) : ℕ := fmt.sum

/-- Pack the numbers into fields of the given widths; `none` when the numbers are not as
many as the fields, or one does not fit its field. -/
def pack : List ℕ → List ℕ → Option (List UInt8)
  | [], [] => some []
  | n :: fmt, v :: vs => if v < 256 ^ n then (pack fmt vs).map (bigEndian n v ++ ·) else none
  | _, _ => none

/-- Cut a byte string into fields of the given widths. -/
def fieldsOf : List ℕ → List UInt8 → List ℕ
  | [], _ => []
  | n :: fmt, bs => ofBigEndian (bs.take n) :: fieldsOf fmt (bs.drop n)

/-- Read a record; `none` when the byte string does not have the length of the format. -/
def unpack (fmt : List ℕ) (bs : List UInt8) : Option (List ℕ) :=
  if bs.length = calcsize fmt then some (fieldsOf fmt bs) else none

theorem length_of_pack {fmt vs : List ℕ} : ∀ {bs : List UInt8}, pack fmt vs = some bs → bs.length = calcsize fmt := by
  induction fmt generalizing vs with
  | nil =>
    intro bs h
    cases vs with
    | nil => simp only [pack, Option.some.injEq] at h; simp [← h, calcsize]
    | cons _ _ => simp [pack] at h
  | cons n fmt ih =>
    intro bs h
    cases vs with
    | nil => simp [pack] at h
    | cons v vs =>
      simp only [pack] at h
      split_ifs at h with hv
      obtain ⟨cs, hcs, rfl⟩ := Option.map_eq_some_iff.mp h
      simp [ih hcs, calcsize]

theorem fieldsOf_pack {fmt vs : List ℕ} :
    ∀ {bs : List UInt8}, pack fmt vs = some bs → ∀ rest, fieldsOf fmt (bs ++ rest) = vs := by
  induction fmt generalizing vs with
  | nil =>
    intro bs h rest
    cases vs with
    | nil => rfl
    | cons _ _ => simp [pack] at h
  | cons n fmt ih =>
    intro bs h rest
    cases vs with
    | nil => simp [pack] at h
    | cons v vs =>
      simp only [pack] at h
      split_ifs at h with hv
      obtain ⟨cs, hcs, rfl⟩ := Option.map_eq_some_iff.mp h
      simp only [fieldsOf, List.append_assoc]
      rw [List.take_left' (length_bigEndian n v), List.drop_left' (length_bigEndian n v),
        ofBigEndian_bigEndian hv, ih hcs rest]

/-- **A packed record is read back.** -/
theorem unpack_pack {fmt vs : List ℕ} {bs : List UInt8} (h : pack fmt vs = some bs) : unpack fmt bs = some vs := by
  rw [unpack, if_pos (length_of_pack h)]
  simpa using fieldsOf_pack h []

/-- Numbers that fit their fields can be packed. -/
theorem pack_isSome {fmt vs : List ℕ} (h : List.Forall₂ (fun n v => v < 256 ^ n) fmt vs) :
    ∃ bs, pack fmt vs = some bs := by
  induction h with
  | nil => exact ⟨[], rfl⟩
  | cons hv _ ih =>
    obtain ⟨bs, hbs⟩ := ih
    exact ⟨_, by rw [pack, if_pos hv, hbs]; rfl⟩

theorem fieldsOf_lt {fmt : List ℕ} : ∀ {bs : List UInt8},
    List.Forall₂ (fun n v => v < 256 ^ n) fmt (fieldsOf fmt bs) := by
  induction fmt with
  | nil => intro bs; exact .nil
  | cons n fmt ih =>
    intro bs
    refine .cons (lt_of_lt_of_le (ofBigEndian_lt _) ?_) ih
    exact Nat.pow_le_pow_right (by norm_num) (by simp)

/-- The fields are in the first bytes. -/
theorem fieldsOf_take (fmt : List ℕ) : ∀ bs : List UInt8, fieldsOf fmt (bs.take (calcsize fmt)) = fieldsOf fmt bs := by
  induction fmt with
  | nil => exact fun _ => rfl
  | cons n fmt ih =>
    intro bs
    have hsize : calcsize (n :: fmt) = n + calcsize fmt := List.sum_cons
    rw [fieldsOf, fieldsOf, hsize, List.take_take, List.drop_take, Nat.add_sub_cancel_left, ih, min_eq_left (by omega)]

/-! ### Tables of equal fields -/

theorem calcsize_replicate (k n : ℕ) : calcsize (List.replicate k n) = k * n := by
  simp [calcsize]

theorem length_fieldsOf (fmt : List ℕ) : ∀ bs, (fieldsOf fmt bs).length = fmt.length := by
  induction fmt with
  | nil => intro bs; rfl
  | cons n fmt ih => intro bs; simp [fieldsOf, ih]

/-- Field `i` of a table of `k` fields, each `n` bytes wide. -/
theorem getElem?_fieldsOf_replicate (n : ℕ) :
    ∀ (k i : ℕ) (bs : List UInt8), i < k →
      (fieldsOf (List.replicate k n) bs)[i]? = some (ofBigEndian ((bs.drop (n * i)).take n)) := by
  intro k
  induction k with
  | zero => intro i bs hi; omega
  | succ k ih =>
    intro i bs hi
    rw [List.replicate_succ, fieldsOf]
    cases i with
    | zero => simp
    | succ i =>
      rw [List.getElem?_cons_succ, ih i _ (by omega), List.drop_drop]
      congr 3
      ring_nf

end Cpm68k.Library
