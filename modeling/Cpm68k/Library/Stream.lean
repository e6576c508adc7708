import Cpm68k.Library.Blocks
import Mathlib.Algebra.Ring.Nat

/-!
# Reading blocks item by item

A store of blocks of `b` items read from item `o` on, up to the first block that is missing.

## What is proved

* `stream_add` — reading in two parts.
* `stream_within`, `stream_blocks` — part of one block, and several whole blocks.
* `stream_congr` — only the blocks that are reached matter.
* `stream_ne` — two stores that differ in a block that is reached give different items.
* `stream_eq_iff_placed`, `Placed.stream_eq` — the items of a list are read from where they are in
  the store (`Placed`).
* `placed_patch`, `placed_putRun` — they are where they were stored.
-/

namespace Cpm68k.Library

universe u

variable {α : Type u} {b : ℕ} [NeZero b] {D D' : ℕ → Option (Fin b → α)}

/-- Item `o` of a store. -/
def item (D : ℕ → Option (Fin b → α)) (o : ℕ) : Option α := (D (o / b)).map fun r => r (Fin.ofNat b o)

theorem item_eq_none {o : ℕ} : item D o = none ↔ D (o / b) = none := Option.map_eq_none_iff

/-- The items from number `o` on, at most `n` of them, up to the first block that is missing. -/
def stream (D : ℕ → Option (Fin b → α)) : ℕ → ℕ → List α
  | _, 0 => []
  | o, n + 1 =>
    match item D o with
    | none => []
    | some x => x :: stream D (o + 1) n

@[simp] theorem stream_zero (o : ℕ) : stream D o 0 = [] := rfl

theorem stream_none {o : ℕ} (h : item D o = none) (n : ℕ) : stream D o n = [] := by
  cases n with
  | zero => rfl
  | succ n => rw [stream, h]

theorem stream_some {o : ℕ} {x : α} (h : item D o = some x) (n : ℕ) :
    stream D o (n + 1) = x :: stream D (o + 1) n := by
  rw [stream, h]

theorem length_stream_le (o n : ℕ) : (stream D o n).length ≤ n := by
  induction n generalizing o with
  | zero => exact le_rfl
  | succ n ih =>
    cases h : item D o with
    | none =>
      rw [stream_none h]
      exact Nat.zero_le _
    | some x =>
      rw [stream_some h, List.length_cons]
      exact Nat.succ_le_succ (ih (o + 1))

/-- The items of the list are in the store, from number `o` on. -/
def Placed (D : ℕ → Option (Fin b → α)) (o : ℕ) (l : List α) : Prop :=
  ∀ i (hi : i < l.length), item D (o + i) = some l[i]

/-- What is read, item by item. -/
theorem stream_eq_iff_placed {o : ℕ} {l : List α} : stream D o l.length = l ↔ Placed D o l := by
  unfold Placed
  induction l generalizing o with
  | nil => simp
  | cons x l ih =>
    constructor
    · intro h i hi
      rw [List.length_cons] at h
      cases hitem : item D o with
      | none =>
        rw [stream_none hitem] at h
        cases h
      | some y =>
        rw [stream_some hitem] at h
        injection h with hxy hrest
        cases i with
        | zero => rw [Nat.add_zero, hitem, hxy, List.getElem_cons_zero]
        | succ i =>
          rw [List.getElem_cons_succ, show o + (i + 1) = o + 1 + i by omega]
          exact ih.mp hrest i (by rw [List.length_cons] at hi; omega)
    · intro h
      have hitem := h 0 (Nat.succ_pos _)
      rw [Nat.add_zero, List.getElem_cons_zero] at hitem
      rw [List.length_cons, stream_some hitem, ih.mpr fun i hi => ?_]
      have hnext := h (i + 1) (by rw [List.length_cons]; omega)
      rwa [List.getElem_cons_succ, show o + (i + 1) = o + 1 + i by omega] at hnext

/-- Reading goes on where it stopped, unless it stopped short. -/
theorem stream_add (o m n : ℕ) :
    stream D o (m + n) = stream D o m ++ if (stream D o m).length = m then stream D (o + m) n else [] := by
  induction m generalizing o with
  | zero => simp
  | succ m ih =>
    rw [Nat.add_right_comm]
    cases h : item D o with
    | none => simp [stream_none h]
    | some x =>
      have hnext : o + (m + 1) = o + 1 + m := by omega
      rw [stream_some h, stream_some h, ih, hnext]
      simp only [List.cons_append, List.length_cons, Nat.add_right_cancel_iff]

/-- What is read behind the first items is the rest of what is read. -/
theorem stream_drop {o m n : ℕ} (hm : m ≤ (stream D o n).length) : stream D (o + m) (n - m) = (stream D o n).drop m := by
  have hn := length_stream_le (D := D) o n
  have hsplit := stream_add (D := D) o m (n - m)
  rw [Nat.add_sub_cancel' (hm.trans hn)] at hsplit
  by_cases hlen : (stream D o m).length = m
  · rw [if_pos hlen] at hsplit
    rw [hsplit, List.drop_append_of_le_length hlen.ge, List.drop_eq_nil_of_le hlen.le, List.nil_append]
  · have hle := length_stream_le (D := D) o m
    rw [if_neg hlen, List.append_nil] at hsplit
    rw [hsplit] at hm
    omega

/-- Reading ends short only before a block that is missing. -/
theorem stream_short {o n : ℕ} (h : (stream D o n).length < n) : D ((o + (stream D o n).length) / b) = none := by
  have hrest := stream_drop (D := D) (o := o) (n := n) le_rfl
  rw [List.drop_length] at hrest
  obtain ⟨m, hm⟩ := Nat.exists_eq_add_of_lt (Nat.sub_pos_of_lt h)
  rw [Nat.zero_add] at hm
  rw [hm] at hrest
  cases hitem : item D (o + (stream D o n).length) with
  | none => exact item_eq_none.mp hitem
  | some x =>
    rw [stream_some hitem] at hrest
    cases hrest

theorem item_eq {k p : ℕ} (hp : p < b) : item D (b * k + p) = (D k).map fun r => r ⟨p, hp⟩ := by
  have hb : 0 < b := Nat.pos_of_ne_zero (NeZero.ne b)
  have hdiv : (b * k + p) / b = k := by rw [Nat.mul_add_div hb, Nat.div_eq_of_lt hp, Nat.add_zero]
  have hmod : Fin.ofNat b (b * k + p) = ⟨p, hp⟩ := by
    apply Fin.ext
    show (b * k + p) % b = p
    rw [Nat.mul_add_mod, Nat.mod_eq_of_lt hp]
  rw [item, hdiv, hmod]

/-- Reading within one block. -/
theorem stream_within {k p n : ℕ} (h : p + n ≤ b) :
    stream D (b * k + p) n = match D k with
      | none => []
      | some r => ((List.ofFn r).drop p).take n := by
  induction n generalizing p with
  | zero => cases D k <;> simp
  | succ n ih =>
    have hp : p < b := by omega
    have hitem := item_eq (D := D) (k := k) hp
    have hrest := ih (p := p + 1) (by omega)
    cases hD : D k with
    | none =>
      rw [hD, Option.map_none] at hitem
      exact stream_none hitem _
    | some r =>
      rw [hD] at hitem hrest
      have hlen : p < (List.ofFn r).length := by rwa [List.length_ofFn]
      rw [stream_some hitem, Nat.add_assoc, hrest]
      simp only
      rw [List.drop_eq_getElem_cons hlen, List.take_succ_cons, List.getElem_ofFn]

/-- Reading a block. -/
theorem stream_block (k : ℕ) : stream D (b * k) b = match D k with
    | none => []
    | some r => List.ofFn r := by
  have h := stream_within (D := D) (k := k) (p := 0) (n := b) (by omega)
  rw [Nat.add_zero] at h
  rw [h]
  cases D k with
  | none => rfl
  | some r => exact List.take_of_length_le (List.length_ofFn.le)

/-- Blocks one after the other. -/
theorem stream_blocks (k m : ℕ) : stream D (b * k) (b * m) = (getRun D k m).flatMap List.ofFn := by
  have hb : b ≠ 0 := NeZero.ne b
  induction m generalizing k with
  | zero => simp [getRun]
  | succ m ih =>
    rw [Nat.mul_succ, Nat.add_comm, stream_add, stream_block, getRun]
    cases hD : D k with
    | none => simp [hb.symm]
    | some r =>
      simp only
      rw [List.length_ofFn, if_pos rfl, ← Nat.mul_succ, ih, List.flatMap_cons]

/-- Block `j` is reached from item `o` on: all blocks before it are there. -/
def Reached (D : ℕ → Option (Fin b → α)) (o j : ℕ) : Prop := o / b ≤ j ∧ ∀ i, o / b ≤ i → i < j → D i ≠ none

/-- Only the blocks that are reached matter. -/
theorem stream_congr {o n : ℕ} (h : ∀ j, Reached D o j → b * j < o + n → D j = D' j) :
    stream D o n = stream D' o n := by
  induction n generalizing o with
  | zero => rfl
  | succ n ih =>
    have hlt : b * (o / b) < o + (n + 1) := lt_of_le_of_lt (Nat.mul_div_le o b) (by omega)
    have hfirst : D (o / b) = D' (o / b) := h _ ⟨le_rfl, fun i hi hlt => absurd hlt (by omega)⟩ hlt
    have hitem : item D o = item D' o := by
      unfold item
      rw [hfirst]
    cases hD : item D o with
    | none => rw [stream_none hD, stream_none (hitem ▸ hD)]
    | some x =>
      have hhere : D (o / b) ≠ none := by
        intro hnone
        rw [item, hnone] at hD
        cases hD
      have hstep : (o + 1) / b ≤ o / b + 1 := by
        have hb : 0 < b := Nat.pos_of_ne_zero (NeZero.ne b)
        calc (o + 1) / b ≤ (o + b) / b := Nat.div_le_div_right (by omega)
          _ = o / b + 1 := Nat.add_div_right o hb
      have hle : o / b ≤ (o + 1) / b := Nat.div_le_div_right (Nat.le_succ o)
      rw [stream_some hD, stream_some (hitem ▸ hD), ih fun j hj hlt => ?_]
      refine h j ⟨hle.trans hj.1, fun i hi hij => ?_⟩ (by omega)
      rcases Nat.eq_or_lt_of_le hi with rfl | hi
      · exact hhere
      · exact hj.2 i (by omega) hij

/-- A stretch of blocks all of which are there is read as a whole. -/
theorem length_stream_blocks {k m : ℕ} (h : Reached D (b * k) (k + m)) : (stream D (b * k) (b * m)).length = b * m := by
  have hb : 0 < b := Nat.pos_of_ne_zero (NeZero.ne b)
  obtain ⟨-, hsome⟩ := h
  rw [Nat.mul_div_cancel_left k hb] at hsome
  have hall : (getRun D k m).length = m := by
    obtain ⟨hle, -, hnone⟩ := getRun_spec (D := D) m k
    by_contra hne
    exact hsome _ (by omega) (by omega) (hnone (by omega))
  rw [stream_blocks, List.length_flatMap]
  simp only [List.length_ofFn, List.map_const', List.sum_replicate_nat, hall, Nat.mul_comm]

/-- A difference in a block that is reached, and of which every item is read, is seen. -/
theorem stream_ne {k m n : ℕ} (hreached : Reached D (b * k) (k + m)) (hsame : ∀ j, j < k + m → D j = D' j)
    (hdiff : D (k + m) ≠ D' (k + m)) (hn : b * (m + 1) ≤ n) : stream D (b * k) n ≠ stream D' (b * k) n := by
  have hb : 0 < b := Nat.pos_of_ne_zero (NeZero.ne b)
  obtain ⟨rest, rfl⟩ := Nat.exists_eq_add_of_le hn
  have hfirst : stream D (b * k) (b * m) = stream D' (b * k) (b * m) := by
    refine stream_congr fun j _ hlt => hsame j ?_
    rw [← Nat.mul_add] at hlt
    exact Nat.lt_of_mul_lt_mul_left hlt
  have hlen := length_stream_blocks hreached
  intro heq
  rw [Nat.mul_succ, Nat.add_assoc, stream_add, stream_add (D := D'), ← hfirst, if_pos hlen, if_pos hlen,
    List.append_cancel_left_eq, ← Nat.mul_add, stream_add, stream_add (D := D'), stream_block, stream_block] at heq
  cases hD : D (k + m) with
  | none =>
    cases hD' : D' (k + m) with
    | none => exact hdiff (hD.trans hD'.symm)
    | some r =>
      rw [hD, hD'] at heq
      have hlen' := congrArg List.length heq
      simp [hb.ne] at hlen'
      omega
  | some r =>
    cases hD' : D' (k + m) with
    | none =>
      rw [hD, hD'] at heq
      have hlen' := congrArg List.length heq
      simp [hb.ne] at hlen'
      omega
    | some r' =>
      rw [hD, hD'] at heq
      have hr : List.ofFn r = List.ofFn r' := List.append_inj_left heq (by simp)
      exact hdiff (by rw [hD, hD', List.ofFn_injective hr])

/-! ### Where a list is stored -/

theorem placed_nil (o : ℕ) : Placed D o [] := fun _ hi => absurd hi (Nat.not_lt_zero _)

theorem placed_append {o : ℕ} {l l' : List α} : Placed D o (l ++ l') ↔ Placed D o l ∧ Placed D (o + l.length) l' := by
  unfold Placed
  constructor
  · intro h
    constructor
    · intro i hi
      have hl := h i (by rw [List.length_append]; omega)
      rwa [List.getElem_append_left hi] at hl
    · intro i hi
      have hl := h (l.length + i) (by rw [List.length_append]; omega)
      rw [List.getElem_append_right (Nat.le_add_right _ _), ← Nat.add_assoc] at hl
      simp only [Nat.add_sub_cancel_left] at hl
      exact hl
  · rintro ⟨hl, hl'⟩ i hi
    rw [List.length_append] at hi
    by_cases hlt : i < l.length
    · rw [List.getElem_append_left hlt]
      exact hl i hlt
    · have hrest := hl' (i - l.length) (by omega)
      rw [List.getElem_append_right (by omega), ← hrest]
      congr 1
      omega

/-- The rest of a list is where it is in the list. -/
theorem Placed.drop {o m : ℕ} {l : List α} (h : Placed D o l) (hm : m ≤ l.length) : Placed D (o + m) (l.drop m) := by
  rw [← List.take_append_drop m l] at h
  have hrest := (placed_append.mp h).2
  rwa [List.length_take, min_eq_left hm] at hrest

/-- The blocks that carry a list have it from the first item on. -/
theorem Carries.placed {l : List α} (h : Carries D l) : Placed D 0 l := by
  intro i hi
  have hb : 0 < b := Nat.pos_of_ne_zero (NeZero.ne b)
  have hdiv : b * (i / b) + i % b = i := Nat.div_add_mod i b
  obtain ⟨r, hr, hri⟩ := h (i / b) ⟨i % b, Nat.mod_lt i hb⟩ l[i] (by rw [hdiv, List.getElem?_eq_getElem hi])
  have hitem := item_eq (D := D) (k := i / b) (Nat.mod_lt i hb)
  rw [Nat.zero_add]
  rwa [hdiv, hr, Option.map_some, hri] at hitem

/-- What is read is where it was read. -/
theorem placed_stream (o n : ℕ) : Placed D o (stream D o n) := by
  rw [← stream_eq_iff_placed]
  obtain ⟨m, hm⟩ := Nat.exists_eq_add_of_le (length_stream_le (D := D) o n)
  have hsplit := stream_add (D := D) o (stream D o n).length m
  rw [← hm] at hsplit
  by_cases hlen : (stream D o (stream D o n).length).length = (stream D o n).length
  · have htake := congrArg (List.take (stream D o n).length) hsplit
    rw [List.take_length, List.take_append_of_le_length hlen.ge, List.take_of_length_le hlen.le] at htake
    exact htake.symm
  · rw [if_neg hlen, List.append_nil] at hsplit
    exact hsplit.symm

/-- Where a list is followed by a block that is missing, it is what is read. -/
theorem Placed.stream_eq {o : ℕ} {l : List α} (h : Placed D o l) (hend : item D (o + l.length) = none) (n : ℕ) :
    stream D o n = l.take n := by
  induction n generalizing o l with
  | zero => rfl
  | succ n ih =>
    cases l with
    | nil => exact stream_none hend (n + 1)
    | cons x l =>
      have hfirst := h 0 (Nat.succ_pos _)
      have hrest := h.drop (m := 1) (Nat.succ_pos _)
      rw [Nat.add_zero, List.getElem_cons_zero] at hfirst
      rw [List.drop_succ_cons, List.drop_zero] at hrest
      rw [List.length_cons, Nat.add_comm l.length, ← Nat.add_assoc] at hend
      rw [stream_some hfirst, ih hrest hend, List.take_succ_cons]

/-- Only the blocks where the list is matter. -/
theorem Placed.congr {o : ℕ} {l : List α} (h : Placed D o l) (hsame : ∀ j, o / b ≤ j → b * j < o + l.length → D' j = D j) :
    Placed D' o l := by
  intro i hi
  have hlt : b * ((o + i) / b) < o + l.length := (Nat.mul_div_le (o + i) b).trans_lt (by omega)
  unfold item
  rw [hsame _ (Nat.div_le_div_right (Nat.le_add_right o i)) hlt]
  exact h i hi

/-- Part of one block. -/
theorem placed_patch {k p : ℕ} {l : List α} (r : Fin b → α) (h : p + l.length ≤ b) :
    Placed (Function.update D k (some (patch r p l))) (b * k + p) l := by
  intro i hi
  rw [Nat.add_assoc, item_eq (show p + i < b by omega), Function.update_self, Option.map_some, patch]
  simp only
  rw [if_pos (Nat.le_add_right p i), Nat.add_sub_cancel_left, List.getD_eq_getElem _ _ hi]

/-- Several whole blocks. -/
theorem placed_putRun {k m : ℕ} {l : List α} {d : α} (hm : b * m ≤ l.length) :
    Placed (putRun D k ((List.range m).map (block b d l))) (b * k) (l.take (b * m)) := by
  have hb : 0 < b := Nat.pos_of_ne_zero (NeZero.ne b)
  intro i hi
  rw [List.length_take, min_eq_left hm] at hi
  have hdiv : i / b < m := Nat.div_lt_of_lt_mul hi
  have hget : ((List.range m).map (block b d l))[i / b]? = some (block b d l (i / b)) := by
    rw [List.getElem?_map, List.getElem?_range hdiv, Option.map_some]
  have hi' : b * k + i = b * (k + i / b) + i % b := by rw [Nat.mul_add, Nat.add_assoc, Nat.div_add_mod]
  rw [hi', item_eq (Nat.mod_lt i hb), putRun_apply, List.length_map, List.length_range,
    if_pos ⟨Nat.le_add_right k _, Nat.add_lt_add_left hdiv k⟩, Nat.add_sub_cancel_left, hget, Option.map_some, block]
  simp only
  rw [Nat.div_add_mod, List.getD_eq_getElem _ _ (by omega), List.getElem_take]

end Cpm68k.Library
