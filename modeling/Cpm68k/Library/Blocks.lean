import Cpm68k.Library.Splice
import Mathlib.Data.List.OfFn

/-!
# A list in blocks

A list of items is kept in blocks of `b` items, the last one filled up with `d`: the way a
file of bytes is kept in records. `blocks b d f` says which blocks there are and what is in
them. A store of blocks is a function from block numbers.

## What is proved

* `update_blocks` — overwriting part of one block of the store overwrites the list.
* `putRun_blocks` — so does storing several whole blocks.
* `getRun_spec` — what reading blocks one after the other gives.
* `blocks_append_replicate` — filling is not seen.
* `Carries.update`, `Carries.take_drop` — writing and reading blocks that hold the list and
  anything behind it.
* `carries_unblocks`, `Carries.unblocks_eq` — the list that the blocks hold, from the blocks.
-/

namespace Cpm68k.Library

universe u

variable {α : Type u}

/-! ### Stores -/

section Store

variable {β : Type u}

/-- The items `l` stored from number `k` on. -/
def putRun (D : ℕ → Option β) : ℕ → List β → ℕ → Option β
  | _, [] => D
  | k, r :: l => putRun (Function.update D k (some r)) (k + 1) l

/-- The items from number `k` on, up to the first that does not exist, and at most `n`. -/
def getRun (D : ℕ → Option β) : ℕ → ℕ → List β
  | _, 0 => []
  | k, n + 1 =>
    match D k with
    | none => []
    | some r => r :: getRun D (k + 1) n

theorem putRun_apply (l : List β) {D : ℕ → Option β} {k : ℕ} (j : ℕ) :
    putRun D k l j = if k ≤ j ∧ j < k + l.length then l[j - k]? else D j := by
  induction l generalizing D k with
  | nil => simp [putRun]
  | cons r l ih =>
    rw [putRun, ih, List.length_cons]
    rcases Nat.lt_trichotomy j k with hj | rfl | hj
    · rw [if_neg (by omega), if_neg (by omega), Function.update_of_ne (by omega)]
    · rw [if_neg (by omega), if_pos (by omega), Function.update_self, Nat.sub_self, List.getElem?_cons_zero]
    · rw [Function.update_of_ne (by omega)]
      by_cases hlt : j < k + 1 + l.length
      · rw [if_pos (by omega), if_pos (by omega), show j - k = j - (k + 1) + 1 by omega, List.getElem?_cons_succ]
      · rw [if_neg (by omega), if_neg (by omega)]

/-- The items read are there, and when they are fewer than asked for, the next is not. -/
theorem getRun_spec {D : ℕ → Option β} (n k : ℕ) :
    (getRun D k n).length ≤ n ∧ (∀ j < (getRun D k n).length, D (k + j) ≠ none) ∧
      ((getRun D k n).length < n → D (k + (getRun D k n).length) = none) := by
  induction n generalizing k with
  | zero => simp [getRun]
  | succ n ih =>
    rw [getRun]
    cases hD : D k with
    | none => simp [hD]
    | some r =>
      obtain ⟨hle, hsome, hnone⟩ := ih (k + 1)
      simp only [List.length_cons]
      refine ⟨by omega, fun j hj => ?_, fun hlt => ?_⟩
      · cases j with
        | zero => simp [hD]
        | succ j => exact Nat.add_right_comm k j 1 ▸ hsome j (by omega)
      · exact Nat.add_right_comm k _ 1 ▸ hnone (by omega)

end Store

/-! ### Blocks -/

variable (b : ℕ) (d : α)

/-- Block `k` of a list, filled up with `d`. -/
def block (f : List α) (k : ℕ) : Fin b → α := fun i => f.getD (b * k + i) d

/-- The blocks of a list: those that hold an item of it. -/
def blocks (f : List α) (k : ℕ) : Option (Fin b → α) := if b * k < f.length then some (block b d f k) else none

/-- A block with the items from position `p` on overwritten by `bs`. -/
def patch {b : ℕ} (r : Fin b → α) (p : ℕ) (bs : List α) : Fin b → α :=
  fun i => if p ≤ i.val then bs.getD (i - p) (r i) else r i

variable {b d} {f bs : List α} {k p : ℕ}

/-- Overwriting goes on where it stopped. -/
theorem patch_append (r : Fin b → α) (p : ℕ) (bs cs : List α) :
    patch (patch r p bs) (p + bs.length) cs = patch r p (bs ++ cs) := by
  funext i
  unfold patch
  by_cases hcs : p + bs.length ≤ i.val
  · rw [if_pos hcs, if_pos (by omega), if_pos (by omega), List.getD_append_right _ _ _ _ (by omega)]
    rw [show i.val - p - bs.length = i.val - (p + bs.length) by omega]
    by_cases hin : i.val - (p + bs.length) < cs.length
    · rw [List.getD_eq_getElem _ _ hin, List.getD_eq_getElem _ _ hin]
    · rw [List.getD_eq_default _ _ (by omega), List.getD_eq_default _ _ (by omega), List.getD_eq_default _ _ (by omega)]
  · rw [if_neg hcs]
    by_cases hbs : p ≤ i.val
    · rw [if_pos hbs, if_pos hbs, List.getD_append _ _ _ _ (by omega)]
    · rw [if_neg hbs, if_neg hbs]

theorem mul_add_le {j k : ℕ} (hjk : j < k) : b * j + b ≤ b * k :=
  calc b * j + b = b * (j + 1) := (Nat.mul_succ b j).symm
    _ ≤ b * k := Nat.mul_le_mul_left b hjk

theorem mul_add_lt {j k i : ℕ} (hi : i < b) (hjk : j < k) : b * j + i < b * k := by
  have := mul_add_le (b := b) hjk
  omega

/-- Above the end of the list there is only filling. -/
theorem block_eq_fill (h : f.length ≤ b * k) : block b d f k = fun _ => d := by
  funext i
  exact List.getD_eq_default _ _ (by omega)

theorem block_splice (ho : b * k + p ≤ f.length) :
    block b d (splice f (b * k + p) bs) k = patch (block b d f k) p bs := by
  funext i
  simp only [block, patch, getD_splice ho]
  have hi := i.isLt
  by_cases hpi : p ≤ i.val
  · rw [if_pos hpi, show b * k + i.val - (b * k + p) = i.val - p by omega]
    by_cases hlt : i.val < p + bs.length
    · rw [if_pos (by omega), List.getD_eq_getElem _ _ (by omega), List.getD_eq_getElem _ _ (by omega)]
    · rw [if_neg (by omega), List.getD_eq_default bs _ (by omega)]
  · rw [if_neg hpi, if_neg (by omega)]

theorem block_splice_of_ne (ho : b * k + p ≤ f.length) (hp : p + bs.length ≤ b) {j : ℕ} (hj : j ≠ k) :
    block b d (splice f (b * k + p) bs) j = block b d f j := by
  funext i
  simp only [block, getD_splice ho]
  rcases Nat.lt_or_gt_of_ne hj with h | h
  · have := mul_add_lt i.isLt h
    rw [if_neg (by omega)]
  · have := mul_add_le (b := b) h
    rw [if_neg (by omega)]

/-- **Overwriting part of one block**, and nothing else, is overwriting the list. -/
theorem update_blocks {D : ℕ → Option (Fin b → α)} (ho : b * k + p ≤ f.length) (hp : p + bs.length ≤ b)
    (hbs : bs ≠ []) (hD : ∀ j, j ≠ k → D j = blocks b d f j) :
    Function.update D k (some (patch (block b d f k) p bs)) = blocks b d (splice f (b * k + p) bs) := by
  have hpos := List.length_pos_iff.mpr hbs
  have hlen := length_splice ho bs
  funext j
  by_cases hj : j = k
  · subst hj
    rw [Function.update_self, blocks, if_pos (by omega), block_splice ho]
  · rw [Function.update_of_ne hj, hD j hj, blocks, blocks, block_splice_of_ne ho hp hj]
    rcases Nat.lt_or_gt_of_ne hj with h | h
    · have h0 : 0 < b := by omega
      have := mul_add_lt h0 h
      rw [if_pos (by omega), if_pos (by omega)]
    · have := mul_add_le (b := b) h
      by_cases hlt : b * j < f.length
      · rw [if_pos hlt, if_pos (by omega)]
      · rw [if_neg hlt, if_neg (by omega)]

/-- **Storing whole blocks** is overwriting the list. -/
theorem putRun_blocks {D : ℕ → Option (Fin b → α)} {m : ℕ} (hb : 0 < b) (ho : b * k ≤ f.length)
    (hbs : bs.length = b * m) (hD : ∀ j, ¬ (k ≤ j ∧ j < k + m) → D j = blocks b d f j) :
    putRun D k ((List.range m).map (block b d bs)) = blocks b d (splice f (b * k) bs) := by
  have hlen := length_splice ho bs
  have hmul : ∀ j, k ≤ j → b * j = b * k + b * (j - k) := by
    intro j hj
    rw [← Nat.mul_add, Nat.add_sub_cancel' hj]
  funext j
  rw [putRun_apply, List.length_map, List.length_range]
  by_cases hj : k ≤ j ∧ j < k + m
  · have hjk := hmul j hj.1
    have hlt : ∀ i < b, b * (j - k) + i < b * m := fun i hi => mul_add_lt hi (by omega)
    have h0 := hlt 0 hb
    rw [if_pos hj, List.getElem?_map, List.getElem?_range (by omega), blocks, if_pos (by omega)]
    simp only [Option.map_some, Option.some.injEq]
    funext i
    have hi := hlt i i.isLt
    simp only [block, getD_splice ho]
    rw [if_pos (by omega)]
    congr 1
    omega
  · rw [if_neg hj, hD j hj, blocks, blocks]
    have hblock : block b d (splice f (b * k) bs) j = block b d f j := by
      funext i
      simp only [block, getD_splice ho]
      rcases Nat.lt_or_ge j k with h | h
      · have := mul_add_lt i.isLt h
        rw [if_neg (by omega)]
      · have hge : b * m ≤ b * (j - k) := Nat.mul_le_mul_left b (by omega)
        have := hmul j h
        rw [if_neg (by omega)]
    rw [hblock]
    rcases Nat.lt_or_ge j k with h | h
    · have := mul_add_lt hb h
      rw [if_pos (by omega), if_pos (by omega)]
    · have hge : b * m ≤ b * (j - k) := Nat.mul_le_mul_left b (by omega)
      have := hmul j h
      by_cases hlt : b * j < f.length
      · rw [if_pos hlt, if_pos (by omega)]
      · rw [if_neg hlt, if_neg (by omega)]

/-- A list that ends with filling has the blocks of the list without it, as long as there
is no block more. -/
theorem blocks_append_replicate (m : ℕ) (h : ∀ j, b * j < f.length + m → b * j < f.length) :
    blocks b d (f ++ List.replicate m d) = blocks b d f := by
  funext j
  have hblock : block b d (f ++ List.replicate m d) j = block b d f j := by
    funext i
    unfold block
    by_cases hi : b * j + i < f.length
    · rw [List.getD_append _ _ _ _ hi]
    · rw [List.getD_append_right _ _ _ _ (by omega), List.getD_eq_default f _ (by omega)]
      by_cases hm : b * j + i - f.length < m
      · exact List.getD_replicate _ hm
      · exact List.getD_eq_default _ _ (by rw [List.length_replicate]; omega)
  unfold blocks
  rw [hblock, List.length_append, List.length_replicate]
  by_cases hj : b * j < f.length
  · rw [if_pos hj, if_pos (by omega)]
  · rw [if_neg hj, if_neg fun hj' => hj (h j hj')]

/-! ### Blocks that hold more than a list -/

/-- The store has the items of the list in their places, and anything behind them. -/
def Carries (D : ℕ → Option (Fin b → α)) (f : List α) : Prop :=
  ∀ (k : ℕ) (i : Fin b) (x : α), f[b * k + i]? = some x → ∃ r, D k = some r ∧ r i = x

variable {D : ℕ → Option (Fin b → α)} {r : Fin b → α}

theorem Carries.ne_none (h : Carries D f) (hb : 0 < b) (hk : b * k < f.length) : D k ≠ none := by
  obtain ⟨r, hr, -⟩ := h k ⟨0, hb⟩ _ (List.getElem?_eq_getElem hk)
  rw [hr]
  exact Option.some_ne_none r

/-- The blocks of the list have it. -/
theorem carries_blocks (f : List α) : Carries (blocks b d f) f := by
  intro k i x hx
  obtain ⟨hi, hx⟩ := List.getElem?_eq_some_iff.mp hx
  refine ⟨block b d f k, if_pos (by omega), ?_⟩
  rw [block, List.getD_eq_getElem _ _ hi, hx]

/-- It has the beginning of the list. -/
theorem Carries.of_append {g : List α} (h : Carries D (f ++ g)) : Carries D f := by
  intro k i x hx
  refine h k i x ?_
  rw [List.getElem?_append_left (List.getElem?_eq_some_iff.mp hx).choose]
  exact hx

/-- Overwriting part of one block overwrites the list, if the rest of the block is right. -/
theorem Carries.update (h : Carries D f) (ho : b * k + p ≤ f.length) (hp : p + bs.length ≤ b)
    (hr : ∀ (i : Fin b) (x : α), f[b * k + i]? = some x → r i = x) :
    Carries (Function.update D k (some (patch r p bs))) (splice f (b * k + p) bs) := by
  intro j i x hx
  have hi := i.isLt
  rw [getElem?_splice ho] at hx
  by_cases hj : j = k
  · subst hj
    refine ⟨_, Function.update_self .., ?_⟩
    unfold patch
    by_cases hpi : p ≤ i.val
    · rw [if_pos hpi, List.getD_eq_getElem?_getD]
      by_cases hin : i.val < p + bs.length
      · rw [if_pos (by omega), show b * j + i - (b * j + p) = i - p by omega] at hx
        rw [hx, Option.getD_some]
      · rw [if_neg (by omega)] at hx
        rw [List.getElem?_eq_none (by omega), Option.getD_none]
        exact hr i x hx
    · rw [if_neg (by omega)] at hx
      rw [if_neg hpi]
      exact hr i x hx
  · rw [Function.update_of_ne hj]
    refine h j i x ?_
    rwa [if_neg] at hx
    rcases Nat.lt_or_gt_of_ne hj with hlt | hlt
    · have := mul_add_le (b := b) hlt
      omega
    · have := mul_add_le (b := b) hlt
      omega

/-- What a block has from a position on is the part of the list there, and anything behind it. -/
theorem Carries.take_drop (h : Carries D f) (hr : D k = some r) :
    ((List.ofFn r).drop p).take (f.length - (b * k + p)) = (f.drop (b * k + p)).take (b - p) := by
  refine List.ext_getElem (by simp only [List.length_take, List.length_drop, List.length_ofFn]; omega) fun i hi hi' => ?_
  simp only [List.length_take, List.length_drop, List.length_ofFn] at hi
  obtain ⟨r', hr', hx⟩ := h k ⟨p + i, by omega⟩ _ (List.getElem?_eq_getElem (show b * k + (p + i) < f.length by omega))
  obtain rfl := Option.some.inj (hr.symm.trans hr')
  simp only [List.getElem_take, List.getElem_drop, List.getElem_ofFn, hx, Nat.add_assoc]

variable (b d) in
/-- The first `n` items of a store, and `d` where it has none. -/
def unblocks (D : ℕ → Option (Fin b → α)) (n : ℕ) : List α :=
  (List.range n).map fun i =>
    match D (i / b) with
    | some r => if h : i % b < b then r ⟨i % b, h⟩ else d
    | none => d

@[simp] theorem length_unblocks (n : ℕ) : (unblocks b d D n).length = n := by simp [unblocks]

theorem getElem?_unblocks {n i : ℕ} (hi : i < n) (hr : D (i / b) = some r) (hb : i % b < b) :
    (unblocks b d D n)[i]? = some (r ⟨i % b, hb⟩) := by
  rw [unblocks, List.getElem?_map, List.getElem?_range hi, Option.map_some]
  simp only [hr, dif_pos hb]

/-- A store that has all the blocks has the items. -/
theorem carries_unblocks {n : ℕ} (h : ∀ k, b * k < n → D k ≠ none) : Carries D (unblocks b d D n) := by
  intro k i x hx
  have hlt : b * k + i < n := by
    obtain ⟨hlt, -⟩ := List.getElem?_eq_some_iff.mp hx
    rwa [length_unblocks] at hlt
  have hb : 0 < b := i.pos
  have hdiv : (b * k + i) / b = k := by
    rw [Nat.mul_add_div hb, Nat.div_eq_of_lt i.isLt, Nat.add_zero]
  have hmod : (b * k + i) % b = i := by rw [Nat.mul_add_mod, Nat.mod_eq_of_lt i.isLt]
  obtain ⟨r, hr⟩ := Option.ne_none_iff_exists'.mp (h k (by omega))
  rw [getElem?_unblocks hlt (hdiv ▸ hr) (Nat.mod_lt _ hb)] at hx
  refine ⟨r, hr, ?_⟩
  rw [← Option.some.inj hx]
  exact congrArg r (Fin.ext hmod.symm)

/-- What a store has in the places of a list is the list. -/
theorem Carries.unblocks_eq (h : Carries D f) (hb : 0 < b) : unblocks b d D f.length = f := by
  refine List.ext_getElem? fun i => ?_
  by_cases hi : i < f.length
  · have hget : f[b * (i / b) + i % b]? = some f[i] := by
      rw [Nat.div_add_mod]
      exact List.getElem?_eq_getElem hi
    obtain ⟨r, hr, hx⟩ := h (i / b) ⟨i % b, Nat.mod_lt i hb⟩ _ hget
    rw [getElem?_unblocks hi hr (Nat.mod_lt i hb), hx, List.getElem?_eq_getElem hi]
  · rw [List.getElem?_eq_none (by rw [length_unblocks]; omega), List.getElem?_eq_none (by omega)]

end Cpm68k.Library
