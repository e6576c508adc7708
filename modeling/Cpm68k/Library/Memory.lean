import Mathlib.Data.List.GetD

/-!
# Memory

Memory as a function from addresses, and lists that lie in it.

## What is proved

* `holds_cons`, `holds_append` — where the parts of a list lie.
* `storeAt_append` — storing goes on where it stopped.
* `holds_storeAt`, `Holds.storeAt_of_le`, `Holds.storeAt_of_ge` — what lies in memory after a list
  has been stored.
-/

namespace Cpm68k.Library

universe u

variable {α : Type u} {m : ℕ → α} {o p : ℕ} {l l' : List α}

/-- The list `l` lies in memory from address `o` on. -/
def Holds (m : ℕ → α) (o : ℕ) (l : List α) : Prop := ∀ i (h : i < l.length), m (o + i) = l[i]

/-- Memory with the list `l` stored from address `o` on. -/
def storeAt (m : ℕ → α) (o : ℕ) (l : List α) : ℕ → α := fun j => if o ≤ j then l.getD (j - o) (m j) else m j

theorem holds_nil (m : ℕ → α) (o : ℕ) : Holds m o [] := fun _ h => absurd h (Nat.not_lt_zero _)

theorem holds_cons {a : α} : Holds m o (a :: l) ↔ m o = a ∧ Holds m (o + 1) l := by
  constructor
  · intro h
    refine ⟨h 0 (Nat.succ_pos _), fun i hi => ?_⟩
    have hi' := h (i + 1) (Nat.succ_lt_succ hi)
    rwa [List.getElem_cons_succ, ← Nat.add_assoc, Nat.add_right_comm] at hi'
  · rintro ⟨ha, h⟩ i hi
    cases i with
    | zero => exact ha
    | succ i =>
      rw [List.getElem_cons_succ, ← Nat.add_assoc, Nat.add_right_comm]
      exact h i (Nat.lt_of_succ_lt_succ hi)

theorem holds_append : Holds m o (l ++ l') ↔ Holds m o l ∧ Holds m (o + l.length) l' := by
  induction l generalizing o with
  | nil => exact ⟨fun h => ⟨holds_nil m o, h⟩, fun h => h.2⟩
  | cons a l ih =>
    rw [List.cons_append, holds_cons, holds_cons, ih, and_assoc, List.length_cons, Nat.add_assoc, Nat.add_comm 1]

theorem Holds.congr {m' : ℕ → α} (h : Holds m o l) (hm : ∀ j, o ≤ j → j < o + l.length → m' j = m j) : Holds m' o l :=
  fun i hi => (hm (o + i) (Nat.le_add_right o i) (by omega)).trans (h i hi)

theorem storeAt_of_lt {j : ℕ} (h : j < o) : storeAt m o l j = m j := if_neg (by omega)

theorem storeAt_of_ge {j : ℕ} (h : o + l.length ≤ j) : storeAt m o l j = m j := by
  rw [storeAt, if_pos (by omega), List.getD_eq_default _ _ (by omega)]

theorem storeAt_nil (m : ℕ → α) (o : ℕ) : storeAt m o [] = m := by
  funext j
  unfold storeAt
  split <;> rfl

/-- Storing goes on where it stopped. -/
theorem storeAt_append (m : ℕ → α) (o : ℕ) (l l' : List α) :
    storeAt (storeAt m o l) (o + l.length) l' = storeAt m o (l ++ l') := by
  funext j
  unfold storeAt
  by_cases ho : o ≤ j
  · rw [if_pos ho, if_pos ho]
    by_cases hl : o + l.length ≤ j
    · rw [if_pos hl, List.getD_append_right _ _ _ _ (by omega), List.getD_eq_default l _ (by omega), Nat.sub_sub]
    · rw [if_neg hl, List.getD_append _ _ _ _ (by omega)]
  · rw [if_neg ho, if_neg ho, if_neg (by omega)]

theorem holds_storeAt (m : ℕ → α) (o : ℕ) (l : List α) : Holds (storeAt m o l) o l := by
  intro i hi
  rw [storeAt, if_pos (by omega), Nat.add_sub_cancel_left, List.getD_eq_getElem _ _ hi]

theorem Holds.storeAt_of_le (h : Holds m o l) (hp : o + l.length ≤ p) : Holds (storeAt m p l') o l :=
  h.congr fun _ _ hj => storeAt_of_lt (by omega)

theorem Holds.storeAt_of_ge (h : Holds m o l) (hp : p + l'.length ≤ o) : Holds (storeAt m p l') o l :=
  h.congr fun _ hj _ => Library.storeAt_of_ge (by omega)

end Cpm68k.Library
