import Mathlib.Data.List.Basic

/-!
# A system of parts that do not interfere

Every action on a system belongs to one of its parts. When an action depends on its own part
only, and leaves all the others alone, then in any order of actions each part sees its own
actions and nothing else.

## The model

* `runAll step` are the actions of a list one after the other: what each shows, and the state
  after. `AllAdmitted step admits` says that each of them is admitted in the state it is made in.
* `Unwinds step admits part Same` are the two conditions on one step. `Same i w w'` says that the
  part `i` is the same in both states.
* `Hides step admits hidden Same` is the case of two parts of which one may well depend on the
  other: what the hidden actions have done is not seen by the others.

## What is proved

* `Unwinds.run` — after any actions that are admitted a part is the same as after its own actions alone, and they
  have shown the same.
* `Hides.run` — the actions that are not hidden show what they show when only they are made.
-/

namespace Cpm68k.Library

variable {W κ ω ι : Type}

/-- Some actions one after the other: what they show, and the state after. -/
def runAll (step : κ → W → ω × W) : List κ → W → List ω × W
  | [], w => ([], w)
  | k :: ks, w =>
    let (shown, w₁) := step k w
    let (rest, w₂) := runAll step ks w₁
    (shown :: rest, w₂)

/-- Every action of the list is admitted in the state it is made in. -/
def AllAdmitted (step : κ → W → ω × W) (admits : κ → W → Prop) : List κ → W → Prop
  | [], _ => True
  | k :: ks, w => admits k w ∧ AllAdmitted step admits ks (step k w).2

/-- What the actions of one part show, among what all of them show. -/
def shownTo [DecidableEq ι] (part : κ → ι) (i : ι) (ks : List κ) (shown : List ω) : List ω :=
  ((ks.zip shown).filter fun p => part p.1 = i).map Prod.snd

section

variable [DecidableEq ι] {part : κ → ι} {i : ι} {k : κ} {ks : List κ} {x : ω} {shown : List ω}

theorem shownTo_cons_of_eq (h : part k = i) : shownTo part i (k :: ks) (x :: shown) = x :: shownTo part i ks shown := by
  unfold shownTo
  rw [List.zip_cons_cons, List.filter_cons_of_pos (by simpa using h), List.map_cons]

theorem shownTo_cons_of_ne (h : part k ≠ i) : shownTo part i (k :: ks) (x :: shown) = shownTo part i ks shown := by
  unfold shownTo
  rw [List.zip_cons_cons, List.filter_cons_of_neg (by simpa using h)]

end

/-- One step that is admitted shows the same and does the same to its part, whatever the other parts
are; and it leaves them alone. -/
structure Unwinds (step : κ → W → ω × W) (admits : κ → W → Prop) (part : κ → ι) (Same : ι → W → W → Prop) : Prop where
  mine : ∀ {k w w'}, admits k w → Same (part k) w w' →
    (step k w').1 = (step k w).1 ∧ Same (part k) (step k w).2 (step k w').2
  others : ∀ {k i w w₁ w₂}, admits k w → i ≠ part k → Same (part k) w w₁ → Same i w w₂ → Same i (step k w).2 w₂

/-- **The parts do not interfere.** -/
theorem Unwinds.run [DecidableEq ι] {step : κ → W → ω × W} {admits : κ → W → Prop} {part : κ → ι} {Same : ι → W → W → Prop}
    (h : Unwinds step admits part Same) {ks : List κ} {w : W} {alone : ι → W} (hadmits : AllAdmitted step admits ks w)
    (hsame : ∀ i, Same i w (alone i)) (i : ι) :
    shownTo part i ks (runAll step ks w).1 = (runAll step (ks.filter fun k => part k = i) (alone i)).1 ∧
      Same i (runAll step ks w).2 (runAll step (ks.filter fun k => part k = i) (alone i)).2 := by
  induction ks generalizing w alone with
  | nil => exact ⟨rfl, hsame i⟩
  | cons k ks ih =>
    obtain ⟨hshown, hmine⟩ := h.mine hadmits.1 (hsame (part k))
    -- each part after this step, when its own actions are made alone
    have hafter : ∀ j, Same j (step k w).2 (if j = part k then (step k (alone j)).2 else alone j) := by
      intro j
      split_ifs with hj
      · subst hj
        exact hmine
      · exact h.others hadmits.1 hj (hsame (part k)) (hsame j)
    obtain ⟨hrest, hend⟩ := ih hadmits.2 hafter
    by_cases hi : part k = i
    · subst hi
      rw [if_pos rfl] at hrest hend
      rw [runAll, shownTo_cons_of_eq rfl, List.filter_cons_of_pos (by simp), runAll]
      exact ⟨congrArg₂ List.cons hshown.symm hrest, hend⟩
    · rw [if_neg (Ne.symm hi)] at hrest hend
      rw [runAll, shownTo_cons_of_ne hi, List.filter_cons_of_neg (by simpa using hi)]
      exact ⟨hrest, hend⟩

/-- What is admitted and not hidden shows the same and does the same, whatever hidden actions have
been made; and these do nothing else. -/
structure Hides (step : κ → W → ω × W) (admits : κ → W → Prop) (hidden : κ → Bool) (Same : W → W → Prop) : Prop where
  seen : ∀ {k w w'}, admits k w → hidden k = false → Same w w' →
    (step k w').1 = (step k w).1 ∧ Same (step k w).2 (step k w').2
  unseen : ∀ {k w w'}, hidden k = true → Same w w' → Same (step k w).2 w'

/-- **Hidden actions are not seen.** -/
theorem Hides.run {step : κ → W → ω × W} {admits : κ → W → Prop} {hidden : κ → Bool} {Same : W → W → Prop}
    (h : Hides step admits hidden Same) {ks : List κ} {w w' : W} (hadmits : AllAdmitted step admits ks w) (hsame : Same w w') :
    shownTo hidden false ks (runAll step ks w).1 = (runAll step (ks.filter fun k => hidden k = false) w').1 ∧
      Same (runAll step ks w).2 (runAll step (ks.filter fun k => hidden k = false) w').2 := by
  induction ks generalizing w w' with
  | nil => exact ⟨rfl, hsame⟩
  | cons k ks ih =>
    cases hk : hidden k with
    | false =>
      obtain ⟨hshown, hafter⟩ := h.seen hadmits.1 hk hsame
      obtain ⟨hrest, hend⟩ := ih hadmits.2 hafter
      rw [runAll, shownTo_cons_of_eq hk, List.filter_cons_of_pos (by simpa using hk), runAll]
      exact ⟨congrArg₂ List.cons hshown.symm hrest, hend⟩
    | true =>
      obtain ⟨hrest, hend⟩ := ih hadmits.2 (h.unseen hk hsame)
      rw [runAll, shownTo_cons_of_ne (by simp [hk]), List.filter_cons_of_neg (by simp [hk])]
      exact ⟨hrest, hend⟩

end Cpm68k.Library
