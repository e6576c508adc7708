import Cpm68k.Library.Parts
import Mathlib.Data.Fintype.Basic

/-!
# A machine that refines another

The abstract machine leaves some things open: what it does at an action depends on a choice.
The concrete machine refines it when every step of it is a step of the abstract one, for some
choice. The abstract machine also says which actions it is made for.

## The model

* `Allowed step ks a shown a'` says that the abstract machine, with some choices, can get from `a`
  to `a'` by the actions `ks` and show `shown`.
* `Meant step ok ks a` says that it is made for every action of the list, whatever has been chosen
  before.

## What is proved

* `Refines.run` — a run of the concrete machine is one of the abstract machine.
-/

namespace Cpm68k.Library

variable {W A κ ω χ : Type}

/-- The runs of a machine with choices. -/
inductive Allowed (step : χ → κ → A → ω × A) : List κ → A → List ω → A → Prop
  | nil (a : A) : Allowed step [] a [] a
  | cons (x : χ) {k : κ} {ks : List κ} {a a' : A} {shown : List ω} :
    Allowed step ks (step x k a).2 shown a' → Allowed step (k :: ks) a ((step x k a).1 :: shown) a'

/-- The machine is made for every action. -/
def Meant (step : χ → κ → A → ω × A) (ok : κ → A → Prop) : List κ → A → Prop
  | [], _ => True
  | k :: ks, a => ok k a ∧ ∀ x, Meant step ok ks (step x k a).2

instance decidableMeant [Fintype χ] {step : χ → κ → A → ω × A} {ok : κ → A → Prop} [∀ k a, Decidable (ok k a)] :
    ∀ (ks : List κ) (a : A), Decidable (Meant step ok ks a)
  | [], _ => isTrue trivial
  | k :: ks, a =>
    have : ∀ x, Decidable (Meant step ok ks (step x k a).2) := fun x => decidableMeant ks (step x k a).2
    inferInstanceAs (Decidable (ok k a ∧ ∀ x, Meant step ok ks (step x k a).2))

/-- Only what a choice does to the state matters. -/
theorem Meant.of_map {χ' ω' : Type} {step : χ → κ → A → ω × A} {step' : χ' → κ → A → ω' × A} {ok : κ → A → Prop} (p : χ → χ')
    (h : ∀ x k a, (step x k a).2 = (step' (p x) k a).2) {ks : List κ} {a : A} (hmeant : Meant step' ok ks a) :
    Meant step ok ks a := by
  induction ks generalizing a with
  | nil => exact trivial
  | cons k ks ih =>
    refine ⟨hmeant.1, fun x => ?_⟩
    rw [h x k a]
    exact ih (hmeant.2 (p x))

/-- Every step of the concrete machine is one of the abstract machine. -/
def Refines (step : κ → W → ω × W) (abs : χ → κ → A → ω × A) (ok : κ → A → Prop) (R : A → W → Prop) : Prop :=
  ∀ k a w, ok k a → R a w → ∃ x, (step k w).1 = (abs x k a).1 ∧ R (abs x k a).2 (step k w).2

/-- **So is every run.** -/
theorem Refines.run {step : κ → W → ω × W} {abs : χ → κ → A → ω × A} {ok : κ → A → Prop} {R : A → W → Prop}
    (h : Refines step abs ok R) {ks : List κ} {a : A} {w : W} (hok : Meant abs ok ks a) (hR : R a w) :
    ∃ a', Allowed abs ks a (runAll step ks w).1 a' ∧ R a' (runAll step ks w).2 := by
  induction ks generalizing a w with
  | nil => exact ⟨a, .nil a, hR⟩
  | cons k ks ih =>
    obtain ⟨x, hshown, hR'⟩ := h k a w hok.1 hR
    obtain ⟨a', hrun, hend⟩ := ih (hok.2 x) hR'
    refine ⟨a', ?_, hend⟩
    rw [runAll]
    simp only [hshown]
    exact .cons x hrun

end Cpm68k.Library
