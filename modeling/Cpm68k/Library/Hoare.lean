import Mathlib.Tactic.SplitIfs

/-!
# Pre- and postconditions of stateful programs

`EStateM ε σ α` is a program over a state `σ` that ends with a value or with an exception,
and keeps the state it had reached when it ends with an exception.

## The model

`wp m Q E s` says: the program `m`, run in the state `s`, ends either with a value and a
state of which `Q` holds, or with an exception and a state of which `E` holds. `Keeps P m`
is the case where one predicate on states holds before and after, however `m` ends, and
`Raises P m` the case where something is said of the exceptions only.

## What is proved

* `wp_pure`, `wp_throw`, `wp_bind`, `wp_ite`, … — the rules of the language, as equations.
* `wp_mono`, `wp_and` — consequence and conjunction.
* `Keeps.bind`, `Keeps.ite`, … — an invariant is kept by a program whose parts keep it.
-/

namespace Cpm68k.Library

universe u

variable {ε σ α β : Type u}

/-- The weakest precondition: `Q` of a value and the last state, or `E` of an exception and
the last state. -/
def wp (m : EStateM ε σ α) (Q : α → σ → Prop) (E : ε → σ → Prop) (s : σ) : Prop :=
  match m s with
  | .ok a s' => Q a s'
  | .error e s' => E e s'

section Rules

variable {Q : α → σ → Prop} {R : β → σ → Prop} {E : ε → σ → Prop} {s : σ}

@[simp] theorem wp_pure (a : α) : wp (pure a : EStateM ε σ α) Q E s = Q a s := rfl

@[simp] theorem wp_throw (e : ε) : wp (throw e : EStateM ε σ α) Q E s = E e s := rfl

@[simp] theorem wp_bind (m : EStateM ε σ α) (f : α → EStateM ε σ β) :
    wp (m >>= f) R E s = wp m (fun a => wp (f a) R E) E s := by
  simp only [wp, bind, EStateM.bind]
  cases m s <;> rfl

@[simp] theorem wp_map (f : α → β) (m : EStateM ε σ α) : wp (f <$> m) R E s = wp m (fun a => R (f a)) E s := by
  simp only [wp, Functor.map, EStateM.map]
  cases m s <;> rfl

@[simp] theorem wp_get {Q : σ → σ → Prop} : wp (get : EStateM ε σ σ) Q E s = Q s s := rfl

@[simp] theorem wp_set {Q : PUnit → σ → Prop} (s' : σ) : wp (set s' : EStateM ε σ PUnit) Q E s = Q ⟨⟩ s' := rfl

@[simp] theorem wp_modify {Q : PUnit → σ → Prop} (f : σ → σ) :
    wp (modify f : EStateM ε σ PUnit) Q E s = Q ⟨⟩ (f s) := rfl

@[simp] theorem wp_ite (p : Prop) [Decidable p] (m m' : EStateM ε σ α) :
    wp (if p then m else m') Q E s = if p then wp m Q E s else wp m' Q E s := by
  split_ifs <;> rfl

/-- Consequence: a stronger postcondition will do. -/
theorem wp_mono {m : EStateM ε σ α} {Q' : α → σ → Prop} {E' : ε → σ → Prop} (h : wp m Q E s)
    (hQ : ∀ a s', Q a s' → Q' a s') (hE : ∀ e s', E e s' → E' e s') : wp m Q' E' s := by
  unfold wp at *
  cases hm : m s with
  | ok a s' => exact hQ a s' (by simpa only [hm] using h)
  | error e s' => exact hE e s' (by simpa only [hm] using h)

/-- Conjunction of postconditions. -/
theorem wp_and {m : EStateM ε σ α} {Q' : α → σ → Prop} {E' : ε → σ → Prop} (h : wp m Q E s) (h' : wp m Q' E' s) :
    wp m (fun a s' => Q a s' ∧ Q' a s') (fun e s' => E e s' ∧ E' e s') s := by
  unfold wp at *
  cases hm : m s <;> rw [hm] at h h' <;> exact ⟨h, h'⟩

/-- What holds after a program is said to do so, if and only if `p`. -/
theorem wp_iff {m : EStateM ε σ α} {p : Prop} (h : wp m (fun a s' => Q a s' ↔ p) (fun e s' => E e s' ↔ p) s) :
    wp m Q E s ↔ p := by
  unfold wp at *
  cases hm : m s <;> rw [hm] at h <;> exact h

/-- Programs that end alike from a state have the same weakest precondition there. -/
theorem wp_congr {m m' : EStateM ε σ α} (h : m s = m' s) : wp m Q E s = wp m' Q E s := by
  unfold wp
  rw [h]

theorem wp_of_eq_ok {m : EStateM ε σ α} {a : α} {s' : σ} (h : m s = .ok a s') : wp m Q E s = Q a s' := by
  simp only [wp, h]

/-- What does not depend on the state holds after a program. -/
theorem wp_const {m : EStateM ε σ α} {p : Prop} (hp : p) : wp m (fun _ _ => p) (fun _ _ => True) s := by
  unfold wp
  cases m s
  · exact hp
  · trivial

/-- A program that cannot end with an exception ends with a value. -/
theorem exists_of_wp {m : EStateM ε σ α} (h : wp m Q (fun _ _ => False) s) :
    ∃ a s', m s = .ok a s' ∧ Q a s' := by
  unfold wp at h
  cases hm : m s with
  | ok a s' => exact ⟨a, s', rfl, by simpa only [hm] using h⟩
  | error e s' => simp only [hm] at h

/-- Two programs end alike when what follows a common start does. -/
theorem bind_eq_of_wp {m : EStateM ε σ α} {f g : α → EStateM ε σ β}
    (h : wp m (fun a s' => f a s' = g a s') (fun _ _ => True) s) : (m >>= f) s = (m >>= g) s := by
  unfold wp at h
  simp only [bind, EStateM.bind]
  cases hm : m s with
  | ok a s' => simpa only [hm] using h
  | error e s' => rfl

end Rules

/-- `m` if `p` holds, and otherwise nothing. -/
def whenever (p : Prop) [Decidable p] (m : EStateM ε σ PUnit) : EStateM ε σ PUnit :=
  if p then m else pure ⟨⟩

@[simp] theorem wp_whenever (p : Prop) [Decidable p] (m : EStateM ε σ PUnit) (Q : PUnit → σ → Prop)
    (E : ε → σ → Prop) (s : σ) : wp (whenever p m) Q E s = if p then wp m Q E s else Q ⟨⟩ s := by
  unfold whenever
  split_ifs <;> rfl

/-! ### Invariants -/

/-- `P` holds after `m` when it holds before, whether `m` ends with a value or not. -/
def Keeps (P : σ → Prop) (m : EStateM ε σ α) : Prop :=
  ∀ s, P s → wp m (fun _ => P) (fun _ => P) s

namespace Keeps

variable {P : σ → Prop} {m m' : EStateM ε σ α}

theorem pure (a : α) : Keeps P (pure a : EStateM ε σ α) := fun _ h => h

theorem throw (e : ε) : Keeps P (throw e : EStateM ε σ α) := fun _ h => h

theorem get : Keeps P (get : EStateM ε σ σ) := fun _ h => h

theorem modify {f : σ → σ} (h : ∀ s, P s → P (f s)) : Keeps P (modify f : EStateM ε σ PUnit) := h

theorem bind {f : α → EStateM ε σ β} (hm : Keeps P m) (hf : ∀ a, Keeps P (f a)) : Keeps P (m >>= f) := by
  intro s hs
  rw [wp_bind]
  exact wp_mono (hm s hs) (fun a s' h => hf a s' h) (fun _ _ h => h)

theorem map (f : α → β) (hm : Keeps P m) : Keeps P (f <$> m) := by
  intro s hs
  rw [wp_map]
  exact hm s hs

theorem ite {p : Prop} [Decidable p] (hm : Keeps P m) (hm' : Keeps P m') : Keeps P (if p then m else m') := by
  split_ifs
  · exact hm
  · exact hm'

theorem whenever {p : Prop} [Decidable p] {m : EStateM ε σ PUnit} (hm : Keeps P m) : Keeps P (whenever p m) :=
  ite hm (Keeps.pure PUnit.unit)

end Keeps

/-! ### Exceptions -/

/-- `P` holds of every exception that `m` ends with. -/
def Raises (P : ε → Prop) (m : EStateM ε σ α) : Prop := ∀ s, wp m (fun _ _ => True) (fun e _ => P e) s

namespace Raises

variable {P : ε → Prop} {m m' : EStateM ε σ α}

theorem of_ok (h : ∀ s, ∃ a s', m s = .ok a s') : Raises P m := by
  intro s
  obtain ⟨a, s', hm⟩ := h s
  rw [wp_of_eq_ok hm]
  trivial

theorem pure (a : α) : Raises P (pure a : EStateM ε σ α) := of_ok fun s => ⟨a, s, rfl⟩

theorem throw {e : ε} (h : P e) : Raises P (throw e : EStateM ε σ α) := fun _ => h

theorem get : Raises P (get : EStateM ε σ σ) := of_ok fun s => ⟨s, s, rfl⟩

theorem modify (f : σ → σ) : Raises P (modify f : EStateM ε σ PUnit) := of_ok fun s => ⟨⟨⟩, f s, rfl⟩

theorem bind {f : α → EStateM ε σ β} (hm : Raises P m) (hf : ∀ a, Raises P (f a)) : Raises P (m >>= f) := by
  intro s
  rw [wp_bind]
  exact wp_mono (hm s) (fun a s' _ => hf a s') (fun _ _ h => h)

theorem ite {p : Prop} [Decidable p] (hm : Raises P m) (hm' : Raises P m') : Raises P (if p then m else m') := by
  split_ifs
  · exact hm
  · exact hm'

theorem whenever {p : Prop} [Decidable p] {m : EStateM ε σ PUnit} (hm : Raises P m) : Raises P (whenever p m) :=
  ite hm (Raises.pure PUnit.unit)

end Raises

end Cpm68k.Library
