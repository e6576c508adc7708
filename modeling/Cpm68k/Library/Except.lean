import Mathlib.Tactic.SplitIfs

/-!
# Functions that may raise an exception

Inversion rules for `Except`: what a computation that ended without an exception did.
-/

namespace Cpm68k.Library

universe u v

variable {ε : Type u} {α β : Type v}

/-- A sequence that ended: its first part ended, and then the rest did. -/
theorem bind_eq_ok {x : Except ε α} {f : α → Except ε β} {b : β} :
    (x >>= f) = .ok b ↔ ∃ a, x = .ok a ∧ f a = .ok b := by
  cases x <;> simp [bind, Except.bind]

/-- A check that raises an exception was passed. -/
theorem ite_error_eq_ok {p : Prop} [Decidable p] {e : ε} {x : Except ε α} {a : α} :
    (if p then .error e else x) = .ok a ↔ ¬ p ∧ x = .ok a := by
  split_ifs with h <;> simp [h]

/-- **The loop rule**: what every iteration that ends keeps, a loop that ends keeps. -/
theorem foldlM_invariant {P : β → Prop} {f : β → α → Except ε β} {l : List α}
    (step : ∀ s, ∀ a ∈ l, ∀ s', P s → f s a = .ok s' → P s') :
    ∀ {s s' : β}, P s → l.foldlM f s = .ok s' → P s' := by
  induction l with
  | nil =>
    intro s s' hs h
    simp only [List.foldlM_nil, pure, Except.pure, Except.ok.injEq] at h
    exact h ▸ hs
  | cons a l ih =>
    intro s s' hs h
    rw [List.foldlM_cons] at h
    obtain ⟨t, ht, h⟩ := bind_eq_ok.mp h
    exact ih (fun s a ha s' => step s a (List.mem_cons_of_mem _ ha) s') (step s a List.mem_cons_self t hs ht) h

/-- **The loop rule**, when it matters which items have been gone through. -/
theorem foldlM_prefix {P : List α → β → Prop} {f : β → α → Except ε β} {l : List α}
    (step : ∀ done, ∀ a ∈ l, ∀ s s', P done s → f s a = .ok s' → P (done ++ [a]) s') {s s' : β} (hs : P [] s)
    (h : l.foldlM f s = .ok s') : P l s' := by
  suffices hrest : ∀ todo : List α, (∀ a ∈ todo, a ∈ l) → ∀ (done : List α) (s : β), P done s →
      todo.foldlM f s = .ok s' → P (done ++ todo) s' from hrest l (fun _ ha => ha) [] s hs h
  intro todo
  induction todo with
  | nil =>
    intro _ done s hs h
    simp only [List.foldlM_nil, pure, Except.pure, Except.ok.injEq] at h
    rw [List.append_nil]
    exact h ▸ hs
  | cons a todo ih =>
    intro hin done s hs h
    rw [List.foldlM_cons] at h
    obtain ⟨t, ht, h⟩ := bind_eq_ok.mp h
    have hrest := ih (fun b hb => hin b (List.mem_cons_of_mem a hb)) (done ++ [a]) t
      (step done a (hin a List.mem_cons_self) s t hs ht) h
    rwa [List.append_assoc, List.singleton_append] at hrest

end Cpm68k.Library
