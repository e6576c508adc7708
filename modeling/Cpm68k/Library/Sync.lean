import Cpm68k.Library.Hoare

/-!
# Two programs that keep step

Two programs, each over a state of its own, keep step when they end the same way: with the
same value or with the same exception. `R` relates their states before and after.

## What is proved

* `Sync.pure`, `Sync.throw`, `Sync.bind`, `Sync.ite`, … — programs built alike of parts that
  keep step keep step.
* `Sync.keeps`, `Sync.of_keeps` — a program that keeps step with itself, in one state, keeps
  an invariant, and the other way round.
-/

namespace Cpm68k.Library

universe u

variable {ε σ τ α β : Type u} {R : σ → τ → Prop}

/-- From the states `s` and `t` both programs end alike, in states that are related. -/
def SyncAt (R : σ → τ → Prop) (m : EStateM ε σ α) (m' : EStateM ε τ α) (s : σ) (t : τ) : Prop :=
  match m s, m' t with
  | .ok a s', .ok a' t' => a' = a ∧ R s' t'
  | .error e s', .error e' t' => e' = e ∧ R s' t'
  | _, _ => False

/-- Related states lead to the same end and to related states. -/
def Sync (R : σ → τ → Prop) (m : EStateM ε σ α) (m' : EStateM ε τ α) : Prop := ∀ s t, R s t → SyncAt R m m' s t

namespace SyncAt

variable {m : EStateM ε σ α} {m' : EStateM ε τ α} {s s' : σ} {t t' : τ}

/-- The two ends. -/
theorem ends (h : SyncAt R m m' s t) :
    (∃ a s' t', m s = .ok a s' ∧ m' t = .ok a t' ∧ R s' t') ∨
      ∃ e s' t', m s = .error e s' ∧ m' t = .error e t' ∧ R s' t' := by
  unfold SyncAt at h
  cases hms : m s <;> cases hmt : m' t <;> rw [hms, hmt] at h
  · obtain ⟨rfl, hR⟩ := h
    exact .inl ⟨_, _, _, rfl, rfl, hR⟩
  · exact h.elim
  · exact h.elim
  · obtain ⟨rfl, hR⟩ := h
    exact .inr ⟨_, _, _, rfl, rfl, hR⟩

theorem of_ok {a : α} (hm : m s = .ok a s') (hm' : m' t = .ok a t') (h : R s' t') : SyncAt R m m' s t := by
  unfold SyncAt
  rw [hm, hm']
  exact ⟨rfl, h⟩

theorem of_error {e : ε} (hm : m s = .error e s') (hm' : m' t = .error e t') (h : R s' t') : SyncAt R m m' s t := by
  unfold SyncAt
  rw [hm, hm']
  exact ⟨rfl, h⟩

/-- The programs go on as two others do. -/
theorem of_eq {n : EStateM ε σ α} {n' : EStateM ε τ α} (h : SyncAt R n n' s' t') (hm : m s = n s') (hm' : m' t = n' t') :
    SyncAt R m m' s t := by
  unfold SyncAt at *
  rwa [hm, hm']

/-- What follows may relate the states in another way. -/
theorem andThen {T : σ → τ → Prop} {f : α → EStateM ε σ β} {f' : α → EStateM ε τ β} (hm : SyncAt R m m' s t)
    (hf : ∀ a s₁ t₁, R s₁ t₁ → SyncAt T (f a) (f' a) s₁ t₁) (hE : ∀ s₁ t₁, R s₁ t₁ → T s₁ t₁) :
    SyncAt T (m >>= f) (m' >>= f') s t := by
  cases hm.ends with
  | inl hok =>
    obtain ⟨a, s₁, t₁, hs, ht, hR⟩ := hok
    have hf := hf a s₁ t₁ hR
    unfold SyncAt at hf ⊢
    simp only [Bind.bind, EStateM.bind, hs, ht]
    exact hf
  | inr herror =>
    obtain ⟨e, s₁, t₁, hs, ht, hR⟩ := herror
    exact of_error (e := e) (by simp only [Bind.bind, EStateM.bind, hs]) (by simp only [Bind.bind, EStateM.bind, ht]) (hE _ _ hR)

theorem bind {f : α → EStateM ε σ β} {f' : α → EStateM ε τ β} (hm : SyncAt R m m' s t) (hf : ∀ a, Sync R (f a) (f' a)) :
    SyncAt R (m >>= f) (m' >>= f') s t := hm.andThen (fun a => hf a) fun _ _ h => h

/-- Both programs look at their states. -/
theorem get {f : σ → EStateM ε σ β} {f' : τ → EStateM ε τ β} {s : σ} {t : τ} (h : SyncAt R (f s) (f' t) s t) :
    SyncAt R (get >>= f) (get >>= f') s t := h

/-- What is known of both programs by themselves may be added to what relates their ends. -/
theorem mono {T : σ → τ → Prop} (h : SyncAt R m m' s t) (hR : ∀ s' t', R s' t' → T s' t') : SyncAt T m m' s t := by
  cases h.ends with
  | inl hok =>
    obtain ⟨a, s₁, t₁, hs, ht, h₁⟩ := hok
    exact of_ok hs ht (hR _ _ h₁)
  | inr herror =>
    obtain ⟨e, s₁, t₁, hs, ht, h₁⟩ := herror
    exact of_error hs ht (hR _ _ h₁)

end SyncAt

namespace Sync

variable {m : EStateM ε σ α} {m' : EStateM ε τ α}

theorem pure (a : α) : Sync R (pure a : EStateM ε σ α) (pure a : EStateM ε τ α) := fun _ _ h => ⟨rfl, h⟩

theorem throw (e : ε) : Sync R (throw e : EStateM ε σ α) (throw e : EStateM ε τ α) := fun _ _ h => ⟨rfl, h⟩

theorem modify {f : σ → σ} {f' : τ → τ} (h : ∀ s t, R s t → R (f s) (f' t)) :
    Sync R (modify f : EStateM ε σ PUnit) (modify f' : EStateM ε τ PUnit) := fun s t hst => ⟨rfl, h s t hst⟩

theorem bind {f : α → EStateM ε σ β} {f' : α → EStateM ε τ β} (hm : Sync R m m') (hf : ∀ a, Sync R (f a) (f' a)) :
    Sync R (m >>= f) (m' >>= f') := fun s t h => (hm s t h).bind hf

theorem map (f : α → β) (hm : Sync R m m') : Sync R (f <$> m) (f <$> m') := by
  intro s t h
  cases (hm s t h).ends with
  | inl hok =>
    obtain ⟨a, s₁, t₁, hs, ht, hR⟩ := hok
    exact .of_ok (a := f a) (by simp only [Functor.map, EStateM.map, hs]) (by simp only [Functor.map, EStateM.map, ht]) hR
  | inr herror =>
    obtain ⟨e, s₁, t₁, hs, ht, hR⟩ := herror
    exact .of_error (e := e) (by simp only [Functor.map, EStateM.map, hs]) (by simp only [Functor.map, EStateM.map, ht]) hR

theorem ite {p : Prop} [Decidable p] {n : EStateM ε σ α} {n' : EStateM ε τ α} (hm : Sync R m m') (hn : Sync R n n') :
    Sync R (if p then m else n) (if p then m' else n') := by
  split_ifs
  · exact hm
  · exact hn

theorem whenever {p : Prop} [Decidable p] {m : EStateM ε σ PUnit} {m' : EStateM ε τ PUnit} (hm : Sync R m m') :
    Sync R (whenever p m) (whenever p m') := ite hm (Sync.pure PUnit.unit)

/-- Both programs look at their states. -/
theorem get {f : σ → EStateM ε σ β} {f' : τ → EStateM ε τ β} (h : ∀ s t, R s t → SyncAt R (f s) (f' t) s t) :
    Sync R (get >>= f) (get >>= f') := h

/-- A program that keeps step with itself. -/
theorem keeps {P : σ → Prop} {m : EStateM ε σ α} (h : Sync (fun s t => t = s ∧ P s) m m) : Keeps P m := by
  intro s hs
  unfold wp
  cases (h s s ⟨rfl, hs⟩).ends with
  | inl hok =>
    obtain ⟨a, s₁, t₁, hm, -, -, hP⟩ := hok
    rw [hm]
    exact hP
  | inr herror =>
    obtain ⟨e, s₁, t₁, hm, -, -, hP⟩ := herror
    rw [hm]
    exact hP

/-- What keeps an invariant keeps step with itself. -/
theorem of_keeps {P : σ → Prop} {m : EStateM ε σ α} (h : Keeps P m) : Sync (fun s t => t = s ∧ P s) m m := by
  rintro s t ⟨rfl, hs⟩
  have hwp := h t hs
  unfold wp at hwp
  unfold SyncAt
  cases hm : m t <;> rw [hm] at hwp <;> exact ⟨rfl, rfl, hwp⟩

end Sync

end Cpm68k.Library
