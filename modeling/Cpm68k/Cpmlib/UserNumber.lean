import Cpm68k.Cpmlib.Osif

/-!
# The user number

`cpmlib/chkuser.c`. A channel stores 0 for the user number that the caller has, and one more
than the user number of its file otherwise. `_chkuser` makes that the current user number,
and `_uchkuser` puts back the one that was.

## What is proved

* `IsUser.user_chkuser`, `IsUser.user_uchkuser` — they do so, with a BDOS whose function
  `USER` gets and sets the user number.
* `chkuser_rel`, `uchkuser_rel` — and do nothing else.
-/

namespace Cpm68k.Cpmlib

variable {σ : Type} {B : Osif σ}

/-- The user number under which a channel does its input and output. -/
def fileUser (newu : Int8) (u : UInt16) : UInt16 := if newu = 0 then u else (newu.toInt16 - 1).toUInt16

theorem toInt16_eq_zero_iff (n : Int8) : n.toInt16 = 0 ↔ n = 0 := by
  constructor
  · intro h
    have hint := congrArg Int16.toInt h
    rw [Int8.toInt_toInt16] at hint
    exact Int8.toInt_inj.mp hint
  · rintro rfl
    rfl

/-- No user number of a channel is the argument that asks for the current one. -/
theorem toUInt16_ne (n : Int8) : (n.toInt16 - 1).toUInt16 ≠ 0xff := by
  intro h
  have h256 : n.toInt16 = 256 := by
    have hback := congrArg UInt16.toInt16 h
    rw [Int16.toInt16_toUInt16] at hback
    calc n.toInt16 = n.toInt16 - 1 + 1 := by simp
      _ = 256 := by rw [hback]; rfl
  have hle := Int8.toInt_le n
  rw [← Int8.toInt_toInt16, h256] at hle
  exact absurd hle (by decide)

/-- `user` is the user number that the function `USER` of the BDOS gets and sets; `users` are the
numbers that there are. What becomes of the number when it is set to another is left open. -/
structure IsUser (B : Osif σ) (users : UInt16 → Prop) (user : σ → UInt16) : Prop where
  get : ∀ os, (B.user 0xff os).1 = user os ∧ user (B.user 0xff os).2 = user os
  set : ∀ n os, users n → user (B.user n os).2 = n
  known : ∀ os, users (user os)

/-- What `_chkuser` returns when the user number was `u`. -/
def prevUser (newu : Int8) (u : UInt16) : Int16 := if newu = 0 then 0 else u.toInt16 + 1

namespace IsUser

variable {users : UInt16 → Prop} {user : σ → UInt16} (h : IsUser B users user)

include h

theorem chkuser_fst (newu : Int8) (os : σ) : (chkuser B newu.toInt16 os).1 = prevUser newu (user os) := by
  obtain ⟨hget, -⟩ := h.get os
  unfold chkuser prevUser
  simp only [toInt16_eq_zero_iff, hget]
  split_ifs <;> rfl

/-- `_chkuser` makes the user number that of the file. -/
theorem user_chkuser {newu : Int8} {os : σ} (hfile : users (fileUser newu (user os))) :
    user (chkuser B newu.toInt16 os).2 = fileUser newu (user os) := by
  obtain ⟨hget, hsame⟩ := h.get os
  unfold fileUser at hfile
  unfold chkuser fileUser
  simp only [toInt16_eq_zero_iff, hget]
  split_ifs with h0 hne
  · rfl
  · rw [if_neg h0] at hfile
    exact h.set _ _ hfile
  · rw [hsame, not_not.mp hne]
    simp

/-- `_uchkuser` puts back the user number that `_chkuser` found, also when there is no user of the
number that `_chkuser` has set. -/
theorem user_uchkuser (newu : Int8) {u : UInt16} {os : σ} (hu : users u)
    (hos : users (fileUser newu u) → user os = fileUser newu u) :
    user (uchkuser B newu.toInt16 (prevUser newu u) os) = u := by
  have hback : (u.toInt16 + 1 - 1).toUInt16 = u := by simp
  unfold uchkuser prevUser
  unfold fileUser at hos
  simp only [toInt16_eq_zero_iff]
  by_cases h0 : newu = 0
  · rw [if_pos h0] at hos ⊢
    exact hos hu
  · rw [if_neg h0] at hos ⊢
    simp only [if_neg h0]
    split_ifs with hne
    · rw [hback]
      exact h.set _ _ hu
    · -- the number of the file is the one that was
      rw [not_not.mp hne, hback] at hos
      exact hos hu

end IsUser

/-! ### Nothing else changes -/

section

variable {σ' : Type} {B' : Osif σ'} {ρ : σ → σ' → Prop} {newu : Int16} {os : σ} {os' : σ'}

/-- Two operating systems with the same user number go through the same changes of it. -/
theorem chkuser_rel (hρ : ∀ n os os', ρ os os' → ρ (B.user n os).2 (B'.user n os').2)
    (hget : (B'.user 0xff os').1 = (B.user 0xff os).1) (h : ρ os os') : ρ (chkuser B newu os).2 (chkuser B' newu os').2 := by
  unfold chkuser
  dsimp only
  rw [hget]
  split_ifs
  · exact h
  · exact hρ _ _ _ (hρ _ _ _ h)
  · exact hρ _ _ _ h

theorem uchkuser_rel (hρ : ∀ n os os', ρ os os' → ρ (B.user n os).2 (B'.user n os').2) {prevu : Int16} (h : ρ os os') :
    ρ (uchkuser B newu prevu os) (uchkuser B' newu prevu os') := by
  unfold uchkuser
  split_ifs
  · exact h
  · exact hρ _ _ _ h
  · exact h

end

theorem chkuser_keeps {P : σ → Prop} (hP : ∀ n os, P os → P (B.user n os).2) {newu : Int16} {os : σ} (h : P os) :
    P (chkuser B newu os).2 :=
  @chkuser_rel σ B σ B (fun os _ => P os) newu os os (fun n os _ h => hP n os h) rfl h

theorem uchkuser_keeps {P : σ → Prop} (hP : ∀ n os, P os → P (B.user n os).2) {newu prevu : Int16} {os : σ} (h : P os) :
    P (uchkuser B newu prevu os) :=
  @uchkuser_rel σ B σ B (fun os _ => P os) newu os os (fun n os _ h => hP n os h) prevu h

end Cpm68k.Cpmlib
