import Cpm68k.Library.Except
import Mathlib.Data.List.Basic

/-!
# Output that may be cut short

A program gives items to a stream, some at a time. A call stores as many of them as there is
room for, and says how many: what a program does when it is told of fewer is up to the program.

## The model

`Writer` is a program that may end with an error, over the calls made so far. The stream has
room for `room k` items at call number `k`. A `Request` is one call as the program makes it, with
or without a check of the answer. `Issues` says which requests a program makes when no check
fails: the requests do not depend on the answers, and a check that fails ends the program.

## What is proved

* `Issues.bind` and the other rules — one for each way to make a program.
* `Issues.stored_iff` — when everything is stored in a run that ends without an error.
* `Issues.written` — what is written when there is room for everything.
* `Issues.written_of_stored` — what is written when everything is stored.
-/

namespace Cpm68k.Library

variable {ε α β γ : Type} {room : ℕ → ℕ}

/-- A call: what was given, and how many items of it were stored. -/
structure Call (α : Type) where
  /-- The items given. -/
  given : List α
  /-- How many of them are stored. -/
  stored : ℕ

/-- A program that makes calls. -/
abbrev Writer (ε α β : Type) := StateT (List (Call α)) (Except ε) β

/-- One call, on a stream with room for `room k` items at call number `k`: how many items it
stored. -/
def fwrite (room : ℕ → ℕ) (items : List α) : Writer ε α ℕ := fun log =>
  let stored := min (room log.length) items.length
  .ok (stored, log ++ [⟨items, stored⟩])

/-- A call as a program makes it. -/
structure Request (α : Type) where
  /-- The answer is checked. -/
  checked : Bool
  /-- The items given. -/
  given : List α

/-- The calls that the requests become, from number `k` on. -/
def answers (room : ℕ → ℕ) : ℕ → List (Request α) → List (Call α)
  | _, [] => []
  | k, r :: rs => ⟨r.given, min (room k) r.given.length⟩ :: answers room (k + 1) rs

/-- There is room for the requests that `p` holds of, from call number `k` on. -/
def Fits (room : ℕ → ℕ) (p : Request α → Prop) : ℕ → List (Request α) → Prop
  | _, [] => True
  | k, r :: rs => (p r → r.given.length ≤ room k) ∧ Fits room p (k + 1) rs

@[simp] theorem length_answers (k : ℕ) (rs : List (Request α)) : (answers room k rs).length = rs.length := by
  induction rs generalizing k with
  | nil => rfl
  | cons r rs ih => rw [answers, List.length_cons, List.length_cons, ih]

theorem answers_append (k : ℕ) (rs rs' : List (Request α)) :
    answers room k (rs ++ rs') = answers room k rs ++ answers room (k + rs.length) rs' := by
  induction rs generalizing k with
  | nil => rfl
  | cons r rs ih =>
    rw [List.cons_append, answers, answers, ih, List.cons_append, List.length_cons]
    congr 3
    omega

theorem fits_append {p : Request α → Prop} (k : ℕ) (rs rs' : List (Request α)) :
    Fits room p k (rs ++ rs') ↔ Fits room p k rs ∧ Fits room p (k + rs.length) rs' := by
  induction rs generalizing k with
  | nil => simp [Fits]
  | cons r rs ih =>
    rw [List.cons_append, Fits, Fits, ih, List.length_cons, and_assoc]
    rw [show k + 1 + rs.length = k + (rs.length + 1) by omega]

/-- There is room for all requests when there is room for those with a check and for those
without. -/
theorem fits_all_iff (k : ℕ) (rs : List (Request α)) :
    Fits room (fun _ => True) k rs ↔
      Fits room (fun r => r.checked = true) k rs ∧ Fits room (fun r => r.checked = false) k rs := by
  induction rs generalizing k with
  | nil => simp [Fits]
  | cons r rs ih =>
    unfold Fits
    rw [ih]
    cases r.checked with
    | true => simp [and_assoc]
    | false => simp [and_left_comm]

/-- Everything given is stored when there is room for it. -/
theorem stored_answers_iff (k : ℕ) (rs : List (Request α)) :
    (∀ c ∈ answers room k rs, c.stored = c.given.length) ↔ Fits room (fun _ => True) k rs := by
  induction rs generalizing k with
  | nil => simp [answers, Fits]
  | cons r rs ih =>
    have hmin : min (room k) r.given.length = r.given.length ↔ r.given.length ≤ room k := by omega
    rw [answers, List.forall_mem_cons, ih, Fits, hmin, forall_const]

/-- The program makes the requests and ends with `b`, unless a check fails: then it ends with an
error. -/
structure Issues (room : ℕ → ℕ) (m : Writer ε α β) (rs : List (Request α)) (b : β) : Prop where
  passed : ∀ log : List (Call α), Fits room (fun r => r.checked = true) log.length rs →
    m log = .ok (b, log ++ answers room log.length rs)
  failed : ∀ log : List (Call α), ¬ Fits room (fun r => r.checked = true) log.length rs → ∃ e, m log = .error e

theorem Issues.pure (b : β) : Issues room (pure b : Writer ε α β) [] b where
  passed log _ := by
    rw [answers, List.append_nil]
    rfl
  failed _ h := absurd trivial h

/-- **One part after the other.** -/
theorem Issues.bind {m : Writer ε α β} {f : β → Writer ε α γ} {rs rs' : List (Request α)} {b : β} {c : γ}
    (hm : Issues room m rs b) (hf : Issues room (f b) rs' c) : Issues room (m >>= f) (rs ++ rs') c where
  passed log h := by
    obtain ⟨hrs, hrs'⟩ := (fits_append _ _ _).mp h
    have hlen : (log ++ answers room log.length rs).length = log.length + rs.length := by
      rw [List.length_append, length_answers]
    have hrest := hf.passed (log ++ answers room log.length rs) (hlen ▸ hrs')
    rw [hlen, List.append_assoc, ← answers_append] at hrest
    show (m log >>= fun r => f r.1 r.2) = _
    rw [hm.passed log hrs]
    exact hrest
  failed log h := by
    rw [fits_append, not_and_or] at h
    show ∃ e, (m log >>= fun r => f r.1 r.2) = .error e
    by_cases hrs : Fits room (fun r => r.checked = true) log.length rs
    · have hlen : (log ++ answers room log.length rs).length = log.length + rs.length := by
        rw [List.length_append, length_answers]
      obtain ⟨e, he⟩ := hf.failed (log ++ answers room log.length rs) (hlen ▸ h.resolve_left (not_not.mpr hrs))
      rw [hm.passed log hrs]
      exact ⟨e, he⟩
    · obtain ⟨e, he⟩ := hm.failed log hrs
      rw [he]
      exact ⟨e, rfl⟩

/-- A call whose answer is checked. -/
def fwriteChecked (room : ℕ → ℕ) (items : List α) (e : ε) : Writer ε α Unit := do
  let stored ← fwrite room items
  if stored ≠ items.length then throw e

theorem issues_checked (items : List α) (e : ε) : Issues room (fwriteChecked room items e) [⟨true, items⟩] () where
  passed log h := by
    have hfits : min (room log.length) items.length = items.length := Nat.min_eq_right (h.1 rfl)
    show (if min (room log.length) items.length ≠ items.length then throw e else Pure.pure () : Writer ε α Unit)
      (log ++ [⟨items, min (room log.length) items.length⟩]) = _
    rw [if_neg (not_not.mpr hfits)]
    rfl
  failed log h := by
    have hcut : min (room log.length) items.length ≠ items.length := by
      intro heq
      exact h ⟨fun _ => heq ▸ Nat.min_le_left _ _, trivial⟩
    refine ⟨e, ?_⟩
    show (if min (room log.length) items.length ≠ items.length then throw e else Pure.pure () : Writer ε α Unit)
      (log ++ [⟨items, min (room log.length) items.length⟩]) = _
    rw [if_pos hcut]
    rfl

/-- A call whose answer makes no difference. -/
theorem issues_unchecked (items : List α) {f : ℕ → Writer ε α β} {rs : List (Request α)} {b : β}
    (hf : ∀ stored, Issues room (f stored) rs b) :
    Issues room (fwrite room items >>= f) (⟨false, items⟩ :: rs) b where
  passed log h := by
    have hrest := (hf (min (room log.length) items.length)).passed (log ++ [⟨items, min (room log.length) items.length⟩])
    rw [List.length_append, List.length_singleton, List.append_assoc] at hrest
    exact hrest h.2
  failed log h := by
    have hrest := (hf (min (room log.length) items.length)).failed (log ++ [⟨items, min (room log.length) items.length⟩])
    rw [List.length_append, List.length_singleton] at hrest
    exact hrest fun hfits => h ⟨fun hchecked => absurd hchecked Bool.false_ne_true, hfits⟩

/-- **Everything is stored in a run that ends without an error** if and only if a check fails, or
there is room for the requests without a check too. -/
theorem Issues.stored_iff {m : Writer ε α β} {rs : List (Request α)} {b : β} (h : Issues room m rs b) :
    (∀ c log, m [] = .ok (c, log) → ∀ call ∈ log, call.stored = call.given.length) ↔
      (Fits room (fun r => r.checked = true) 0 rs → Fits room (fun r => r.checked = false) 0 rs) := by
  by_cases hfits : Fits room (fun r => r.checked = true) 0 rs
  · have hrun := h.passed [] hfits
    rw [List.nil_append, List.length_nil] at hrun
    have hall := @fits_all_iff _ room 0 rs
    constructor
    · intro hstored _
      exact (hall.mp ((stored_answers_iff 0 rs).mp (hstored b _ hrun))).2
    · intro hunchecked c log hc
      rw [hrun] at hc
      injection hc with hc
      injection hc with _ hlog
      rw [← hlog]
      exact (stored_answers_iff 0 rs).mpr (hall.mpr ⟨hfits, hunchecked hfits⟩)
  · obtain ⟨e, he⟩ := h.failed [] hfits
    refine iff_of_true (fun c log hc => ?_) fun hfits' => absurd hfits' hfits
    rw [he] at hc
    cases hc

/-! ### What is written -/

/-- What the calls stored. -/
def written (log : List (Call α)) : List α := log.flatMap fun call => call.given.take call.stored

theorem fits_of_length_le {p : Request α → Prop} {n k : ℕ} {rs : List (Request α)} (hroom : ∀ k, n ≤ room k)
    (h : ∀ r ∈ rs, r.given.length ≤ n) : Fits room p k rs := by
  induction rs generalizing k with
  | nil => trivial
  | cons r rs ih =>
    constructor
    · exact fun _ => Nat.le_trans (h r List.mem_cons_self) (hroom k)
    · exact ih fun r' hr' => h r' (List.mem_cons_of_mem _ hr')

theorem written_answers {k : ℕ} {rs : List (Request α)} (h : Fits room (fun _ => True) k rs) :
    written (answers room k rs) = rs.flatMap Request.given := by
  induction rs generalizing k with
  | nil => rfl
  | cons r rs ih =>
    have hmin : min (room k) r.given.length = r.given.length := Nat.min_eq_right (h.1 trivial)
    rw [answers, written, List.flatMap_cons, List.flatMap_cons, hmin, List.take_length, ← written, ih h.2]

/-- **What is written** when there is room for `n` items at every call, and no request is longer. -/
theorem Issues.written {m : Writer ε α β} {rs : List (Request α)} {b : β} {n : ℕ} (h : Issues room m rs b)
    (hroom : ∀ k, n ≤ room k) (hlen : ∀ r ∈ rs, r.given.length ≤ n) :
    ∃ log, m [] = .ok (b, log) ∧ Library.written log = rs.flatMap Request.given := by
  have hrun := h.passed [] (fits_of_length_le hroom hlen)
  rw [List.nil_append, List.length_nil] at hrun
  exact ⟨_, hrun, written_answers (fits_of_length_le hroom hlen)⟩

/-- What is written in a run that ends without an error and stores everything. -/
theorem Issues.written_of_stored {m : Writer ε α β} {rs : List (Request α)} {b c : β} {log : List (Call α)}
    (h : Issues room m rs b) (hrun : m [] = .ok (c, log)) (hstored : ∀ call ∈ log, call.stored = call.given.length) :
    Library.written log = rs.flatMap Request.given := by
  by_cases hfits : Fits room (fun r => r.checked = true) 0 rs
  · have hpassed := h.passed [] hfits
    rw [hrun, List.nil_append, List.length_nil] at hpassed
    injection hpassed with hpassed
    injection hpassed with _ hlog
    rw [hlog] at hstored ⊢
    exact written_answers ((stored_answers_iff 0 rs).mp hstored)
  · obtain ⟨e, he⟩ := h.failed [] hfits
    rw [hrun] at he
    cases he

end Cpm68k.Library
