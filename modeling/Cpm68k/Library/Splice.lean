import Mathlib.Data.List.Basic
import Mathlib.Data.List.GetD

/-!
# Overwriting part of a list

`splice l o bs` is `l` with the items from index `o` on replaced by `bs`, growing `l`
when `bs` reaches past its end. It is what a write at an offset does to a file, and what
`pack_into` does to a buffer. `spliceAll` makes several such writes one after the other.

## What is proved

* `getElem?_splice`, `getD_splice`, `length_splice` — which item is where afterwards.
* `splice_splice` — two writes one after the other, the second starting where the first
  ended, are one write.
* `getElem?_spliceAll` — writes that do not overlap can be read back one by one, in
  whatever order they were made.
* `spliceAll_perm` — so their order makes no difference.
* `getElem?_spliceAll_last` — of writes that overlap, the last one that reaches an index counts.
* `spliceAll_streamed` — writes in order give what goes out when each is sent after the one before
  it, with a filler in the gaps.
-/

namespace Cpm68k.Library

universe u

variable {α : Type u}

/-- `l` with the items from index `o` on overwritten by `bs`. -/
def splice (l : List α) (o : ℕ) (bs : List α) : List α :=
  l.take o ++ bs ++ l.drop (o + bs.length)

@[simp] theorem splice_nil (l : List α) (o : ℕ) : splice l o [] = l := by simp [splice]

theorem length_splice {l : List α} {o : ℕ} (h : o ≤ l.length) (bs : List α) :
    (splice l o bs).length = max l.length (o + bs.length) := by
  simp only [splice, List.length_append, List.length_take, List.length_drop]
  omega

theorem length_splice_of_le {l : List α} {o : ℕ} {bs : List α} (h : o + bs.length ≤ l.length) :
    (splice l o bs).length = l.length := by
  rw [length_splice (by omega)]
  omega

/-- Inside the overwritten range the new items are read, outside it the old ones. -/
theorem getElem?_splice {l : List α} {o : ℕ} (h : o ≤ l.length) (bs : List α) (i : ℕ) :
    (splice l o bs)[i]? = if o ≤ i ∧ i < o + bs.length then bs[i - o]? else l[i]? := by
  have htake : (l.take o).length = o := by simp [h]
  unfold splice
  rcases Nat.lt_or_ge i o with hi | hi
  · rw [if_neg (by omega), List.append_assoc, List.getElem?_append_left (by omega),
      List.getElem?_take_of_lt hi]
  · rw [List.append_assoc, List.getElem?_append_right (by omega), htake]
    rcases Nat.lt_or_ge i (o + bs.length) with hi' | hi'
    · rw [if_pos ⟨hi, hi'⟩, List.getElem?_append_left (by omega)]
    · rw [if_neg (by omega), List.getElem?_append_right (by omega), List.getElem?_drop]
      congr 1
      omega

theorem getD_splice {l : List α} {o : ℕ} (h : o ≤ l.length) (bs : List α) (i : ℕ) (d : α) :
    (splice l o bs).getD i d = if o ≤ i ∧ i < o + bs.length then bs.getD (i - o) d else l.getD i d := by
  simp only [List.getD_eq_getElem?_getD, getElem?_splice h]
  split_ifs <;> rfl

/-- A write that continues where the last one ended joins it. -/
theorem splice_splice {l : List α} {o : ℕ} (h : o ≤ l.length) (bs cs : List α) :
    splice (splice l o bs) (o + bs.length) cs = splice l o (bs ++ cs) := by
  have hlen := length_splice h bs
  apply List.ext_getElem?
  intro i
  rw [getElem?_splice (by omega), getElem?_splice h, getElem?_splice h, List.length_append]
  by_cases h₁ : o + bs.length ≤ i ∧ i < o + bs.length + cs.length
  · rw [if_pos h₁, if_pos (by omega), List.getElem?_append_right (by omega)]
    congr 1
    omega
  · rw [if_neg h₁]
    by_cases h₂ : o ≤ i ∧ i < o + bs.length
    · rw [if_pos h₂, if_pos (by omega), List.getElem?_append_left (by omega)]
    · rw [if_neg h₂, if_neg (by omega)]

/-- A write at the end appends. -/
theorem splice_length_self (l bs : List α) : splice l l.length bs = l ++ bs := by simp [splice]

/-! ### Several writes -/

/-- Make the writes `ws` (where, what) one after the other. -/
def spliceAll (l : List α) (ws : List (ℕ × List α)) : List α :=
  ws.foldl (fun l w => splice l w.1 w.2) l

@[simp] theorem spliceAll_cons (l : List α) (w : ℕ × List α) (ws : List (ℕ × List α)) :
    spliceAll l (w :: ws) = spliceAll (splice l w.1 w.2) ws := rfl

/-- The write `w` touches index `i`. -/
def Covers (w : ℕ × List α) (i : ℕ) : Prop := w.1 ≤ i ∧ i < w.1 + w.2.length

instance (w : ℕ × List α) (i : ℕ) : Decidable (Covers w i) := inferInstanceAs (Decidable (_ ∧ _))

/-- Two writes have no index in common. -/
def Apart (w w' : ℕ × List α) : Prop := w.1 + w.2.length ≤ w'.1 ∨ w'.1 + w'.2.length ≤ w.1

theorem Apart.symm {w w' : ℕ × List α} (h : Apart w w') : Apart w' w := Or.symm h

theorem Apart.not_covers {w w' : ℕ × List α} (h : Apart w w') {i : ℕ} (hi : Covers w i) : ¬ Covers w' i := by
  unfold Covers at *
  rcases h with h | h <;> omega

theorem length_spliceAll {ws : List (ℕ × List α)} :
    ∀ {l : List α}, (∀ w ∈ ws, w.1 + w.2.length ≤ l.length) → (spliceAll l ws).length = l.length := by
  induction ws with
  | nil => intro l _; rfl
  | cons w ws ih =>
    intro l h
    have hw := length_splice_of_le (h w List.mem_cons_self)
    rw [spliceAll_cons, ih (fun w' hw' => by rw [hw]; exact h w' (List.mem_cons_of_mem _ hw')), hw]

/-- Where no write reaches, the list is as it was. -/
theorem getElem?_spliceAll_of_not_covers {ws : List (ℕ × List α)} {i : ℕ} :
    ∀ {l : List α}, (∀ w ∈ ws, w.1 + w.2.length ≤ l.length) → (∀ w ∈ ws, ¬ Covers w i) →
      (spliceAll l ws)[i]? = l[i]? := by
  induction ws with
  | nil => intro l _ _; rfl
  | cons w ws ih =>
    intro l h hi
    have hb := h w List.mem_cons_self
    have hw := length_splice_of_le hb
    rw [spliceAll_cons, ih (fun w' hw' => by rw [hw]; exact h w' (List.mem_cons_of_mem _ hw'))
      (fun w' hw' => hi w' (List.mem_cons_of_mem _ hw')), getElem?_splice (by omega)]
    exact if_neg (hi w List.mem_cons_self)

/-- **Writes that do not overlap** are all there at the end: where one of them reached,
its item is read back. -/
theorem getElem?_spliceAll {ws : List (ℕ × List α)} {w : ℕ × List α} {i : ℕ} :
    ∀ {l : List α}, (∀ w ∈ ws, w.1 + w.2.length ≤ l.length) → ws.Pairwise Apart → w ∈ ws →
      Covers w i → (spliceAll l ws)[i]? = w.2[i - w.1]? := by
  induction ws with
  | nil => intro l _ _ hw _; simp at hw
  | cons v ws ih =>
    intro l h hp hw hi
    have hb := h v List.mem_cons_self
    have hv := length_splice_of_le hb
    have hrest : ∀ w ∈ ws, w.1 + w.2.length ≤ (splice l v.1 v.2).length :=
      fun w' hw' => by rw [hv]; exact h w' (List.mem_cons_of_mem _ hw')
    rw [List.pairwise_cons] at hp
    rw [spliceAll_cons]
    rcases List.mem_cons.mp hw with rfl | hw
    · rw [getElem?_spliceAll_of_not_covers hrest (fun w' hw' => (hp.1 w' hw').not_covers hi),
        getElem?_splice (by omega)]
      exact if_pos hi
    · exact ih hrest hp.2 hw hi

/-- The order of writes that do not overlap makes no difference. -/
theorem spliceAll_perm {l : List α} {ws ws' : List (ℕ × List α)} (hperm : ws.Perm ws')
    (h : ∀ w ∈ ws, w.1 + w.2.length ≤ l.length) (hp : ws.Pairwise Apart) : spliceAll l ws = spliceAll l ws' := by
  have h' : ∀ w ∈ ws', w.1 + w.2.length ≤ l.length := fun w hw => h w (hperm.mem_iff.mpr hw)
  have hp' : ws'.Pairwise Apart := (hperm.pairwise_iff Apart.symm).mp hp
  apply List.ext_getElem?
  intro i
  by_cases hi : ∃ w ∈ ws, Covers w i
  · obtain ⟨w, hw, hi⟩ := hi
    rw [getElem?_spliceAll h hp hw hi, getElem?_spliceAll h' hp' (hperm.mem_iff.mp hw) hi]
  · have hno : ∀ w ∈ ws, ¬ Covers w i := fun w hw hc => hi ⟨w, hw, hc⟩
    rw [getElem?_spliceAll_of_not_covers h hno,
      getElem?_spliceAll_of_not_covers h' fun w hw => hno w (hperm.mem_iff.mpr hw)]

/-! ### Writes that overlap -/

theorem spliceAll_append (l : List α) (ws ws' : List (ℕ × List α)) :
    spliceAll l (ws ++ ws') = spliceAll (spliceAll l ws) ws' := List.foldl_append

/-- **The last write that reaches an index** decides what is there. -/
theorem getElem?_spliceAll_last {earlier later : List (ℕ × List α)} {w : ℕ × List α} {l : List α} {i : ℕ}
    (h : ∀ v ∈ earlier ++ w :: later, v.1 + v.2.length ≤ l.length) (hi : Covers w i)
    (hlater : ∀ v ∈ later, ¬ Covers v i) : (spliceAll l (earlier ++ w :: later))[i]? = w.2[i - w.1]? := by
  obtain ⟨hearlier, hw⟩ := List.forall_mem_append.mp h
  obtain ⟨hw, hrest⟩ := List.forall_mem_cons.mp hw
  have hlen := length_spliceAll hearlier
  have hlen' := length_splice_of_le (l := spliceAll l earlier) (hlen ▸ hw)
  rw [spliceAll_append, spliceAll_cons, getElem?_spliceAll_of_not_covers (by rwa [hlen', hlen]) hlater,
    getElem?_splice (by omega)]
  exact if_pos hi

/-- Of the writes that reach an index, one is the last. -/
theorem exists_last_covers {ws : List (ℕ × List α)} {i : ℕ} (h : ∃ w ∈ ws, Covers w i) :
    ∃ earlier w later, ws = earlier ++ w :: later ∧ Covers w i ∧ ∀ v ∈ later, ¬ Covers v i := by
  induction ws with
  | nil => exact absurd h (by simp)
  | cons w ws ih =>
    by_cases hrest : ∃ v ∈ ws, Covers v i
    · obtain ⟨earlier, v, later, rfl, hv, hlater⟩ := ih hrest
      exact ⟨w :: earlier, v, later, rfl, hv, hlater⟩
    · have hlater : ∀ v ∈ ws, ¬ Covers v i := fun v hv hcovers => hrest ⟨v, hv, hcovers⟩
      obtain ⟨v, hv, hcovers⟩ := h
      rcases List.mem_cons.mp hv with rfl | hv
      · exact ⟨[], v, ws, rfl, hcovers, hlater⟩
      · exact absurd hcovers (hlater v hv)

/-! ### Writes in order -/

/-- The writes start at index `i` or later, each after the one before it, and end at `size` or
earlier. -/
def InOrder (size : ℕ) : List (ℕ × List α) → ℕ → Prop
  | [], i => i ≤ size
  | w :: ws, i => i ≤ w.1 ∧ InOrder size ws (w.1 + w.2.length)

/-- What goes out from index `i` to `size` when the writes are sent one after the other, with `d`
in the gaps. -/
def streamed (d : α) (size : ℕ) : List (ℕ × List α) → ℕ → List α
  | [], i => List.replicate (size - i) d
  | w :: ws, i => List.replicate (w.1 - i) d ++ (w.2 ++ streamed d size ws (w.1 + w.2.length))

theorem InOrder.le {size i : ℕ} {ws : List (ℕ × List α)} (h : InOrder size ws i) : i ≤ size := by
  induction ws generalizing i with
  | nil => exact h
  | cons w ws ih =>
    have hrest := ih h.2
    have hw := h.1
    omega

theorem InOrder.inside {size i : ℕ} {ws : List (ℕ × List α)} (h : InOrder size ws i) :
    ∀ w ∈ ws, i ≤ w.1 ∧ w.1 + w.2.length ≤ size := by
  induction ws generalizing i with
  | nil => exact fun w hw => absurd hw List.not_mem_nil
  | cons w ws ih =>
    intro v hv
    have hi := h.1
    rcases List.mem_cons.mp hv with rfl | hv
    · exact ⟨hi, h.2.le⟩
    · have hv := ih h.2 v hv
      exact ⟨by omega, hv.2⟩

theorem InOrder.apart {size i : ℕ} {ws : List (ℕ × List α)} (h : InOrder size ws i) : ws.Pairwise Apart := by
  induction ws generalizing i with
  | nil => exact .nil
  | cons w ws ih => exact .cons (fun v hv => .inl (h.2.inside v hv).1) (ih h.2)

/-- **Writes in order** come to the same whether they are made in a list of fillers or sent one
after the other. -/
theorem spliceAll_streamed {d : α} {size : ℕ} {ws : List (ℕ × List α)} {l : List α} (h : InOrder size ws l.length) :
    spliceAll (l ++ List.replicate (size - l.length) d) ws = l ++ streamed d size ws l.length := by
  induction ws generalizing l with
  | nil => rfl
  | cons w ws ih =>
    have hi := h.1
    have hsize := h.2.le
    have hlen : (l ++ List.replicate (w.1 - l.length) d ++ w.2).length = w.1 + w.2.length := by
      rw [List.length_append, List.length_append, List.length_replicate]
      omega
    have hgap : min (w.1 - l.length) (size - l.length) = w.1 - l.length := by omega
    have hend : size - l.length - (w.1 + w.2.length - l.length) = size - (w.1 + w.2.length) := by omega
    have hstep : splice (l ++ List.replicate (size - l.length) d) w.1 w.2 =
        l ++ List.replicate (w.1 - l.length) d ++ w.2 ++ List.replicate (size - (w.1 + w.2.length)) d := by
      rw [splice, List.take_append, List.take_of_length_le hi, List.take_replicate, List.drop_append,
        List.drop_eq_nil_of_le (by omega), List.nil_append, List.drop_replicate, hgap, hend]
    have hrest := ih (l := l ++ List.replicate (w.1 - l.length) d ++ w.2) (hlen ▸ h.2)
    rw [hlen] at hrest
    rw [spliceAll_cons, hstep, hrest, streamed]
    simp only [List.append_assoc]

end Cpm68k.Library
