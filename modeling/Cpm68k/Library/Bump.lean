import Mathlib.Algebra.Order.Monoid.Canonical.Defs
import Mathlib.Order.CompletePartialOrder
import Mathlib.Order.Interval.Set.Disjoint

/-!
# Bump allocation

Memory handed out from a break that only moves up. A request is for a size. If there is room for
it, it gets the block from the break on, and the break moves behind the block, to where the next one
may start.

## What is proved

* `Bump.mem_run` — what every step of a run did.
* `Bump.run_invariant` — what the break keeps.
* `Bump.run_apart`, `Bump.run_disjoint` — the blocks lie one behind the other.
-/

namespace Cpm68k.Library

universe u

/-- A way of moving a break. -/
structure Bump (α : Type u) [LE α] where
  /-- Where the next block may start, behind an end. -/
  align : α → α
  le_align : ∀ a, a ≤ align a
  /-- What stays free between the break and the limit of a request. -/
  reserve : α

/-- A request. -/
structure Bump.Request (α : Type u) where
  /-- The size asked for. -/
  size : α
  /-- Where the memory ends that there is. -/
  limit : α

/-- A step of a run. -/
structure Bump.Grant (α : Type u) where
  /-- The break before. -/
  start : α
  /-- The request. -/
  request : Request α
  /-- The break after, if the request was granted. -/
  next : Option α

namespace Bump

variable {α : Type u} [LinearOrder α] [Add α]

/-- The addresses a request is granted. -/
def Grant.block (g : Grant α) : Set α := Set.Ico g.start (g.start + g.request.size)

/-- The break after a request, if there is room for it. -/
def grow (b : Bump α) (r : Request α) (brk : α) : Option α :=
  if b.align (brk + r.size) + b.reserve ≤ r.limit then some (b.align (brk + r.size)) else none

/-- The steps of a run from a break on. -/
def run (b : Bump α) : List (Request α) → α → List (Grant α)
  | [], _ => []
  | r :: rs, brk => ⟨brk, r, b.grow r brk⟩ :: run b rs ((b.grow r brk).getD brk)

variable {b : Bump α} {r : Request α} {rs : List (Request α)} {brk next : α} {g : Grant α}

theorem grow_eq_some : b.grow r brk = some next ↔
    b.align (brk + r.size) = next ∧ next + b.reserve ≤ r.limit := by
  unfold grow
  split
  · rename_i hroom
    rw [Option.some.injEq]
    exact ⟨fun h => ⟨h, h ▸ hroom⟩, fun h => h.1⟩
  · rename_i hroom
    refine ⟨fun h => absurd h (Option.some_ne_none next).symm, fun h => ?_⟩
    exact absurd (h.1 ▸ h.2) hroom

theorem grow_eq_none : b.grow r brk = none ↔ ¬ b.align (brk + r.size) + b.reserve ≤ r.limit := by
  unfold grow
  split
  · exact iff_of_false (Option.some_ne_none _) (not_not_intro ‹_›)
  · exact iff_of_true rfl ‹_›

/-- A granted block ends at the new break or before it. -/
theorem end_le_of_grow (h : b.grow r brk = some next) : brk + r.size ≤ next :=
  (grow_eq_some.mp h).1 ▸ b.le_align _

/-- **What every step of a run did**: it made its request from the break before. -/
theorem mem_run (h : g ∈ b.run rs brk) : g.next = b.grow g.request g.start := by
  induction rs generalizing brk with
  | nil => exact absurd h List.not_mem_nil
  | cons r rs ih =>
    rcases List.mem_cons.mp h with rfl | h
    · rfl
    · exact ih h

/-- **What the break keeps**: what it had at the beginning, if every place where a block may start
has it. -/
theorem run_invariant {P : α → Prop} (halign : ∀ a, P (b.align a)) (hbrk : P brk) (h : g ∈ b.run rs brk) :
    P g.start ∧ ∀ next, g.next = some next → P next := by
  have hgrow : ∀ {r : Request α} {brk next : α}, b.grow r brk = some next → P next := fun hnext =>
    (grow_eq_some.mp hnext).1 ▸ halign _
  induction rs generalizing brk with
  | nil => exact absurd h List.not_mem_nil
  | cons r rs ih =>
    rcases List.mem_cons.mp h with rfl | h
    · exact ⟨hbrk, fun next hnext => hgrow hnext⟩
    · refine ih ?_ h
      cases hnext : b.grow r brk with
      | none => exact hbrk
      | some next => exact hgrow hnext

section Ordered

variable [CanonicallyOrderedAdd α]

theorem le_getD_grow (b : Bump α) (r : Request α) (brk : α) : brk ≤ (b.grow r brk).getD brk := by
  cases hnext : b.grow r brk with
  | none => exact le_rfl
  | some next => exact le_self_add.trans (end_le_of_grow hnext)

/-- The break does not move down. -/
theorem le_start (h : g ∈ b.run rs brk) : brk ≤ g.start := by
  induction rs generalizing brk with
  | nil => exact absurd h List.not_mem_nil
  | cons r rs ih =>
    rcases List.mem_cons.mp h with rfl | h
    · exact le_rfl
    · exact (b.le_getD_grow r brk).trans (ih h)

/-- **The blocks lie one behind the other**: behind a granted block every later request starts. -/
theorem run_apart (b : Bump α) (rs : List (Request α)) (brk : α) :
    (b.run rs brk).Pairwise fun g g' => g.next.isSome → g.start + g.request.size ≤ g'.start := by
  induction rs generalizing brk with
  | nil => exact .nil
  | cons r rs ih =>
    refine .cons (fun g' hg' hsome => ?_) (ih _)
    obtain ⟨next, hnext⟩ := Option.isSome_iff_exists.mp hsome
    have hstart := le_start hg'
    rw [show b.grow r brk = some next from hnext, Option.getD_some] at hstart
    exact (end_le_of_grow hnext).trans hstart

/-- A granted block has no address in common with what is granted later. -/
theorem run_disjoint (b : Bump α) (rs : List (Request α)) (brk : α) :
    (b.run rs brk).Pairwise fun g g' => g.next.isSome → g.start ≤ g'.start ∧ Disjoint g.block g'.block := by
  refine (b.run_apart rs brk).imp fun {g g'} h hsome => ⟨le_self_add.trans (h hsome), ?_⟩
  exact (Set.Ico_disjoint_Ico_same (α := α)).mono_right (Set.Ico_subset_Ico_left (h hsome))

end Ordered

end Bump

end Cpm68k.Library
