import Cpm68k.Library.Bump
import Mathlib.Algebra.Order.Group.Nat
import Mathlib.Data.List.Basic

/-!
# Heap growth

`sbrk` and `brk` of `cpmlib/sbrk.c`.

## The model

* Addresses are words of 32 bits, and what is computed with them wraps around as on the machine. The
  stack pointer, which `brk` reads from its register, is an argument.
* `Heap` is the static `_brk`, with `errno`. It starts at `&_end`.
* `sbrkRun` makes calls of `sbrk` one after the other.

## What is proved

* `sbrk_eq`, `run_refines` — below the middle of the address space `sbrk` is a bump allocator.
* `run_seen_congr` — a run depends on the break alone.
* `safeGrowth_iff` — when every run grows the heap safely.
-/

namespace Cpm68k.Cpmlib

open Cpm68k.Library

/-! ### The calls -/

/-- `ENOMEM` of `sys/errno.h`. -/
def ENOMEM : Int32 := 12

/-- `(void *)-1`, which `brk` and `sbrk` return when they fail. -/
def badBreak : UInt32 := 0xffffffff

/-- What `sbrk.c` keeps. -/
structure Heap where
  /-- `_brk`, the end of the heap. -/
  brk : UInt32
  /-- The last error. -/
  errno : Int32
deriving DecidableEq

/-- The address is made even. -/
def evenAddress (newbrk : UInt32) : UInt32 := if newbrk &&& 1 ≠ 0 then newbrk + 1 else newbrk

/-- `brk`: move the break, with a small buffer kept between heap and stack. -/
def brk (stack newbrk : UInt32) (heap : Heap) : UInt32 × Heap :=
  let newbrk := evenAddress newbrk
  if stack < newbrk ∨ (stack - newbrk).toInt32 < 512 then (badBreak, { heap with errno := ENOMEM })
  else (newbrk, { heap with brk := newbrk })

/-- `sbrk`: move the break by an increment, and return where it was. -/
def sbrk (stack : UInt32) (incr : Int32) (heap : Heap) : UInt32 × Heap :=
  let oldbrk := heap.brk
  let newbrk := heap.brk + incr.toUInt32
  let result := brk stack newbrk heap
  if result.1 = badBreak then (badBreak, { result.2 with errno := ENOMEM })
  else (oldbrk, result.2)

/-! ### Runs -/

/-- A call of `sbrk` that asks for memory, with the stack pointer it finds. -/
structure SbrkCall where
  /-- The stack pointer. -/
  stack : UInt32
  /-- The increment. -/
  incr : Int32
  stack_lt : stack < 0x1000000
  incr_nonneg : 0 ≤ incr

/-- A call that was made. -/
structure Made where
  /-- The call. -/
  call : SbrkCall
  /-- The state before. -/
  before : Heap
  /-- What it returned. -/
  result : UInt32
  /-- The state after. -/
  after : Heap

/-- Make a call. -/
def made (call : SbrkCall) (heap : Heap) : Made :=
  ⟨call, heap, (sbrk call.stack call.incr heap).1, (sbrk call.stack call.incr heap).2⟩

/-- Make calls one after the other. -/
def sbrkRun : List SbrkCall → Heap → List Made
  | [], _ => []
  | call :: calls, heap => made call heap :: sbrkRun calls (made call heap).after

/-- The addresses of the `incr` bytes from the result on. -/
def Made.block (m : Made) : Set UInt32 := {a | ∃ k < m.call.incr.toNatClampNeg, a = m.result + UInt32.ofNat k}

/-- All of a call but `errno`. -/
def Made.seen (m : Made) : SbrkCall × UInt32 × UInt32 × UInt32 := (m.call, m.before.brk, m.result, m.after.brk)

/-- A run of calls from a state whose break is at `&_end` grows the heap safely. -/
structure SafeGrowth (heap : Heap) (calls : List SbrkCall) : Prop where
  /-- A successful call returns the previous break. -/
  returns : ∀ m ∈ sbrkRun calls heap, m.result ≠ badBreak → m.result = m.before.brk
  /-- Its block starts at an even address at or above `&_end`. -/
  starts : ∀ m ∈ sbrkRun calls heap, m.result ≠ badBreak → m.result.toNat % 2 = 0 ∧ heap.brk ≤ m.result
  /-- The break after it is even, and at least 512 bytes below the stack pointer. -/
  room : ∀ m ∈ sbrkRun calls heap, m.result ≠ badBreak →
    m.after.brk.toNat % 2 = 0 ∧ m.after.brk.toNat + 512 ≤ m.call.stack.toNat
  /-- The blocks are in increasing order and have no address in common. -/
  blocks : (sbrkRun calls heap).Pairwise fun m m' => m.result ≠ badBreak → m'.result ≠ badBreak →
    m.result ≤ m'.result ∧ Disjoint m.block m'.block
  /-- A failing call sets `errno` and leaves the break unchanged. -/
  fails : ∀ m ∈ sbrkRun calls heap, m.result = badBreak → m.after = { m.before with errno := ENOMEM }
  /-- Later calls behave as if it had not been made. -/
  forgets : ∀ earlier m later, sbrkRun calls heap = earlier ++ m :: later → m.result = badBreak →
    later.map Made.seen = (sbrkRun (later.map Made.call) m.before).map Made.seen

/-! ### What a call does -/

/-- An address that is not the last one is brought to the next even one. -/
theorem toNat_evenAddress {a : UInt32} (h : a.toNat < 2 ^ 32 - 1) : (evenAddress a).toNat = a.toNat + a.toNat % 2 := by
  have hodd : (a &&& 1).toNat = a.toNat % 2 := by
    rw [UInt32.toNat_and]
    exact Nat.and_one_is_mod _
  have hne : a &&& 1 ≠ 0 ↔ a.toNat % 2 ≠ 0 := by rw [← hodd, Ne, Ne, ← UInt32.toNat_inj, UInt32.toNat_zero]
  unfold evenAddress
  split
  · have hmod := hne.mp ‹_›
    rw [UInt32.toNat_add, UInt32.toNat_one]
    omega
  · have hmod := (not_congr hne).mp ‹_›
    omega

theorem toInt_toInt32 {a : UInt32} (h : a.toNat < 2 ^ 31) : a.toInt32.toInt = a.toNat :=
  BitVec.toInt_eq_toNat_of_lt (show 2 * a.toNat < 2 ^ 32 by omega)

/-- There is room below the stack pointer, or there is not. -/
theorem noRoom_iff {stack newbrk : UInt32} (hstack : stack.toNat < 2 ^ 31) :
    (stack < newbrk ∨ (stack - newbrk).toInt32 < 512) ↔ ¬ newbrk.toNat + 512 ≤ stack.toNat := by
  rw [UInt32.lt_iff_toNat_lt, Int32.lt_iff_toInt_lt]
  rcases Nat.lt_or_ge stack.toNat newbrk.toNat with hlt | hge
  · exact iff_of_true (.inl hlt) (by omega)
  · have hsub : (stack - newbrk).toNat = stack.toNat - newbrk.toNat :=
      UInt32.toNat_sub_of_le _ _ (UInt32.le_iff_toNat_le.mpr hge)
    have hlit : (512 : Int32).toInt = 512 := by decide
    rw [toInt_toInt32 (by omega), hsub, hlit]
    omega

/-- **What `brk` does.** -/
theorem brk_eq {stack : UInt32} (hstack : stack.toNat < 2 ^ 31) (newbrk : UInt32) (heap : Heap) :
    brk stack newbrk heap =
      if (evenAddress newbrk).toNat + 512 ≤ stack.toNat then (evenAddress newbrk, { heap with brk := evenAddress newbrk })
      else (badBreak, { heap with errno := ENOMEM }) := by
  simp only [brk, noRoom_iff hstack, ite_not]

/-- The bump allocator that `sbrk` is: breaks are even, and 512 bytes stay free below the stack
pointer. -/
def evenBump : Bump ℕ where
  align a := a + a % 2
  le_align a := Nat.le_add_right a _
  reserve := 512

/-- What a call asks for. -/
def SbrkCall.request (call : SbrkCall) : Bump.Request ℕ := ⟨call.incr.toNatClampNeg, call.stack.toNat⟩

theorem SbrkCall.stack_toNat_lt (call : SbrkCall) : call.stack.toNat < 2 ^ 24 := UInt32.lt_iff_toNat_lt.mp call.stack_lt

variable {heap heap' : Heap} {call : SbrkCall} {calls : List SbrkCall}

/-- **`sbrk` is a bump allocator** while the break is below the middle of the address space. -/
theorem sbrk_eq (hbrk : heap.brk.toNat < 2 ^ 31) (call : SbrkCall) :
    sbrk call.stack call.incr heap =
      match evenBump.grow call.request heap.brk.toNat with
      | some next => (heap.brk, { heap with brk := UInt32.ofNat next })
      | none => (badBreak, { heap with errno := ENOMEM }) := by
  have hstack := call.stack_toNat_lt
  have hincr : call.incr.toUInt32.toNat = call.incr.toNatClampNeg := Int32.toNat_toUInt32_of_le call.incr_nonneg
  have hlt : call.incr.toNatClampNeg < 2 ^ 31 := Int32.toNatClampNeg_lt _
  -- neither the increment nor the rounding wraps around
  have hadd : (heap.brk + call.incr.toUInt32).toNat = heap.brk.toNat + call.incr.toNatClampNeg := by
    rw [UInt32.toNat_add, hincr]
    omega
  have heven : (evenAddress (heap.brk + call.incr.toUInt32)).toNat =
      evenBump.align (heap.brk.toNat + call.incr.toNatClampNeg) := by
    rw [toNat_evenAddress (by omega), hadd]
    rfl
  have hbrk' := brk_eq (show call.stack.toNat < 2 ^ 31 by omega) (heap.brk + call.incr.toUInt32) heap
  cases hgrow : evenBump.grow call.request heap.brk.toNat with
  | some next =>
    obtain ⟨hnext, hroom⟩ := Bump.grow_eq_some.mp hgrow
    have heq : (evenAddress (heap.brk + call.incr.toUInt32)).toNat = next := heven.trans hnext
    have hle : next + 512 ≤ call.stack.toNat := hroom
    rw [if_pos (heq ▸ hle)] at hbrk'
    have hne : evenAddress (heap.brk + call.incr.toUInt32) ≠ badBreak := fun h => by
      have hlast : next = 0xffffffff := heq ▸ congrArg UInt32.toNat h
      omega
    simp only [sbrk, hbrk', if_neg hne, ← heq, UInt32.ofNat_toNat]
  | none =>
    have hroom := Bump.grow_eq_none.mp hgrow
    rw [if_neg (heven ▸ hroom)] at hbrk'
    simp only [sbrk, hbrk', if_true]

/-- **What a call does**, with its outcomes. -/
theorem made_cases (hbrk : heap.brk.toNat < 2 ^ 31) (call : SbrkCall) :
    (∃ next : UInt32, evenBump.grow call.request heap.brk.toNat = some next.toNat ∧ next.toNat < 2 ^ 31 ∧
      heap.brk ≠ badBreak ∧ made call heap = ⟨call, heap, heap.brk, { heap with brk := next }⟩) ∨
    (evenBump.grow call.request heap.brk.toNat = none ∧
      made call heap = ⟨call, heap, badBreak, { heap with errno := ENOMEM }⟩) := by
  have hsbrk := sbrk_eq hbrk call
  cases hgrow : evenBump.grow call.request heap.brk.toNat with
  | some next =>
    have hroom : next + 512 ≤ call.stack.toNat := (Bump.grow_eq_some.mp hgrow).2
    have hstack := call.stack_toNat_lt
    have hnext : (UInt32.ofNat next).toNat = next := UInt32.toNat_ofNat_of_lt' (show next < 2 ^ 32 by omega)
    have hne : heap.brk ≠ badBreak := fun h => by
      have hlast : heap.brk.toNat = 0xffffffff := congrArg UInt32.toNat h
      omega
    rw [hgrow] at hsbrk
    exact .inl ⟨UInt32.ofNat next, by rw [hnext], by omega, hne, by rw [made, hsbrk]⟩
  | none =>
    rw [hgrow] at hsbrk
    exact .inr ⟨rfl, by rw [made, hsbrk]⟩

/-! ### What a run does -/

/-- The step of the bump allocator that a call is. -/
def Made.grant (m : Made) : Bump.Grant ℕ :=
  ⟨m.before.brk.toNat, m.call.request, if m.result = badBreak then none else some m.after.brk.toNat⟩

/-- A call is a step of the bump allocator, and leaves the break below the middle of the address
space. -/
theorem made_refines (hbrk : heap.brk.toNat < 2 ^ 31) (call : SbrkCall) :
    (made call heap).grant = ⟨heap.brk.toNat, call.request, evenBump.grow call.request heap.brk.toNat⟩ ∧
      (made call heap).after.brk.toNat = (evenBump.grow call.request heap.brk.toNat).getD heap.brk.toNat ∧
      (made call heap).after.brk.toNat < 2 ^ 31 := by
  rcases made_cases hbrk call with ⟨next, hgrow, hlt, hne, hmade⟩ | ⟨hgrow, hmade⟩
  · rw [hmade, hgrow, Made.grant, if_neg hne]
    exact ⟨rfl, rfl, hlt⟩
  · rw [hmade, hgrow, Made.grant, if_pos rfl]
    exact ⟨rfl, rfl, hbrk⟩

/-- **A run is a run of the bump allocator.** -/
theorem run_refines (hbrk : heap.brk.toNat < 2 ^ 31) (calls : List SbrkCall) :
    (sbrkRun calls heap).map Made.grant = evenBump.run (calls.map SbrkCall.request) heap.brk.toNat := by
  induction calls generalizing heap with
  | nil => rfl
  | cons call calls ih =>
    obtain ⟨hgrant, hafter, hlt⟩ := made_refines hbrk call
    rw [sbrkRun, List.map_cons, List.map_cons, Bump.run, hgrant, ih hlt, hafter]

/-- What is known of every call of a run. -/
theorem mem_sbrkRun (hbrk : heap.brk.toNat < 2 ^ 31) {m : Made} (hm : m ∈ sbrkRun calls heap) :
    m = made m.call m.before ∧ m.before.brk.toNat < 2 ^ 31 := by
  induction calls generalizing heap with
  | nil => exact absurd hm List.not_mem_nil
  | cons call calls ih =>
    rcases List.mem_cons.mp hm with rfl | hm
    · exact ⟨rfl, hbrk⟩
    · exact ih (made_refines hbrk call).2.2 hm

theorem map_call_sbrkRun (calls : List SbrkCall) (heap : Heap) : (sbrkRun calls heap).map Made.call = calls := by
  induction calls generalizing heap with
  | nil => rfl
  | cons call calls ih => rw [sbrkRun, List.map_cons, ih, made]

/-- A run goes on from where each of its calls left the heap. -/
theorem sbrkRun_split {earlier later : List Made} {m : Made} (h : sbrkRun calls heap = earlier ++ m :: later) :
    later = sbrkRun (later.map Made.call) m.after := by
  induction calls generalizing heap earlier with
  | nil => exact absurd h.symm (List.append_ne_nil_of_right_ne_nil _ (List.cons_ne_nil _ _))
  | cons call calls ih =>
    cases earlier with
    | nil =>
      obtain ⟨rfl, rfl⟩ := List.cons.inj h
      rw [map_call_sbrkRun]
    | cons m' earlier => exact ih (List.cons.inj h).2

theorem brk_congr (h : heap.brk = heap'.brk) (stack newbrk : UInt32) :
    (brk stack newbrk heap).1 = (brk stack newbrk heap').1 ∧
      (brk stack newbrk heap).2.brk = (brk stack newbrk heap').2.brk := by
  simp only [brk]
  split
  · exact ⟨rfl, h⟩
  · exact ⟨rfl, rfl⟩

/-- `sbrk` reads nothing but the break. -/
theorem made_congr (h : heap.brk = heap'.brk) (call : SbrkCall) :
    (made call heap).seen = (made call heap').seen ∧ (made call heap).after.brk = (made call heap').after.brk := by
  obtain ⟨hresult, hafter⟩ := brk_congr h call.stack (heap'.brk + call.incr.toUInt32)
  simp only [Made.seen, made, sbrk, h, hresult]
  split
  · exact ⟨by rw [hafter], hafter⟩
  · exact ⟨by rw [hafter], hafter⟩

/-- **A run depends on the break alone.** -/
theorem run_seen_congr (h : heap.brk = heap'.brk) (calls : List SbrkCall) :
    (sbrkRun calls heap).map Made.seen = (sbrkRun calls heap').map Made.seen := by
  induction calls generalizing heap heap' with
  | nil => rfl
  | cons call calls ih =>
    obtain ⟨hseen, hafter⟩ := made_congr h call
    rw [sbrkRun, sbrkRun, List.map_cons, List.map_cons, hseen, ih hafter]

/-! ### When the heap grows safely -/

/-- The addresses of a block are those that the bump allocator granted. -/
theorem Made.toNat_mem_block {m : Made} (hbrk : m.before.brk.toNat < 2 ^ 31) (hresult : m.result = m.before.brk)
    {a : UInt32} (ha : a ∈ m.block) : a.toNat ∈ m.grant.block := by
  obtain ⟨k, hk, rfl⟩ := ha
  have hlt : m.call.incr.toNatClampNeg < 2 ^ 31 := Int32.toNatClampNeg_lt _
  have hnat : (m.result + UInt32.ofNat k).toNat = m.before.brk.toNat + k := by
    rw [hresult, UInt32.toNat_add, UInt32.toNat_ofNat_of_lt' (show k < 2 ^ 32 by omega)]
    omega
  rw [hnat]
  exact ⟨Nat.le_add_right _ _, Nat.add_lt_add_left hk _⟩

section Below

variable (hbrk : heap.brk.toNat < 2 ^ 31) {m : Made} (hm : m ∈ sbrkRun calls heap)

include hbrk hm

/-- A successful call returns where the break was. -/
theorem returns_of_mem (hresult : m.result ≠ badBreak) :
    m.result = m.before.brk ∧ m.grant.next = some m.after.brk.toNat := by
  refine ⟨?_, if_neg hresult⟩
  obtain ⟨hmade, hlt⟩ := mem_sbrkRun hbrk hm
  rcases made_cases hlt m.call with ⟨next, -, -, -, hcase⟩ | ⟨-, hcase⟩
  · exact congrArg Made.result (hmade.trans hcase)
  · exact absurd (congrArg Made.result (hmade.trans hcase)) hresult

/-- A failing call sets `errno`. -/
theorem fails_of_mem (hresult : m.result = badBreak) : m.after = { m.before with errno := ENOMEM } := by
  obtain ⟨hmade, hlt⟩ := mem_sbrkRun hbrk hm
  rcases made_cases hlt m.call with ⟨next, -, -, hne, hcase⟩ | ⟨-, hcase⟩
  · exact absurd ((congrArg Made.result (hmade.trans hcase)).symm.trans hresult) hne
  · exact congrArg Made.after (hmade.trans hcase)

theorem grant_mem_run : m.grant ∈ evenBump.run (calls.map SbrkCall.request) heap.brk.toNat :=
  run_refines hbrk calls ▸ List.mem_map_of_mem hm

end Below

/-- Breaks stay even. -/
theorem even_of_mem (heven : heap.brk.toNat % 2 = 0) {rs : List (Bump.Request ℕ)} {g : Bump.Grant ℕ}
    (hg : g ∈ evenBump.run rs heap.brk.toNat) : g.start % 2 = 0 ∧ ∀ next, g.next = some next → next % 2 = 0 := by
  have halign : ∀ a, evenBump.align a % 2 = 0 := fun a => show (a + a % 2) % 2 = 0 by omega
  exact Bump.run_invariant (P := (· % 2 = 0)) halign heven hg

/-- The blocks of a run are in order and have no address in common. -/
theorem blocks_apart (hbrk : heap.brk.toNat < 2 ^ 31) (calls : List SbrkCall) :
    (sbrkRun calls heap).Pairwise fun m m' => m.result ≠ badBreak → m'.result ≠ badBreak →
      m.result ≤ m'.result ∧ Disjoint m.block m'.block := by
  have hrun := evenBump.run_disjoint (calls.map SbrkCall.request) heap.brk.toNat
  rw [← run_refines hbrk, List.pairwise_map] at hrun
  refine hrun.imp_of_mem fun {m m'} hm hm' hgrant hresult hresult' => ?_
  obtain ⟨hfirst, hnext⟩ := returns_of_mem hbrk hm hresult
  obtain ⟨hfirst', -⟩ := returns_of_mem hbrk hm' hresult'
  obtain ⟨hle, hdisjoint⟩ := hgrant (hnext ▸ rfl)
  refine ⟨?_, Set.disjoint_left.mpr fun a ha ha' => ?_⟩
  · rw [hfirst, hfirst']
    exact UInt32.le_iff_toNat_le.mpr hle
  · exact Set.disjoint_left.mp hdisjoint (Made.toNat_mem_block (mem_sbrkRun hbrk hm).2 hfirst ha)
      (Made.toNat_mem_block (mem_sbrkRun hbrk hm').2 hfirst' ha')

/-- A failing call is forgotten. -/
theorem forgets_failed (hbrk : heap.brk.toNat < 2 ^ 31) {earlier later : List Made} {m : Made}
    (hrun : sbrkRun calls heap = earlier ++ m :: later) (hresult : m.result = badBreak) :
    later.map Made.seen = (sbrkRun (later.map Made.call) m.before).map Made.seen := by
  have hafter := fails_of_mem hbrk (hrun ▸ List.mem_append_right _ List.mem_cons_self) hresult
  have hbreak : m.after.brk = m.before.brk := by rw [hafter]
  calc later.map Made.seen = (sbrkRun (later.map Made.call) m.after).map Made.seen := by rw [← sbrkRun_split hrun]
    _ = (sbrkRun (later.map Made.call) m.before).map Made.seen := run_seen_congr hbreak _

/-- **Below the middle of the address space** every run grows the heap safely. -/
theorem safeGrowth_of_lt (heven : heap.brk.toNat % 2 = 0) (hbrk : heap.brk.toNat < 2 ^ 31) (calls : List SbrkCall) :
    SafeGrowth heap calls where
  returns m hm hresult := (returns_of_mem hbrk hm hresult).1
  starts m hm hresult := by
    have hg := grant_mem_run hbrk hm
    rw [(returns_of_mem hbrk hm hresult).1]
    exact ⟨(even_of_mem heven hg).1, UInt32.le_iff_toNat_le.mpr (Bump.le_start hg)⟩
  room m hm hresult := by
    have hg := grant_mem_run hbrk hm
    have hnext := (returns_of_mem hbrk hm hresult).2
    refine ⟨(even_of_mem heven hg).2 _ hnext, ?_⟩
    exact (Bump.grow_eq_some.mp ((Bump.mem_run hg).symm.trans hnext)).2
  blocks := blocks_apart hbrk calls
  fails m hm := fails_of_mem hbrk hm
  forgets _ _ _ := forgets_failed hbrk

/-- A call that takes the break from the upper half of the address space around to its beginning. -/
def wrappingCall (b : UInt32) (hb : 2 ^ 31 ≤ b.toNat) : SbrkCall where
  stack := 512
  incr := (0xffffffff - b).toInt32
  stack_lt := by decide
  incr_nonneg := by
    have hlt : b.toNat < 2 ^ 32 := b.toNat_lt
    have hle : b.toNat ≤ 0xffffffff := by omega
    have hsub : (0xffffffff - b).toNat = 0xffffffff - b.toNat :=
      UInt32.toNat_sub_of_le _ _ (UInt32.le_iff_toNat_le.mpr hle)
    rw [Int32.le_iff_toInt_le, toInt_toInt32 (by omega)]
    exact Int.natCast_nonneg _

/-- A call that asks for nothing. -/
def emptyCall : SbrkCall := ⟨512, 0, by decide, by decide⟩

theorem made_wrappingCall (hbrk : 2 ^ 31 ≤ heap.brk.toNat) :
    (made (wrappingCall heap.brk hbrk) heap).after = { heap with brk := 0 } := by
  have hadd : heap.brk + (0xffffffff - heap.brk).toInt32.toUInt32 = 0xffffffff := by
    rw [UInt32.toUInt32_toInt32]
    grind
  -- the last address is odd, and `brk` takes it to the next even one
  simp only [made, wrappingCall, sbrk, hadd]
  rfl

/-- **Above it** a block is returned that starts below `&_end`. -/
theorem not_safeGrowth (heap : Heap) (hbrk : 2 ^ 31 ≤ heap.brk.toNat) :
    ¬ SafeGrowth heap [wrappingCall heap.brk hbrk, emptyCall] := by
  intro h
  have hsecond : made emptyCall (made (wrappingCall heap.brk hbrk) heap).after ∈
      sbrkRun [wrappingCall heap.brk hbrk, emptyCall] heap := List.mem_cons_of_mem _ List.mem_cons_self
  rw [made_wrappingCall] at hsecond
  have hadd : (0 : UInt32) + (0 : Int32).toUInt32 = 0 := by decide
  have hresult : (made emptyCall { heap with brk := 0 }).result = 0 := by
    simp only [made, emptyCall, sbrk, hadd]
    rfl
  obtain ⟨-, hstart⟩ := h.starts _ hsecond (by rw [hresult]; decide)
  rw [hresult, UInt32.le_iff_toNat_le, UInt32.toNat_zero] at hstart
  omega

/-- **When the heap grows safely**: from an even `&_end` every run does, if and only if `&_end` is below
the middle of the address space. -/
theorem safeGrowth_iff (heap : Heap) (heven : heap.brk.toNat % 2 = 0) :
    (∀ calls, SafeGrowth heap calls) ↔ heap.brk.toNat < 2 ^ 31 := by
  constructor
  · intro h
    by_contra hbrk
    exact not_safeGrowth heap (Nat.not_lt.mp hbrk) (h _)
  · exact safeGrowth_of_lt heven

/-- Blocks of an odd and of an even size, with a request in between for which there is no room. -/
theorem safeGrowth_small :
    SafeGrowth ⟨0x1000, 0⟩ [⟨0x20000, 5, by decide, by decide⟩, ⟨0x1400, 0x7fffffff, by decide, by decide⟩,
      ⟨0x1300, 8, by decide, by decide⟩] :=
  (safeGrowth_iff ⟨0x1000, 0⟩ (by decide)).mpr (by decide) _

/-- From the middle of the address space a call for all but one byte of the upper half takes the break
around to its beginning. -/
theorem not_safeGrowth_middle :
    (0x80000000 : UInt32).toNat % 2 = 0 ∧
      ¬ SafeGrowth ⟨0x80000000, 0⟩ [⟨512, 0x7fffffff, by decide, by decide⟩, ⟨512, 0, by decide, by decide⟩] :=
  ⟨by decide, not_safeGrowth ⟨0x80000000, 0⟩ (by decide)⟩

end Cpm68k.Cpmlib
