import Cpm68k.Cpmlib.OutputLines

/-!
# Tab expansion

What `_wrtchr` reads and prints when it expands tabs.

## What is proved

* `wrtchrLoopAt_run` — it prints what the characters that it takes are expanded to, wherever the
  pieces end, and takes as many as the request is long, not counting tabs.
* `tabExact_iff` — so a request is consumed exactly if it has no tab in it.
-/

namespace Cpm68k.Cpmlib

open Cpm68k.Library

variable {σ : Type} {B : Osif σ}

/-! ### The places that are read -/

/-- The places of the text that the inner loop reads. -/
theorem fillAt_text (text : ℕ → UInt8) (doXTabs : Bool) (fuel ii nbs i : ℕ) (col : Int16) (cp : LocalBuffer) (j : ℕ) :
    let fill := fillAt text doXTabs fuel ii nbs i col cp
    i ≤ fill.i ∧ (i ≤ j → j < fill.i → .text j ∈ fill.touches) ∧
      (.text j ∈ fill.touches → j < fill.i ∨ j = fill.i ∧ fill.nbs ≠ 0) := by
  induction fuel generalizing ii nbs i col cp with
  | zero => exact ⟨Nat.le_refl i, fun h h' => absurd h' (by simpa [fillAt] using h), fun h => absurd h List.not_mem_nil⟩
  | succ fuel ih =>
    have hputs : ∀ ii n, Touch.text j ∉ puts ii n := by
      intro ii n hmem
      obtain ⟨_, -, h⟩ := List.mem_map.mp hmem
      exact Touch.noConfusion h
    have hstop : nbs ≠ 0 → i ≤ i ∧ (i ≤ j → j < i → .text j ∈ [Touch.text i]) ∧
        (.text j ∈ [Touch.text i] → j < i ∨ j = i ∧ nbs ≠ 0) := by
      refine fun hnbs => ⟨Nat.le_refl i, fun h h' => by omega, fun h => Or.inr ?_⟩
      exact ⟨by simpa using h, hnbs⟩
    have hmore : ∀ n (fill : Fill), (i + 1 ≤ fill.i ∧ (i + 1 ≤ j → j < fill.i → .text j ∈ fill.touches) ∧
        (.text j ∈ fill.touches → j < fill.i ∨ j = fill.i ∧ fill.nbs ≠ 0)) →
        i ≤ fill.i ∧ (i ≤ j → j < fill.i → .text j ∈ Touch.text i :: (puts ii n ++ fill.touches)) ∧
          (.text j ∈ Touch.text i :: (puts ii n ++ fill.touches) → j < fill.i ∨ j = fill.i ∧ fill.nbs ≠ 0) := by
      rintro n fill ⟨hle, hread, htouched⟩
      refine ⟨by omega, fun h h' => ?_, fun h => ?_⟩
      · rcases Nat.eq_or_lt_of_le h with rfl | hlt
        · exact List.mem_cons_self
        · exact List.mem_cons_of_mem _ (List.mem_append_right _ (hread hlt h'))
      · rcases List.mem_cons.mp h with h | h
        · injection h with h
          exact Or.inl (by omega)
        · exact htouched ((List.mem_append.mp h).resolve_left (hputs ii n))
    rw [fillAt]
    split_ifs with hroom
    · exact hstop hroom.2
    · exact hmore 2 _ (ih _ _ _ _ _)
    · simp only
      split_ifs
      · exact hstop hroom.2
      · exact hmore _ _ (ih _ _ _ _ _)
    · exact hmore 1 _ (ih _ _ _ _ _)
    · exact ⟨Nat.le_refl i, fun h h' => absurd h' (Nat.not_lt.mpr h), fun h => absurd h List.not_mem_nil⟩

/-! ### The loop -/

/-- What has been done with the text when the outer loop has passed on `m` of its characters. -/
structure LoopRun (text : ℕ → UInt8) (doXTabs : Bool) (nbs i c m : ℕ) (pieces : List (List UInt8)) (touches : List Touch)
    (left : ℕ) : Prop where
  count : left + counted doXTabs (charsFrom text i m) = nbs
  early : ∀ k < m, counted doXTabs (charsFrom text i k) < nbs
  text_eq : pieces.flatten = expandText doXTabs c (charsFrom text i m)
  touched : ∀ j, i ≤ j → j < i + m → .text j ∈ touches
  touched_le : ∀ j, .text j ∈ touches → j < i + m ∨ j = i + m ∧ left ≠ 0

/-- The device functions do not read the text. -/
theorem fnoutAt_text (d : Device) (stored : ℕ) (cp : LocalBuffer) (os : σ) (j : ℕ) :
    Touch.text j ∉ (fnoutAt B d stored cp os).1 := by
  have htty : ∀ cp n ii start os, Touch.text j ∉ (ttyoutLoopAt B cp n ii start os).1 := by
    intro cp n
    induction n with
    | zero => exact fun _ _ _ => List.not_mem_nil
    | succ n ih =>
      intro ii start os
      rw [ttyoutLoopAt]
      by_cases hc : cp (ii + 1) = dollar
      · rw [if_pos hc]
        simp only [List.mem_cons, reduceCtorEq, false_or]
        exact ih _ _ _
      · rw [if_neg hc]
        simp only [List.mem_cons, reduceCtorEq, false_or]
        exact ih _ _ _
  have hlst : ∀ n j' os, Touch.text j ∉ (lstoutLoopAt B cp n j' os).1 := by
    intro n
    induction n with
    | zero => exact fun _ _ => List.not_mem_nil
    | succ n ih =>
      intro j' os
      simp only [lstoutLoopAt, List.mem_cons, reduceCtorEq, false_or]
      exact ih _ _
  cases d with
  | console =>
    simp only [fnoutAt, ttyoutAt, List.mem_cons, reduceCtorEq, false_or]
    exact htty _ _ _ _ _
  | printer =>
    simp only [fnoutAt, lstoutAt, List.mem_cons, reduceCtorEq, false_or]
    exact hlst _ _ _

/-- Nothing is done. -/
theorem LoopRun.stop {text : ℕ → UInt8} {doXTabs : Bool} (nbs i c : ℕ) : LoopRun text doXTabs nbs i c 0 [] [] nbs :=
  ⟨rfl, fun k hk => absurd hk (Nat.not_lt_zero k), rfl, fun _ h h' => absurd h' (Nat.not_lt.mpr h),
    fun _ h => absurd h List.not_mem_nil⟩

/-- A piece, and what comes after it. -/
theorem LoopRun.step {text : ℕ → UInt8} {doXTabs : Bool} {nbs i c c' m m' : ℕ} {piece : List UInt8 × ℕ × ℕ × Int16}
    {fill : Fill} {out rest : List Touch} {pieces : List (List UInt8)} {left : ℕ}
    (hrun : PieceRun text doXTabs ⟨127, nbs, i, c⟩ piece m c') (hfill : (fill.nbs, fill.i, fill.col) = piece.2)
    (htext : ∀ j, (i ≤ j → j < fill.i → .text j ∈ fill.touches) ∧
      (.text j ∈ fill.touches → j < fill.i ∨ j = fill.i ∧ fill.nbs ≠ 0)) (hout : ∀ j, Touch.text j ∉ out)
    (h : LoopRun text doXTabs fill.nbs fill.i c' m' pieces rest left) :
    LoopRun text doXTabs nbs i c (m + m') (piece.1 :: pieces) (fill.touches ++ (.put 0 :: (out ++ rest))) left := by
  obtain ⟨touches, cp, ii, nbs₁, i₁, col₁⟩ := fill
  obtain ⟨piece, nbs₂, i₂, col₂⟩ := piece
  simp only [Prod.mk.injEq] at hfill
  obtain ⟨rfl, rfl, rfl⟩ := hfill
  obtain ⟨hend, hleft, hearly, -, -, hplace, -, hexpand, -⟩ := hrun
  obtain ⟨hcount', hearly', htext', htouched, htouched'⟩ := h
  simp only at hend hleft hearly hplace hexpand htext hcount' hearly' htext' htouched htouched'
  subst hplace
  have hadd : ∀ k, counted doXTabs (charsFrom text i (m + k)) =
      counted doXTabs (charsFrom text i m) + counted doXTabs (charsFrom text (i + m) k) := fun k => by
    rw [charsFrom_add]
    exact List.countP_append
  refine ⟨?_, fun k hk => ?_, ?_, fun j hj hj' => ?_, fun j hj => ?_⟩
  · rw [hadd]
    omega
  · rcases Nat.lt_or_ge k m with hlt | hge
    · exact hearly k hlt
    · obtain ⟨k', rfl⟩ := Nat.exists_eq_add_of_le hge
      have := hearly' k' (by omega)
      rw [hadd]
      omega
  · rw [List.flatten_cons, htext', hexpand, charsFrom_add, expandText_append, hend]
  · rcases Nat.lt_or_ge j (i + m) with hlt | hge
    · exact List.mem_append_left _ ((htext j).1 hj hlt)
    · exact List.mem_append_right _ (List.mem_cons_of_mem _ (List.mem_append_right _ (htouched j hge (by omega))))
  · rcases List.mem_append.mp hj with hj | hj
    · rcases (htext j).2 hj with hlt | ⟨rfl, hnbs⟩
      · exact Or.inl (by omega)
      · rcases Nat.eq_zero_or_pos m' with rfl | hpos
        · have hzero : counted doXTabs (charsFrom text (i + m) 0) = 0 := rfl
          exact Or.inr ⟨rfl, by omega⟩
        · exact Or.inl (by omega)
    · simp only [List.mem_cons, reduceCtorEq, false_or, List.mem_append, hout j] at hj
      have := htouched' j hj
      omega

/-- **The outer loop** prints what the characters that it takes are expanded to. -/
theorem wrtchrLoopAt_run (d : Device) (text : ℕ → UInt8) (doXTabs : Bool) {fuel nbs i c : ℕ} {col : Int16}
    (hcol : ColMatches text col i c) (cp : LocalBuffer) (os : σ) :
    ∃ m, LoopRun text doXTabs nbs i c m (wrtchrPieces text doXTabs fuel nbs i col)
      (wrtchrLoopAt B d text doXTabs fuel nbs i col cp os).1 (wrtchrLoopAt B d text doXTabs fuel nbs i col cp os).2.1 := by
  induction fuel generalizing nbs i c col cp os with
  | zero => exact ⟨0, .stop nbs i c⟩
  | succ fuel ih =>
    rw [wrtchrPieces, wrtchrLoopAt]
    by_cases hnbs : nbs ≠ 0
    · obtain ⟨m, c', hrun⟩ := @wrtchrPiece_run text doXTabs SECSIZ 1 nbs i c col (by decide) (by decide) hcol
      obtain ⟨-, -, hfill⟩ := fillAt_eq text doXTabs SECSIZ 1 nbs i col cp
      have htext := fun j => (fillAt_text text doXTabs SECSIZ 1 nbs i col cp j).2
      rw [if_pos hnbs, if_pos hnbs]
      generalize fillAt text doXTabs SECSIZ 1 nbs i col cp = fill at *
      generalize wrtchrPiece text doXTabs SECSIZ 1 nbs i col = piece at *
      have hcol' := hrun.col
      rw [← hfill] at hcol'
      have hout := fnoutAt_text (B := B) d (fill.ii - 1) (storeAt fill.cp 0 [UInt8.ofNat (fill.ii - 1)]) os
      obtain ⟨m', hrest⟩ := ih hcol' (fnoutAt B d (fill.ii - 1) (storeAt fill.cp 0 [UInt8.ofNat (fill.ii - 1)]) os).2.1
        (fnoutAt B d (fill.ii - 1) (storeAt fill.cp 0 [UInt8.ofNat (fill.ii - 1)]) os).2.2
      have hstep := LoopRun.step hrun hfill htext hout hrest
      simp only [← hfill]
      exact ⟨m + m', hstep⟩
    · rw [if_neg hnbs, if_neg hnbs, not_not.mp hnbs]
      exact ⟨0, .stop 0 i c⟩

theorem fnoutOs_output (d : Device) (piece : List UInt8) (os : σ × Output) :
    (fnoutOs (withOutput B) d piece os).2 = os.2.put d piece := by
  cases d with
  | console => exact ttyoutLoop_output piece [] os
  | printer => exact lstout_output piece os

theorem foldl_fnoutOs_output (d : Device) (pieces : List (List UInt8)) (os : σ × Output) :
    (pieces.foldl (fun os piece => fnoutOs (withOutput B) d piece os) os).2 = os.2.put d pieces.flatten := by
  induction pieces generalizing os with
  | nil => exact (Output.put_nil _ _).symm
  | cons piece pieces ih => rw [List.foldl_cons, ih, fnoutOs_output, Output.put_put, List.flatten_cons]

/-- A piece of a text that goes on is not empty. -/
theorem PieceRun.pos {text : ℕ → UInt8} {doXTabs : Bool} {nbs i c m c' : ℕ} {piece : List UInt8 × ℕ × ℕ × Int16}
    (h : PieceRun text doXTabs ⟨127, nbs, i, c⟩ piece m c') (hnbs : nbs ≠ 0) : 0 < m := by
  rcases Nat.eq_zero_or_pos m with rfl | hpos
  · have hline := h.next
    simp only [Function.iterate_zero, id, Line.mk.injEq] at hline
    obtain ⟨hlen, hleft, -, -⟩ := hline
    have hstops := h.stops.resolve_left (by omega)
    simp only [← hlen] at hstops
    exact absurd (hasRoom_newLine _ _ _) hstops
  · exact hpos

theorem counted_add (text : ℕ → UInt8) (doXTabs : Bool) (i m n : ℕ) :
    counted doXTabs (charsFrom text i (m + n)) =
      counted doXTabs (charsFrom text i m) + counted doXTabs (charsFrom text (i + m) n) := by
  rw [charsFrom_add]
  exact List.countP_append

/-- When every character is counted, a piece leaves so many characters less. -/
theorem PieceRun.left_lt {text : ℕ → UInt8} {doXTabs : Bool} {nbs i c m c' : ℕ} {piece : List UInt8 × ℕ × ℕ × Int16}
    (h : PieceRun text doXTabs ⟨127, nbs, i, c⟩ piece m c') (hnbs : nbs ≠ 0)
    (hcounted : ∀ k ≤ nbs, counted doXTabs (charsFrom text i k) = k) :
    piece.2.1 < nbs ∧ ∀ k ≤ piece.2.1, counted doXTabs (charsFrom text piece.2.2.1 k) = k := by
  have hpos := h.pos hnbs
  have hle : m ≤ nbs := by
    by_contra hlt
    have hearly : counted doXTabs (charsFrom text i nbs) < nbs := h.early nbs (by omega)
    rw [hcounted nbs (Nat.le_refl nbs)] at hearly
    omega
  have hleft : piece.2.1 + counted doXTabs (charsFrom text i m) = nbs := h.count
  have hplace : piece.2.2.1 = i + m := h.place
  rw [hcounted m hle] at hleft
  refine ⟨by omega, fun k hk => ?_⟩
  have hsum := hcounted (m + k) (by omega)
  rw [counted_add, hcounted m hle] at hsum
  rw [hplace]
  omega

/-- When every character is counted, the loop ends. -/
theorem exists_done (d : Device) (text : ℕ → UInt8) (doXTabs : Bool) {nbs i c : ℕ} {col : Int16}
    (hcol : ColMatches text col i c) (hcounted : ∀ k ≤ nbs, counted doXTabs (charsFrom text i k) = k) (cp : LocalBuffer)
    (os : σ) : ∃ fuel, (wrtchrLoopAt B d text doXTabs fuel nbs i col cp os).2.1 = 0 := by
  induction nbs using Nat.strong_induction_on generalizing i c col cp os with
  | _ nbs ih =>
    by_cases hnbs : nbs ≠ 0
    · obtain ⟨m, c', hrun⟩ := @wrtchrPiece_run text doXTabs SECSIZ 1 nbs i c col (by decide) (by decide) hcol
      obtain ⟨-, -, hfill⟩ := fillAt_eq text doXTabs SECSIZ 1 nbs i col cp
      have hcol' := hrun.col
      have hleft := hrun.left_lt hnbs hcounted
      rw [← hfill] at hcol' hleft
      generalize hf : fillAt text doXTabs SECSIZ 1 nbs i col cp = fill at *
      obtain ⟨fuel, hdone⟩ := ih fill.nbs hleft.1 hcol' hleft.2
        (fnoutAt B d (fill.ii - 1) (storeAt fill.cp 0 [UInt8.ofNat (fill.ii - 1)]) os).2.1
        (fnoutAt B d (fill.ii - 1) (storeAt fill.cp 0 [UInt8.ofNat (fill.ii - 1)]) os).2.2
      refine ⟨fuel + 1, ?_⟩
      rw [wrtchrLoopAt, if_pos hnbs, hf]
      exact hdone
    · exact ⟨0, not_not.mp hnbs⟩

/-! ### Exact requests -/

/-- `_wrtchr` ends, reads nothing but the text, and prints what it is expanded to. -/
def TabExact (B : Osif σ) (fp : Ccb) (data : List UInt8) (cp : LocalBuffer) (os : σ × Output) : Prop :=
  ∃ fuel, (wrtchrAt (withOutput B) fp data fuel cp os).2.1 = 0 ∧
    (∀ j, .text j ∈ (wrtchrAt (withOutput B) fp data fuel cp os).1 → j < data.length) ∧
    (wrtchrAt (withOutput B) fp data fuel cp os).2.2.2 = os.2.put .console (expandText true 0 data)

theorem charsFrom_textAt {data : List UInt8} {k : ℕ} (hk : k ≤ data.length) : charsFrom (textAt B data) 0 k = data.take k := by
  refine List.ext_getElem (by simp [charsFrom, hk]) fun j hj hj' => ?_
  rw [List.length_take] at hj'
  simp only [charsFrom, List.getElem_map, List.getElem_range', Nat.zero_add, Nat.one_mul, List.getElem_take]
  exact List.getD_eq_getElem _ _ (by omega)

theorem counted_eq_length {s : List UInt8} : counted true s = s.length ↔ tab ∉ s := by
  rw [counted, List.countP_eq_length]
  simp only [and_true, decide_not, Bool.not_eq_true', decide_eq_false_iff_not]
  exact ⟨fun h hmem => h _ hmem rfl, fun h c hc heq => h (heq ▸ hc)⟩

/-- A console channel that expands tabs. -/
structure TabConsole (fp : Ccb) : Prop where
  tty : fp.flags.ISTTY = true
  special : fp.flags.ISSPTTY = true
  tabs : sgHas fp.fcb.sgttyb XTABS = true

theorem TabConsole.wrtchrAt_eq {fp : Ccb} (h : TabConsole fp) {data : List UInt8} (hshort : data.length < 65536) (fuel : ℕ)
    (cp : LocalBuffer) (os : σ) :
    wrtchrAt B fp data fuel cp os = wrtchrLoopAt B .console (textAt B data) true fuel data.length 0 0 cp os := by
  have hexpands : expandsTabs fp = true := by simp [expandsTabs, h.special, h.tabs]
  simp only [wrtchrAt, deviceOf, h.tty, if_true, hexpands]
  rw [Nat.mod_eq_of_lt (by omega)]

/-- Characters that are counted as often as the request is long are all of it, and not tabs. -/
theorem counted_take {data : List UInt8} {m : ℕ} (h : counted true (data.take m) = data.length) : tab ∉ data := by
  have hle := List.countP_le_length (p := fun c => ¬ (c = tab ∧ true = true)) (l := data.take m)
  have htake : data.take m = data := by
    refine List.take_of_length_le ?_
    rw [List.length_take] at hle
    unfold counted at h
    omega
  rw [htake] at h
  exact counted_eq_length.mp h

theorem TabExact.not_mem {fp : Ccb} (h : TabConsole fp) {data : List UInt8} (hshort : data.length < 65536)
    {cp : LocalBuffer} {os : σ × Output} (hexact : TabExact B fp data cp os) : tab ∉ data := by
  obtain ⟨fuel, hdone, hread, -⟩ := hexact
  rw [h.wrtchrAt_eq hshort] at hdone hread
  obtain ⟨m, hcount, -, -, htouched, -⟩ :=
    @wrtchrLoopAt_run _ (withOutput B) .console (textAt (withOutput B) data) true fuel data.length 0 0 0
      (Or.inr (by decide)) cp os
  have hle : m ≤ data.length := by
    by_contra hlt
    exact Nat.lt_irrefl _ (hread _ (htouched data.length (Nat.zero_le _) (by omega)))
  rw [hdone, Nat.zero_add, charsFrom_textAt hle] at hcount
  exact counted_take hcount

theorem tabExact_of_not_mem {fp : Ccb} (h : TabConsole fp) {data : List UInt8} (hshort : data.length < 65536)
    (hno : tab ∉ data) (cp : LocalBuffer) (os : σ × Output) : TabExact B fp data cp os := by
  have hcol : ColMatches (textAt (withOutput B) data) 0 0 0 := Or.inr (by decide)
  have hcounted : ∀ k ≤ data.length, counted true (charsFrom (textAt (withOutput B) data) 0 k) = k := by
    intro k hk
    rw [charsFrom_textAt hk, counted_eq_length.mpr fun h => hno (List.mem_of_mem_take h), List.length_take]
    omega
  obtain ⟨fuel, hdone⟩ := exists_done (B := withOutput B) .console _ true hcol hcounted cp os
  obtain ⟨m, hcount, hearly, htext, -, hle⟩ := @wrtchrLoopAt_run _ (withOutput B) .console _ true fuel _ _ _ _ hcol cp os
  have hm : m = data.length := by
    have hcountle := List.countP_le_length (p := fun c => ¬ (c = tab ∧ true = true))
      (l := charsFrom (textAt (withOutput B) data) 0 m)
    have hlen : (charsFrom (textAt (withOutput B) data) 0 m).length = m := by simp [charsFrom]
    rw [hdone, Nat.zero_add] at hcount
    by_contra hne
    have hgt : data.length < m := by
      unfold counted at hcount
      omega
    have hlt := hearly data.length hgt
    rw [hcounted _ (Nat.le_refl _)] at hlt
    omega
  rw [hm, charsFrom_textAt (Nat.le_refl _), List.take_length] at htext
  unfold TabExact
  simp only [h.wrtchrAt_eq hshort]
  refine ⟨fuel, hdone, fun j hj => ?_, ?_⟩
  · rcases hle j hj with hlt | ⟨-, hne⟩
    · omega
    · exact absurd hdone hne
  · rw [(wrtchrLoopAt_spec .console _ _ _ _ _ _ _ _).1, foldl_fnoutOs_output, htext]

/-- **Tab expansion consumes the request exactly** if and only if there is no tab in it. -/
theorem tabExact_iff {fp : Ccb} (h : TabConsole fp) {data : List UInt8} (hshort : data.length < 65536) (cp : LocalBuffer)
    (os : σ × Output) : TabExact B fp data cp os ↔ tab ∉ data :=
  ⟨fun hexact => hexact.not_mem h hshort, fun hno => tabExact_of_not_mem h hshort hno cp os⟩

/-- The console, with tabs expanded. -/
def tabConsole : Ccb :=
  { consoleOpen.fds 0 with
    flags := { (consoleOpen.fds 0).flags with ISSPTTY := true }
    fcb := (consoleOpen.fds 0).fcb.setSgttyb fun i => if i = 6 then 0x0c else 0 }

theorem tabConsole_expands : TabConsole tabConsole := ⟨rfl, rfl, by decide⟩

theorem tabExact_line : TabExact willingOsif tabConsole [0x61, 0x0a, 0x62] (fun _ => 0) ((), fun _ => []) ↔
    tab ∉ [0x61, 0x0a, 0x62] := tabExact_iff tabConsole_expands (by decide) _ _

/-- After a tab a byte behind the request is read. -/
theorem not_tabExact_tab : ¬ TabExact willingOsif tabConsole [tab] (fun _ => 0) ((), fun _ => []) :=
  fun h => h.not_mem tabConsole_expands (by decide) List.mem_cons_self

end Cpm68k.Cpmlib
