import Cpm68k.Library.Memory
import Cpm68k.Cpmlib.DeviceOutput

/-!
# The output buffer

`cpmlib/wrtchr.c`, `ttyout.c` and `lstout.c` once more, with the memory they use: the caller's
text and the local array `cp` of 128 bytes.

## The model

* The functions named `…At` are those of the source. Each also gives the list of what it
  touches, in order: the places of the text and the places of `cp`, which may be outside.
* `cp[0]` is a byte. `_ttyout` reads it as a signed number, `_lstout` as an unsigned one.
* The loop is cut off after a number of pieces, and says how much was left to do.

## What is proved

* `wrtchrLoopAt_spec` — the pieces that the device is given, and which of them fit the array.
* `wrtchrAt_os` — what the functions do to the BDOS is what the model on lists says.
-/

namespace Cpm68k.Cpmlib

open Cpm68k.Library

variable {σ : Type} (B : Osif σ)

/-! ### The functions of the source -/

/-- What is touched. -/
inductive Touch where
  /-- The text is read. -/
  | text (i : ℕ)
  /-- `cp` is read. -/
  | get (j : ℤ)
  /-- `cp` is stored to. -/
  | put (j : ℤ)
  /-- `cp[0]` is read: the number that had been stored, and the one that is read. -/
  | count (stored : ℕ) (read : ℤ)

/-- The memory from `cp` on. -/
abbrev LocalBuffer := ℕ → UInt8

/-- The places that are stored to for `n` characters. -/
def puts (ii n : ℕ) : List Touch := (List.range' ii n).map fun (j : ℕ) => .put j

/-- What the inner loop of `_wrtchr` leaves: what was touched, the array, and the counters. -/
structure Fill where
  touches : List Touch
  cp : LocalBuffer
  ii : ℕ
  nbs : ℕ
  i : ℕ
  col : Int16

/-- The inner loop of `_wrtchr`. -/
def fillAt (text : ℕ → UInt8) (doXTabs : Bool) : ℕ → ℕ → ℕ → ℕ → Int16 → LocalBuffer → Fill
  | 0, ii, nbs, i, col, cp => ⟨[], cp, ii, nbs, i, col⟩
  | fuel + 1, ii, nbs, i, col, cp =>
    if ii < SECSIZ ∧ nbs ≠ 0 then
      if text i = newline then
        if ii + 1 ≥ SECSIZ then ⟨[.text i], cp, ii, nbs, i, -1⟩
        else
          let rest := fillAt text doXTabs fuel (ii + 2) (nbs - 1) (i + 1) 0 (storeAt cp ii [carriageReturn, newline])
          { rest with touches := .text i :: (puts ii 2 ++ rest.touches) }
      else if text i = tab ∧ doXTabs = true then
        let nsp := 8 - (col &&& 7).toInt.toNat
        if ii + nsp ≥ SECSIZ then ⟨[.text i], cp, ii, nbs, i, col⟩
        else
          let rest := fillAt text doXTabs fuel (ii + nsp) nbs (i + 1) (col + Int16.ofNat nsp)
            (storeAt cp ii (List.replicate nsp blank))
          { rest with touches := .text i :: (puts ii nsp ++ rest.touches) }
      else
        let rest := fillAt text doXTabs fuel (ii + 1) (nbs - 1) (i + 1) (col + 1) (storeAt cp ii [text i])
        { rest with touches := .text i :: (puts ii 1 ++ rest.touches) }
    else ⟨[], cp, ii, nbs, i, col⟩

/-- The string that `C_WRITESTR` prints: up to the first `$`. -/
def upToDollar (cp : LocalBuffer) : ℕ → ℕ → List UInt8
  | 0, _ => []
  | n + 1, j => if cp j = dollar then [] else cp j :: upToDollar cp n (j + 1)

/-- The loop of `_ttyout`, with `n` characters to go, at `buf[ii]`; the string begins at
`buf[start]`. `buf` is `cp + 1`. -/
def ttyoutLoopAt (cp : LocalBuffer) : ℕ → ℕ → ℕ → σ → List Touch × σ
  | 0, ii, start, os => ([], if start ≠ ii then B.writestr (upToDollar cp SECSIZ (start + 1)) os else os)
  | n + 1, ii, start, os =>
    if cp (ii + 1) = dollar then
      let os := if cp (start + 1) ≠ dollar then B.writestr (upToDollar cp SECSIZ (start + 1)) os else os
      let (touches, os) := ttyoutLoopAt cp n (ii + 1) (ii + 1) (B.conout dollar os)
      (.get (ii + 1) :: .get (start + 1) :: touches, os)
    else
      let (touches, os) := ttyoutLoopAt cp n (ii + 1) start os
      (.get (ii + 1) :: touches, os)

/-- `_ttyout`: what it touches, the array, and the BDOS. A `$` that is stored before the array is
not seen again. -/
def ttyoutAt (stored : ℕ) (cp : LocalBuffer) (os : σ) : List Touch × LocalBuffer × σ :=
  let count : ℤ := (cp 0).toInt8.toInt
  let cp := if 0 ≤ count + 1 then storeAt cp (count + 1).toNat [dollar] else cp
  let (touches, os) := ttyoutLoopAt B cp count.toNat 0 0 os
  (.get 0 :: .count stored count :: .put (count + 1) :: touches, cp, os)

/-- The loop of `_lstout`. -/
def lstoutLoopAt (cp : LocalBuffer) : ℕ → ℕ → σ → List Touch × σ
  | 0, _, os => ([], os)
  | n + 1, j, os =>
    let (touches, os) := lstoutLoopAt cp n (j + 1) (B.lstout (cp j) os)
    (.get j :: touches, os)

/-- `_lstout`. -/
def lstoutAt (stored : ℕ) (cp : LocalBuffer) (os : σ) : List Touch × LocalBuffer × σ :=
  let (touches, os) := lstoutLoopAt B cp (cp 0).toNat 1 os
  (.get 0 :: .count stored (cp 0).toNat :: touches, cp, os)

/-- The function that `_wrtchr` calls for a piece. -/
def fnoutAt : Device → ℕ → LocalBuffer → σ → List Touch × LocalBuffer × σ
  | .console => ttyoutAt B
  | .printer => lstoutAt B

/-- The outer loop of `_wrtchr`: what is touched, what is left to do, and the BDOS. -/
def wrtchrLoopAt (d : Device) (text : ℕ → UInt8) (doXTabs : Bool) :
    ℕ → ℕ → ℕ → Int16 → LocalBuffer → σ → List Touch × ℕ × σ
  | 0, nbs, _, _, _, os => ([], nbs, os)
  | fuel + 1, nbs, i, col, cp, os =>
    if nbs ≠ 0 then
      let fill := fillAt text doXTabs SECSIZ 1 nbs i col cp
      let cp := storeAt fill.cp 0 [UInt8.ofNat (fill.ii - 1)]
      let (out, cp, os) := fnoutAt B d (fill.ii - 1) cp os
      let (rest, nbs, os) := wrtchrLoopAt d text doXTabs fuel fill.nbs fill.i fill.col cp os
      (fill.touches ++ (.put 0 :: (out ++ rest)), nbs, os)
    else ([], 0, os)

/-- The device of a channel, if it has one. -/
def deviceOf (fp : Ccb) : Option Device :=
  if fp.flags.ISTTY = true then some .console else if fp.flags.ISLPT = true then some .printer else none

/-- Whether `_wrtchr` expands tabs. -/
def expandsTabs (fp : Ccb) : Bool := fp.flags.ISSPTTY && sgHas fp.fcb.sgttyb XTABS

/-- `_wrtchr`, up to `fuel` pieces, with whatever is in `cp`. -/
def wrtchrAt (fp : Ccb) (data : List UInt8) (fuel : ℕ) (cp : LocalBuffer) (os : σ) : List Touch × ℕ × σ :=
  match deviceOf fp with
  | some d => wrtchrLoopAt B d (textAt B data) (expandsTabs fp) fuel (data.length % 2 ^ 16) 0 0 cp os
  | none => ([], data.length % 2 ^ 16, os)

variable {B}

/-! ### What the model on lists says -/

/-- The inner loop puts the piece in the array. -/
theorem fillAt_eq (text : ℕ → UInt8) (doXTabs : Bool) (fuel ii nbs i : ℕ) (col : Int16) (cp : LocalBuffer) :
    let piece := wrtchrPiece text doXTabs fuel ii nbs i col
    let fill := fillAt text doXTabs fuel ii nbs i col cp
    fill.cp = storeAt cp ii piece.1 ∧ fill.ii = ii + piece.1.length ∧
      (fill.nbs, fill.i, fill.col) = piece.2 := by
  induction fuel generalizing ii nbs i col cp with
  | zero => exact ⟨(storeAt_nil cp ii).symm, rfl, rfl⟩
  | succ fuel ih =>
    have hstop : ∀ col' : Int16, cp = storeAt cp ii [] ∧ ii = ii + ([] : List UInt8).length ∧
        (nbs, i, col') = (nbs, i, col') := fun _ => ⟨(storeAt_nil cp ii).symm, rfl, rfl⟩
    have hmore : ∀ bs nbs' col', let piece := wrtchrPiece text doXTabs fuel (ii + bs.length) nbs' (i + 1) col'
        let fill := fillAt text doXTabs fuel (ii + bs.length) nbs' (i + 1) col' (storeAt cp ii bs)
        fill.cp = storeAt cp ii (bs ++ piece.1) ∧ fill.ii = ii + (bs ++ piece.1).length ∧
          (fill.nbs, fill.i, fill.col) = piece.2 := by
      intro bs nbs' col'
      obtain ⟨hcp, hii, hrest⟩ := ih (ii + bs.length) nbs' (i + 1) col' (storeAt cp ii bs)
      exact ⟨by rw [hcp, storeAt_append], by rw [hii, List.length_append, Nat.add_assoc], hrest⟩
    rw [wrtchrPiece, fillAt]
    split_ifs
    · exact hstop _
    · exact hmore [carriageReturn, newline] (nbs - 1) 0
    · simp only
      split_ifs
      · exact hstop _
      · have h := hmore (List.replicate (8 - (col &&& 7).toInt.toNat) blank) nbs
          (col + Int16.ofNat (8 - (col &&& 7).toInt.toNat))
        rw [List.length_replicate] at h
        exact h
    · exact hmore [text i] (nbs - 1) (col + 1)
    · exact hstop _

theorem upToDollar_eq {cp : LocalBuffer} {l : List UInt8} (hl : dollar ∉ l) {n j : ℕ} (h : Holds cp j (l ++ [dollar]))
    (hn : l.length < n) : upToDollar cp n j = l := by
  induction l generalizing n j with
  | nil =>
    obtain ⟨m, rfl⟩ := Nat.exists_eq_succ_of_ne_zero (show n ≠ 0 by omega)
    exact if_pos (holds_cons.mp h).1
  | cons c l ih =>
    obtain ⟨m, rfl⟩ := Nat.exists_eq_succ_of_ne_zero (show n ≠ 0 by omega)
    obtain ⟨hc, hrest⟩ := holds_cons.mp h
    rw [List.mem_cons, not_or] at hl
    obtain ⟨hne, hl⟩ := hl
    rw [List.length_cons] at hn
    rw [upToDollar, hc, if_neg (Ne.symm hne), ih hl hrest (by omega)]

/-- `_ttyout` prints the characters since the last `$`, which are `pending`, and then the rest. -/
theorem ttyoutLoopAt_os {cp : LocalBuffer} {start : ℕ} {pending rest : List UInt8} (os : σ)
    (h : Holds cp (start + 1) (pending ++ rest ++ [dollar])) (hpending : dollar ∉ pending)
    (hlen : (pending ++ rest).length < SECSIZ) :
    (ttyoutLoopAt B cp rest.length (start + pending.length) start os).2 = ttyoutLoop B pending rest os := by
  induction rest generalizing start pending os with
  | nil =>
    rw [List.append_nil] at h hlen
    have hne : start ≠ start + pending.length ↔ pending ≠ [] := by
      rw [← List.length_pos_iff]
      omega
    simp only [ttyoutLoopAt, ttyoutLoop, hne, upToDollar_eq hpending h hlen, List.length_nil]
  | cons c rest ih =>
    rw [List.append_assoc] at h
    obtain ⟨hpend, hc, hrest⟩ := holds_append.mp h |>.imp_right holds_cons.mp
    rw [Nat.add_right_comm start 1] at hc hrest
    rw [List.length_cons, ttyoutLoopAt, ttyoutLoop, hc]
    by_cases hdollar : c = dollar
    · have hstring : Holds cp (start + 1) (pending ++ [dollar]) := by
        refine holds_append.mpr ⟨hpend, holds_cons.mpr ⟨?_, holds_nil _ _⟩⟩
        rw [Nat.add_right_comm, hc, hdollar]
      have hfirst : cp (start + 1) ≠ dollar ↔ pending ≠ [] := by
        cases pending with
        | nil => simpa using (holds_cons.mp hstring).1
        | cons d pending =>
          have hd := (holds_cons.mp hpend).1
          simp only [hd, ne_eq, reduceCtorEq, not_false_iff, iff_true]
          exact fun heq => hpending (heq ▸ List.mem_cons_self)
      have hnext := @ih (start + pending.length + 1) [] (B.conout dollar (if pending ≠ [] then B.writestr pending os else os))
        hrest List.not_mem_nil (by simp at hlen ⊢; omega)
      rw [if_pos hdollar, if_pos hdollar, upToDollar_eq hpending hstring (by simp at hlen; omega)]
      simp only [hfirst]
      exact hnext
    · have hnext := @ih start (pending ++ [c]) os
        (by rw [List.append_assoc, List.append_assoc]; exact h)
        (by simpa [hpending] using Ne.symm hdollar) (by simpa [Nat.add_assoc] using hlen)
      rw [List.length_append, List.length_singleton, ← Nat.add_assoc] at hnext
      rw [if_neg hdollar, if_neg hdollar]
      exact hnext

/-- What a device is given, as the model on lists says. -/
def fnoutOs (B : Osif σ) : Device → List UInt8 → σ → σ
  | .console, cp, os => ttyoutLoop B [] cp os
  | .printer, cp, os => cp.foldl (fun os c => B.lstout c os) os

theorem lstoutLoopAt_os {cp : LocalBuffer} {j : ℕ} {l : List UInt8} (h : Holds cp j l) (os : σ) :
    (lstoutLoopAt B cp l.length j os).2 = l.foldl (fun os c => B.lstout c os) os := by
  induction l generalizing j os with
  | nil => rfl
  | cons c l ih =>
    obtain ⟨hc, hl⟩ := holds_cons.mp h
    rw [List.length_cons, lstoutLoopAt, List.foldl_cons, ← ih hl, hc]

/-! ### The bounds of the array -/

/-- The places of `cp` are inside, and the count is read as it was stored. -/
def Touch.InBuffer : Touch → Prop
  | .text _ => True
  | .get j => 0 ≤ j ∧ j < 128
  | .put j => 0 ≤ j ∧ j < 128
  | .count stored read => read = stored

theorem puts_inBuffer {ii n : ℕ} (h : ii + n ≤ 128) : ∀ t ∈ puts ii n, t.InBuffer := by
  intro t ht
  obtain ⟨j, hj, rfl⟩ := List.mem_map.mp ht
  have := List.mem_range'_1.mp hj
  show (0 : ℤ) ≤ j ∧ (j : ℤ) < 128
  omega

theorem ttyoutLoopAt_inBuffer {cp : LocalBuffer} {n ii start : ℕ} (hstart : start ≤ ii) (hn : ii + n < 128) (os : σ) :
    ∀ t ∈ (ttyoutLoopAt B cp n ii start os).1, t.InBuffer := by
  have hget : ∀ j < ii + n, (Touch.get (j + 1)).InBuffer := fun j hj => by
    show (0 : ℤ) ≤ j + 1 ∧ (j + 1 : ℤ) < 128
    omega
  induction n generalizing ii start os with
  | zero => exact fun t ht => absurd ht List.not_mem_nil
  | succ n ih =>
    have hnext : ∀ j < ii + 1 + n, (Touch.get (j + 1)).InBuffer := fun j hj => hget j (by omega)
    rw [ttyoutLoopAt]
    by_cases hc : cp (ii + 1) = dollar
    · rw [if_pos hc]
      have hrest := @ih (ii + 1) (ii + 1) (Nat.le_refl _) (by omega)
      simp only [List.forall_mem_cons]
      exact ⟨hget ii (by omega), hget start (by omega), hrest _ hnext⟩
    · rw [if_neg hc]
      have hrest := @ih (ii + 1) start (by omega) (by omega) os hnext
      simp only [List.forall_mem_cons]
      exact ⟨hget ii (by omega), hrest⟩

theorem lstoutLoopAt_inBuffer {cp : LocalBuffer} {n j : ℕ} (hn : j + n ≤ 128) (os : σ) :
    ∀ t ∈ (lstoutLoopAt B cp n j os).1, t.InBuffer := by
  induction n generalizing j os with
  | zero => exact fun t ht => absurd ht List.not_mem_nil
  | succ n ih =>
    simp only [lstoutLoopAt, List.forall_mem_cons]
    refine ⟨?_, ih (by omega) _⟩
    show (0 : ℤ) ≤ j ∧ (j : ℤ) < 128
    omega

/-- A count up to 127 is read back, signed and unsigned. -/
theorem count_read {n : ℕ} (h : n ≤ 127) : (UInt8.ofNat n).toInt8.toInt = n ∧ (UInt8.ofNat n).toNat = n := by
  constructor
  · rw [UInt8.toInt8_ofNat', Int8.toInt_ofNat_of_lt (by omega)]
  · exact UInt8.toNat_ofNat_of_lt' (Nat.lt_of_le_of_lt h (by decide))

/-- **What is done with a piece**: the device is given its characters, within the array as far as
`lastIndex` says. -/
theorem fnoutAt_spec {d : Device} {cp : LocalBuffer} {piece : List UInt8} (hlen : piece.length ≤ 127)
    (hcount : cp 0 = UInt8.ofNat piece.length) (hpiece : Holds cp 1 piece) (os : σ) :
    (fnoutAt B d piece.length cp os).2.2 = fnoutOs B d piece os ∧
      ((∀ t ∈ (fnoutAt B d piece.length cp os).1, t.InBuffer) ↔ lastIndex d piece < 128) := by
  obtain ⟨hsigned, hunsigned⟩ := count_read hlen
  rw [← hcount] at hsigned hunsigned
  cases d with
  | console =>
    have hstring : Holds (storeAt cp (piece.length + 1) [dollar]) (0 + 1) ([] ++ piece ++ [dollar]) := by
      refine holds_append.mpr ⟨hpiece.storeAt_of_le (by omega), ?_⟩
      rw [List.nil_append, Nat.add_right_comm, Nat.zero_add]
      exact holds_storeAt _ _ _
    have hos := ttyoutLoopAt_os (B := B) os hstring List.not_mem_nil (by simpa [SECSIZ] using Nat.lt_succ_of_le hlen)
    have hin := @ttyoutLoopAt_inBuffer σ B (storeAt cp (piece.length + 1) [dollar]) piece.length 0 0 (Nat.le_refl 0)
      (by omega) os
    have htonat : ((piece.length : ℤ) + 1).toNat = piece.length + 1 := rfl
    simp only [fnoutAt, ttyoutAt, hsigned, htonat, Int.toNat_natCast]
    rw [if_pos (by omega)]
    refine ⟨hos, ?_⟩
    simp only [List.forall_mem_cons, Touch.InBuffer, lastIndex, true_and]
    refine ⟨fun h => by omega, fun h => ⟨by omega, by omega, hin⟩⟩
  | printer =>
    have hin := @lstoutLoopAt_inBuffer σ B cp piece.length 1 (by omega) os
    simp only [fnoutAt, lstoutAt, hunsigned]
    refine ⟨lstoutLoopAt_os hpiece os, ?_⟩
    simp only [List.forall_mem_cons, Touch.InBuffer, lastIndex, true_and]
    exact ⟨fun _ => by omega, fun _ => ⟨by omega, hin⟩⟩

/-- A piece leaves the array at its end. -/
theorem length_wrtchrPiece (text : ℕ → UInt8) (doXTabs : Bool) {fuel ii : ℕ} (nbs i : ℕ) (col : Int16)
    (hii : ii ≤ SECSIZ) : ii + (wrtchrPiece text doXTabs fuel ii nbs i col).1.length ≤ SECSIZ := by
  induction fuel generalizing ii nbs i col with
  | zero => exact hii
  | succ fuel ih =>
    have hmore : ∀ (bs : List UInt8) nbs' col', ii + bs.length ≤ SECSIZ →
        ii + (bs ++ (wrtchrPiece text doXTabs fuel (ii + bs.length) nbs' (i + 1) col').1).length ≤ SECSIZ := by
      intro bs nbs' col' hbs
      have := ih nbs' (i + 1) col' hbs
      rw [List.length_append]
      omega
    rw [wrtchrPiece]
    by_cases hroom : ii < SECSIZ ∧ nbs ≠ 0
    · rw [if_pos hroom]
      by_cases hnewline : text i = newline
      · rw [if_pos hnewline]
        split_ifs with hfull
        · exact hii
        · exact hmore [carriageReturn, newline] _ _ (Nat.lt_of_not_le hfull)
      · rw [if_neg hnewline]
        by_cases htab : text i = tab ∧ doXTabs = true
        · rw [if_pos htab]
          simp only
          split_ifs with hfull
          · exact hii
          · have h := hmore (List.replicate (8 - (col &&& 7).toInt.toNat) blank) nbs
              (col + Int16.ofNat (8 - (col &&& 7).toInt.toNat)) (by rw [List.length_replicate]; omega)
            rw [List.length_replicate] at h
            exact h
        · rw [if_neg htab]
          exact hmore [text i] _ _ hroom.1
    · rw [if_neg hroom]
      exact hii

theorem fillAt_inBuffer (text : ℕ → UInt8) (doXTabs : Bool) {fuel ii : ℕ} (nbs i : ℕ) (col : Int16) (cp : LocalBuffer) :
    ∀ t ∈ (fillAt text doXTabs fuel ii nbs i col cp).touches, t.InBuffer := by
  induction fuel generalizing ii nbs i col cp with
  | zero => exact fun t ht => absurd ht List.not_mem_nil
  | succ fuel ih =>
    have hstop : ∀ t ∈ [Touch.text i], t.InBuffer := fun t ht => by
      rw [List.mem_singleton.mp ht]
      trivial
    have hmore : ∀ n rest, ii + n ≤ 128 → (∀ t ∈ rest, Touch.InBuffer t) →
        ∀ t ∈ Touch.text i :: (puts ii n ++ rest), t.InBuffer := by
      intro n rest hn hrest t ht
      rcases List.mem_cons.mp ht with rfl | ht
      · trivial
      · exact (List.mem_append.mp ht).elim (puts_inBuffer hn t) (hrest t)
    rw [fillAt]
    split_ifs with hroom hnewline hfull htab
    · exact hstop
    · exact hmore 2 _ (Nat.lt_of_not_le hfull) (ih _ _ _ _)
    · simp only
      split_ifs with hfull
      · exact hstop
      · exact hmore _ _ (Nat.le_of_lt (Nat.lt_of_not_le hfull)) (ih _ _ _ _)
    · exact hmore 1 _ hroom.1 (ih _ _ _ _)
    · exact fun t ht => absurd ht List.not_mem_nil

/-- **The outer loop** gives the device the pieces, within the array as far as they fit. -/
theorem wrtchrLoopAt_spec (d : Device) (text : ℕ → UInt8) (doXTabs : Bool) (fuel nbs i : ℕ) (col : Int16)
    (cp : LocalBuffer) (os : σ) :
    let pieces := wrtchrPieces text doXTabs fuel nbs i col
    let result := wrtchrLoopAt B d text doXTabs fuel nbs i col cp os
    result.2.2 = pieces.foldl (fun os piece => fnoutOs B d piece os) os ∧
      ((∀ t ∈ result.1, t.InBuffer) ↔ ∀ piece ∈ pieces, lastIndex d piece < 128) := by
  induction fuel generalizing nbs i col cp os with
  | zero => exact ⟨rfl, iff_of_true (fun t ht => absurd ht List.not_mem_nil) fun t ht => absurd ht List.not_mem_nil⟩
  | succ fuel ih =>
    by_cases hnbs : nbs ≠ 0
    · obtain ⟨hcp, hii, hrest⟩ := fillAt_eq text doXTabs SECSIZ 1 nbs i col cp
      have hlen := @length_wrtchrPiece text doXTabs SECSIZ 1 nbs i col (by decide)
      have hin := @fillAt_inBuffer text doXTabs SECSIZ 1 nbs i col cp
      rw [wrtchrLoopAt, wrtchrPieces, if_pos hnbs, if_pos hnbs]
      generalize fillAt text doXTabs SECSIZ 1 nbs i col cp = fill at *
      generalize wrtchrPiece text doXTabs SECSIZ 1 nbs i col = piece at *
      obtain ⟨touches, cp₁, ii, nbs₁, i₁, col₁⟩ := fill
      obtain ⟨piece, nbs₂, i₂, col₂⟩ := piece
      simp only [Prod.mk.injEq] at hcp hii hrest hlen hin
      obtain ⟨rfl, rfl, rfl⟩ := hrest
      subst hcp hii
      rw [show SECSIZ = 128 from rfl] at hlen
      have hout := @fnoutAt_spec σ B d (storeAt (storeAt cp 1 piece) 0 [UInt8.ofNat piece.length]) piece (by omega) rfl
        ((holds_storeAt cp 1 piece).storeAt_of_ge (Nat.le_refl 1)) os
      simp only [Nat.add_sub_cancel_left]
      generalize fnoutAt B d piece.length (storeAt (storeAt cp 1 piece) 0 [UInt8.ofNat piece.length]) os = out at *
      obtain ⟨touches', cp', os'⟩ := out
      obtain ⟨hos, hout⟩ := hout
      obtain ⟨hos', hrest⟩ := ih nbs₁ i₁ col₁ cp' os'
      simp only at hos hout
      refine ⟨by rw [hos', hos, List.foldl_cons], ?_⟩
      rw [List.forall_mem_cons, ← hout, ← hrest, List.forall_mem_append, List.forall_mem_cons, List.forall_mem_append]
      exact ⟨fun h => h.2.2, fun h => ⟨hin, ⟨by decide, by decide⟩, h⟩⟩
    · rw [wrtchrLoopAt, wrtchrPieces, if_neg hnbs, if_neg hnbs]
      exact ⟨rfl, iff_of_true (fun t ht => absurd ht List.not_mem_nil) fun t ht => absurd ht List.not_mem_nil⟩

theorem length_le_of_mem_wrtchrPieces {text : ℕ → UInt8} {doXTabs : Bool} {fuel nbs i : ℕ} {col : Int16}
    {piece : List UInt8} (h : piece ∈ wrtchrPieces text doXTabs fuel nbs i col) : piece.length ≤ 127 := by
  induction fuel generalizing nbs i col with
  | zero => exact absurd h List.not_mem_nil
  | succ fuel ih =>
    rw [wrtchrPieces] at h
    split_ifs at h
    · have hlen := @length_wrtchrPiece text doXTabs SECSIZ 1 nbs i col (by decide)
      rcases List.mem_cons.mp h with rfl | h
      · rw [Nat.add_comm] at hlen
        exact Nat.le_of_succ_le_succ hlen
      · exact ih h
    · exact absurd h List.not_mem_nil

end Cpm68k.Cpmlib
