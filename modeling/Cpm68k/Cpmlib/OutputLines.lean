import Cpm68k.Cpmlib.OutputBuffer

/-!
# Lines of output

A piece of `_wrtchr` is a line of at most 127 characters. A newline takes two places and is not
divided; a tab that is expanded takes up to eight, and is not put in the last places of a line.

## The model

* `Line.next` writes one character of the text, on a new line if there is no room for it. Columns
  are natural numbers, while the source counts them in 16 bits.

## What is proved

* `wrtchrPiece_run` — the inner loop of `_wrtchr` writes one line.
* `exists_piece_iff` — a piece takes all the room there is exactly if a line is filled.
* `staysInBuffer_iff` — the array is overrun exactly if, on the console, a line is filled to the
  last place.
-/

namespace Cpm68k.Cpmlib

open Cpm68k.Library

variable {σ : Type} {B : Osif σ}

/-! ### Lines -/

/-- What is printed for a character in column `col`. -/
def expandChar (doXTabs : Bool) (col : ℕ) (c : UInt8) : List UInt8 :=
  if c = newline then [carriageReturn, newline]
  else if c = tab ∧ doXTabs = true then List.replicate (8 - col % 8) blank
  else [c]

theorem length_expandChar_pos (doXTabs : Bool) (col : ℕ) (c : UInt8) : 0 < (expandChar doXTabs col c).length := by
  unfold expandChar
  split_ifs
  · decide
  · rw [List.length_replicate]
    omega
  · exact Nat.one_pos

/-- The column after a character. -/
def nextCol (doXTabs : Bool) (col : ℕ) (c : UInt8) : ℕ :=
  if c = newline then 0 else col + (expandChar doXTabs col c).length

/-- What is printed for a text that begins in column `col`. -/
def expandText (doXTabs : Bool) : ℕ → List UInt8 → List UInt8
  | _, [] => []
  | col, c :: s => expandChar doXTabs col c ++ expandText doXTabs (nextCol doXTabs col c) s

/-- The column behind a text. -/
def endCol (doXTabs : Bool) (col : ℕ) (s : List UInt8) : ℕ := s.foldl (nextCol doXTabs) col

theorem expandText_append (doXTabs : Bool) (col : ℕ) (s t : List UInt8) :
    expandText doXTabs col (s ++ t) = expandText doXTabs col s ++ expandText doXTabs (endCol doXTabs col s) t := by
  induction s generalizing col with
  | nil => rfl
  | cons c s ih => rw [List.cons_append, expandText, expandText, ih, List.append_assoc, endCol, endCol, List.foldl_cons]

/-- How many characters of a text are counted: all but the tabs that are expanded. -/
def counted (doXTabs : Bool) (s : List UInt8) : ℕ := s.countP fun c => ¬ (c = tab ∧ doXTabs = true)

/-- There is room for a character. For a tab that is expanded there has to be a place more. -/
def HasRoom (doXTabs : Bool) (room col : ℕ) (c : UInt8) : Prop :=
  (expandChar doXTabs col c).length + (if c = tab ∧ doXTabs = true then 1 else 0) ≤ room

instance (doXTabs : Bool) (room col : ℕ) (c : UInt8) : Decidable (HasRoom doXTabs room col c) :=
  inferInstanceAs (Decidable (_ ≤ _))

/-- A text that is written in lines of 127 characters. -/
structure Line where
  /-- How many places are left. -/
  room : ℕ
  /-- How many characters are to be written. A tab that is expanded is not counted. -/
  nbs : ℕ
  /-- The place in the text. -/
  i : ℕ
  /-- The column. -/
  col : ℕ

/-- A character is written, on a new line if there is no room for it. -/
def Line.next (text : ℕ → UInt8) (doXTabs : Bool) (l : Line) : Line :=
  if l.nbs = 0 then l
  else
    { room := (if HasRoom doXTabs l.room l.col (text l.i) then l.room else 127) - (expandChar doXTabs l.col (text l.i)).length
      nbs := if text l.i = tab ∧ doXTabs = true then l.nbs else l.nbs - 1
      i := l.i + 1
      col := nextCol doXTabs l.col (text l.i) }

/-- Written in lines of 127 characters, a line of the text is filled to the last place. -/
def Line.Fills (text : ℕ → UInt8) (doXTabs : Bool) (l : Line) : Prop :=
  ∃ n, ((Line.next text doXTabs)^[n] l).room = 0

/-- The column counter of the source agrees with the column, as far as tabs are concerned, unless
a newline is next. -/
def ColMatches (text : ℕ → UInt8) (col : Int16) (i c : ℕ) : Prop := text i = newline ∨ (col.toInt - c) % 8 = 0

/-- The `&7` of the source. -/
theorem col_and_seven (col : Int16) : (col &&& 7).toInt = col.toInt % 8 := by
  have hand : (col &&& 7).toBitVec.toNat = col.toBitVec.toNat % 8 := by
    rw [Int16.toBitVec_and, BitVec.toNat_and]
    exact Nat.and_two_pow_sub_one_eq_mod _ 3
  have hlt := col.toBitVec.isLt
  have hint : ∀ x : Int16, x.toInt = if 2 * x.toBitVec.toNat < 2 ^ 16 then (x.toBitVec.toNat : ℤ) else x.toBitVec.toNat - 2 ^ 16 :=
    fun x => BitVec.toInt_eq_toNat_cond x.toBitVec
  rw [hint, hint, hand]
  split_ifs <;> omega

theorem ColMatches.nsp {text : ℕ → UInt8} {col : Int16} {i c : ℕ} (h : ColMatches text col i c) (hne : text i ≠ newline) :
    8 - (col &&& 7).toInt.toNat = 8 - c % 8 := by
  have := h.resolve_left hne
  rw [col_and_seven]
  omega

/-- The column counter after `n` columns more. -/
theorem col_add {col : Int16} {c n : ℕ} (h : (col.toInt - c) % 8 = 0) (hn : n < 2 ^ 15) :
    ((col + Int16.ofNat n).toInt - (c + n : ℕ)) % 8 = 0 := by
  rw [Int16.toInt_add, Int16.toInt_ofNat_of_lt hn, Int.bmod_def]
  split_ifs <;> omega

/-- The `n` characters of the text from place `i` on. -/
def charsFrom (text : ℕ → UInt8) (i n : ℕ) : List UInt8 := (List.range' i n).map text

theorem charsFrom_succ (text : ℕ → UInt8) (i n : ℕ) : charsFrom text i (n + 1) = text i :: charsFrom text (i + 1) n := by
  unfold charsFrom
  rw [List.range'_succ, List.map_cons]

theorem charsFrom_add (text : ℕ → UInt8) (i m n : ℕ) :
    charsFrom text i (m + n) = charsFrom text i m ++ charsFrom text (i + m) n := by
  unfold charsFrom
  rw [← List.map_append, List.range'_append_1]

/-- The inner loop of `_wrtchr` has written `m` characters of the text in the line, up to
column `c'`, and the next does not fit. -/
structure PieceRun (text : ℕ → UInt8) (doXTabs : Bool) (l : Line) (piece : List UInt8 × ℕ × ℕ × Int16) (m c' : ℕ) :
    Prop where
  endCol_eq : c' = endCol doXTabs l.col (charsFrom text l.i m)
  count : piece.2.1 + counted doXTabs (charsFrom text l.i m) = l.nbs
  early : ∀ k < m, counted doXTabs (charsFrom text l.i k) < l.nbs
  next : (Line.next text doXTabs)^[m] l = ⟨l.room - piece.1.length, piece.2.1, piece.2.2.1, c'⟩
  room_ne : ∀ k < m, ((Line.next text doXTabs)^[k] l).room ≠ 0
  place : piece.2.2.1 = l.i + m
  col : ColMatches text piece.2.2.2 piece.2.2.1 c'
  text_eq : piece.1 = expandText doXTabs l.col (charsFrom text l.i m)
  stops : piece.2.1 = 0 ∨ ¬ HasRoom doXTabs (l.room - piece.1.length) c' (text piece.2.2.1)

theorem PieceRun.stop {text : ℕ → UInt8} {doXTabs : Bool} {room nbs i c : ℕ} {col : Int16}
    (hcol : ColMatches text col i c) (hstops : nbs = 0 ∨ ¬ HasRoom doXTabs room c (text i)) :
    PieceRun text doXTabs ⟨room, nbs, i, c⟩ ([], nbs, i, col) 0 c :=
  ⟨rfl, rfl, fun k hk => absurd hk (Nat.not_lt_zero k), rfl, fun k hk => absurd hk (Nat.not_lt_zero k), rfl, hcol, rfl, hstops⟩

theorem PieceRun.step {text : ℕ → UInt8} {doXTabs : Bool} {l : Line} {piece : List UInt8 × ℕ × ℕ × Int16} {m c' : ℕ}
    (hnbs : l.nbs ≠ 0) (hfits : HasRoom doXTabs l.room l.col (text l.i))
    (h : PieceRun text doXTabs (l.next text doXTabs) piece m c') :
    PieceRun text doXTabs l (expandChar doXTabs l.col (text l.i) ++ piece.1, piece.2) (m + 1) c' := by
  have hroom : (l.next text doXTabs).room = l.room - (expandChar doXTabs l.col (text l.i)).length := by
    simp only [Line.next, if_neg hnbs, if_pos hfits]
  have hi : (l.next text doXTabs).i = l.i + 1 := by simp only [Line.next, if_neg hnbs]
  have hcol : (l.next text doXTabs).col = nextCol doXTabs l.col (text l.i) := by simp only [Line.next, if_neg hnbs]
  have hcount : (l.next text doXTabs).nbs + counted doXTabs [text l.i] = l.nbs := by
    simp only [Line.next, if_neg hnbs, counted, List.countP_singleton]
    by_cases htab : text l.i = tab ∧ doXTabs = true
    · simp [htab]
    · simp only [htab, not_false_iff, decide_true, if_true, if_false]
      omega
  have hsucc : ∀ k, counted doXTabs (charsFrom text l.i (k + 1)) =
      counted doXTabs [text l.i] + counted doXTabs (charsFrom text (l.i + 1) k) := by
    intro k
    rw [charsFrom_succ, ← List.singleton_append]
    exact List.countP_append
  obtain ⟨hend, hleft, hearly, hnext, hne, hplace, hmatch, htext, hstops⟩ := h
  rw [hroom, Nat.sub_sub, ← List.length_append] at hnext hstops
  rw [hi] at hend hleft hearly htext
  rw [hcol] at hend htext
  refine ⟨by rw [hend, charsFrom_succ]; rfl, ?_, fun k hk => ?_, hnext, fun k hk => ?_, by rw [hplace, hi]; omega, hmatch, ?_,
    hstops⟩
  · rw [hsucc]
    simp only
    omega
  · cases k with
    | zero => exact Nat.pos_of_ne_zero hnbs
    | succ k =>
      have := hearly k (by omega)
      rw [hsucc]
      omega
  · cases k with
    | zero =>
      have hpos := length_expandChar_pos doXTabs l.col (text l.i)
      have := (Nat.le_add_right _ _).trans hfits
      simp only [Function.iterate_zero, id]
      omega
    | succ k => exact hne k (by omega)
  · rw [htext, charsFrom_succ]
    rfl

/-! ### One turn of the loop -/

section

variable {text : ℕ → UInt8} {doXTabs : Bool} {ii nbs i c : ℕ} {col : Int16} {ch : UInt8}

theorem expandChar_newline (h : ch = newline) : expandChar doXTabs c ch = [carriageReturn, newline] := if_pos h

theorem expandChar_tab (hnewline : ch ≠ newline) (htab : ch = tab ∧ doXTabs = true) :
    expandChar doXTabs c ch = List.replicate (8 - c % 8) blank := by
  rw [expandChar, if_neg hnewline, if_pos htab]

theorem expandChar_plain (hnewline : ch ≠ newline) (htab : ¬ (ch = tab ∧ doXTabs = true)) :
    expandChar doXTabs c ch = [ch] := by
  rw [expandChar, if_neg hnewline, if_neg htab]

/-- The tests of the source for room: for a newline, for a tab, and for another character. -/
theorem hasRoom_newline (h : ch = newline) : HasRoom doXTabs (SECSIZ - ii) c ch ↔ ¬ ii + 1 ≥ SECSIZ := by
  have hne : ¬ (ch = tab ∧ doXTabs = true) := fun htab => absurd (h.symm.trans htab.1) (by decide)
  rw [HasRoom, expandChar_newline h, if_neg hne]
  simp only [List.length_cons, List.length_nil]
  omega

theorem hasRoom_tab (hnewline : ch ≠ newline) (htab : ch = tab ∧ doXTabs = true) :
    HasRoom doXTabs (SECSIZ - ii) c ch ↔ ¬ ii + (8 - c % 8) ≥ SECSIZ := by
  rw [HasRoom, expandChar_tab hnewline htab, if_pos htab, List.length_replicate]
  omega

theorem hasRoom_plain (hnewline : ch ≠ newline) (htab : ¬ (ch = tab ∧ doXTabs = true)) :
    HasRoom doXTabs (SECSIZ - ii) c ch ↔ ii < SECSIZ := by
  rw [HasRoom, expandChar_plain hnewline htab, if_neg htab, List.length_singleton]
  omega

theorem HasRoom.lt {room : ℕ} (h : HasRoom doXTabs room c ch) : 0 < room :=
  (length_expandChar_pos doXTabs c ch).trans_le ((Nat.le_add_right _ _).trans h)

/-- With nothing to write, or no room for it, the piece is at its end. -/
theorem wrtchrPiece_stops (hcol : ColMatches text col i c) (h : nbs = 0 ∨ ¬ HasRoom doXTabs (SECSIZ - ii) c (text i))
    (fuel : ℕ) : ∃ col', ColMatches text col' i c ∧ wrtchrPiece text doXTabs fuel ii nbs i col = ([], nbs, i, col') := by
  cases fuel with
  | zero => exact ⟨col, hcol, rfl⟩
  | succ fuel =>
    rw [wrtchrPiece]
    by_cases hroom : ii < SECSIZ ∧ nbs ≠ 0
    · have hfull := h.resolve_left hroom.2
      rw [if_pos hroom]
      by_cases hnewline : text i = newline
      · rw [hasRoom_newline hnewline, not_not] at hfull
        exact ⟨-1, .inl hnewline, by rw [if_pos hnewline, if_pos hfull]⟩
      · by_cases htab : text i = tab ∧ doXTabs = true
        · rw [hasRoom_tab hnewline htab, not_not] at hfull
          refine ⟨col, hcol, ?_⟩
          rw [if_neg hnewline, if_pos htab, hcol.nsp hnewline]
          exact if_pos hfull
        · exact absurd hroom.1 (mt (hasRoom_plain hnewline htab).mpr hfull)
    · exact ⟨col, hcol, if_neg hroom⟩

/-- With room for it, a character is written, and the piece goes on. -/
theorem wrtchrPiece_turn (hcol : ColMatches text col i c) (hnbs : nbs ≠ 0) (hfits : HasRoom doXTabs (SECSIZ - ii) c (text i))
    (fuel : ℕ) :
    ∃ col', ColMatches text col' (i + 1) (nextCol doXTabs c (text i)) ∧
      let out := expandChar doXTabs c (text i)
      let rest := wrtchrPiece text doXTabs fuel (ii + out.length)
        (if text i = tab ∧ doXTabs = true then nbs else nbs - 1) (i + 1) col'
      wrtchrPiece text doXTabs (fuel + 1) ii nbs i col = (out ++ rest.1, rest.2) := by
  have hroom : ii < SECSIZ ∧ nbs ≠ 0 := ⟨Nat.lt_of_sub_pos hfits.lt, hnbs⟩
  rw [wrtchrPiece, if_pos hroom, nextCol]
  by_cases hnewline : text i = newline
  · have hne : ¬ (text i = tab ∧ doXTabs = true) := fun htab => absurd (hnewline.symm.trans htab.1) (by decide)
    have hroom := (hasRoom_newline hnewline).mp hfits
    simp only [if_pos hnewline, if_neg hne, if_neg hroom, expandChar_newline hnewline]
    exact ⟨0, .inr (by decide), rfl⟩
  · have hcol' := hcol.resolve_left hnewline
    rw [if_neg hnewline, if_neg hnewline]
    by_cases htab : text i = tab ∧ doXTabs = true
    · have hroom := (hasRoom_tab hnewline htab).mp hfits
      simp only [if_pos htab, hcol.nsp hnewline, if_neg hroom, expandChar_tab hnewline htab, List.length_replicate]
      exact ⟨_, .inr (col_add hcol' (by omega)), rfl⟩
    · simp only [if_neg htab, expandChar_plain hnewline htab]
      exact ⟨col + 1, .inr (col_add (n := 1) hcol' (by decide)), rfl⟩

end

/-- **One piece** is a line of the text. -/
theorem wrtchrPiece_run (text : ℕ → UInt8) (doXTabs : Bool) {fuel ii nbs i c : ℕ} {col : Int16} (hfuel : SECSIZ ≤ fuel + ii)
    (hii : ii ≤ SECSIZ) (hcol : ColMatches text col i c) :
    ∃ m c', PieceRun text doXTabs ⟨SECSIZ - ii, nbs, i, c⟩ (wrtchrPiece text doXTabs fuel ii nbs i col) m c' := by
  induction fuel generalizing ii nbs i c col with
  | zero =>
    refine ⟨0, c, .stop hcol (Or.inr fun hfits => ?_)⟩
    have := hfits.lt
    omega
  | succ fuel ih =>
    by_cases hstops : nbs = 0 ∨ ¬ HasRoom doXTabs (SECSIZ - ii) c (text i)
    · obtain ⟨col', hcol', hpiece⟩ := wrtchrPiece_stops hcol hstops (fuel + 1)
      rw [hpiece]
      exact ⟨0, c, .stop hcol' hstops⟩
    · rw [not_or, not_not] at hstops
      obtain ⟨hnbs, hfits⟩ := hstops
      obtain ⟨col', hcol', hpiece⟩ := wrtchrPiece_turn hcol hnbs hfits fuel
      have hpos := length_expandChar_pos doXTabs c (text i)
      have hle : (expandChar doXTabs c (text i)).length ≤ SECSIZ - ii := (Nat.le_add_right _ _).trans hfits
      obtain ⟨m, c', hrun⟩ := @ih (ii + (expandChar doXTabs c (text i)).length)
        (if text i = tab ∧ doXTabs = true then nbs else nbs - 1) (i + 1) (nextCol doXTabs c (text i)) col' (by omega)
        (by omega) hcol'
      rw [hpiece]
      refine ⟨m + 1, c', .step hnbs hfits ?_⟩
      simp only [Line.next, if_neg hnbs, if_pos hfits]
      rw [Nat.sub_sub]
      exact hrun

/-- An empty line has room for every character. -/
theorem hasRoom_newLine (doXTabs : Bool) (col : ℕ) (c : UInt8) : HasRoom doXTabs 127 col c := by
  have hlen : (expandChar doXTabs col c).length ≤ 8 := by
    unfold expandChar
    split_ifs
    · decide
    · rw [List.length_replicate]
      omega
    · exact Nat.succ_le_succ (Nat.zero_le 7)
  unfold HasRoom
  split_ifs <;> omega

theorem Line.next_of_done {text : ℕ → UInt8} {doXTabs : Bool} {l : Line} (h : l.nbs = 0) (n : ℕ) :
    (Line.next text doXTabs)^[n] l = l := by
  have hfix : Line.next text doXTabs l = l := if_pos h
  exact Function.iterate_fixed hfix n

/-- A character for which there is no room is written as on an empty line. -/
theorem Line.next_of_not_hasRoom {text : ℕ → UInt8} {doXTabs : Bool} {room nbs i c : ℕ}
    (h : ¬ HasRoom doXTabs room c (text i)) (hnbs : nbs ≠ 0) (n : ℕ) :
    (Line.next text doXTabs)^[n + 1] ⟨room, nbs, i, c⟩ = (Line.next text doXTabs)^[n + 1] ⟨127, nbs, i, c⟩ := by
  have hnext : Line.next text doXTabs ⟨room, nbs, i, c⟩ = Line.next text doXTabs ⟨127, nbs, i, c⟩ := by
    simp only [Line.next, if_neg hnbs, if_neg h, if_pos (hasRoom_newLine doXTabs c (text i))]
  rw [Function.iterate_succ_apply, Function.iterate_succ_apply, hnext]

section Pieces

variable {text : ℕ → UInt8} {doXTabs : Bool} {piece : List UInt8 × ℕ × ℕ × Int16} {m c' : ℕ} {l : Line}

/-- After a piece that is not full, the text goes on as on an empty line. -/
theorem PieceRun.next_succ (h : PieceRun text doXTabs l piece m c') (hnbs : piece.2.1 ≠ 0) (n : ℕ) :
    (Line.next text doXTabs)^[m + (n + 1)] l = (Line.next text doXTabs)^[n + 1] ⟨127, piece.2.1, piece.2.2.1, c'⟩ := by
  rw [Nat.add_comm, Function.iterate_add_apply, h.next, Line.next_of_not_hasRoom (h.stops.resolve_left hnbs) hnbs]

/-- A piece that fills its line. -/
theorem PieceRun.fills (h : PieceRun text doXTabs l piece m c') (hfull : l.room ≤ piece.1.length) :
    l.Fills text doXTabs := by
  refine ⟨m, ?_⟩
  rw [h.next]
  exact Nat.sub_eq_zero_of_le hfull

/-- What fills a line of the text that follows, fills one of the text. -/
theorem PieceRun.fills_rest (h : PieceRun text doXTabs l piece m c')
    (hrest : Line.Fills text doXTabs ⟨127, piece.2.1, piece.2.2.1, c'⟩) : l.Fills text doXTabs := by
  obtain ⟨n, hn⟩ := hrest
  have hnbs : piece.2.1 ≠ 0 := by
    intro hzero
    rw [Line.next_of_done hzero] at hn
    exact absurd hn (by decide : (127 : ℕ) ≠ 0)
  cases n with
  | zero => exact absurd hn (by decide : (127 : ℕ) ≠ 0)
  | succ n => exact ⟨m + (n + 1), by rw [h.next_succ hnbs, hn]⟩

/-- A line is filled by the first piece, or by what follows it. -/
theorem PieceRun.of_fills {nbs i c : ℕ} (h : PieceRun text doXTabs ⟨127, nbs, i, c⟩ piece m c') {n : ℕ}
    (hn : ((Line.next text doXTabs)^[n] ⟨127, nbs, i, c⟩).room = 0) :
    127 ≤ piece.1.length ∨
      ∃ n' < n, ((Line.next text doXTabs)^[n'] ⟨127, piece.2.1, piece.2.2.1, c'⟩).room = 0 := by
  have hle : m ≤ n := by
    by_contra hlt
    exact h.room_ne n (by omega) hn
  obtain ⟨k, rfl⟩ := Nat.exists_eq_add_of_le hle
  by_cases hfull : 127 ≤ piece.1.length
  · exact Or.inl hfull
  · right
    have hroom : (⟨127 - piece.1.length, piece.2.1, piece.2.2.1, c'⟩ : Line).room ≠ 0 := by
      show 127 - piece.1.length ≠ 0
      omega
    have hnbs : piece.2.1 ≠ 0 := by
      intro hzero
      rw [Nat.add_comm, Function.iterate_add_apply, h.next, Line.next_of_done hzero] at hn
      exact hroom hn
    have hm : m ≠ 0 := by
      rintro rfl
      have hline := h.next
      simp only [Function.iterate_zero, id, Line.mk.injEq] at hline
      obtain ⟨hlen, -, hi, hc⟩ := hline
      have hstops := h.stops.resolve_left hnbs
      simp only [← hlen] at hstops
      exact hstops (hasRoom_newLine _ _ _)
    cases k with
    | zero =>
      rw [Nat.add_zero, h.next] at hn
      exact absurd hn hroom
    | succ k => exact ⟨k + 1, by omega, by rw [← h.next_succ hnbs, hn]⟩

end Pieces

/-- **A piece takes all the room** exactly if a line of the text is filled to the last place. -/
theorem exists_piece_iff (text : ℕ → UInt8) (doXTabs : Bool) {nbs i c : ℕ} {col : Int16} (hcol : ColMatches text col i c) :
    (∃ fuel, ∃ piece ∈ wrtchrPieces text doXTabs fuel nbs i col, 127 ≤ piece.length) ↔
      Line.Fills text doXTabs ⟨127, nbs, i, c⟩ := by
  constructor
  · rintro ⟨fuel, piece, hmem, hfull⟩
    induction fuel generalizing nbs i c col with
    | zero => exact absurd hmem List.not_mem_nil
    | succ fuel ih =>
      rw [wrtchrPieces] at hmem
      split_ifs at hmem with hnbs
      · obtain ⟨m, c', hrun⟩ := @wrtchrPiece_run text doXTabs SECSIZ 1 nbs i c col (by decide) (by decide) hcol
        rcases List.mem_cons.mp hmem with rfl | hmem
        · exact hrun.fills hfull
        · exact hrun.fills_rest (ih hrun.col hmem)
      · exact absurd hmem List.not_mem_nil
  · rintro ⟨n, hn⟩
    induction n using Nat.strong_induction_on generalizing nbs i c col with
    | _ n ih =>
      have hnbs : nbs ≠ 0 := by
        rintro rfl
        rw [Line.next_of_done rfl] at hn
        exact absurd hn (by decide : (127 : ℕ) ≠ 0)
      obtain ⟨m, c', hrun⟩ := @wrtchrPiece_run text doXTabs SECSIZ 1 nbs i c col (by decide) (by decide) hcol
      rcases hrun.of_fills hn with hfull | ⟨n', hlt, hn'⟩
      · refine ⟨1, _, ?_, hfull⟩
        rw [wrtchrPieces, if_pos hnbs]
        exact List.mem_cons_self
      · obtain ⟨fuel, piece, hmem, hfull⟩ := ih n' hlt hrun.col hn'
        refine ⟨fuel + 1, piece, ?_, hfull⟩
        rw [wrtchrPieces, if_pos hnbs]
        exact List.mem_cons_of_mem _ hmem

/-! ### The bounds of the array -/

/-- `_wrtchr` stays in its local array, and reads the count back as it stored it. -/
def StaysInBuffer (B : Osif σ) (fp : Ccb) (data : List UInt8) (cp : LocalBuffer) (os : σ) : Prop :=
  ∀ fuel, ∀ t ∈ (wrtchrAt B fp data fuel cp os).1, t.InBuffer

/-- The console: no piece may take all the room. -/
theorem staysInBuffer_console {fp : Ccb} (hdev : deviceOf fp = some .console) (data : List UInt8) (cp : LocalBuffer) (os : σ) :
    StaysInBuffer B fp data cp os ↔
      ¬ Line.Fills (textAt B data) (expandsTabs fp) ⟨127, data.length % 2 ^ 16, 0, 0⟩ := by
  have hcol : ColMatches (textAt B data) 0 0 0 := Or.inr (by decide)
  rw [← exists_piece_iff (textAt B data) (expandsTabs fp) hcol]
  simp only [StaysInBuffer, wrtchrAt, hdev, (wrtchrLoopAt_spec .console _ _ _ _ _ _ _ _).2, not_exists, not_and, not_le,
    lastIndex]
  exact forall_congr' fun fuel => forall_congr' fun piece => imp_congr_right fun _ => by omega

/-- The list device: there is always room. -/
theorem staysInBuffer_printer {fp : Ccb} (hdev : deviceOf fp = some .printer) (data : List UInt8) (cp : LocalBuffer) (os : σ) :
    StaysInBuffer B fp data cp os := by
  intro fuel
  simp only [wrtchrAt, hdev, (wrtchrLoopAt_spec .printer _ _ _ _ _ _ _ _).2]
  exact fun piece hpiece => Nat.lt_succ_of_le (length_le_of_mem_wrtchrPieces hpiece)

/-- **The output buffer is never overrun**, unless on the console a line of the text is filled to
the last place. -/
theorem staysInBuffer_iff (fp : Ccb) (data : List UInt8) (cp : LocalBuffer) (os : σ) :
    StaysInBuffer B fp data cp os ↔
      (deviceOf fp = some .console → ¬ Line.Fills (textAt B data) (expandsTabs fp) ⟨127, data.length % 2 ^ 16, 0, 0⟩) := by
  cases hdev : deviceOf fp with
  | none =>
    refine iff_of_true (fun fuel t ht => ?_) fun h => by cases h
    simp only [wrtchrAt, hdev] at ht
    exact absurd ht List.not_mem_nil
  | some d =>
    cases d with
    | console => simp only [staysInBuffer_console hdev, true_imp_iff]
    | printer => exact iff_of_true (staysInBuffer_printer hdev data cp os) fun h => by cases h

/-- 127 letters `A` fill a line. -/
theorem not_staysInBuffer_line : ¬ ∀ fp data cp, StaysInBuffer willingOsif fp data cp () := by
  intro h
  refine (staysInBuffer_console ?_ _ _ _).mp (h (consoleOpen.fds 0) (List.replicate 127 0x41) fun _ => 0) ⟨127, ?_⟩
  · rfl
  · decide +kernel

end Cpm68k.Cpmlib
