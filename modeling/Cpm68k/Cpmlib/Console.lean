import Cpm68k.Cpmlib.Osif

/-!
# The console and the list device

`cpmlib/wrtchr.c`, `ttyout.c`, `lstout.c`, `ttyin.c` and `ttyinraw.c`, and the terminal
information of `sgtty.h`.

## The model

* `_wrtchr` cuts the text into pieces that fit its local buffer `cp`. A piece is the list
  of the characters in `cp[1]`, `cp[2]`, …; the number of them is what the source stores in
  `cp[0]`. `wrtchrPiece` fills one piece, and counts `ii`, `nbs` and `col` as the source does.
* The text is read through a pointer. `nbs` says when to stop, and it is not decreased for a
  tab that is expanded, so the pointer may run past the text into what lies behind it.
* The `$` that `_ttyout` stores behind a piece is where the list of its characters ends.
* The terminal information lies over the first eight bytes of the file control block.

## What is proved

* `keeps_ttyin`, `keeps_wrtchr` — they keep what the functions of the BDOS for the console
  and the list device keep.
-/

namespace Cpm68k.Cpmlib

open Cpm68k.Library

variable {σ : Type} (B : Osif σ)

/-! ### Terminal information -/

/-- The first bytes of the file control block, where a `struct sgttyb` may be. -/
def Fcb.sgttyb (fcb : Fcb) : Bytes 8 := fun i =>
  if h : i.val = 0 then fcb.drive.toUInt8 else fcb.fname ⟨i - 1, by omega⟩

/-- The file control block with other first bytes. -/
def Fcb.setSgttyb (fcb : Fcb) (b : Bytes 8) : Fcb :=
  { fcb with
    drive := (b 0).toInt8
    fname := fun i => if h : i.val < 7 then b ⟨i + 1, by omega⟩ else fcb.fname i }

/-- `sg_kill`. -/
def sgKill (b : Bytes 8) : UInt8 := b 3

/-- `sg_flags`. -/
def sgFlags (b : Bytes 8) : BitVec 32 := (b 4).toBitVec ++ (b 5).toBitVec ++ (b 6).toBitVec ++ (b 7).toBitVec

/-- Expand tabs. -/
def XTABS : BitVec 32 := 0o6000
/-- Every character as it is typed. -/
def RAW : BitVec 32 := 0o40
/-- Returns are newlines. -/
def CRMOD : BitVec 32 := 0o20
/-- Characters are echoed. -/
def ECHO : BitVec 32 := 0o10
/-- Capital letters are small ones. -/
def LCASE : BitVec 32 := 0o4
/-- A character at a time. -/
def CBREAK : BitVec 32 := 0o2

/-- A flag of the terminal information is set. -/
def sgHas (b : Bytes 8) (flag : BitVec 32) : Bool := sgFlags b &&& flag ≠ 0

/-! ### Output -/

/-- `'$'`. -/
def dollar : UInt8 := 0x24

/-- `'\t'`. -/
def tab : UInt8 := 0x09

/-- `' '`. -/
def blank : UInt8 := 0x20

/-- The loop of `_ttyout`, and the rest of the output after it: `cp` are the characters
since the last `$`. -/
def ttyoutLoop (cp : List UInt8) : List UInt8 → σ → σ
  | [], os => if cp ≠ [] then B.writestr cp os else os
  | c :: buf, os =>
    if c = dollar then
      let os := if cp ≠ [] then B.writestr cp os else os
      ttyoutLoop [] buf (B.conout dollar os)
    else ttyoutLoop (cp ++ [c]) buf os

/-- `_ttyout`. -/
def ttyout (buf : List UInt8) : IoM σ PUnit := setOs (ttyoutLoop B [] buf)

/-- `_lstout`. -/
def lstout (buffer : List UInt8) : IoM σ PUnit := setOs fun os => buffer.foldl (fun os c => B.lstout c os) os

/-- The inner loop of `_wrtchr`, which fills the local buffer from `ii` on: the characters
put there, what is left to do, the place in the text, and the column. -/
def wrtchrPiece (buf : ℕ → UInt8) (doXTabs : Bool) : ℕ → ℕ → ℕ → ℕ → Int16 → List UInt8 × ℕ × ℕ × Int16
  | 0, _, nbs, i, col => ([], nbs, i, col)
  | fuel + 1, ii, nbs, i, col =>
    if ii < SECSIZ ∧ nbs ≠ 0 then
      if buf i = newline then
        if ii + 1 ≥ SECSIZ then ([], nbs, i, -1)
        else
          let (cp, rest) := wrtchrPiece buf doXTabs fuel (ii + 2) (nbs - 1) (i + 1) 0
          (carriageReturn :: newline :: cp, rest)
      else if buf i = tab ∧ doXTabs = true then
        let nsp := 8 - (col &&& 7).toInt.toNat
        if ii + nsp ≥ SECSIZ then ([], nbs, i, col)
        else
          let (cp, rest) := wrtchrPiece buf doXTabs fuel (ii + nsp) nbs (i + 1) (col + Int16.ofNat nsp)
          (List.replicate nsp blank ++ cp, rest)
      else
        let (cp, rest) := wrtchrPiece buf doXTabs fuel (ii + 1) (nbs - 1) (i + 1) (col + 1)
        (buf i :: cp, rest)
    else ([], nbs, i, col)

/-- The outer loop of `_wrtchr`, with a bound on the number of pieces. -/
def wrtchrLoop (fnout : List UInt8 → IoM σ PUnit) (buf : ℕ → UInt8) (doXTabs : Bool) :
    ℕ → ℕ → ℕ → Int16 → IoM σ PUnit
  | 0, _, _, _ => pure ⟨⟩
  | fuel + 1, nbs, i, col =>
    whenever (nbs ≠ 0) do
      let piece := wrtchrPiece buf doXTabs SECSIZ 1 nbs i col
      fnout piece.1
      wrtchrLoop fnout buf doXTabs fuel piece.2.1 piece.2.2.1 piece.2.2.2

/-- The text of a request, and what lies behind it. -/
def textAt (data : List UInt8) (i : ℕ) : UInt8 := data.getD i (B.behind (i - data.length))

/-- `_wrtchr`. No memory has more than 2^32 bytes. -/
def wrtchr (data : List UInt8) : IoM σ ℤ := do
  let s ← get
  let doXTabs := s.fp.flags.ISSPTTY && sgHas s.fp.fcb.sgttyb XTABS
  let nbs := data.length % 2 ^ 16
  if s.fp.flags.ISTTY = true then do
    wrtchrLoop (ttyout B) (textAt B data) doXTabs (2 ^ 32) nbs 0 0
    pure (toLong data.length)
  else if s.fp.flags.ISLPT = true then do
    wrtchrLoop (lstout B) (textAt B data) doXTabs (2 ^ 32) nbs 0 0
    pure (toLong data.length)
  else throw .ENOTTY

/-! ### Input -/

/-- `ttyinraw(0)`. -/
def ttyinraw : IoM σ UInt8 := askOs (B.conio 0xff)

/-- Echo a character. -/
def echo (b : Bytes 8) (c : UInt8) : IoM σ PUnit :=
  whenever (sgHas b ECHO = true) (setOs fun os => (B.conio c os).2)

/-- `_ttyin` in `CBREAK` mode. -/
def ttyinCbreak (b : Bytes 8) : IoM σ ℤ := do
  let p ← ttyinraw B
  whenever (p = sgKill b) (throw Errno.exit)
  let p := if sgHas b LCASE = true ∧ 0x41 ≤ p ∧ p ≤ 0x5a then p + 0x20 else p
  let p ← (if sgHas b CRMOD = true ∧ p = carriageReturn then do
      echo B b p
      pure newline
    else pure p)
  echo B b p
  store [p]
  pure 1

/-- The loop of `_ttyin`: the characters moved, how many more were asked for, and whether
`EOFCHAR` was met. -/
def ttyinMove : List UInt8 → ℕ → List UInt8 × ℕ × Bool
  | [], bytes => ([], bytes, false)
  | _, 0 => ([], 0, false)
  | p :: ttybuf, bytes + 1 =>
    if p = EOFCHAR then ([], bytes + 1, true)
    else
      let (moved, rest) := ttyinMove ttybuf bytes
      (p :: moved, rest)

/-- The characters of a line: one from `CONIN`, or more from `CONBUF`. -/
def ttyinLine (nbs : ℕ) : IoM σ (List UInt8) :=
  if nbs = 1 then do
    let c ← askOs B.conin
    pure (if c = carriageReturn then [] else [c])
  else askOs (B.conbuf nbs)

/-- `_ttyin`. -/
def ttyin (bytes : ℕ) : IoM σ ℤ := do
  let s ← get
  let b := s.fp.fcb.sgttyb
  if s.fp.flags.ISSPTTY = true ∧ sgHas b RAW = true then do
    let c ← ttyinraw B
    store [c]
    pure 1
  else if s.fp.flags.ISSPTTY = true ∧ sgHas b CBREAK = true then ttyinCbreak B b
  else do
    let nbs := min bytes 0xff
    let ttybuf ← ttyinLine B nbs
    whenever (ttybuf.length < nbs) (setOs (B.conout newline))
    let moved := ttyinMove ttybuf bytes
    store moved.1
    if moved.2.2 = true then do
      setAteof
      pure (moved.1.length : ℕ)
    else if moved.2.1 > 0 then do
      store [newline]
      pure (moved.1.length + 1 : ℕ)
    else pure (moved.1.length : ℕ)

/-! ### What input and output keep -/

/-- The functions of the BDOS for the console and the list device keep `P`. -/
structure ConsoleKeeps (B : Osif σ) (P : σ → Prop) : Prop where
  conin : ∀ os, P os → P (B.conin os).2
  conout : ∀ c os, P os → P (B.conout c os)
  conio : ∀ c os, P os → P (B.conio c os).2
  writestr : ∀ cp os, P os → P (B.writestr cp os)
  conbuf : ∀ n os, P os → P (B.conbuf n os).2
  lstout : ∀ c os, P os → P (B.lstout c os)

variable {B}

/-- What does not depend on the BDOS. -/
theorem ConsoleKeeps.const {p : Prop} : ConsoleKeeps B fun _ => p :=
  ⟨fun _ h => h, fun _ _ h => h, fun _ _ h => h, fun _ _ h => h, fun _ _ h => h, fun _ _ h => h⟩

theorem ConsoleKeeps.ttyoutLoop {P : σ → Prop} (h : ConsoleKeeps B P) (buf cp : List UInt8) (os : σ) (hos : P os) :
    P (ttyoutLoop B cp buf os) := by
  induction buf generalizing cp os with
  | nil =>
    rw [Cpmlib.ttyoutLoop]
    split_ifs
    · exact h.writestr _ _ hos
    · exact hos
  | cons c buf ih =>
    rw [Cpmlib.ttyoutLoop]
    split_ifs
    · exact ih _ _ (h.conout _ _ (h.writestr _ _ hos))
    · exact ih _ _ (h.conout _ _ hos)
    · exact ih _ _ hos

theorem ConsoleKeeps.lstoutLoop {P : σ → Prop} (h : ConsoleKeeps B P) (buffer : List UInt8) (os : σ) (hos : P os) :
    P (buffer.foldl (fun os c => B.lstout c os) os) := by
  induction buffer generalizing os with
  | nil => exact hos
  | cons c buffer ih => exact ih _ (h.lstout _ _ hos)

section

variable {P : Ccb → σ → Prop}

theorem keeps_wrtchrLoop {fnout : List UInt8 → IoM σ PUnit} (hout : ∀ cp, Keeps (fun s => P s.fp s.os) (fnout cp))
    (buf : ℕ → UInt8) (doXTabs : Bool) (fuel nbs i : ℕ) (col : Int16) :
    Keeps (fun s => P s.fp s.os) (wrtchrLoop fnout buf doXTabs fuel nbs i col) := by
  induction fuel generalizing nbs i col with
  | zero => exact Keeps.pure _
  | succ fuel ih => exact Keeps.whenever (Keeps.bind (hout _) fun _ => ih _ _ _)

variable (h : ∀ fp, ConsoleKeeps B (P fp))

include h

theorem keeps_wrtchr (data : List UInt8) : Keeps (fun s => P s.fp s.os) (wrtchr B data) := by
  refine Keeps.get.bind fun _ => Keeps.ite ?_ (Keeps.ite ?_ (Keeps.throw _))
  · refine (keeps_wrtchrLoop (fun cp => ?_) _ _ _ _ _ _).bind fun _ => Keeps.pure _
    exact fun s hs => (h s.fp).ttyoutLoop cp [] s.os hs
  · refine (keeps_wrtchrLoop (fun cp => ?_) _ _ _ _ _ _).bind fun _ => Keeps.pure _
    exact fun s hs => (h s.fp).lstoutLoop cp s.os hs

theorem keeps_echo (b : Bytes 8) (c : UInt8) : Keeps (fun s => P s.fp s.os) (echo B b c) :=
  Keeps.whenever fun s hs => (h s.fp).conio c s.os hs

theorem keeps_ttyinraw : Keeps (fun s => P s.fp s.os) (ttyinraw B) := fun s hs => (h s.fp).conio _ s.os hs

theorem keeps_ttyinLine (nbs : ℕ) : Keeps (fun s => P s.fp s.os) (ttyinLine B nbs) := by
  refine Keeps.ite (Keeps.bind ?_ fun _ => Keeps.pure _) ?_
  · exact fun s hs => (h s.fp).conin s.os hs
  · exact fun s hs => (h s.fp).conbuf nbs s.os hs

theorem keeps_ttyin (heof : ∀ fp os, P fp os → P { fp with flags := { fp.flags with ATEOF := true } } os) (bytes : ℕ) :
    Keeps (fun s => P s.fp s.os) (ttyin B bytes) := by
  have hstore : ∀ bs : List UInt8, Keeps (fun s : Io σ => P s.fp s.os) (store bs) := fun _ => Keeps.modify fun _ hs => hs
  have hateof : Keeps (fun s : Io σ => P s.fp s.os) setAteof := Keeps.modify fun s hs => heof s.fp s.os hs
  refine Keeps.get.bind fun s => Keeps.ite ?_ (Keeps.ite ?_ ?_)
  · exact (keeps_ttyinraw h).bind fun _ => (hstore _).bind fun _ => Keeps.pure _
  · refine (keeps_ttyinraw h).bind fun _ => (Keeps.whenever (Keeps.throw _)).bind fun _ =>
      (Keeps.ite ?_ (Keeps.pure _)).bind fun _ => (keeps_echo h _ _).bind fun _ => (hstore _).bind fun _ => Keeps.pure _
    exact (keeps_echo h _ _).bind fun _ => Keeps.pure _
  · refine (keeps_ttyinLine h _).bind fun _ => (Keeps.whenever ?_).bind fun _ => (hstore _).bind fun _ =>
      Keeps.ite (hateof.bind fun _ => Keeps.pure _) (Keeps.ite ((hstore _).bind fun _ => Keeps.pure _) (Keeps.pure _))
    exact fun s hs => (h s.fp).conout _ s.os hs

end

end Cpm68k.Cpmlib
