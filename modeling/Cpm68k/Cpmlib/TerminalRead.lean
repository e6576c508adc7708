import Mathlib.Data.List.TakeWhile
import Cpm68k.Cpmlib.OutputBuffer

/-!
# Lines of input

`cpmlib/ttyin.c` once more, with the memory it uses: the caller's buffer and the local array
`ttybuf`, for a terminal that is read in lines.

## The model

* `ttyinAt` is the source from `nbs` on. `bytes` is a `size_t`, `xbytes` and `nbs` are words without
  a sign, `p` is an index of `ttybuf`, and the value returned is cut to a word with a sign.
* The BDOS finds the room there is in `ttybuf[0]`, and stores the number of the characters in
  `ttybuf[1]` and the characters behind it.

## What is proved

* `ttyinMoveAt_eq`, `wp_ttyin_line`, `wp_read_line` — what is stored is what the model on lists
  says.
* `givesLine` — the caller gets the characters before the first `EOFCHAR`, and otherwise the line,
  with a newline if it is short. A return from `CONIN` is an empty line (`not_givesLine_return`).
-/

namespace Cpm68k.Cpmlib

open Cpm68k.Library

variable {σ : Type} (B : Osif σ)

/-! ### The function of the source -/

/-- `CONBUF`. -/
def conbufAt (ttybuf : LocalBuffer) (os : σ) : LocalBuffer × σ :=
  let (line, os) := B.conbuf (ttybuf 0).toNat os
  (storeAt (storeAt ttybuf 1 [UInt8.ofNat line.length]) 2 line, os)

/-- `nbs`: don't read more than there is room for. -/
def ttyinNbs (bytes : ℕ) : UInt16 := if bytes < 0xff then UInt16.ofNat bytes else 0xff

/-- A line in `ttybuf`, from `CONIN` or from `CONBUF`. -/
def ttyinLineAt (nbs : UInt16) (ttybuf : LocalBuffer) (os : σ) : LocalBuffer × σ :=
  let ttybuf := storeAt ttybuf 0 [nbs.toUInt8]
  if nbs = 1 then
    let (c, os) := B.conin os
    let ttybuf := storeAt ttybuf 2 [c]
    let ttybuf := storeAt ttybuf 1 [1]
    let ttybuf := if ttybuf 2 = carriageReturn then storeAt ttybuf 1 [0] else ttybuf
    (ttybuf, os)
  else conbufAt B ttybuf os

/-- What the loop of `_ttyin` leaves: the counters, the caller's buffer, and whether `EOFCHAR` was
met. -/
structure Moved where
  bytes : ℕ
  p : ℕ
  i : ℕ
  buff : ℕ → UInt8
  eof : Bool

/-- The loop of `_ttyin`, from `ttybuf[p]` to `buff[i]`. -/
def ttyinMoveAt (ttybuf : LocalBuffer) : ℕ → UInt16 → ℕ → ℕ → (ℕ → UInt8) → Moved
  | 0, _, p, i, buff => ⟨0, p, i, buff, false⟩
  | bytes + 1, xbytes, p, i, buff =>
    if 0 < xbytes then
      if ttybuf p = EOFCHAR then ⟨bytes + 1, p, i, buff, true⟩
      else ttyinMoveAt ttybuf bytes (xbytes - 1) (p + 1) (i + 1) (storeAt buff i [ttybuf p])
    else ⟨bytes + 1, p, i, buff, false⟩

/-- What `_ttyin` leaves. -/
structure TtyRead (σ : Type) where
  ret : Int16
  fp : Ccb
  os : σ
  buff : ℕ → UInt8

/-- `_ttyin`, of a terminal that is read in lines. -/
def ttyinAt (bytes : ℕ) (fp : Ccb) (ttybuf : LocalBuffer) (buff : ℕ → UInt8) (os : σ) : TtyRead σ :=
  let nbs := ttyinNbs bytes
  let (ttybuf, os) := ttyinLineAt B nbs ttybuf os
  let xbytes := (ttybuf 1).toUInt16
  let os := if xbytes < nbs then B.conout newline os else os
  let moved := ttyinMoveAt ttybuf bytes xbytes 2 0 buff
  if moved.eof = true then
    ⟨Int16.ofInt (moved.p - 2), { fp with flags := { fp.flags with ATEOF := true } }, os, moved.buff⟩
  else if moved.bytes > 0 then ⟨Int16.ofInt (moved.p + 1 - 2), fp, os, storeAt moved.buff moved.i [newline]⟩
  else ⟨Int16.ofInt (moved.p - 2), fp, os, moved.buff⟩

variable {B}

/-! ### The loop -/

/-- **The loop** moves the line as the model on lists does. -/
theorem ttyinMoveAt_eq {ttybuf : LocalBuffer} {line : List UInt8} {bytes p i : ℕ} {xbytes : UInt16}
    (hline : Holds ttybuf p line) (hxbytes : xbytes.toNat = line.length) (buff : ℕ → UInt8) :
    ttyinMoveAt ttybuf bytes xbytes p i buff =
      let moved := ttyinMove line bytes
      ⟨moved.2.1, p + moved.1.length, i + moved.1.length, storeAt buff i moved.1, moved.2.2⟩ := by
  induction line generalizing bytes p i xbytes buff with
  | nil =>
    have hzero : ¬ 0 < xbytes := by
      rw [UInt16.lt_iff_toNat_lt, hxbytes]
      exact Nat.lt_irrefl 0
    cases bytes with
    | zero => simp only [ttyinMoveAt, ttyinMove, storeAt_nil, List.length_nil, Nat.add_zero]
    | succ bytes => simp only [ttyinMoveAt, ttyinMove, if_neg hzero, storeAt_nil, List.length_nil, Nat.add_zero]
  | cons c line ih =>
    obtain ⟨hc, hline⟩ := holds_cons.mp hline
    have hpos : 0 < xbytes := by
      rw [UInt16.lt_iff_toNat_lt, hxbytes]
      exact Nat.succ_pos _
    cases bytes with
    | zero => simp only [ttyinMoveAt, ttyinMove, storeAt_nil, List.length_nil, Nat.add_zero]
    | succ bytes =>
      rw [ttyinMoveAt, if_pos hpos, hc, ttyinMove]
      by_cases heof : c = EOFCHAR
      · rw [if_pos heof, if_pos heof]
        simp only [storeAt_nil, List.length_nil, Nat.add_zero]
      · have hless : (xbytes - 1).toNat = line.length := by
          rw [UInt16.toNat_sub_of_le _ _ (by rw [UInt16.le_iff_toNat_le]; exact hpos), hxbytes]
          rfl
        rw [if_neg heof, if_neg heof, ih hline hless]
        simp only [List.length_cons, Moved.mk.injEq, true_and, and_true]
        refine ⟨by omega, by omega, ?_⟩
        exact storeAt_append buff i [c] _

/-- A line that was asked for is moved up to `EOFCHAR`. -/
theorem ttyinMove_eq {line : List UInt8} {bytes : ℕ} (h : line.length ≤ bytes) :
    let moved := line.takeWhile (· ≠ EOFCHAR)
    ttyinMove line bytes = (moved, bytes - moved.length, decide (EOFCHAR ∈ line)) := by
  induction line generalizing bytes with
  | nil => simp [ttyinMove]
  | cons c line ih =>
    obtain ⟨bytes, rfl⟩ := Nat.exists_eq_succ_of_ne_zero (show bytes ≠ 0 by rw [List.length_cons] at h; omega)
    rw [ttyinMove]
    by_cases heof : c = EOFCHAR
    · simp [heof]
    · have hrest := ih (Nat.le_of_succ_le_succ h)
      simp only at hrest
      rw [if_neg heof, hrest]
      simp [heof, Ne.symm heof]

theorem takeWhile_of_not_mem {line : List UInt8} (h : EOFCHAR ∉ line) : line.takeWhile (· ≠ EOFCHAR) = line :=
  List.takeWhile_eq_self_iff.mpr fun _ hc => decide_eq_true fun heof => h (heof ▸ hc)

/-! ### The line -/

/-- What the BDOS returns for a request of `n` characters. -/
def typedLine (B : Osif σ) (n : ℕ) (os : σ) : List UInt8 :=
  if n = 1 then [(B.conin os).1] else (B.conbuf (min n 0xff) os).1

/-- The line that is read: a return from `CONIN` ends an empty one. -/
def terminalLine (B : Osif σ) (n : ℕ) (os : σ) : List UInt8 :=
  if n = 1 ∧ (B.conin os).1 = carriageReturn then [] else typedLine B n os

theorem length_terminalLine_le {n : ℕ} {os : σ} (hfit : (typedLine B n os).length ≤ min n 0xff) :
    (terminalLine B n os).length ≤ min n 0xff := by
  unfold terminalLine
  split_ifs
  · exact Nat.zero_le _
  · exact hfit

theorem toNat_ttyinNbs (n : ℕ) : (ttyinNbs n).toNat = min n 0xff := by
  unfold ttyinNbs
  split_ifs with h
  · rw [UInt16.toNat_ofNat_of_lt' (Nat.lt_trans h (by decide)), Nat.min_eq_left (Nat.le_of_lt h)]
  · rw [Nat.min_eq_right (Nat.le_of_not_lt h)]
    rfl

theorem ttyinNbs_eq_one (n : ℕ) : ttyinNbs n = 1 ↔ n = 1 := by
  rw [← UInt16.toNat_inj, toNat_ttyinNbs, show (1 : UInt16).toNat = 1 from rfl]
  omega

/-- The line is in `ttybuf`, with its length before it, and it is the one of the model on lists. -/
theorem ttyinLineAt_spec {n : ℕ} {os : σ} (hfit : (typedLine B n os).length ≤ min n 0xff) (ttybuf : LocalBuffer)
    (fp : Ccb) (stored : List UInt8) :
    let r := ttyinLineAt B (ttyinNbs n) ttybuf os
    Holds r.1 2 (terminalLine B n os) ∧ (r.1 1).toNat = (terminalLine B n os).length ∧
      ttyinLine B (min n 0xff) ⟨fp, os, stored⟩ = .ok (terminalLine B n os) ⟨fp, r.2, stored⟩ := by
  have hnbs := toNat_ttyinNbs n
  have hone := ttyinNbs_eq_one n
  generalize ttyinNbs n = nbs at hnbs hone ⊢
  by_cases h1 : n = 1
  · subst h1
    have hchar : ∀ m : LocalBuffer, storeAt (storeAt m 2 [(B.conin os).1]) 1 [1] 2 = (B.conin os).1 := fun _ => rfl
    simp only [ttyinLineAt, ttyinLine, terminalLine, typedLine, hone.mpr rfl, if_true, true_and, hchar,
      show min 1 0xff = 1 from rfl]
    by_cases hc : (B.conin os).1 = carriageReturn
    · rw [if_pos hc, if_pos hc]
      refine ⟨holds_nil _ _, rfl, ?_⟩
      show EStateM.Result.ok (if (B.conin os).1 = carriageReturn then [] else [(B.conin os).1]) _ = _
      rw [if_pos hc]
    · rw [if_neg hc, if_neg hc]
      refine ⟨(holds_storeAt _ 2 _).storeAt_of_ge (Nat.le_refl 2), rfl, ?_⟩
      show EStateM.Result.ok (if (B.conin os).1 = carriageReturn then [] else [(B.conin os).1]) _ = _
      rw [if_neg hc]
  · have hroom : (storeAt ttybuf 0 [nbs.toUInt8] 0).toNat = min n 0xff := by
      show nbs.toUInt8.toNat = _
      rw [UInt16.toNat_toUInt8, hnbs]
      omega
    simp only [typedLine, if_neg h1] at hfit
    simp only [ttyinLineAt, ttyinLine, terminalLine, typedLine, conbufAt, if_neg (mt hone.mp h1), hroom,
      if_neg (show ¬ min n 0xff = 1 by omega), h1, false_and, if_false]
    refine ⟨holds_storeAt _ 2 _, ?_, rfl⟩
    rw [storeAt_of_lt (by decide)]
    exact UInt8.toNat_ofNat_of_lt' (Nat.lt_of_le_of_lt hfit (show min n 0xff < 256 by omega))

/-! ### What the caller gets -/

/-- The terminal is read in lines. -/
def LineMode (fp : Ccb) : Prop :=
  fp.flags.ISSPTTY = true → sgHas fp.fcb.sgttyb RAW = false ∧ sgHas fp.fcb.sgttyb CBREAK = false

instance (fp : Ccb) : Decidable (LineMode fp) := inferInstanceAs (Decidable (_ → _))

/-- What a request of `n` characters is given of a line. -/
def readText (n : ℕ) (line : List UInt8) : List UInt8 :=
  if EOFCHAR ∈ line then line.takeWhile (· ≠ EOFCHAR)
  else if line.length < n then line ++ [newline] else line

theorem length_readText_le {n : ℕ} {line : List UInt8} (h : line.length ≤ n) : (readText n line).length ≤ n := by
  unfold readText
  split_ifs with heof hshort
  · exact Nat.le_trans (List.takeWhile_sublist _).length_le h
  · rw [List.length_append, List.length_singleton]
    exact hshort
  · exact h

theorem length_readText_le_succ (n : ℕ) (line : List UInt8) : (readText n line).length ≤ line.length + 1 := by
  unfold readText
  split_ifs with heof hshort
  · exact Nat.le_succ_of_le (List.takeWhile_sublist _).length_le
  · rw [List.length_append, List.length_singleton]
  · exact Nat.le_succ _

/-- The channel after a line. -/
def fpAfter (fp : Ccb) (line : List UInt8) : Ccb :=
  if EOFCHAR ∈ line then { fp with flags := { fp.flags with ATEOF := true } } else fp

/-- The BDOS after a line, with the end of a short line printed. -/
def osAfter (B : Osif σ) (n : ℕ) (line : List UInt8) (os : σ) : σ :=
  if line.length < min n 0xff then B.conout newline os else os

/-- **`_ttyin`**, from the line on. -/
theorem ttyinAt_eq {n : ℕ} {os : σ} (hfit : (typedLine B n os).length ≤ min n 0xff) (fp : Ccb)
    (ttybuf : LocalBuffer) (buff : ℕ → UInt8) :
    let line := terminalLine B n os
    let text := readText n line
    ttyinAt B n fp ttybuf buff os = ⟨Int16.ofNat text.length, fpAfter fp line,
      osAfter B n line (ttyinLineAt B (ttyinNbs n) ttybuf os).2, storeAt buff 0 text⟩ := by
  obtain ⟨hline, hcount, -⟩ := ttyinLineAt_spec hfit ttybuf fp []
  have hlen := length_terminalLine_le hfit
  have hnbs := toNat_ttyinNbs n
  simp only [ttyinAt]
  generalize ttyinNbs n = nbs at *
  generalize ttyinLineAt B nbs ttybuf os = r at *
  generalize terminalLine B n os = line at *
  have hxbytes : (r.1 1).toUInt16.toNat = line.length := (UInt8.toNat_toUInt16 _).trans hcount
  have hshort : (r.1 1).toUInt16 < nbs ↔ line.length < min n 0xff := by rw [UInt16.lt_iff_toNat_lt, hxbytes, hnbs]
  have hmove := ttyinMove_eq (Nat.le_trans hlen (Nat.min_le_left n 0xff))
  have hp : ∀ k : ℕ, ((2 + k : ℕ) : ℤ) - 2 = k := fun k => by omega
  simp only [ttyinMoveAt_eq hline hxbytes, hmove, hshort, hp, readText, fpAfter, osAfter, decide_eq_true_eq]
  by_cases heof : EOFCHAR ∈ line
  · simp only [if_pos heof]
    rfl
  · simp only [if_neg heof, takeWhile_of_not_mem heof]
    by_cases hroom : line.length < n
    · rw [if_pos (Nat.sub_pos_of_lt hroom), if_pos hroom, ← storeAt_append, List.length_append]
      rw [show ((2 + line.length : ℕ) : ℤ) + 1 - 2 = (line.length + 1 : ℕ) by omega]
      rfl
    · rw [if_neg (by omega), if_neg hroom]
      rfl

/-- `_ttyin` gives the caller a line: it returns how many characters it has stored, and stores
nothing behind them. -/
structure GivesLine (B : Osif σ) (n : ℕ) (fp : Ccb) (ttybuf : LocalBuffer) (buff : ℕ → UInt8) (os : σ)
    (line : List UInt8) : Prop where
  ret : (ttyinAt B n fp ttybuf buff os).ret.toInt = (readText n line).length
  le : (readText n line).length ≤ n
  text : Holds (ttyinAt B n fp ttybuf buff os).buff 0 (readText n line)
  frame : ∀ i, (readText n line).length ≤ i → (ttyinAt B n fp ttybuf buff os).buff i = buff i
  channel : (ttyinAt B n fp ttybuf buff os).fp = fpAfter fp line
  run : ∀ stored, wp (ttyin B n)
    (fun r s' => r = (readText n line).length ∧
      s' = ⟨fpAfter fp line, (ttyinAt B n fp ttybuf buff os).os, stored ++ readText n line⟩)
    (fun _ _ => False) ⟨fp, os, stored⟩

/-- The model on lists stores the same. -/
theorem wp_ttyin_line {n : ℕ} {fp : Ccb} (hmode : LineMode fp) {os : σ}
    (hfit : (typedLine B n os).length ≤ min n 0xff) (ttybuf : LocalBuffer) (stored : List UInt8) :
    let line := terminalLine B n os
    let os' := (ttyinLineAt B (ttyinNbs n) ttybuf os).2
    wp (ttyin B n)
      (fun r s' => r = (readText n line).length ∧
        s' = ⟨fpAfter fp line, osAfter B n line os', stored ++ readText n line⟩)
      (fun _ _ => False) ⟨fp, os, stored⟩ := by
  obtain ⟨-, -, hrun⟩ := ttyinLineAt_spec hfit ttybuf fp stored
  have hlen := length_terminalLine_le hfit
  simp only
  generalize (ttyinLineAt B (ttyinNbs n) ttybuf os).2 = os' at *
  generalize terminalLine B n os = line at *
  have hmove := ttyinMove_eq (Nat.le_trans hlen (Nat.min_le_left n 0xff))
  have hraw : ¬ (fp.flags.ISSPTTY = true ∧ sgHas fp.fcb.sgttyb RAW = true) := by
    rintro ⟨hsp, h⟩
    exact absurd ((hmode hsp).1.symm.trans h) (by decide)
  have hcbreak : ¬ (fp.flags.ISSPTTY = true ∧ sgHas fp.fcb.sgttyb CBREAK = true) := by
    rintro ⟨hsp, h⟩
    exact absurd ((hmode hsp).2.symm.trans h) (by decide)
  simp only [ttyin, wp_bind, wp_get, wp_ite, if_neg hraw, if_neg hcbreak, wp_of_eq_ok hrun, wp_whenever, wp_setOs,
    wp_store, hmove, wp_pure, setAteof, wp_setFp, readText, fpAfter, osAfter, decide_eq_true_eq]
  by_cases heof : EOFCHAR ∈ line
  · simp only [if_pos heof]
    split_ifs <;> exact ⟨trivial, rfl⟩
  · simp only [if_neg heof, takeWhile_of_not_mem heof, gt_iff_lt, Nat.sub_pos_iff_lt, List.append_assoc]
    by_cases hroom : line.length < n
    · simp only [if_pos hroom, List.length_append, List.length_singleton]
      split_ifs <;> exact ⟨trivial, rfl⟩
    · simp only [if_neg hroom]
      split_ifs <;> exact ⟨trivial, rfl⟩

/-- `read`, from a terminal that is read in lines and not at its end. -/
theorem wp_read_line {n k : ℕ} {w : World σ} (hk : k < 16) (hopen : (w.fds k).flags.OPENED = true)
    (htty : (w.fds k).flags.ISTTY = true) (hlpt : (w.fds k).flags.ISLPT = false) (heof : (w.fds k).flags.ATEOF = false)
    (hmode : LineMode (w.fds k)) (hfit : (typedLine B n w.os).length ≤ min n 0xff) :
    let line := terminalLine B n w.os
    wp (read B k n)
      (fun r w' => r.1 = (readText n line).length ∧ r.2 = readText n line ∧
        w'.fds = Function.update w.fds k (fpAfter (w.fds k) line))
      (fun _ _ => False) w := by
  have hlt : (k : ℤ) < MAXCCBS := by exact_mod_cast hk
  rw [read, wp_bind, wp_chkc_open hlt hopen, onCcbBuff, wp_onCcb, wp_bind, readFp, wp_bind, wp_get]
  simp only [heof, hlpt, htty, Bool.false_eq_true, if_false, if_true]
  refine wp_mono (wp_ttyin_line hmode hfit (fun _ => 0) []) ?_ (fun _ _ h => h)
  rintro r s' ⟨rfl, rfl⟩
  exact ⟨rfl, rfl, rfl⟩

/-- **What the caller gets of a line**: the characters before the first `EOFCHAR`, and otherwise the
line, with a newline if the line is short. -/
theorem givesLine {n : ℕ} {fp : Ccb} (hmode : LineMode fp) {os : σ} (hfit : (typedLine B n os).length ≤ min n 0xff)
    (ttybuf : LocalBuffer) (buff : ℕ → UInt8) : GivesLine B n fp ttybuf buff os (terminalLine B n os) := by
  have hlen := length_terminalLine_le hfit
  have htext := length_readText_le_succ n (terminalLine B n os)
  have hat := ttyinAt_eq hfit fp ttybuf buff
  simp only at hat
  refine ⟨?_, length_readText_le (Nat.le_trans hlen (Nat.min_le_left n 0xff)), ?_, ?_, ?_, fun stored => ?_⟩
  · rw [hat]
    exact Int16.toInt_ofNat_of_lt (by omega)
  · rw [hat]
    exact holds_storeAt buff 0 _
  · intro i hi
    rw [← Nat.zero_add (readText _ _).length] at hi
    rw [hat]
    exact storeAt_of_ge hi
  · rw [hat]
  · rw [hat]
    exact wp_ttyin_line hmode hfit ttybuf stored

/-- A terminal at which `a`, `^Z` and `b` are typed. -/
def eofOsif : Osif Unit := { willingOsif with conbuf := fun _ os => ([0x61, EOFCHAR, 0x62], os) }

theorem givesLine_eof : GivesLine eofOsif 300 (consoleOpen.fds 0) (fun _ => 0) (fun _ => 0) () [0x61, EOFCHAR, 0x62] :=
  @givesLine Unit eofOsif 300 (consoleOpen.fds 0) (by decide) () (by decide) (fun _ => 0) fun _ => 0

/-- A terminal at which a return is typed. -/
def returnOsif : Osif Unit := { willingOsif with conin := fun os => (carriageReturn, os) }

/-- A return from `CONIN` is not given to the caller. -/
theorem not_givesLine_return :
    LineMode (consoleOpen.fds 0) ∧ (typedLine returnOsif 1 ()).length ≤ min 1 0xff ∧
      ¬ GivesLine returnOsif 1 (consoleOpen.fds 0) (fun _ => 0) (fun _ => 0) () (typedLine returnOsif 1 ()) := by
  refine ⟨by decide, by decide, fun h => ?_⟩
  have hstored : newline = carriageReturn := h.text 0 (by decide)
  exact absurd hstored (by decide)

end Cpm68k.Cpmlib
