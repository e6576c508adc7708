import Cpm68k.Cpmlib.CommandTail
import Mathlib.Data.List.TakeWhile

/-!
# Any command tail

What `parse_args` makes of a tail that nobody has written as a list of arguments: a quote may not be
closed, arguments may touch, and a `NUL` may lie inside.

## The model

* `Splits text r` says how a text is to be read: `r` is the list of its arguments, or nothing, when
  it ends within quotes.
* `tailText` is the text of a tail. It ends with the length, after 126 characters, or at a `NUL`.

## What is proved

* `exists_splits` — every text can be read.
* `parseLoop_splits` — the loop reads it so, by induction on the reading.
* `parseArgs_tail` — `parse_args` ends on every tail, with the arguments, or with the error if a
  quote is not closed.
-/

namespace Cpm68k.Cpmlib

open Cpm68k.Library

/-! ### How a text is read -/

/-- How a text is divided into arguments. -/
inductive Splits : List UInt8 → Option (List (List UInt8)) → Prop
  /-- There is nothing left. -/
  | nil : Splits [] (some [])
  /-- White space is skipped. -/
  | blank {c : UInt8} {t : List UInt8} {r : Option (List (List UInt8))} :
    isspace c = true → Splits t r → Splits (c :: t) r
  /-- An argument between quotes; what follows need not be white space. -/
  | quoted (q : Quote) {w t : List UInt8} {r : Option (List (List UInt8))} :
    q.char ∉ w → Splits t r → Splits (q.char :: (w ++ q.char :: t)) (r.map (w :: ·))
  /-- A quote that is not closed. -/
  | unclosed (q : Quote) {w : List UInt8} : q.char ∉ w → Splits (q.char :: w) none
  /-- The last argument, with nothing behind it. -/
  | last {w : List UInt8} : Form.bare.Allows w → Splits w (some [w])
  /-- An argument up to white space; a quote inside it is a character. -/
  | bare {w : List UInt8} {c : UInt8} {t : List UInt8} {r : Option (List (List UInt8))} :
    Form.bare.Allows w → isspace c = true → Splits t r → Splits (w ++ c :: t) (r.map (w :: ·))

/-- A list with an element that satisfies `p` is divided at the first. -/
theorem exists_first {p : UInt8 → Bool} {t : List UInt8} (h : ∃ c ∈ t, p c = true) :
    ∃ w c t', t = w ++ c :: t' ∧ p c = true ∧ ∀ d ∈ w, p d = false := by
  induction t with
  | nil => simp at h
  | cons d t ih =>
    cases hd : p d with
    | true => exact ⟨[], d, t, rfl, hd, by simp⟩
    | false =>
      have ht : ∃ c ∈ t, p c = true := by simpa [hd] using h
      obtain ⟨w, c, t', rfl, hc, hw⟩ := ih ht
      exact ⟨d :: w, c, t', rfl, hc, List.forall_mem_cons.mpr ⟨hd, hw⟩⟩

/-- **Every text can be read.** -/
theorem exists_splits (t : List UInt8) : ∃ r, Splits t r := by
  induction hn : t.length using Nat.strong_induction_on generalizing t with
  | _ n ih =>
    subst hn
    cases t with
    | nil => exact ⟨_, .nil⟩
    | cons c t =>
      by_cases hspace : isspace c = true
      · obtain ⟨r, hr⟩ := ih t.length (by simp) t rfl
        exact ⟨r, .blank hspace hr⟩
      · by_cases hquote : ∃ q : Quote, c = q.char
        · obtain ⟨q, rfl⟩ := hquote
          by_cases hclosed : q.char ∈ t
          · obtain ⟨w, d, t', rfl, hd, hw⟩ := exists_first (p := fun d => decide (d = q.char)) ⟨q.char, hclosed, by simp⟩
            obtain rfl : d = q.char := by simpa using hd
            obtain ⟨r, hr⟩ := ih t'.length (by simp; omega) t' rfl
            exact ⟨_, .quoted q (fun hmem => by simpa using hw _ hmem) hr⟩
          · exact ⟨_, .unclosed q hclosed⟩
        · have hhead : ∀ q : Quote, c ≠ q.char := fun q hq => hquote ⟨q, hq⟩
          have hallows : ∀ w : List UInt8, (∀ d ∈ w, isspace d = false) → Form.bare.Allows (c :: w) := fun w hw =>
            ⟨List.cons_ne_nil _ _, List.forall_mem_cons.mpr ⟨by simpa using hspace, hw⟩, fun q hq => hhead q (by simpa using hq)⟩
          by_cases hend : ∃ d ∈ t, isspace d = true
          · obtain ⟨w, d, t', rfl, hd, hw⟩ := exists_first hend
            obtain ⟨r, hr⟩ := ih t'.length (by simp; omega) t' rfl
            exact ⟨_, .bare (hallows w hw) hd hr⟩
          · refine ⟨_, .last (hallows t fun d hd => ?_)⟩
            exact Bool.eq_false_iff.mpr fun h => hend ⟨d, hd, h⟩

/-! ### The loop -/

/-- The text of the error. -/
def unterminated : ParseStop := .err "unterminated quote$"

/-- A quote that the string does not contain is not found. -/
theorem strchr_none {mem : ℕ → UInt8} {c : UInt8} {t : List UInt8} {p fuel : ℕ} (h : CStringAt mem t p) (hc : c ∉ t)
    (hne : c ≠ 0) (hnul : 0 ∉ t) (hfuel : t.length < fuel) : strchr mem c fuel p = .ok none := by
  induction t generalizing p fuel with
  | nil =>
    obtain ⟨fuel, rfl⟩ := Nat.exists_eq_succ_of_ne_zero (Nat.ne_of_gt hfuel)
    have hp : mem p = 0 := (holds_cons.mp h).1
    rw [strchr, hp, if_neg (Ne.symm hne), if_pos rfl]
  | cons d t ih =>
    obtain ⟨fuel, rfl⟩ := Nat.exists_eq_succ_of_ne_zero (Nat.ne_zero_of_lt hfuel)
    obtain ⟨hd, h⟩ := holds_cons.mp h
    rw [List.mem_cons, not_or] at hc hnul
    rw [strchr, hd, if_neg (Ne.symm hc.1), if_neg (Ne.symm hnul.1), ih h hc.2 hnul.2 (Nat.lt_of_succ_lt_succ hfuel)]

/-- How the loop ends: with the arguments, or with the error. -/
def EndsWith (s : Parsed) (cp stop : ℕ) : Option (List (List UInt8)) → Prop
  | some texts => ParsesAll s cp stop texts
  | none => ∀ fuel, stop < cp + fuel → parseLoop fuel cp s = .error unterminated

/-- One turn of the loop adds an argument, and the rest of the text ends as it does. -/
theorem EndsWith.arg {s : Parsed} {cp cp' stop arg : ℕ} {t : List UInt8} {r : Option (List (List UInt8))}
    (ht : Holds s.mem arg t) (harg : cp ≤ arg) (hcp' : arg + t.length < cp') (hstop : arg + t.length ≤ stop)
    (hrun : ∀ fuel, stop ≤ cp + fuel →
      parseLoop (fuel + 1) cp s = parseLoop fuel cp' ((s.putNul (arg + t.length)).addArg arg))
    (h : EndsWith ((s.putNul (arg + t.length)).addArg arg) cp' stop r) : EndsWith s cp stop (r.map (t :: ·)) := by
  cases r with
  | some texts => exact ParsesAll.arg ht harg hcp' hstop hrun h
  | none =>
    intro fuel hfuel
    obtain ⟨k, rfl⟩ := Nat.exists_eq_succ_of_ne_zero (show fuel ≠ 0 by omega)
    rw [hrun k (by omega)]
    exact h k (by omega)

theorem EndsWith.blank {s : Parsed} {c : UInt8} {cp stop : ℕ} {r : Option (List (List UInt8))} (hc : s.mem cp = c)
    (hspace : isspace c = true) (hstop : cp + 1 ≤ stop) (h : EndsWith s (cp + 1) stop r) : EndsWith s cp stop r := by
  have hblank : Holds s.mem cp [c] := holds_cons.mpr ⟨hc, holds_nil _ _⟩
  have hall : ∀ d ∈ [c], isspace d = true := by simpa using hspace
  cases r with
  | some texts => exact @ParsesAll.blanks ⟨[c], hall⟩ _ _ _ _ hblank hstop h
  | none =>
    intro fuel hfuel
    obtain ⟨k, rfl⟩ := Nat.exists_eq_add_of_le (show [c].length ≤ fuel by simp; omega)
    rw [parseLoop_blanks hall hblank]
    exact h k (by simp at hfuel ⊢; omega)

/-- **The loop** reads the rest of a tail: by induction on the reading. -/
theorem parseLoop_splits {t : List UInt8} {r : Option (List (List UInt8))} (hr : Splits t r) {s : Parsed} {cp stop : ℕ}
    (h : CStringAt s.mem t cp) (hnul : 0 ∉ t) (hstop : cp + t.length = stop) : EndsWith s cp stop r := by
  induction hr generalizing s cp with
  | nil =>
    refine ⟨s, fun fuel hfuel => ?_, Parses.refl _ _ _⟩
    obtain ⟨k, rfl⟩ := Nat.exists_eq_succ_of_ne_zero (show fuel ≠ 0 by omega)
    rw [parseLoop, if_pos (holds_cons.mp h).1]
  | blank hspace _ ih =>
    obtain ⟨hc, h⟩ := holds_cons.mp h
    rw [List.length_cons] at hstop
    rw [List.mem_cons, not_or] at hnul
    exact EndsWith.blank hc hspace (by omega) (ih h hnul.2 (by omega))
  | @quoted q w t r hq _ ih =>
    rw [List.length_cons, List.length_append, List.length_cons] at hstop
    simp only [List.mem_cons, List.mem_append, not_or] at hnul
    have hparts : Holds s.mem cp ((q.char :: (w ++ [q.char])) ++ (t ++ [0])) := by simpa [CStringAt] using h
    obtain ⟨hword, hrest⟩ := holds_append.mp hparts
    have hw : Holds s.mem (cp + 1) w := (holds_append.mp (holds_cons.mp hword).2).1
    simp only [List.length_cons, List.length_append, List.length_nil] at hrest
    refine EndsWith.arg hw (Nat.le_succ cp) (Nat.lt_add_one _) (by omega)
      (fun fuel hfuel => parseLoop_quoted hword hq hnul.2.1 (by omega)) (ih ?_ hnul.2.2.2 (by omega))
    exact Holds.storeAt_of_ge (by rwa [show cp + 1 + w.length + 1 = cp + (w.length + (0 + 1) + 1) by omega]) (Nat.le_refl _)
  | @unclosed q w hq =>
    obtain ⟨hc, h⟩ := holds_cons.mp h
    rw [List.length_cons] at hstop
    rw [List.mem_cons, not_or] at hnul
    intro fuel hfuel
    obtain ⟨k, rfl⟩ := Nat.exists_eq_succ_of_ne_zero (show fuel ≠ 0 by omega)
    rw [parseLoop, hc, if_neg q.char_ne_zero, if_neg (by rw [q.isspace_char]; decide), if_pos (isQuote_iff.mpr ⟨q, rfl⟩),
      strchr_none h hq q.char_ne_zero hnul.2 (by omega)]
    rfl
  | @last w hw =>
    refine ⟨(s.putNul (cp + w.length)).addArg cp, fun fuel hfuel => ?_, ?_⟩
    · obtain ⟨k, rfl⟩ := Nat.exists_eq_succ_of_ne_zero (show fuel ≠ 0 by omega)
      exact parseLoop_last h hw hnul (by omega)
    · exact Parses.cons (holds_append.mp h).1 (Nat.le_refl cp) (Nat.lt_add_one _) (by omega) (Parses.refl _ _ _)
  | @bare w c t r hw hc _ ih =>
    rw [List.length_append, List.length_cons] at hstop
    simp only [List.mem_cons, List.mem_append, not_or] at hnul
    have hparts : Holds s.mem cp ((w ++ [c]) ++ (t ++ [0])) := by simpa [CStringAt] using h
    obtain ⟨hword, hrest⟩ := holds_append.mp hparts
    rw [List.length_append, List.length_singleton] at hrest
    have hcne : c ≠ 0 := fun h0 => hnul.2.1 h0.symm
    refine EndsWith.arg (holds_append.mp hword).1 (Nat.le_refl cp) (Nat.lt_add_one _) (by omega) (fun fuel hfuel => ?_)
      (ih ?_ hnul.2.2 (by omega))
    · rw [parseLoop_bare hword hw hnul.1 (.inl hc) (by omega), if_neg hcne]
    · exact hrest.storeAt_of_ge (Nat.le_refl _)

/-! ### The whole tail -/

/-- The text of a tail. -/
def tailText (tail : ℕ) (mem : ℕ → UInt8) : List UInt8 :=
  ((List.range (min (mem tail).toNat 126)).map fun i => mem (tail + 1 + i)).takeWhile (· ≠ 0)

theorem zero_notMem_takeWhile (l : List UInt8) : 0 ∉ l.takeWhile (· ≠ 0) := by
  intro h
  have hne := List.mem_takeWhile_imp h
  simp at hne

/-- A string in memory ends at the first `NUL`. -/
theorem cstringAt_takeWhile {mem : ℕ → UInt8} {l : List UInt8} {p : ℕ} (h : CStringAt mem l p) :
    CStringAt mem (l.takeWhile (· ≠ 0)) p := by
  induction l generalizing p with
  | nil => exact h
  | cons c l ih =>
    obtain ⟨hc, h⟩ := holds_cons.mp h
    by_cases h0 : c = 0
    · subst h0
      exact holds_cons.mpr ⟨hc, holds_nil _ _⟩
    · rw [List.takeWhile_cons_of_pos (by simpa using h0)]
      exact holds_cons.mpr ⟨hc, ih h⟩

theorem length_tailText_le (tail : ℕ) (mem : ℕ → UInt8) : (tailText tail mem).length ≤ min (mem tail).toNat 126 := by
  refine (List.takeWhile_sublist _).length_le.trans ?_
  simp

/-- From the start of the loop, with the `NUL` stored behind `n` characters. -/
theorem Parses.parsedBack {program tail n stop : ℕ} {mem : ℕ → UInt8} {texts : List (List UInt8)} {s : Parsed}
    (h : Parses ((Parsed.addArg ⟨mem, [], 0, fun _ => 0⟩ program).putNul (tail + 1 + n)) (tail + 1) stop texts s)
    (hn : n ≤ 126) (hstop : stop ≤ tail + 127) : ParsedBack program tail mem texts s := by
  obtain ⟨ptrs, hargv, hptrs⟩ := h.argv
  obtain ⟨new, hstores, hnew⟩ := h.stores
  have hat : Holds s.argv 0 (program :: ptrs) := by
    rw [hargv]
    exact holds_cons.mpr ⟨rfl, holds_storeAt _ 1 ptrs⟩
  refine ⟨h.argc, (holds_cons.mp hat).1, fun i hi => ?_, ?_, fun a ha => ?_⟩
  · rw [(holds_cons.mp hat).2 i (hptrs.length_eq ▸ hi)]
    exact hptrs.get hi (hptrs.length_eq ▸ hi)
  · rw [hstores, List.forall_mem_append]
    refine ⟨fun a ha => ?_, fun a ha => ?_⟩
    · obtain rfl := List.mem_singleton.mp ha
      omega
    · have := hnew a ha
      omega
  · rw [h.frame a (by omega)]
    rcases ha with hlt | hge
    · exact storeAt_of_lt (by omega)
    · refine storeAt_of_ge ?_
      rw [List.length_singleton]
      omega

/-- What `parse_args` does with a tail that is read as `r`. -/
def Reads (program tail : ℕ) (mem : ℕ → UInt8) : Option (List (List UInt8)) → Prop
  | some texts => ∃ s, (∀ fuel, 126 < fuel → parseArgs fuel program tail mem = .ok s) ∧ ParsedBack program tail mem texts s
  | none => ∀ fuel, 126 < fuel → parseArgs fuel program tail mem = .error unterminated

/-- **`parse_args`** ends on every tail with a length below 128. It makes the arguments that the
text is divided into, and stores nothing outside the tail; or it prints the error, when a quote is
not closed. -/
theorem parseArgs_tail (program : ℕ) {tail : ℕ} {mem : ℕ → UInt8} (hlen : (mem tail).toNat < 128) :
    (∃ r, Splits (tailText tail mem) r) ∧ ∀ r, Splits (tailText tail mem) r → Reads program tail mem r := by
  refine ⟨exists_splits _, fun r hr => ?_⟩
  have hsigned : (mem tail).toInt8.toInt = (mem tail).toNat := by
    rw [← UInt8.ofNat_toNat (x := mem tail), UInt8.toInt8_ofNat', Int8.toInt_ofNat_of_lt (by omega), UInt8.ofNat_toNat]
  let n := min (mem tail).toNat 126
  have hn : n ≤ 126 := Nat.min_le_right _ _
  have hcut : (if ((mem tail).toNat : ℤ) > 0x7e then (0x7e : ℤ) else (mem tail).toNat) = (n : ℕ) := by
    simp only [n]
    split_ifs <;> omega
  have hend : (((tail + 1 : ℕ) : ℤ) + (n : ℕ)).toNat = tail + 1 + n := rfl
  let s₀ : Parsed := (Parsed.addArg ⟨mem, [], 0, fun _ => 0⟩ program).putNul (tail + 1 + n)
  have hparse : ∀ fuel, parseArgs fuel program tail mem = parseLoop fuel (tail + 1) s₀ := fun fuel => by
    simp only [parseArgs, hsigned, hcut, hend, s₀]
  have hall : Holds mem (tail + 1) ((List.range n).map fun i => mem (tail + 1 + i)) := by
    intro i hi
    simp
  have hline : CStringAt s₀.mem ((List.range n).map fun i => mem (tail + 1 + i)) (tail + 1) := by
    refine holds_append.mpr ⟨hall.storeAt_of_le (by simp), ?_⟩
    rw [List.length_map, List.length_range]
    exact holds_storeAt mem (tail + 1 + n) [0]
  have hshort : (tailText tail mem).length ≤ n := length_tailText_le tail mem
  have hloop := parseLoop_splits hr (cstringAt_takeWhile hline) (zero_notMem_takeWhile _) rfl
  cases r with
  | none => exact fun fuel hfuel => (hparse fuel).trans (hloop fuel (by simp only [tailText, n] at hshort ⊢; omega))
  | some texts =>
    obtain ⟨s, hrun, hs⟩ := hloop
    exact ⟨s, fun fuel hfuel => (hparse fuel).trans (hrun fuel (by simp only [tailText, n] at hshort ⊢; omega)),
      hs.parsedBack hn (by simp only [tailText, n] at hshort ⊢; omega)⟩

/-- A page with the tail `'a'b "c`: two arguments that touch, and a quote that is not closed. -/
def touchingPage : ℕ → UInt8 := storeAt (fun _ => 0) 128 [7, 0x27, 0x61, 0x27, 0x62, 0x20, 0x22, 0x63]

theorem parseArgs_tail_touching :
    (∃ r, Splits (tailText 128 touchingPage) r) ∧ ∀ r, Splits (tailText 128 touchingPage) r → Reads 0 128 touchingPage r :=
  parseArgs_tail 0 (show (touchingPage 128).toNat < 128 by decide)

end Cpm68k.Cpmlib
