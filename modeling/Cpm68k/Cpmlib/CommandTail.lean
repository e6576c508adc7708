import Mathlib.Data.Int.Notation
import Mathlib.Data.List.Forall2
import Mathlib.Tactic.SplitIfs
import Cpm68k.Library.Memory

/-!
# The command tail

`parse_args` of `cpmlib/_main.c`, which divides the tail of the command line into arguments.

## The model

* The tail is in memory, with its length in the byte before it: 128 bytes from the address `tail`
  on. The arguments are ended in place, and `argv` is an array of addresses.
* A scan, and the loop of `parse_args`, is given a bound on its steps, and says so when it comes to
  its end. `realloc` gives the memory that it is asked for.
* `Parsed.stores` lists the addresses that are stored to. The array `argv` is elsewhere.

## What is proved

* `parseLoop_args` — the loop on the rest of a tail, by induction on the arguments.
* `parseArgs_commandLine` — every list of arguments is parsed back from a command line in which each
  is written as it is or between quotes.
-/

namespace Cpm68k.Cpmlib

open Cpm68k.Library

/-! ### The functions of the source -/

/-- Why `parse_args` does not return. -/
inductive ParseStop where
  /-- `err`, with the text that it prints before it calls `exit`. -/
  | err (msg : String)
  /-- The bound on the number of steps. -/
  | bound
  deriving DecidableEq

/-- `isspace`, of the C locale. -/
def isspace (c : UInt8) : Bool := c = 0x20 ∨ (0x09 ≤ c ∧ c ≤ 0x0d)

/-- `'"'`. -/
def doubleQuote : UInt8 := 0x22

/-- `'\''`. -/
def singleQuote : UInt8 := 0x27

/-- `strchr`: the first place from `s` on that holds `c`, if the string does. -/
def strchr (mem : ℕ → UInt8) (c : UInt8) : ℕ → ℕ → Except ParseStop (Option ℕ)
  | 0, _ => .error .bound
  | fuel + 1, s =>
    if mem s = c then .ok (some s)
    else if mem s = 0 then .ok none
    else strchr mem c fuel (s + 1)

/-- The end of a bare argument: `while (!isspace(*ep) && *ep) ep++`. -/
def argEnd (mem : ℕ → UInt8) : ℕ → ℕ → Except ParseStop ℕ
  | 0, _ => .error .bound
  | fuel + 1, ep => if isspace (mem ep) = false ∧ mem ep ≠ 0 then argEnd mem fuel (ep + 1) else .ok ep

/-- What `parse_args` has done. -/
structure Parsed where
  mem : ℕ → UInt8
  stores : List ℕ
  argc : ℕ
  argv : ℕ → ℕ

/-- `*ep = '\0'`. -/
def Parsed.putNul (s : Parsed) (ep : ℕ) : Parsed :=
  { s with mem := storeAt s.mem ep [0], stores := s.stores ++ [ep] }

/-- `add_arg`. -/
def Parsed.addArg (s : Parsed) (arg : ℕ) : Parsed :=
  { s with argv := storeAt s.argv s.argc [arg], argc := s.argc + 1 }

/-- The loop of `parse_args`. -/
def parseLoop : ℕ → ℕ → Parsed → Except ParseStop Parsed
  | 0, _, _ => .error .bound
  | fuel + 1, cp, s =>
    if s.mem cp = 0 then .ok s
    else if isspace (s.mem cp) = true then parseLoop fuel (cp + 1) s
    else if s.mem cp = doubleQuote ∨ s.mem cp = singleQuote then do
      match ← strchr s.mem (s.mem cp) fuel (cp + 1) with
      | none => .error (.err "unterminated quote$")
      | some ep => parseLoop fuel (ep + 1) ((s.putNul ep).addArg (cp + 1))
    else do
      let ep ← argEnd s.mem fuel (cp + 1)
      let terminal := s.mem ep = 0
      parseLoop fuel (if terminal then ep else ep + 1) ((s.putNul ep).addArg cp)

/-- `parse_args`, with the address of the name `"program"`. The length is a `char`, which has a
sign. -/
def parseArgs (fuel program tail : ℕ) (mem : ℕ → UInt8) : Except ParseStop Parsed :=
  let s := Parsed.addArg ⟨mem, [], 0, fun _ => 0⟩ program
  let len := (mem tail).toInt8.toInt
  let len := if len > 0x7e then 0x7e else len
  let cp := tail + 1
  parseLoop fuel cp (s.putNul (cp + len).toNat)

/-! ### Command lines -/

/-- The quotes. -/
inductive Quote where
  | double
  | single

/-- The character. -/
def Quote.char : Quote → UInt8
  | double => doubleQuote
  | single => singleQuote

/-- How an argument is written. -/
inductive Form where
  /-- As it is. -/
  | bare
  /-- Between quotes. -/
  | quoted (q : Quote)

/-- The argument may be written in this way. -/
def Form.Allows : Form → List UInt8 → Prop
  | bare, text => text ≠ [] ∧ (∀ c ∈ text, isspace c = false) ∧ ∀ q : Quote, text.head? ≠ some q.char
  | quoted q, text => q.char ∉ text

/-- An argument, and how it is written. -/
structure Arg where
  text : List UInt8
  form : Form
  ascii : ∀ c ∈ text, c < 0x80
  noNul : 0 ∉ text
  allowed : form.Allows text

/-- What is written for an argument. -/
def Arg.render (a : Arg) : List UInt8 :=
  match a.form with
  | .bare => a.text
  | .quoted q => q.char :: (a.text ++ [q.char])

/-- White space, of any length. -/
def Blanks := { sp : List UInt8 // ∀ c ∈ sp, isspace c = true }

/-- Arguments, each with the white space behind it. -/
def renderArgs : List (Arg × Blanks) → List UInt8
  | [] => []
  | (a, sp) :: args => a.render ++ sp.val ++ renderArgs args

/-- There is white space between neighbours. -/
def Separated : List (Arg × Blanks) → Prop
  | [] => True
  | (_, sp) :: args => (args ≠ [] → sp.val ≠ []) ∧ Separated args

/-- The tail of a command line. -/
structure CommandLine where
  lead : Blanks
  args : List (Arg × Blanks)
  separated : Separated args

/-- The characters of the tail. -/
def CommandLine.text (c : CommandLine) : List UInt8 := c.lead.val ++ renderArgs c.args

/-- The string `t` is at the address `p`. -/
def CStringAt (mem : ℕ → UInt8) (t : List UInt8) (p : ℕ) : Prop := Holds mem p (t ++ [0])

/-! ### The scans -/

/-- A quote is found behind what does not contain it. -/
theorem strchr_eq {mem : ℕ → UInt8} {c : UInt8} {t : List UInt8} {p fuel : ℕ} (h : Holds mem p (t ++ [c]))
    (hc : c ∉ t) (hnul : 0 ∉ t) (hfuel : t.length < fuel) : strchr mem c fuel p = .ok (some (p + t.length)) := by
  induction t generalizing p fuel with
  | nil =>
    obtain ⟨fuel, rfl⟩ := Nat.exists_eq_succ_of_ne_zero (Nat.ne_of_gt hfuel)
    exact if_pos (holds_cons.mp h).1
  | cons d t ih =>
    obtain ⟨fuel, rfl⟩ := Nat.exists_eq_succ_of_ne_zero (Nat.ne_zero_of_lt hfuel)
    obtain ⟨hd, h⟩ := holds_cons.mp h
    rw [List.mem_cons, not_or] at hc hnul
    rw [strchr, hd, if_neg (Ne.symm hc.1), if_neg (Ne.symm hnul.1), ih h hc.2 hnul.2 (Nat.lt_of_succ_lt_succ hfuel),
      List.length_cons, Nat.add_assoc, Nat.add_comm 1]

/-- A bare argument ends at white space, or with the tail. -/
theorem argEnd_eq {mem : ℕ → UInt8} {d : UInt8} {t : List UInt8} {p fuel : ℕ} (h : Holds mem p (t ++ [d]))
    (ht : ∀ c ∈ t, isspace c = false) (hnul : 0 ∉ t) (hd : isspace d = true ∨ d = 0) (hfuel : t.length < fuel) :
    argEnd mem fuel p = .ok (p + t.length) := by
  induction t generalizing p fuel with
  | nil =>
    obtain ⟨fuel, rfl⟩ := Nat.exists_eq_succ_of_ne_zero (Nat.ne_of_gt hfuel)
    have hp : mem p = d := (holds_cons.mp h).1
    have hstop : ¬ (isspace d = false ∧ d ≠ 0) := by
      rintro ⟨hspace, hne⟩
      exact hd.elim (fun h => absurd (h.symm.trans hspace) (by decide)) hne
    rw [argEnd, hp, if_neg hstop]
    rfl
  | cons c t ih =>
    obtain ⟨fuel, rfl⟩ := Nat.exists_eq_succ_of_ne_zero (Nat.ne_zero_of_lt hfuel)
    obtain ⟨hc, h⟩ := holds_cons.mp h
    obtain ⟨hspace, ht⟩ := List.forall_mem_cons.mp ht
    rw [List.mem_cons, not_or] at hnul
    rw [argEnd, hc, if_pos ⟨hspace, Ne.symm hnul.1⟩, ih h ht hnul.2 (Nat.lt_of_succ_lt_succ hfuel), List.length_cons,
      Nat.add_assoc, Nat.add_comm 1]

/-! ### The loop -/

/-- Leading white space is skipped. -/
theorem parseLoop_blanks {sp : List UInt8} (hsp : ∀ c ∈ sp, isspace c = true) {s : Parsed} {p : ℕ}
    (h : Holds s.mem p sp) (fuel : ℕ) : parseLoop (sp.length + fuel) p s = parseLoop fuel (p + sp.length) s := by
  induction sp generalizing p with
  | nil => rw [List.length_nil, Nat.zero_add, Nat.add_zero]
  | cons c sp ih =>
    obtain ⟨hc, h⟩ := holds_cons.mp h
    obtain ⟨hspace, hsp⟩ := List.forall_mem_cons.mp hsp
    have hne : c ≠ 0 := fun h0 => absurd (h0 ▸ hspace) (by decide)
    rw [List.length_cons, Nat.add_right_comm, parseLoop, hc, if_neg hne, if_pos hspace, ih hsp h, Nat.add_assoc,
      Nat.add_comm 1]

theorem Quote.char_ne_zero (q : Quote) : q.char ≠ 0 := by cases q <;> decide

theorem Quote.isspace_char (q : Quote) : isspace q.char = false := by cases q <;> decide

theorem isQuote_iff {c : UInt8} : c = doubleQuote ∨ c = singleQuote ↔ ∃ q : Quote, c = q.char := by
  constructor
  · rintro (rfl | rfl)
    · exact ⟨.double, rfl⟩
    · exact ⟨.single, rfl⟩
  · rintro ⟨q, rfl⟩
    cases q
    · exact .inl rfl
    · exact .inr rfl

/-- An argument between quotes is ended at the second one. -/
theorem parseLoop_quoted {s : Parsed} {q : Quote} {t : List UInt8} {p fuel : ℕ}
    (h : Holds s.mem p (q.char :: (t ++ [q.char]))) (hq : q.char ∉ t) (hnul : 0 ∉ t) (hfuel : t.length < fuel) :
    parseLoop (fuel + 1) p s =
      parseLoop fuel (p + 1 + t.length + 1) ((s.putNul (p + 1 + t.length)).addArg (p + 1)) := by
  obtain ⟨hp, h⟩ := holds_cons.mp h
  rw [parseLoop, hp, if_neg q.char_ne_zero, if_neg (by rw [q.isspace_char]; decide), if_pos (isQuote_iff.mpr ⟨q, rfl⟩),
    strchr_eq h hq hnul hfuel]
  rfl

/-- A bare argument is ended at the white space behind it. -/
theorem parseLoop_bare {s : Parsed} {d : UInt8} {t : List UInt8} {p fuel : ℕ} (h : Holds s.mem p (t ++ [d]))
    (ht : Form.bare.Allows t) (hnul : 0 ∉ t) (hd : isspace d = true ∨ d = 0) (hfuel : t.length ≤ fuel) :
    parseLoop (fuel + 1) p s =
      parseLoop fuel (if d = 0 then p + t.length else p + t.length + 1) ((s.putNul (p + t.length)).addArg p) := by
  obtain ⟨hne, hspace, hquote⟩ := ht
  obtain ⟨c, t, rfl⟩ := List.exists_cons_of_ne_nil hne
  obtain ⟨hend, hd'⟩ := holds_append.mp h
  obtain ⟨hc, h⟩ := holds_cons.mp h
  obtain ⟨hcspace, ht⟩ := List.forall_mem_cons.mp hspace
  rw [List.mem_cons, not_or] at hnul
  have hlen : p + (c :: t).length = p + 1 + t.length := by rw [List.length_cons, Nat.add_assoc, Nat.add_comm 1]
  have hcquote : ¬ (c = doubleQuote ∨ c = singleQuote) := by
    rw [isQuote_iff]
    rintro ⟨q, rfl⟩
    exact hquote q rfl
  rw [hlen] at hd' ⊢
  rw [parseLoop, hc, if_neg (Ne.symm hnul.1), if_neg (by rw [hcspace]; decide), if_neg hcquote,
    argEnd_eq h ht hnul.2 hd hfuel, ← (holds_cons.mp hd').1]
  rfl

/-- A bare argument at the end of the tail is the last one. -/
theorem parseLoop_last {s : Parsed} {t : List UInt8} {p fuel : ℕ} (h : Holds s.mem p (t ++ [0]))
    (ht : Form.bare.Allows t) (hnul : 0 ∉ t) (hfuel : t.length ≤ fuel) :
    parseLoop (fuel + 1) p s = .ok ((s.putNul (p + t.length)).addArg p) := by
  have hpos := List.length_pos_iff.mpr ht.1
  obtain ⟨fuel, rfl⟩ := Nat.exists_eq_succ_of_ne_zero (show fuel ≠ 0 by omega)
  have hend : ((s.putNul (p + t.length)).addArg p).mem (p + t.length) = 0 :=
    (holds_cons.mp (holds_storeAt s.mem (p + t.length) [0])).1
  rw [parseLoop_bare h ht hnul (.inr rfl) hfuel, if_pos rfl, parseLoop, if_pos hend]

/-! ### What is parsed -/

/-- From `s`, at `cp`, the strings `texts` have been added to the arguments. What lies before `cp` and
behind `stop` is as it was. -/
structure Parses (s : Parsed) (cp stop : ℕ) (texts : List (List UInt8)) (s' : Parsed) : Prop where
  argc : s'.argc = s.argc + texts.length
  argv : ∃ ptrs, s'.argv = storeAt s.argv s.argc ptrs ∧ List.Forall₂ (CStringAt s'.mem) texts ptrs
  stores : ∃ new, s'.stores = s.stores ++ new ∧ ∀ a ∈ new, cp ≤ a ∧ a ≤ stop
  frame : ∀ a, a < cp ∨ stop < a → s'.mem a = s.mem a

theorem Parses.refl (s : Parsed) (cp stop : ℕ) : Parses s cp stop [] s where
  argc := rfl
  argv := ⟨[], (storeAt_nil _ _).symm, .nil⟩
  stores := ⟨[], (List.append_nil _).symm, fun _ h => absurd h List.not_mem_nil⟩
  frame _ _ := rfl

/-- One argument, and the others behind the `NUL` at its end. -/
theorem Parses.cons {s s' : Parsed} {cp cp' stop arg : ℕ} {t : List UInt8} {texts : List (List UInt8)}
    (ht : Holds s.mem arg t) (harg : cp ≤ arg) (hcp' : arg + t.length < cp') (hstop : arg + t.length ≤ stop)
    (h : Parses ((s.putNul (arg + t.length)).addArg arg) cp' stop texts s') : Parses s cp stop (t :: texts) s' where
  argc := by
    rw [h.argc, List.length_cons, Nat.add_comm texts.length, ← Nat.add_assoc]
    rfl
  argv := by
    obtain ⟨ptrs, hargv, hptrs⟩ := h.argv
    refine ⟨arg :: ptrs, ?_, .cons ?_ hptrs⟩
    · rw [hargv]
      exact storeAt_append s.argv s.argc [arg] ptrs
    · -- the string ends before `cp'`, so the other arguments leave it as it is
      have hstring : Holds ((s.putNul (arg + t.length)).addArg arg).mem arg (t ++ [0]) :=
        holds_append.mpr ⟨ht.storeAt_of_le (Nat.le_refl _), holds_storeAt _ _ _⟩
      refine hstring.congr fun j _ hj => h.frame j (.inl ?_)
      rw [List.length_append, List.length_singleton] at hj
      omega
  stores := by
    obtain ⟨new, hstores, hnew⟩ := h.stores
    refine ⟨(arg + t.length) :: new, ?_, ?_⟩
    · rw [hstores]
      exact List.append_assoc _ _ _
    · rw [List.forall_mem_cons]
      exact ⟨⟨by omega, hstop⟩, fun a ha => ⟨by have := (hnew a ha).1; omega, (hnew a ha).2⟩⟩
  frame a ha := by
    rw [h.frame a (by omega)]
    rcases Nat.lt_or_gt_of_ne (show a ≠ arg + t.length by omega) with hlt | hgt
    · exact storeAt_of_lt hlt
    · exact storeAt_of_ge hgt

/-- The loop comes to its end, with `texts` added to the arguments. -/
def ParsesAll (s : Parsed) (cp stop : ℕ) (texts : List (List UInt8)) : Prop :=
  ∃ s', (∀ fuel, stop < cp + fuel → parseLoop fuel cp s = .ok s') ∧ Parses s cp stop texts s'

theorem ParsesAll.blanks {sp : Blanks} {s : Parsed} {cp stop : ℕ} {texts : List (List UInt8)}
    (hsp : Holds s.mem cp sp.val) (hstop : cp + sp.val.length ≤ stop) (h : ParsesAll s (cp + sp.val.length) stop texts) :
    ParsesAll s cp stop texts := by
  obtain ⟨s', hrun, hparses⟩ := h
  refine ⟨s', fun fuel hfuel => ?_, hparses.argc, hparses.argv, ?_, fun a ha => hparses.frame a (by omega)⟩
  · obtain ⟨k, rfl⟩ := Nat.exists_eq_add_of_le (show sp.val.length ≤ fuel by omega)
    rw [parseLoop_blanks sp.property hsp, hrun k (by omega)]
  · obtain ⟨new, hstores, hnew⟩ := hparses.stores
    exact ⟨new, hstores, fun a ha => ⟨Nat.le_trans (Nat.le_add_right _ _) (hnew a ha).1, (hnew a ha).2⟩⟩

/-- One turn of the loop adds an argument. -/
theorem ParsesAll.arg {s : Parsed} {cp cp' stop arg : ℕ} {t : List UInt8} {texts : List (List UInt8)}
    (ht : Holds s.mem arg t) (harg : cp ≤ arg) (hcp' : arg + t.length < cp') (hstop : arg + t.length ≤ stop)
    (hrun : ∀ fuel, stop ≤ cp + fuel →
      parseLoop (fuel + 1) cp s = parseLoop fuel cp' ((s.putNul (arg + t.length)).addArg arg))
    (h : ParsesAll ((s.putNul (arg + t.length)).addArg arg) cp' stop texts) : ParsesAll s cp stop (t :: texts) := by
  obtain ⟨s', hrest, hparses⟩ := h
  refine ⟨s', fun fuel hfuel => ?_, Parses.cons ht harg hcp' hstop hparses⟩
  obtain ⟨k, rfl⟩ := Nat.exists_eq_succ_of_ne_zero (show fuel ≠ 0 by omega)
  rw [hrun k (by omega), hrest k (by omega)]

/-- **The loop** parses the rest of a tail: by induction on the arguments. -/
theorem parseLoop_args {args : List (Arg × Blanks)} (hsep : Separated args) (sp : Blanks) {cp stop : ℕ} {s : Parsed}
    (h : Holds s.mem cp (sp.val ++ (renderArgs args ++ [0])))
    (hstop : cp + sp.val.length + (renderArgs args).length = stop) :
    ParsesAll s cp stop (args.map fun a => a.1.text) := by
  induction args generalizing sp cp s with
  | nil =>
    obtain ⟨hblanks, hnul⟩ := holds_append.mp h
    refine ParsesAll.blanks hblanks (by omega) ⟨s, fun fuel hfuel => ?_, Parses.refl _ _ _⟩
    obtain ⟨k, rfl⟩ := Nat.exists_eq_succ_of_ne_zero (show fuel ≠ 0 by omega)
    rw [parseLoop, if_pos (holds_cons.mp hnul).1]
  | cons arg args ih =>
    obtain ⟨⟨text, form, hascii, hnul, hallowed⟩, sp'⟩ := arg
    obtain ⟨hblank, hsep⟩ := hsep
    obtain ⟨hblanks, h⟩ := holds_append.mp h
    simp only [renderArgs, Arg.render, List.append_assoc, List.length_append] at h hstop
    refine ParsesAll.blanks hblanks (by omega) ?_
    generalize cp + sp.val.length = p at *
    obtain ⟨harg, hrest⟩ := holds_append.mp h
    cases form with
    | quoted q =>
      simp only [List.length_cons, List.length_append, List.length_nil] at hstop hrest
      have htext : Holds s.mem (p + 1) text := (holds_append.mp (holds_cons.mp harg).2).1
      refine ParsesAll.arg (t := text) htext (Nat.le_succ p) (Nat.lt_add_one _) (by omega)
        (fun fuel hfuel => parseLoop_quoted harg hallowed hnul (by omega)) (ih hsep sp' ?_ (by omega))
      exact Holds.storeAt_of_ge (by rwa [Nat.add_right_comm p]) (Nat.le_refl _)
    | bare =>
      obtain ⟨sp', hsp'⟩ := sp'
      cases sp' with
      | nil =>
        -- the last argument, up to the end of the tail
        have hargs : args = [] := by
          by_contra hne
          exact hblank hne rfl
        subst hargs
        simp only [renderArgs, List.length_nil] at hstop
        refine ⟨(s.putNul (p + text.length)).addArg p, fun fuel hfuel => ?_, ?_⟩
        · obtain ⟨k, rfl⟩ := Nat.exists_eq_succ_of_ne_zero (show fuel ≠ 0 by omega)
          exact parseLoop_last h hallowed hnul (by omega)
        · exact Parses.cons (t := text) harg (Nat.le_refl p) (Nat.lt_add_one _) (by omega) (Parses.refl _ _ _)
      | cons b sp' =>
        obtain ⟨hb, hsp'⟩ := List.forall_mem_cons.mp hsp'
        obtain ⟨hend, hrest⟩ := holds_cons.mp hrest
        have hbne : b ≠ 0 := fun h0 => absurd (h0 ▸ hb) (by decide)
        have hword : Holds s.mem p (text ++ [b]) := holds_append.mpr ⟨harg, holds_cons.mpr ⟨hend, holds_nil _ _⟩⟩
        simp only [List.length_cons] at hstop
        refine ParsesAll.arg (t := text) harg (Nat.le_refl p) (Nat.lt_add_one _) (by omega)
          (fun fuel hfuel => ?_) (ih hsep ⟨sp', hsp'⟩ (hrest.storeAt_of_ge (Nat.le_refl _)) ?_)
        · rw [parseLoop_bare hword hallowed hnul (.inl hb) (by omega), if_neg hbne]
        · show p + text.length + 1 + sp'.length + (renderArgs args).length = stop
          omega

/-! ### The whole tail -/

/-- The tail of a command line is in memory, with its length before it. -/
def TailAt (mem : ℕ → UInt8) (tail : ℕ) (text : List UInt8) : Prop :=
  mem tail = UInt8.ofNat text.length ∧ Holds mem (tail + 1) text

/-- What `parse_args` makes of arguments: `argc` and `argv`, and nothing stored outside the tail. -/
structure ParsedBack (program tail : ℕ) (mem : ℕ → UInt8) (texts : List (List UInt8)) (s : Parsed) : Prop where
  argc : s.argc = 1 + texts.length
  program : s.argv 0 = program
  argv : ∀ i (h : i < texts.length), CStringAt s.mem texts[i] (s.argv (1 + i))
  stores : ∀ a ∈ s.stores, tail ≤ a ∧ a < tail + 128
  frame : ∀ a, a < tail ∨ tail + 128 ≤ a → s.mem a = mem a

/-- **Arguments** are parsed back from every command line of at most 126 characters. -/
theorem parseArgs_commandLine (c : CommandLine) (hlen : c.text.length ≤ 126) {mem : ℕ → UInt8} {tail : ℕ}
    (htail : TailAt mem tail c.text) (program : ℕ) :
    ∃ s, (∀ fuel, 126 < fuel → parseArgs fuel program tail mem = .ok s) ∧
      ParsedBack program tail mem (c.args.map fun a => a.1.text) s := by
  obtain ⟨hcount, htext⟩ := htail
  have hsigned : (mem tail).toInt8.toInt = c.text.length := by
    rw [hcount, UInt8.toInt8_ofNat', Int8.toInt_ofNat_of_lt (by omega)]
  have hcut : ¬ (c.text.length : ℤ) > 0x7e := by omega
  have hend : (((tail + 1 : ℕ) : ℤ) + (c.text.length : ℤ)).toNat = tail + 1 + c.text.length := rfl
  let s₀ : Parsed := (Parsed.addArg ⟨mem, [], 0, fun _ => 0⟩ program).putNul (tail + 1 + c.text.length)
  have hparse : ∀ fuel, parseArgs fuel program tail mem = parseLoop fuel (tail + 1) s₀ := fun fuel => by
    simp only [parseArgs, hsigned, if_neg hcut, hend, s₀]
  have hmem : Holds s₀.mem (tail + 1) (c.text ++ [0]) :=
    holds_append.mpr ⟨htext.storeAt_of_le (Nat.le_refl _), holds_storeAt _ _ _⟩
  rw [CommandLine.text, List.append_assoc] at hmem
  obtain ⟨s, hrun, hs⟩ := parseLoop_args c.separated c.lead hmem rfl
  rw [CommandLine.text, List.length_append] at hlen
  refine ⟨s, fun fuel hfuel => (hparse fuel).trans (hrun fuel (by omega)), ?_⟩
  obtain ⟨ptrs, hargv, hptrs⟩ := hs.argv
  obtain ⟨new, hstores, hnew⟩ := hs.stores
  have hat : Holds s.argv 0 (program :: ptrs) := by
    rw [hargv]
    exact holds_cons.mpr ⟨rfl, holds_storeAt _ 1 ptrs⟩
  refine ⟨hs.argc, (holds_cons.mp hat).1, fun i hi => ?_, ?_, fun a ha => ?_⟩
  · rw [(holds_cons.mp hat).2 i (hptrs.length_eq ▸ hi)]
    exact hptrs.get hi (hptrs.length_eq ▸ hi)
  · rw [hstores, List.forall_mem_append]
    refine ⟨fun a ha => ?_, fun a ha => ?_⟩
    · obtain rfl := List.mem_singleton.mp ha
      rw [CommandLine.text, List.length_append]
      omega
    · have := hnew a ha
      omega
  · rw [hs.frame a (by omega)]
    rcases ha with hlt | hge
    · exact storeAt_of_lt (by omega)
    · refine storeAt_of_ge ?_
      rw [CommandLine.text, List.length_append, List.length_singleton]
      omega

/-- ` a` and `'b c'`, with a tab between them. -/
def twoArgs : CommandLine where
  lead := ⟨[0x20], by simp [isspace]⟩
  args :=
    [(⟨[0x61], .bare, by simp, by decide, by decide, by simp [isspace], fun q => by cases q <;> decide⟩,
        ⟨[0x09], by simp [isspace]⟩),
      (⟨[0x62, 0x20, 0x63], .quoted .single, by simp, by decide, show singleQuote ∉ _ by decide⟩, ⟨[], by simp⟩)]
  separated := ⟨fun _ => by decide, fun h => absurd rfl h, trivial⟩

/-- A page with the tail in its second half. -/
def twoArgsPage : ℕ → UInt8 := storeAt (fun _ => 0) 128 (UInt8.ofNat twoArgs.text.length :: twoArgs.text)

theorem parseArgs_twoArgs : ∃ s, (∀ fuel, 126 < fuel → parseArgs fuel 0 128 twoArgsPage = .ok s) ∧
    ParsedBack 0 128 twoArgsPage [[0x61], [0x62, 0x20, 0x63]] s :=
  parseArgs_commandLine twoArgs (by decide) (holds_cons.mp (holds_storeAt (fun _ => 0) 128 (_ :: twoArgs.text))) 0

end Cpm68k.Cpmlib
