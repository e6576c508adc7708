import Mathlib.Data.List.TakeWhile
import Cpm68k.Cpmlib.FileNames

/-!
# Drive and user codes

Which strings `_parsefn` takes for names, and which codes they leave in the file control
block.

## The model

* `NameSyntax` is the grammar of what may follow a drive spec: a base, a type and a password,
  and the end of the string or of the line.
* A drive spec is a number and a letter (`Prefixed`). The user field keeps 8 bits of the
  number plus one, the drive field 8 bits of the letter's distance from `@`, and both are
  signed: `Slips` says which strings have a code that is wrong and is not noticed.

## What is proved

* `parseRest_iff` — `_parsefn` accepts what the grammar says.
* `legalCodes_iff` — the codes of an accepted name are legal exactly for the strings that do
  not slip through.
-/

namespace Cpm68k.Cpmlib

/-! ### The grammar of names -/

/-- The end of the string, or of the line. -/
def Ending (s : List UInt8) : Prop := s = [] ∨ s.head? = some 0x0a ∨ s.head? = some 0x0d

/-- A `*`, or nothing. -/
def optStar (star : Bool) : List UInt8 := if star = true then [0x2a] else []

/-- An optional password, and the end. -/
inductive PasswdSyntax : List UInt8 → Prop where
  /-- No password. -/
  | absent {s : List UInt8} : Ending s → PasswdSyntax s
  /-- A password. -/
  | present {t r : List UInt8} : IsToken 32 t r → Ending r → PasswdSyntax (0x3b :: (t ++ r))

/-- An optional type, and what may follow it. -/
inductive TypeSyntax : List UInt8 → Prop where
  /-- No type. -/
  | absent {s : List UInt8} : PasswdSyntax s → TypeSyntax s
  /-- A type. -/
  | present {t r : List UInt8} {star : Bool} :
    IsToken 32 t (optStar star ++ r) → PasswdSyntax r → TypeSyntax (0x2e :: (t ++ (optStar star ++ r)))

/-- A base, and what may follow it. -/
inductive NameSyntax : List UInt8 → Prop where
  /-- A base. -/
  | base {t r : List UInt8} {star : Bool} :
    IsToken 32 t (optStar star ++ r) → TypeSyntax r → NameSyntax (t ++ (optStar star ++ r))

/-- A string that ends like a name, and has no `:` before its end. -/
def ColonFree (s : List UInt8) : Prop := ∃ body ending, s = body ++ ending ∧ Ending ending ∧ (0x3a : UInt8) ∉ body

theorem IsToken.not_mem {n : ℕ} {t r : List UInt8} (h : IsToken n t r) : (0x3a : UInt8) ∉ t :=
  fun hmem => h.plain _ hmem (by decide)

theorem not_mem_optStar (star : Bool) : (0x3a : UInt8) ∉ optStar star := by
  cases star <;> simp [optStar]

theorem ColonFree.append {s : List UInt8} (h : ColonFree s) {l : List UInt8} (hl : (0x3a : UInt8) ∉ l) :
    ColonFree (l ++ s) := by
  obtain ⟨body, ending, rfl, hend, hbody⟩ := h
  exact ⟨l ++ body, ending, by simp, hend, by simp [hl, hbody]⟩

theorem PasswdSyntax.colonFree {s : List UInt8} (h : PasswdSyntax s) : ColonFree s := by
  cases h with
  | absent hend => exact ⟨[], s, rfl, hend, by simp⟩
  | present htok hend => exact ⟨_, _, (List.cons_append ..).symm, hend, by simp [htok.not_mem]⟩

theorem TypeSyntax.colonFree {s : List UInt8} (h : TypeSyntax s) : ColonFree s := by
  cases h with
  | absent hpass => exact hpass.colonFree
  | @present t r star htok hpass =>
    have hrest := (hpass.colonFree.append (not_mem_optStar star)).append htok.not_mem
    exact hrest.append (l := [0x2e]) (by simp)

theorem NameSyntax.colonFree {s : List UInt8} (h : NameSyntax s) : ColonFree s := by
  cases h with
  | @base t r star htok htype => exact (htype.colonFree.append (not_mem_optStar star)).append htok.not_mem

/-! ### `_parsefn` accepts the grammar -/

theorem parsePassword_iff (fcbp : Fcb) (s : List UInt8) :
    Ending (parsePassword fcbp s).2 ↔ PasswdSyntax s := by
  constructor
  · intro h
    unfold parsePassword at h
    split at h
    · rename_i s
      obtain ⟨heq, htok⟩ := getToken_isToken s 32
      rw [heq]
      exact .present htok h
    · exact .absent h
  · intro h
    cases h with
    | absent hend =>
      unfold parsePassword
      split
      · rcases hend with h | h | h <;> simp at h
      · exact hend
    | present htok hend =>
      simp only [parsePassword, htok.getToken_append]
      exact hend

/-- A field is a token and a star; what follows is cut off in one way only. -/
theorem parseField_snd {n : ℕ} (field : Bytes n) (t s : List UInt8) :
    ∃ star, s = optStar star ++ (parseField field t s).2 := by
  unfold parseField
  split
  · exact ⟨true, rfl⟩
  · exact ⟨false, rfl⟩

theorem parseField_optStar {n : ℕ} (field : Bytes n) (t : List UInt8) {r : List UInt8} {star : Bool}
    (hr : r.head? ≠ some 0x2a) : (parseField field t (optStar star ++ r)).2 = r := by
  cases star with
  | true => rfl
  | false =>
    simp only [optStar, Bool.false_eq_true, if_false, List.nil_append]
    unfold parseField
    split
    · simp at hr
    · rfl

theorem Ending.head {s : List UInt8} (h : Ending s) : s.head? ≠ some 0x2a ∧ s.head? ≠ some 0x2e := by
  rcases h with rfl | h | h <;> simp [*]

theorem PasswdSyntax.head {s : List UInt8} (h : PasswdSyntax s) : s.head? ≠ some 0x2a ∧ s.head? ≠ some 0x2e := by
  cases h with
  | absent hend => exact hend.head
  | present => simp

theorem parseType_iff (fcbp : Fcb) (s : List UInt8) : PasswdSyntax (parseType fcbp s).2 ↔ TypeSyntax s := by
  constructor
  · intro h
    unfold parseType at h
    split at h
    · rename_i s
      obtain ⟨heq, htok⟩ := getToken_isToken s 32
      obtain ⟨star, hstar⟩ := parseField_snd fcbp.ftype (getToken s 32).1 (getToken s 32).2
      rw [heq, hstar]
      exact .present (hstar ▸ htok) h
    · exact .absent h
  · intro h
    cases h with
    | absent hpass =>
      unfold parseType
      split
      · exact absurd rfl hpass.head.2
      · exact hpass
    | present htok hpass =>
      simp only [parseType, htok.getToken_append, parseField_optStar _ _ hpass.head.1]
      exact hpass

theorem TypeSyntax.head {s : List UInt8} (h : TypeSyntax s) : s.head? ≠ some 0x2a := by
  cases h with
  | absent hpass => exact hpass.head.1
  | present => simp

/-- **The rest of a name** is accepted when it is in the grammar. -/
theorem parseRest_iff (fcbp : Fcb) (s : List UInt8) :
    (parseRest fcbp (getToken s 32).1 (getToken s 32).2).2 = true ↔ NameSyntax s := by
  have hok : ∀ t r, (parseRest fcbp t r).2 = true ↔ TypeSyntax (parseField fcbp.fname t r).2 := by
    intro t r
    let fcbp' := { fcbp with fname := (parseField fcbp.fname t r).1 }
    rw [← parseType_iff fcbp', ← parsePassword_iff (parseType fcbp' (parseField fcbp.fname t r).2).1]
    exact decide_eq_true_iff
  rw [hok]
  constructor
  · intro h
    obtain ⟨heq, htok⟩ := getToken_isToken s 32
    obtain ⟨star, hstar⟩ := parseField_snd fcbp.fname (getToken s 32).1 (getToken s 32).2
    rw [heq, hstar]
    exact .base (hstar ▸ htok) h
  · intro h
    cases h with
    | base htok htype =>
      rw [htok.getToken_append]
      simp only
      rw [parseField_optStar _ _ htype.head]
      exact htype

/-! ### Drive specs -/

/-- A string that begins with a number and at most one character before the colon. -/
structure Prefixed (s digits : List UInt8) (letter : Option UInt8) (rest : List UInt8) : Prop where
  text : s = digits ++ letter.toList ++ 0x3a :: rest
  digits_isdigit : ∀ c ∈ digits, isdigit c = true
  letter_plain : ∀ c ∈ letter, isdigit c = false ∧ c ∉ delim

namespace Prefixed

variable {s digits rest : List UInt8} {letter : Option UInt8} (h : Prefixed s digits letter rest)

include h

theorem plain : ∀ c ∈ digits ++ letter.toList, c ∉ delim := by
  intro c hc
  rcases List.mem_append.mp hc with hc | hc
  · exact isdigit_not_delim (h.digits_isdigit c hc)
  · exact (h.letter_plain c (by simpa using hc)).2

theorem takeWhile_eq : s.takeWhile (· ∉ delim) = digits ++ letter.toList := by
  rw [h.text, List.takeWhile_append_of_pos (fun c hc => decide_eq_true (h.plain c hc)),
    List.takeWhile_cons_of_neg (by decide), List.append_nil]

/-- The drive spec is a token if there is room for it. -/
theorem getToken_eq (hlen : (digits ++ letter.toList).length ≤ 32) :
    getToken s 32 = (digits ++ letter.toList, 0x3a :: rest) := by
  rw [h.text]
  exact getToken_append h.plain hlen (by simp [delim])

/-- A name has no drive spec before its end. -/
theorem not_nameSyntax : ¬ NameSyntax s := by
  intro hname
  obtain ⟨body, ending, heq, hend, hbody⟩ := hname.colonFree
  rw [h.text] at heq
  rcases List.append_eq_append_iff.mp heq with ⟨l, hl, hl'⟩ | ⟨l, hl, hl'⟩
  · cases l with
    | nil =>
      rw [List.nil_append] at hl'
      rcases hend with h | h | h <;> simp [← hl'] at h
    | cons c l =>
      rw [List.cons_append, List.cons.injEq] at hl'
      exact hbody (by simp [hl, hl'.1])
  · cases l with
    | nil =>
      rw [List.nil_append] at hl'
      rcases hend with h | h | h <;> simp [hl'] at h
    | cons c l =>
      have hc : c ∉ delim := h.plain c (by simp [hl])
      rw [hl'] at hend
      rcases hend with h | h | h
      · simp at h
      · rw [List.cons_append, List.head?_cons, Option.some.injEq] at h
        exact hc (h ▸ by decide)
      · rw [List.cons_append, List.head?_cons, Option.some.injEq] at h
        exact hc (h ▸ by decide)

end Prefixed

theorem parseType_codes (fcbp : Fcb) (s : List UInt8) :
    (parseType fcbp s).1.drive = fcbp.drive ∧ (parseType fcbp s).1.fuser = fcbp.fuser := by
  unfold parseType
  split <;> exact ⟨rfl, rfl⟩

theorem parsePassword_codes (fcbp : Fcb) (s : List UInt8) :
    (parsePassword fcbp s).1.drive = fcbp.drive ∧ (parsePassword fcbp s).1.fuser = fcbp.fuser := by
  unfold parsePassword
  split <;> exact ⟨rfl, rfl⟩

/-- The codes are those of the drive spec. -/
theorem parseRest_codes (fcbp : Fcb) (t r : List UInt8) :
    (parseRest fcbp t r).1.drive = fcbp.drive ∧ (parseRest fcbp t r).1.fuser = fcbp.fuser := by
  let fcbp' := { fcbp with fname := (parseField fcbp.fname t r).1 }
  have htype := parseType_codes fcbp' (parseField fcbp.fname t r).2
  have hpass := parsePassword_codes (parseType fcbp' (parseField fcbp.fname t r).2).1
    (parseType fcbp' (parseField fcbp.fname t r).2).2
  exact ⟨hpass.1.trans htype.1, hpass.2.trans htype.2⟩

/-- Without a drive spec the codes are zero. -/
theorem parsefn_noDrive {s : List UInt8} (h : (getToken s 32).2.head? ≠ some 0x3a) (fcbp : Fcb) :
    ((parsefn s fcbp).2 = true ↔ NameSyntax s) ∧ (parsefn s fcbp).1.drive = 0 ∧ (parsefn s fcbp).1.fuser = 0 := by
  rw [parsefn_base rfl h]
  exact ⟨parseRest_iff (clearFcb fcbp) s, parseRest_codes (clearFcb fcbp) _ _⟩

/-- With one they are what is left of the number and of the letter, and are checked from
above. -/
theorem parsefn_prefixed {s digits rest : List UInt8} {letter : Option UInt8} (h : Prefixed s digits letter rest)
    (hlen : (digits ++ letter.toList).length ≤ 32) (fcbp : Fcb) :
    ((parsefn s fcbp).2 = true ↔ ¬ userCode digits > 16 ∧ ¬ letterCode letter > 15 ∧ NameSyntax rest) ∧
      (parsefn s fcbp).1.drive = letterCode letter ∧ (parsefn s fcbp).1.fuser = userCode digits := by
  have hhead : letter.toList.head? = letter := by cases letter <;> rfl
  have htail : letter.toList.tail = [] := by cases letter <;> rfl
  have hstuff := stuffDrive_append (clearFcb fcbp) rfl rfl h.digits_isdigit (r := letter.toList)
    (hhead.symm ▸ fun c hc => (h.letter_plain c hc).1)
  rw [hhead, htail] at hstuff
  rw [parsefn_drive (h.getToken_eq hlen), hstuff]
  by_cases hok : ¬ userCode digits > 16 ∧ ¬ letterCode letter > 15
  · simp only [hok, not_false_iff, and_self, decide_true, if_true, true_and]
    exact ⟨parseRest_iff _ rest, parseRest_codes _ _ _⟩
  · simp only [true_and, decide_eq_true_eq]
    rw [if_neg hok]
    refine ⟨?_, rfl, rfl⟩
    simp only [Bool.false_eq_true, false_iff]
    exact fun h => hok ⟨h.1, h.2.1⟩

/-- A token that `stuff_drive` accepts is a number and a letter. -/
theorem exists_letter {fcbp : Fcb} {t : List UInt8} (hok : (stuffDrive (clearFcb fcbp) t).2 = true) :
    ∃ digits letter, t = digits ++ Option.toList letter ∧ (∀ c ∈ digits, isdigit c = true) ∧
      (∀ c ∈ letter, isdigit c = false) ∧ ¬ userCode digits > 16 ∧ ¬ letterCode letter > 15 := by
  let digits := t.takeWhile (isdigit · = true)
  let tail := t.dropWhile (isdigit · = true)
  have hsplit : digits ++ tail = t := List.takeWhile_append_dropWhile
  have hdigits : ∀ c ∈ digits, isdigit c = true := fun c hc => by simpa using List.mem_takeWhile_imp hc
  have htail : ∀ c ∈ tail.head?, isdigit c = false := by
    intro c hc
    have := List.head?_dropWhile_not (isdigit · = true) t
    simp only [tail] at hc
    rw [Option.mem_def.mp hc] at this
    simpa using this
  have hstuff := stuffDrive_append (clearFcb fcbp) rfl rfl hdigits htail
  rw [hsplit] at hstuff
  rw [hstuff, decide_eq_true_eq] at hok
  have hletter : tail.head?.toList = tail := by
    cases h : tail with
    | nil => rfl
    | cons c l =>
      rw [h, List.tail_cons] at hok
      rw [hok.1]
      rfl
  exact ⟨digits, tail.head?, by rw [hletter, hsplit], hdigits, htail, hok.2⟩

/-- So is a drive spec that is accepted. -/
theorem exists_prefixed {s t r : List UInt8} (ht : getToken s 32 = (t, 0x3a :: r)) {fcbp : Fcb}
    (hok : (parsefn s fcbp).2 = true) :
    ∃ digits letter, Prefixed s digits letter r ∧ (digits ++ letter.toList).length ≤ 32 := by
  obtain ⟨heq, hplain, hlen, -⟩ := getToken_eq_iff.mp ht
  rw [parsefn_drive ht] at hok
  split_ifs at hok with hdrive
  obtain ⟨digits, letter, rfl, hdigits, hletter, -⟩ := exists_letter hdrive
  refine ⟨digits, letter, ⟨heq, hdigits, fun c hc => ⟨hletter c hc, hplain c ?_⟩⟩, hlen⟩
  exact List.mem_append_right _ (by simpa using hc)

/-! ### Codes that slip through -/

/-- The numbers of which the user field passes the check: its 8 bits are at most 16, or
negative. -/
def UserPasses (d : ℕ) : Prop := (d + 1) % 256 ≤ 16 ∨ 128 ≤ (d + 1) % 256

/-- The characters of which the drive field passes the check: up to `O`, or far enough above to
be negative. -/
def LetterPasses (c : UInt8) : Prop := (toupper c).toNat < 0x50 ∨ 0xc0 ≤ (toupper c).toNat

/-- The characters of which the drive field is negative. -/
def LetterWraps (c : UInt8) : Prop := (toupper c).toNat < 0x40 ∨ 0xc0 ≤ (toupper c).toNat

/-- A drive spec that fits the token buffer and passes the checks, with a number above 15 or a
character of which the field is negative, and a name behind. -/
def Slips (s : List UInt8) : Prop :=
  ∃ digits letter rest, Prefixed s digits letter rest ∧ (digits ++ letter.toList).length ≤ 32 ∧
    (digits ≠ [] → UserPasses (decimal digits)) ∧ (∀ c ∈ letter, LetterPasses c) ∧ NameSyntax rest ∧
    (15 < decimal digits ∨ ∃ c ∈ letter, LetterWraps c)

/-- An accepted name has a drive in 0..16 and a user in 0..16, and a number before the drive is
at most 15 and is one less than the user. -/
def LegalCodes (s : List UInt8) : Prop :=
  ∀ fcbp, (parsefn s fcbp).2 = true →
    (0 ≤ (parsefn s fcbp).1.drive ∧ (parsefn s fcbp).1.drive ≤ 16) ∧
    (0 ≤ (parsefn s fcbp).1.fuser ∧ (parsefn s fcbp).1.fuser ≤ 16) ∧
    ∀ digits letter rest, Prefixed s digits letter rest → digits ≠ [] →
      decimal digits ≤ 15 ∧ (parsefn s fcbp).1.fuser.toInt = decimal digits + 1

theorem userCode_toInt {digits : List UInt8} (h : digits ≠ []) :
    (userCode digits).toInt = ((decimal digits + 1 : ℕ) : ℤ).bmod 256 := by
  rw [userCode, if_neg h, Int8.toInt_ofNat']

theorem toInt_literals : (0 : Int8).toInt = 0 ∧ (15 : Int8).toInt = 15 ∧ (16 : Int8).toInt = 16 := ⟨rfl, rfl, rfl⟩

theorem userCode_le (digits : List UInt8) :
    ¬ userCode digits > 16 ↔ (digits ≠ [] → UserPasses (decimal digits)) := by
  by_cases h : digits = []
  · simp [h, userCode]
  · obtain ⟨-, -, h16⟩ := toInt_literals
    rw [gt_iff_lt, Int8.lt_iff_toInt_lt, userCode_toInt h, Int.bmod_def, h16]
    simp only [UserPasses, h, ne_eq, not_false_iff, true_imp_iff]
    split_ifs <;> omega

theorem letterCode_passes (letter : Option UInt8) : ¬ letterCode letter > 15 ↔ ∀ c ∈ letter, LetterPasses c := by
  obtain ⟨-, h15, -⟩ := toInt_literals
  cases letter with
  | none => simp [letterCode]
  | some c =>
    have hc := (toupper c).toNat_lt
    rw [gt_iff_lt, Int8.lt_iff_toInt_lt, letterCode, Option.elim_some, driveCode_toInt, Int.bmod_def, h15]
    simp only [Option.mem_some_iff, forall_eq', LetterPasses]
    split_ifs <;> omega

/-- A drive field that passes is legal unless it wraps. -/
theorem letterCode_nonneg {letter : Option UInt8} :
    0 ≤ letterCode letter ↔ ¬ ∃ c ∈ letter, LetterWraps c := by
  obtain ⟨h0, -, -⟩ := toInt_literals
  cases letter with
  | none => simp [letterCode]
  | some c =>
    have hc := (toupper c).toNat_lt
    rw [Int8.le_iff_toInt_le, letterCode, Option.elim_some, driveCode_toInt, Int.bmod_def, h0]
    simp only [Option.mem_some_iff, exists_eq_left', LetterWraps]
    split_ifs <;> omega

/-- The field of a number up to 15 is one more. -/
theorem userCode_of_le {digits : List UInt8} (h : digits ≠ []) (hle : decimal digits ≤ 15) :
    (userCode digits).toInt = decimal digits + 1 := by
  rw [userCode_toInt h, Int.bmod_def]
  split_ifs <;> omega

theorem Slips.not_legalCodes {s : List UInt8} (h : Slips s) : ¬ LegalCodes s := by
  obtain ⟨digits, letter, rest, hpre, hlen, huser, hletter, hname, hslip⟩ := h
  intro hlegal
  obtain ⟨hok, hdrive, -⟩ := parsefn_prefixed hpre hlen Fcb.zero
  obtain ⟨⟨hnonneg, -⟩, -, hnumber⟩ :=
    hlegal Fcb.zero (hok.mpr ⟨(userCode_le digits).mpr huser, (letterCode_passes letter).mpr hletter, hname⟩)
  rcases hslip with hslip | hslip
  · have hne : digits ≠ [] := by
      rintro rfl
      simp [decimal, decimalFrom] at hslip
    have := (hnumber digits letter rest hpre hne).1
    omega
  · rw [hdrive] at hnonneg
    exact letterCode_nonneg.mp hnonneg hslip

/-- A number up to 15, or none, gives a legal user field. -/
theorem userCode_legal {digits : List UInt8} (h : digits ≠ [] → decimal digits ≤ 15) :
    0 ≤ userCode digits ∧ userCode digits ≤ 16 := by
  obtain ⟨h0, -, h16⟩ := toInt_literals
  rw [Int8.le_iff_toInt_le, Int8.le_iff_toInt_le, h0, h16]
  by_cases hne : digits = []
  · simp [userCode, hne]
  · have hle := h hne
    rw [userCode_of_le hne hle]
    omega

theorem letterCode_legal {letter : Option UInt8} (hpasses : ¬ letterCode letter > 15)
    (hwraps : ¬ ∃ c ∈ letter, LetterWraps c) : 0 ≤ letterCode letter ∧ letterCode letter ≤ 16 := by
  obtain ⟨-, h15, h16⟩ := toInt_literals
  refine ⟨letterCode_nonneg.mpr hwraps, ?_⟩
  rw [Int8.le_iff_toInt_le, h16]
  rw [gt_iff_lt, Int8.lt_iff_toInt_lt, h15] at hpasses
  omega

/-- What is accepted behind a drive spec that does not slip through has legal codes. -/
theorem Prefixed.codes {s digits rest : List UInt8} {letter : Option UInt8} {fcbp : Fcb}
    (hpre : Prefixed s digits letter rest) (hlen : (digits ++ letter.toList).length ≤ 32)
    (hok : (parsefn s fcbp).2 = true) (hslips : ¬ Slips s) :
    (digits ≠ [] → decimal digits ≤ 15) ∧ (parsefn s fcbp).1.fuser = userCode digits ∧
      (parsefn s fcbp).1.drive = letterCode letter ∧ 0 ≤ letterCode letter ∧ letterCode letter ≤ 16 := by
  obtain ⟨hiff, hdrive, huser⟩ := parsefn_prefixed hpre hlen fcbp
  obtain ⟨hpuser, hpletter, hname⟩ := hiff.mp hok
  have hno : ¬ (15 < decimal digits ∨ ∃ c ∈ letter, LetterWraps c) := fun hslip =>
    hslips ⟨digits, letter, rest, hpre, hlen, (userCode_le digits).mp hpuser, (letterCode_passes letter).mp hpletter,
      hname, hslip⟩
  rw [not_or, Nat.not_lt] at hno
  exact ⟨fun _ => hno.1, huser, hdrive, letterCode_legal hpletter hno.2⟩

/-- **Accepted names have legal codes**, all but those that slip through. -/
theorem legalCodes_iff (s : List UInt8) : LegalCodes s ↔ ¬ Slips s := by
  constructor
  · exact fun hlegal hslips => hslips.not_legalCodes hlegal
  · intro hslips fcbp hok
    by_cases hcolon : (getToken s 32).2.head? = some 0x3a
    · obtain ⟨t, r, ht⟩ : ∃ t r, getToken s 32 = (t, 0x3a :: r) := by
        obtain ⟨r, hr⟩ := List.head?_eq_some_iff.mp hcolon
        exact ⟨(getToken s 32).1, r, by rw [← hr]⟩
      obtain ⟨digits, letter, hpre, hlen⟩ := exists_prefixed ht hok
      obtain ⟨hle, hfuser, hdrive, hlegal⟩ := hpre.codes hlen hok hslips
      refine ⟨by rwa [hdrive], by rw [hfuser]; exact userCode_legal hle, fun digits' letter' rest' hpre' hne => ?_⟩
      -- any way to read the drive spec is as long as the token
      have hlen' : (digits' ++ letter'.toList).length ≤ 32 := by
        rw [← hpre'.takeWhile_eq, hpre.takeWhile_eq]
        exact hlen
      obtain ⟨hle', hfuser', -⟩ := hpre'.codes hlen' hok hslips
      exact ⟨hle' hne, by rw [hfuser', userCode_of_le hne (hle' hne)]⟩
    · obtain ⟨hiff, hdrive, huser⟩ := parsefn_noDrive hcolon fcbp
      rw [hdrive, huser]
      exact ⟨by decide, by decide, fun digits letter rest hpre _ => absurd (hiff.mp hok) hpre.not_nameSyntax⟩

/-- `127A:X` is accepted with user code -128, `!:X` with drive code -31. -/
theorem wrapped_codes :
    (parsefn [0x31, 0x32, 0x37, 0x41, 0x3a, 0x58] Fcb.zero).2 = true ∧
      (parsefn [0x31, 0x32, 0x37, 0x41, 0x3a, 0x58] Fcb.zero).1.fuser = -128 ∧
      (parsefn [0x21, 0x3a, 0x58] Fcb.zero).2 = true ∧ (parsefn [0x21, 0x3a, 0x58] Fcb.zero).1.drive = -31 ∧
      ¬ ∀ s, LegalCodes s := by
  refine ⟨by decide, by decide, by decide, by decide, fun h => ?_⟩
  exact absurd (h [0x21, 0x3a, 0x58] Fcb.zero (by decide)).1.1 (by decide)

end Cpm68k.Cpmlib
