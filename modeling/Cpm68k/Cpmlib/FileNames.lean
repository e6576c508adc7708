import Cpm68k.Cpmlib.Parsefn

/-!
# File specs

What a file spec `#d:filename.typ;passwd` means, and what `_parsefn` makes of it.

## The model

* A name is a record of its parts: user number, drive letter, base and type, each with the
  rules it keeps. Its `text` is the string that a program passes, its `fcb` is what a file
  control block has to hold for it.
* `getToken_eq_iff` says what `get_token` does; nothing after it unfolds the function.

## What is proved

* `parsefn_fileName` — a name gives its file control block, and two names without stars give
  the same name area only when base and type are equal ignoring case.
* `not_splitsPassword` — `;` is not a delimiter, so no password is ever separated from the
  name.
-/

namespace Cpm68k.Cpmlib

/-! ### Tokens -/

/-- `t` is the token of at most `n` characters at the start of `t ++ r`. -/
structure IsToken (n : ℕ) (t r : List UInt8) : Prop where
  plain : ∀ c ∈ t, c ∉ delim
  length_le : t.length ≤ n
  stops : t.length < n → ∀ c ∈ r.head?, c ∈ delim

theorem getToken_isToken (s : List UInt8) (n : ℕ) :
    s = (getToken s n).1 ++ (getToken s n).2 ∧ IsToken n (getToken s n).1 (getToken s n).2 := by
  induction s generalizing n with
  | nil => exact ⟨by simp [getToken], by simp [getToken], by simp [getToken], by simp [getToken]⟩
  | cons c s ih =>
    cases n with
    | zero => exact ⟨by simp [getToken], by simp [getToken], by simp [getToken], by simp [getToken]⟩
    | succ n =>
      by_cases hc : c ∈ delim
      · refine ⟨by simp [getToken, hc], by simp [getToken, hc], by simp [getToken, hc], fun _ d hd => ?_⟩
        simp only [getToken, if_pos hc, List.head?_cons, Option.mem_some_iff] at hd
        exact hd ▸ hc
      · obtain ⟨heq, hplain, hlen, hstops⟩ := ih n
        simp only [getToken, if_neg hc, List.cons_append, ← heq, true_and]
        refine ⟨?_, by simpa using hlen, fun hlt => hstops (by simpa using hlt)⟩
        simpa using ⟨hc, hplain⟩

theorem IsToken.getToken_append {n : ℕ} {t r : List UInt8} (h : IsToken n t r) : getToken (t ++ r) n = (t, r) := by
  induction t generalizing n with
  | nil =>
    cases n with
    | zero => cases r <;> rfl
    | succ n =>
      cases r with
      | nil => rfl
      | cons c r =>
        have hc : c ∈ delim := h.stops (by simp) c (by simp)
        simp [getToken, hc]
  | cons c t ih =>
    cases n with
    | zero => exact absurd h.length_le (by simp)
    | succ n =>
      have ht : IsToken n t r := by
        refine ⟨fun d hd => h.plain d (by simp [hd]), by simpa using h.length_le, fun hlt => h.stops (by simpa using hlt)⟩
      simp [getToken, h.plain c (by simp), ih ht]

/-- **`get_token`** cuts the string behind the token, and nowhere else. -/
theorem getToken_eq_iff {s t r : List UInt8} {n : ℕ} : getToken s n = (t, r) ↔ s = t ++ r ∧ IsToken n t r := by
  constructor
  · intro h
    have hs := getToken_isToken s n
    rwa [h] at hs
  · rintro ⟨rfl, h⟩
    exact h.getToken_append

/-- A short token ends at the first delimiter. -/
theorem getToken_append {t r : List UInt8} {n : ℕ} (hplain : ∀ c ∈ t, c ∉ delim) (hlen : t.length ≤ n)
    (hr : ∀ c ∈ r.head?, c ∈ delim) : getToken (t ++ r) n = (t, r) :=
  IsToken.getToken_append ⟨hplain, hlen, fun _ => hr⟩

/-! ### Drive specs -/

/-- The number that decimal digits stand for, `a` being the number of those before. -/
def decimalFrom (a : ℕ) (digits : List UInt8) : ℕ := digits.foldl (fun i c => i * 10 + (c.toNat - 48)) a

/-- The number that decimal digits stand for. -/
def decimal (digits : List UInt8) : ℕ := decimalFrom 0 digits

theorem isdigit_iff {c : UInt8} : isdigit c = true ↔ 48 ≤ c.toNat ∧ c.toNat ≤ 57 := by
  simp [isdigit, UInt8.le_iff_toNat_le]

theorem isdigit_not_delim {c : UInt8} (h : isdigit c = true) : c ∉ delim := by
  rw [isdigit_iff] at h
  simp only [delim, List.mem_cons, List.not_mem_nil, or_false, not_or]
  refine ⟨?_, ?_, ?_, ?_, ?_, ?_, ?_, ?_, ?_, ?_, ?_, ?_⟩ <;> rintro rfl <;> simp at h

/-- One digit more. The accumulator keeps what its 16 bits hold of the number. -/
theorem userDigit {c : UInt8} (h : isdigit c = true) (a : ℕ) :
    Int16.ofNat a * 10 + Int16.ofInt (c.toNat - 48) = Int16.ofNat (a * 10 + (c.toNat - 48)) := by
  rw [isdigit_iff] at h
  have hc : ((c.toNat : ℤ) - 48) = ((c.toNat - 48 : ℕ) : ℤ) := by omega
  rw [hc, Int16.ofInt_eq_ofNat, Int16.ofNat_add, Int16.ofNat_mul]
  rfl

theorem userDigits_append {digits : List UInt8} (hdigits : ∀ c ∈ digits, isdigit c = true) {r : List UInt8}
    (hr : ∀ c ∈ r.head?, isdigit c = false) (a : ℕ) (fuser : Int8) :
    userDigits (digits ++ r) (Int16.ofNat a) fuser =
      (if digits = [] then fuser else Int8.ofNat (decimalFrom a digits + 1), r) := by
  induction digits generalizing a fuser with
  | nil =>
    cases r with
    | nil => rfl
    | cons c r => simp [userDigits, hr c (by simp)]
  | cons c digits ih =>
    obtain ⟨hc, hdigits⟩ := List.forall_mem_cons.mp hdigits
    rw [List.cons_append, userDigits, if_pos hc, userDigit hc, ih hdigits, if_neg (List.cons_ne_nil c digits)]
    cases digits with
    | nil => simp [decimalFrom, Int8.ofNat_add]
    | cons d digits => rfl

/-- The drive code of a letter. -/
def driveCode (c : UInt8) : Int8 := (toupper c - 0x41 + 1).toInt8

/-- The user field that the digits of a drive spec give. -/
def userCode (digits : List UInt8) : Int8 := if digits = [] then 0 else Int8.ofNat (decimal digits + 1)

/-- The drive field that the rest of a drive spec gives. -/
def letterCode (letter : Option UInt8) : Int8 := letter.elim 0 driveCode

/-- **`stuff_drive`**, of digits and what follows them. -/
theorem stuffDrive_append (fcbp : Fcb) (huser : fcbp.fuser = 0) (hdrive : fcbp.drive = 0) {digits : List UInt8}
    (hdigits : ∀ c ∈ digits, isdigit c = true) {r : List UInt8} (hr : ∀ c ∈ r.head?, isdigit c = false) :
    stuffDrive fcbp (digits ++ r) =
      ({ fcbp with fuser := userCode digits, drive := letterCode r.head? },
        decide (r.tail = [] ∧ ¬ userCode digits > 16 ∧ ¬ letterCode r.head? > 15)) := by
  have h := userDigits_append hdigits hr 0 fcbp.fuser
  rw [huser] at h
  unfold stuffDrive
  rw [huser, show (0 : Int16) = Int16.ofNat 0 from rfl, h]
  cases r with
  | nil => simp [userCode, decimal, letterCode, hdrive]
  | cons c r => simp [userCode, decimal, letterCode, driveCode]

/-! ### Names -/

/-- A user number and a drive, of which one may be left out. No digits stand for no user. -/
structure DriveSpec where
  /-- The user number. -/
  digits : List UInt8
  digits_isdigit : ∀ c ∈ digits, isdigit c = true
  digits_le : digits.length ≤ 2
  user_le : decimal digits ≤ 15
  /-- The drive. -/
  letter : Option UInt8
  letter_isalpha : ∀ c ∈ letter, 0x41 ≤ toupper c ∧ toupper c ≤ 0x5a
  nonempty : digits ≠ [] ∨ letter ≠ none

/-- A base or a type of at most `n` characters, with or without a `*` behind it. -/
structure Part (n : ℕ) where
  /-- The characters. -/
  chars : List UInt8
  plain : ∀ c ∈ chars, c ∉ delim
  length_le : chars.length ≤ n
  /-- Whether the `*` is there. -/
  starred : Bool

/-- A name field of `k` bytes: the characters in upper case, and `pad` behind them. -/
def nameField (pad : UInt8) (chars : List UInt8) (k : ℕ) : Bytes k := fun i => (chars.map toupper).getD i pad

namespace Part

variable {n : ℕ}

/-- The `*`, if it is there. -/
def star (p : Part n) : List UInt8 := if p.starred = true then [0x2a] else []

/-- The part as it is written. -/
def text (p : Part n) : List UInt8 := p.chars ++ p.star

/-- The name field of a part, with `?` behind a starred one and blanks behind another. -/
def field (p : Part n) (k : ℕ) : Bytes k := nameField (if p.starred = true then 0x3f else 0x20) p.chars k

end Part

/-- A type as it is written. -/
def typeText {n : ℕ} (type : Option (Part n)) : List UInt8 := type.elim [] fun t => 0x2e :: t.text

/-- The name field of a type. -/
def typeField {n : ℕ} (type : Option (Part n)) : Bytes 3 := type.elim (Bytes.fill 0x20) fun t => t.field 3

/-- A drive spec as it is written, with the colon. -/
def driveText (drive : Option DriveSpec) : List UInt8 :=
  drive.elim [] fun d => d.digits ++ d.letter.toList ++ [0x3a]

/-- A drive, a base and a type as they are written. -/
def nameText {m n : ℕ} (drive : Option DriveSpec) (base : Part m) (type : Option (Part n)) : List UInt8 :=
  driveText drive ++ (base.text ++ typeText type)

/-- The number of a drive letter, from 1 on. -/
def letterNumber (c : UInt8) : Int8 := Int8.ofNat ((toupper c).toNat - 0x40)

/-- What the file control block has to hold for a drive, a base and a type. -/
def nameFcb {m n : ℕ} (drive : Option DriveSpec) (base : Part m) (type : Option (Part n)) (record : ℤ) : Fcb :=
  { Fcb.zero with
    drive := (drive.bind DriveSpec.letter).elim 0 letterNumber
    fuser := drive.elim 0 fun d => userCode d.digits
    fname := base.field 8
    ftype := typeField type
    record := record }

/-! ### What `_parsefn` makes of the parts -/

namespace Part

variable {n : ℕ}

theorem getToken_text (p : Part n) {k : ℕ} (hk : n ≤ k) {r : List UInt8} (hr : ∀ c ∈ r.head?, c ∈ delim) :
    getToken (p.text ++ r) k = (p.chars, p.star ++ r) := by
  have hlen := p.length_le
  unfold text
  rw [List.append_assoc]
  refine getToken_append p.plain (by omega) ?_
  cases hs : p.starred with
  | false => simpa [star, hs] using hr
  | true => simp [star, hs, delim]

/-- The `*` decides what is behind the characters in the field. -/
theorem parseField_star (p : Part n) {k : ℕ} {r : List UInt8} (hr : r.head? ≠ some 0x2a) :
    parseField (Bytes.fill 0x20 : Bytes k) p.chars (p.star ++ r) = (p.field k, r) := by
  cases hs : p.starred with
  | false =>
    have hstar : p.star = [] := by simp [star, hs]
    rw [hstar, List.nil_append]
    unfold parseField
    split
    · simp at hr
    · simp only [copyUpper, Prod.mk.injEq, and_true]
      funext i
      simp [Bytes.move, field, nameField, hs, Bytes.fill]
  | true =>
    have hstar : p.star = [0x2a] := by simp [star, hs]
    rw [hstar, List.singleton_append]
    simp only [parseField, copyUpper, Prod.mk.injEq, and_true]
    funext i
    simp [Bytes.move, field, nameField, hs, Bytes.fill]

end Part

theorem head_typeText {n : ℕ} (type : Option (Part n)) {c : UInt8} (h : c ∈ (typeText type).head?) : c = 0x2e := by
  cases type with
  | none => simp [typeText] at h
  | some t => simpa [typeText] using h.symm

theorem parseType_typeText {n : ℕ} (hn : n ≤ 32) (fcbp : Fcb) (hfill : fcbp.ftype = Bytes.fill 0x20)
    (type : Option (Part n)) : parseType fcbp (typeText type) = ({ fcbp with ftype := typeField type }, []) := by
  cases type with
  | none =>
    rw [typeField, Option.elim_none, ← hfill]
    rfl
  | some t =>
    have htok := t.getToken_text hn (r := []) (by simp)
    have hfield := t.parseField_star (k := 3) (r := []) (by simp)
    rw [List.append_nil] at htok
    simp only [typeText, Option.elim_some, parseType, htok, hfill, hfield, typeField]

theorem parseRest_nameText {m n : ℕ} (hn : n ≤ 32) (fcbp : Fcb) (hname : fcbp.fname = Bytes.fill 0x20)
    (htype : fcbp.ftype = Bytes.fill 0x20) (base : Part m) (type : Option (Part n)) :
    parseRest fcbp base.chars (base.star ++ typeText type) =
      ({ fcbp with fname := base.field 8, ftype := typeField type }, true) := by
  have hstar : (typeText type).head? ≠ some 0x2a := fun h => absurd (head_typeText type h) (by decide)
  have hfield := base.parseField_star (k := 8) hstar
  have htypes := parseType_typeText hn { fcbp with fname := base.field 8 } htype type
  simp only [parseRest, hname, hfield, htypes]
  rfl

/-- A first token that no colon follows is the base. -/
theorem parsefn_base {s t r : List UInt8} (ht : getToken s 32 = (t, r)) (hr : r.head? ≠ some 0x3a) (fcbp : Fcb) :
    parsefn s fcbp = parseRest (clearFcb fcbp) t r := by
  simp only [parsefn, ht]
  split
  · simp at hr
  · rfl

/-- A first token that a colon follows is a drive spec. -/
theorem parsefn_drive {s t r : List UInt8} (ht : getToken s 32 = (t, 0x3a :: r)) (fcbp : Fcb) :
    parsefn s fcbp =
      if (stuffDrive (clearFcb fcbp) t).2 = true then
        parseRest (stuffDrive (clearFcb fcbp) t).1 (getToken r 32).1 (getToken r 32).2
      else ((stuffDrive (clearFcb fcbp) t).1, false) := by
  simp only [parsefn, ht]

theorem toupper_toNat (c : UInt8) :
    (toupper c).toNat = if 0x61 ≤ c.toNat ∧ c.toNat ≤ 0x7a then c.toNat - 0x20 else c.toNat := by
  simp only [toupper, UInt8.le_iff_toNat_le, UInt8.reduceToNat]
  split_ifs with h
  · have hle : (0x20 : UInt8) ≤ c := by
      simp only [UInt8.le_iff_toNat_le, UInt8.reduceToNat]
      omega
    exact UInt8.toNat_sub_of_le _ _ hle
  · rfl

/-- A letter is not a digit and not a delimiter. -/
theorem alpha_facts {c : UInt8} (h : 0x41 ≤ toupper c ∧ toupper c ≤ 0x5a) : isdigit c = false ∧ c ∉ delim := by
  have hup := toupper_toNat c
  simp only [UInt8.le_iff_toNat_le, UInt8.reduceToNat] at h
  have hc : 65 ≤ c.toNat := by
    split_ifs at hup <;> omega
  have hc' : c.toNat ≤ 122 := by
    split_ifs at hup <;> omega
  refine ⟨?_, fun hmem => ?_⟩
  · rw [Bool.eq_false_iff, Ne, isdigit_iff]
    omega
  · simp only [delim, List.mem_cons, List.not_mem_nil, or_false] at hmem
    rcases hmem with h | h | h | h | h | h | h | h | h | h | h | h <;> subst h <;> revert hup h <;> decide

namespace DriveSpec

variable (d : DriveSpec)

theorem getToken_text (r : List UInt8) :
    getToken (d.digits ++ d.letter.toList ++ 0x3a :: r) 32 = (d.digits ++ d.letter.toList, 0x3a :: r) := by
  refine getToken_append (fun c hc => ?_) ?_ (by simp [delim])
  · rcases List.mem_append.mp hc with h | h
    · exact isdigit_not_delim (d.digits_isdigit c h)
    · exact (alpha_facts (d.letter_isalpha c (by simpa using h))).2
  · have hdigits := d.digits_le
    have hletter : d.letter.toList.length ≤ 1 := by cases d.letter <;> simp
    rw [List.length_append]
    omega

/-- The user is legal; the drive is, up to the last letter that the library knows. -/
theorem stuffDrive_text (fcbp : Fcb) (huser : fcbp.fuser = 0) (hdrive : fcbp.drive = 0) :
    stuffDrive fcbp (d.digits ++ d.letter.toList) =
      ({ fcbp with fuser := userCode d.digits, drive := letterCode d.letter }, decide (¬ letterCode d.letter > 15)) := by
  have hhead : d.letter.toList.head? = d.letter := by cases d.letter <;> rfl
  have htail : d.letter.toList.tail = [] := by cases d.letter <;> rfl
  have hletter : ∀ c ∈ d.letter.toList.head?, isdigit c = false := by
    rw [hhead]
    exact fun c hc => (alpha_facts (d.letter_isalpha c hc)).1
  have hle : ¬ userCode d.digits > 16 := by
    have huser := d.user_le
    unfold userCode
    split_ifs
    · decide
    · rw [gt_iff_lt, Int8.lt_iff_toInt_lt, Int8.toInt_ofNat_of_lt (by omega)]
      simp
      omega
  rw [stuffDrive_append fcbp huser hdrive d.digits_isdigit hletter, hhead, htail]
  simp [hle]

end DriveSpec

/-- The drive field keeps 8 bits of the distance from `@`. -/
theorem driveCode_eq (c : UInt8) : driveCode c = Int8.ofInt ((toupper c).toNat - 0x40) := by
  have hup : (toupper c).toInt8 = Int8.ofNat (toupper c).toNat := by
    rw [← UInt8.toInt8_ofNat', UInt8.ofNat_toNat]
  rw [driveCode, UInt8.toInt8_add, UInt8.toInt8_sub, hup]
  refine Int8.toInt_inj.mp ?_
  simp
  congr 1
  omega

theorem driveCode_toInt (c : UInt8) : (driveCode c).toInt = (((toupper c).toNat : ℤ) - 0x40).bmod 256 := by
  rw [driveCode_eq, Int8.toInt_ofInt]

/-- A letter has its number as its code, and the letters up to `O` are legal. -/
theorem driveCode_alpha {c : UInt8} (h : 0x41 ≤ toupper c ∧ toupper c ≤ 0x5a) :
    driveCode c = letterNumber c ∧ (¬ driveCode c > 15 ↔ toupper c ≤ 0x4f) := by
  simp only [UInt8.le_iff_toNat_le, UInt8.reduceToNat] at h
  have hint : (driveCode c).toInt = (toupper c).toNat - 0x40 := by
    rw [driveCode_toInt, Int.bmod_def]
    split_ifs <;> omega
  constructor
  · have hnat : ((toupper c).toNat : ℤ) - 0x40 = ((toupper c).toNat - 0x40 : ℕ) := by omega
    rw [driveCode_eq, letterNumber, hnat, Int8.ofInt_eq_ofNat]
  · have h15 : (15 : Int8).toInt = 15 := rfl
    have hO : (0x4f : UInt8).toNat = 79 := rfl
    rw [gt_iff_lt, Int8.lt_iff_toInt_lt, hint, h15, UInt8.le_iff_toNat_le, hO]
    omega

/-- The drives that the library knows: those up to `O`. -/
def KnownDrive (drive : Option DriveSpec) : Prop := ∀ d ∈ drive, ∀ c ∈ d.letter, toupper c ≤ 0x4f

theorem letterCode_eq (d : DriveSpec) : letterCode d.letter = d.letter.elim 0 letterNumber := by
  cases h : d.letter with
  | none => rfl
  | some c => exact (driveCode_alpha (d.letter_isalpha c (by rw [h]; rfl))).1

theorem letterCode_le (d : DriveSpec) : ¬ letterCode d.letter > 15 ↔ ∀ c ∈ d.letter, toupper c ≤ 0x4f := by
  cases h : d.letter with
  | none => simp [letterCode]
  | some c =>
    have hc := (driveCode_alpha (d.letter_isalpha c (by rw [h]; rfl))).2
    simpa [letterCode] using hc

section Parsed

variable {m n : ℕ} (hm : m ≤ 32) (hn : n ≤ 32) (base : Part m) (type : Option (Part n))

include hm hn

/-- The base is the first token when there is no drive spec. -/
theorem parsefn_nameText_none (fcbp : Fcb) :
    parsefn (nameText none base type) fcbp = (nameFcb none base type fcbp.record, true) := by
  have htok := base.getToken_text hm (r := typeText type) fun c hc => by
    rw [head_typeText type hc]
    decide
  have hcolon : (base.star ++ typeText type).head? ≠ some 0x3a := by
    intro h
    cases hs : base.starred with
    | false =>
      rw [Part.star, hs] at h
      exact absurd (head_typeText type h) (by decide)
    | true => simp [Part.star, hs] at h
  unfold nameText
  rw [driveText, Option.elim_none, List.nil_append, parsefn_base htok hcolon]
  exact parseRest_nameText hn _ rfl rfl base type

/-- A drive spec is checked, and what is behind it parsed like a name without one. -/
theorem parsefn_nameText_some (d : DriveSpec) (fcbp : Fcb) :
    parsefn (nameText (some d) base type) fcbp =
      if ¬ letterCode d.letter > 15 then (nameFcb (some d) base type fcbp.record, true)
      else ({ clearFcb fcbp with fuser := userCode d.digits, drive := letterCode d.letter }, false) := by
  have htok := base.getToken_text hm (r := typeText type) fun c hc => by
    rw [head_typeText type hc]
    decide
  have hdrive := d.stuffDrive_text (clearFcb fcbp) rfl rfl
  have hrest := parseRest_nameText hn (stuffDrive (clearFcb fcbp) (d.digits ++ d.letter.toList)).1
    (by rw [hdrive]; rfl) (by rw [hdrive]; rfl) base type
  have htext : nameText (some d) base type = d.digits ++ d.letter.toList ++ 0x3a :: (base.text ++ typeText type) := by
    simp [nameText, driveText]
  rw [htext, parsefn_drive (d.getToken_text _), htok]
  simp only
  rw [hrest, hdrive]
  simp only [decide_eq_true_eq, letterCode_eq]
  rfl

/-- **A name gives its file control block.** -/
theorem parsefn_nameText {drive : Option DriveSpec} (hdrive : KnownDrive drive) (fcbp : Fcb) :
    parsefn (nameText drive base type) fcbp = (nameFcb drive base type fcbp.record, true) := by
  cases drive with
  | none => exact parsefn_nameText_none hm hn base type fcbp
  | some d => rw [parsefn_nameText_some hm hn, if_pos ((letterCode_le d).mpr (hdrive d rfl))]

/-- Nothing of a name gets into the password. -/
theorem fpasswd_nameText (drive : Option DriveSpec) (fcbp : Fcb) :
    (parsefn (nameText drive base type) fcbp).1.fpasswd = Bytes.fill 0 := by
  cases drive with
  | none =>
    rw [parsefn_nameText_none hm hn]
    rfl
  | some d =>
    rw [parsefn_nameText_some hm hn]
    split_ifs <;> rfl

end Parsed

/-! ### File names -/

/-- A character of a base, a type or a password: no blank, no `;` and no delimiter. -/
def NameChar (c : UInt8) : Prop := c ≠ 0 ∧ c ≠ 0x20 ∧ c ≠ 0x3b ∧ c ∉ delim

instance : DecidablePred NameChar := fun c => inferInstanceAs (Decidable (c ≠ 0 ∧ c ≠ 0x20 ∧ c ≠ 0x3b ∧ c ∉ delim))

/-- A name `#d:filename.typ` on a drive that the library knows. -/
structure FileName where
  /-- The user number and the drive. -/
  drive : Option DriveSpec
  drive_known : KnownDrive drive
  /-- The base. -/
  base : Part 8
  base_legal : ∀ c ∈ base.chars, NameChar c
  base_nonempty : base.chars ≠ [] ∨ base.starred = true
  /-- The type. -/
  type : Option (Part 3)
  type_legal : ∀ t ∈ type, ∀ c ∈ t.chars, NameChar c

/-- The characters of a type. A name without a type is one with an empty type. -/
def typeChars {n : ℕ} (type : Option (Part n)) : List UInt8 := type.elim [] Part.chars

/-- Equal up to the case of the letters. -/
def SameLetters (s t : List UInt8) : Prop := s.map toupper = t.map toupper

instance (s t : List UInt8) : Decidable (SameLetters s t) := inferInstanceAs (Decidable (s.map toupper = t.map toupper))

namespace FileName

/-- The name as a program writes it. -/
def text (f : FileName) : List UInt8 := nameText f.drive f.base f.type

/-- The file control block of the name. -/
def fcb (f : FileName) (record : ℤ) : Fcb := nameFcb f.drive f.base f.type record

/-- No star in the base and none in the type. -/
def Unstarred (f : FileName) : Prop := f.base.starred = false ∧ ∀ t ∈ f.type, t.starred = false

end FileName

theorem toupper_ne_blank {c : UInt8} (h : NameChar c) : toupper c ≠ 0x20 := by
  intro hup
  have hnat := toupper_toNat c
  rw [hup] at hnat
  have hc : c.toNat = 32 := by
    simp only [UInt8.reduceToNat] at hnat
    split_ifs at hnat <;> omega
  exact h.2.1 (UInt8.toNat_inj.mp hc)

/-- Two lists without the filler that are equal when filled up are equal. -/
theorem eq_of_getD_eq {s t : List UInt8} {b : UInt8} {k : ℕ} (hs : s.length ≤ k) (ht : t.length ≤ k) (hbs : b ∉ s)
    (hbt : b ∉ t) (h : ∀ i < k, s.getD i b = t.getD i b) : s = t := by
  refine List.ext_getElem? fun i => ?_
  by_cases hi : i < k
  · have hget := h i hi
    rw [List.getD_eq_getElem?_getD, List.getD_eq_getElem?_getD] at hget
    cases hsi : s[i]? with
    | none =>
      cases hti : t[i]? with
      | none => rfl
      | some d =>
        rw [hsi, hti, Option.getD_none, Option.getD_some] at hget
        exact absurd (hget ▸ List.mem_of_getElem? hti) hbt
    | some c =>
      cases hti : t[i]? with
      | none =>
        rw [hsi, hti, Option.getD_none, Option.getD_some] at hget
        exact absurd (hget ▸ List.mem_of_getElem? hsi) hbs
      | some d =>
        rw [hsi, hti, Option.getD_some, Option.getD_some] at hget
        rw [hget]
  · rw [List.getElem?_eq_none (by omega), List.getElem?_eq_none (by omega)]

/-- A field that is filled up with blanks determines the letters in it. -/
theorem nameField_inj {s t : List UInt8} {k : ℕ} (hs : s.length ≤ k) (ht : t.length ≤ k)
    (hslegal : ∀ c ∈ s, NameChar c) (htlegal : ∀ c ∈ t, NameChar c) :
    nameField 0x20 s k = nameField 0x20 t k ↔ SameLetters s t := by
  have hblank : ∀ l : List UInt8, (∀ c ∈ l, NameChar c) → (0x20 : UInt8) ∉ l.map toupper := by
    intro l hl hmem
    obtain ⟨c, hc, hup⟩ := List.mem_map.mp hmem
    exact toupper_ne_blank (hl c hc) hup
  constructor
  · intro h
    exact eq_of_getD_eq (by simpa using hs) (by simpa using ht) (hblank s hslegal) (hblank t htlegal)
      fun i hi => congrFun h ⟨i, hi⟩
  · intro h
    unfold nameField
    rw [h]

namespace FileName

variable (f : FileName)

theorem typeField_eq (hf : f.Unstarred) : typeField f.type = nameField 0x20 (typeChars f.type) 3 := by
  have hstar := hf.2
  cases h : f.type with
  | none => rfl
  | some t =>
    rw [h] at hstar
    simp [typeField, typeChars, Part.field, hstar t rfl]

theorem typeChars_le : (typeChars f.type).length ≤ 3 := by
  cases f.type with
  | none => exact Nat.zero_le 3
  | some t => exact t.length_le

theorem typeChars_legal : ∀ c ∈ typeChars f.type, NameChar c := by
  have hlegal := f.type_legal
  cases h : f.type with
  | none => simp [typeChars]
  | some t =>
    rw [h] at hlegal
    exact hlegal t rfl

/-- The name areas are equal when the names are, ignoring case. -/
theorem nameArea_iff {f g : FileName} (hf : f.Unstarred) (hg : g.Unstarred) (r r' : ℤ) :
    ((f.fcb r).fname = (g.fcb r').fname ∧ (f.fcb r).ftype = (g.fcb r').ftype) ↔
      SameLetters f.base.chars g.base.chars ∧ SameLetters (typeChars f.type) (typeChars g.type) := by
  have hbase := nameField_inj f.base.length_le g.base.length_le f.base_legal g.base_legal
  have htype := nameField_inj f.typeChars_le g.typeChars_le f.typeChars_legal g.typeChars_legal
  rw [← hbase, ← htype, ← typeField_eq f hf, ← typeField_eq g hg]
  simp only [fcb, nameFcb, Part.field, hf.1, hg.1, Bool.false_eq_true, if_false]

end FileName

/-- **File names parse to the right file control block**, and the name area of one without
stars is that of another only if they are the same name in upper case. -/
theorem parsefn_fileName (f : FileName) (fcbp : Fcb) :
    parsefn f.text fcbp = (f.fcb fcbp.record, true) ∧
      ∀ (g : FileName) (fcbp' : Fcb), f.Unstarred → g.Unstarred →
        (((parsefn f.text fcbp).1.fname = (parsefn g.text fcbp').1.fname ∧
            (parsefn f.text fcbp).1.ftype = (parsefn g.text fcbp').1.ftype) ↔
          SameLetters f.base.chars g.base.chars ∧ SameLetters (typeChars f.type) (typeChars g.type)) := by
  have hparse := fun (f : FileName) fcbp =>
    parsefn_nameText (by omega : 8 ≤ 32) (by omega : 3 ≤ 32) f.base f.type f.drive_known fcbp
  refine ⟨hparse f fcbp, fun g fcbp' hf hg => ?_⟩
  unfold FileName.text
  rw [hparse f fcbp, hparse g fcbp']
  exact FileName.nameArea_iff hf hg _ _

/-- `15b:Read.me`. -/
def readMe : FileName where
  drive := some ⟨[0x31, 0x35], by simp [isdigit], by decide, by decide, some 0x62, by simp; decide, by decide⟩
  drive_known := by simp [KnownDrive]; decide
  base := ⟨[0x52, 0x65, 0x61, 0x64], by simp [delim], by decide, false⟩
  base_legal := by simp [NameChar, delim]
  base_nonempty := by decide
  type := some ⟨[0x6d, 0x65], by simp [delim], by decide, false⟩
  type_legal := by simp [NameChar, delim]

/-- `READ.Me`. -/
def readMeUpper : FileName where
  drive := none
  drive_known := by simp [KnownDrive]
  base := ⟨[0x52, 0x45, 0x41, 0x44], by simp [delim], by decide, false⟩
  base_legal := by simp [NameChar, delim]
  base_nonempty := by decide
  type := some ⟨[0x4d, 0x65], by simp [delim], by decide, false⟩
  type_legal := by simp [NameChar, delim]

theorem parsefn_readMe :
    (parsefn readMe.text Fcb.zero).2 = true ∧ (parsefn readMe.text Fcb.zero).1.drive = 2 ∧
      (parsefn readMe.text Fcb.zero).1.fuser = 16 ∧
      (parsefn readMe.text Fcb.zero).1.fname = (parsefn readMeUpper.text Fcb.zero).1.fname := by
  have h := parsefn_fileName readMe Fcb.zero
  have hsame := (h.2 readMeUpper Fcb.zero (by simp [FileName.Unstarred, readMe])
    (by simp [FileName.Unstarred, readMeUpper])).mpr ⟨by decide, by decide⟩
  refine ⟨by rw [h.1], ?_, ?_, hsame.1⟩
  · rw [h.1]
    rfl
  · rw [h.1]
    rfl

/-! ### Passwords -/

/-- A file spec `#d:filename.typ;passwd`. -/
structure FileSpec where
  /-- The user number and the drive. -/
  drive : Option DriveSpec
  /-- The file name. -/
  base : Part 8
  base_legal : ∀ c ∈ base.chars, NameChar c
  base_nonempty : base.chars ≠ []
  base_unstarred : base.starred = false
  /-- The type. -/
  type : Option (Part 3)
  type_legal : ∀ t ∈ type, ∀ c ∈ t.chars, NameChar c
  type_unstarred : ∀ t ∈ type, t.starred = false
  /-- The password. -/
  passwd : List UInt8
  passwd_legal : ∀ c ∈ passwd, NameChar c
  passwd_nonempty : passwd ≠ []
  passwd_le : passwd.length ≤ 8

namespace FileSpec

variable (f : FileSpec)

/-- The file spec without the password. -/
def name : List UInt8 := nameText f.drive f.base f.type

/-- The file spec as a program writes it. -/
def text : List UInt8 := f.name ++ 0x3b :: f.passwd

/-- The name is legal, the password is in its field, and the rest of the file control block is
that of the name alone. -/
def SplitsPassword (fcbp : Fcb) : Prop :=
  (parsefn f.text fcbp).2 = true ∧
    (∀ (i : Fin 8) (h : i < f.passwd.length), (parsefn f.text fcbp).1.fpasswd i = toupper f.passwd[i]) ∧
    (parsefn f.text fcbp).1.drive = (parsefn f.name fcbp).1.drive ∧
    (parsefn f.text fcbp).1.fuser = (parsefn f.name fcbp).1.fuser ∧
    (parsefn f.text fcbp).1.fname = (parsefn f.name fcbp).1.fname ∧
    (parsefn f.text fcbp).1.ftype = (parsefn f.name fcbp).1.ftype

end FileSpec

/-- A part with a `;` and a password behind it: `get_token` does not stop at the `;`. -/
def Part.withPassword {n : ℕ} (p : Part n) (hn : n ≤ 8) {passwd : List UInt8} (hlegal : ∀ c ∈ passwd, NameChar c)
    (hlen : passwd.length ≤ 8) : Part 17 where
  chars := p.chars ++ 0x3b :: passwd
  plain := by
    intro c hc
    rcases List.mem_append.mp hc with h | h
    · exact p.plain c h
    · rcases List.mem_cons.mp h with rfl | h
      · decide
      · exact (hlegal c h).2.2.2
  length_le := by
    have hp := p.length_le
    simp only [List.length_append, List.length_cons]
    omega
  starred := false

namespace FileSpec

variable (f : FileSpec)

/-- The text is that of a name whose type, or else whose base, has the password at its end. -/
theorem text_eq : ∃ (m n : ℕ) (base : Part m) (type : Option (Part n)), m ≤ 32 ∧ n ≤ 32 ∧
    f.text = nameText f.drive base type := by
  have hbase : f.base.text = f.base.chars := by simp [Part.text, Part.star, f.base_unstarred]
  cases h : f.type with
  | none =>
    refine ⟨17, 17, f.base.withPassword (by omega) f.passwd_legal f.passwd_le, none, by omega, by omega, ?_⟩
    simp [text, name, nameText, h, hbase, typeText]
    simp [Part.text, Part.star, Part.withPassword]
  | some t =>
    have ht : t.text = t.chars := by simp [Part.text, Part.star, f.type_unstarred t h]
    refine ⟨8, 17, f.base, some (t.withPassword (by omega) f.passwd_legal f.passwd_le), by omega, by omega, ?_⟩
    simp [text, name, nameText, h, typeText, ht]
    simp [Part.text, Part.star, Part.withPassword]

theorem fpasswd_text (fcbp : Fcb) : (parsefn f.text fcbp).1.fpasswd = Bytes.fill 0 := by
  obtain ⟨m, n, base, type, hm, hn, htext⟩ := f.text_eq
  rw [htext]
  exact fpasswd_nameText hm hn base type f.drive fcbp

end FileSpec

theorem toupper_ne_null {c : UInt8} (h : c ≠ 0) : toupper c ≠ 0 := by
  intro hup
  have hnat := toupper_toNat c
  rw [hup] at hnat
  have hc : c.toNat = 0 := by
    simp only [UInt8.reduceToNat] at hnat
    split_ifs at hnat <;> omega
  exact h (UInt8.toNat_inj.mp hc)

/-- **No password is ever separated from the name**: it becomes part of the name or of the
type, and the password field stays empty. -/
theorem not_splitsPassword (f : FileSpec) (fcbp : Fcb) : ¬ f.SplitsPassword fcbp := by
  intro h
  have hpos := List.length_pos_iff.mpr f.passwd_nonempty
  have hfirst := h.2.1 0 hpos
  rw [f.fpasswd_text] at hfirst
  exact toupper_ne_null (f.passwd_legal _ (List.getElem_mem hpos)).1 hfirst.symm

/-- `a.b;x`. -/
def aDotB : FileSpec where
  drive := none
  base := ⟨[0x61], by simp [delim], by decide, false⟩
  base_legal := by simp [NameChar, delim]
  base_nonempty := by decide
  base_unstarred := rfl
  type := some ⟨[0x62], by simp [delim], by decide, false⟩
  type_legal := by simp [NameChar, delim]
  type_unstarred := by simp
  passwd := [0x78]
  passwd_legal := by simp [NameChar, delim]
  passwd_nonempty := by decide
  passwd_le := by decide

/-- The name is legal, but it is another one: the type is `B;X`. -/
theorem aDotB_type : (parsefn aDotB.text Fcb.zero).2 = true ∧ (parsefn aDotB.text Fcb.zero).1.ftype 1 = 0x3b ∧
    ¬ ∀ (f : FileSpec) (fcbp : Fcb), f.SplitsPassword fcbp := by
  refine ⟨by decide, by decide, fun h => ?_⟩
  have htype := congrFun (h aDotB Fcb.zero).2.2.2.2.2 1
  revert htype
  decide

end Cpm68k.Cpmlib
