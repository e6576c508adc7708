import Cpm68k.Cpmlib.Osif

/-!
# File names

`cpmlib/parsefn.c`: a C string to a file control block.

A string is the list of its characters, without the null byte that ends it: the end of the
list is where the source finds `'\0'`. A token that fills the token buffer ends there; the
null byte the source stores behind it is not part of the model.

## What is proved

* `parsefn_record` — of the file control block it is given, `_parsefn` keeps the record
  number and uses nothing else.
-/

namespace Cpm68k.Cpmlib

/-- The delimiter set, `<>.,=:|[]*\n\r`. -/
def delim : List UInt8 := [0x3c, 0x3e, 0x2e, 0x2c, 0x3d, 0x3a, 0x7c, 0x5b, 0x5d, 0x2a, 0x0a, 0x0d]

/-- `toupper`. -/
def toupper (c : UInt8) : UInt8 := if 0x61 ≤ c ∧ c ≤ 0x7a then c - 0x20 else c

/-- `isdigit`. -/
def isdigit (c : UInt8) : Bool := 0x30 ≤ c ∧ c ≤ 0x39

/-- `get_token`: the token, and the string from the delimiter on. -/
def getToken : List UInt8 → ℕ → List UInt8 × List UInt8
  | c :: src, len + 1 =>
    if c ∈ delim then ([], c :: src)
    else
      let (dest, src') := getToken src len
      (c :: dest, src')
  | src, _ => ([], src)

/-- `_strcpy`: copy the token in upper case, as far as it fits. -/
def copyUpper {n : ℕ} (s : List UInt8) (d : Bytes n) : Bytes n := d.move 0 (s.map toupper)

/-- The user number at the start of a drive spec: the stored number, and what follows. -/
def userDigits : List UInt8 → Int16 → Int8 → Int8 × List UInt8
  | [], _, fuser => (fuser, [])
  | c :: src, i, fuser =>
    if isdigit c = true then
      let i := i * 10 + Int16.ofInt (c.toNat - 48)
      userDigits src i (i + 1).toInt8
    else (fuser, c :: src)

/-- `stuff_drive`: the file control block, and whether the drive spec is legal. -/
def stuffDrive (fcbp : Fcb) (src : List UInt8) : Fcb × Bool :=
  let (fuser, src) := userDigits src 0 fcbp.fuser
  let (drive, src) := match src with
    | [] => (fcbp.drive, [])
    | c :: src => ((toupper c - 0x41 + 1).toInt8, src)
  ({ fcbp with fuser := fuser, drive := drive }, src = [] ∧ ¬ fuser > 16 ∧ ¬ drive > 15)

/-- Init the first 32 bytes to nulls, with the name area to spaces. -/
def clearFcb (fcbp : Fcb) : Fcb where
  drive := 0
  fname := Bytes.fill 0x20
  ftype := Bytes.fill 0x20
  extent := 0
  s1 := 0
  s2 := 0
  reccnt := 0
  fpasswd := Bytes.fill 0
  fuser := 0
  resvd := Bytes.fill 0
  record := fcbp.record

/-- A token goes to a field, which is filled with `?` first if the delimiter is a `*`. The
field, and the string after. -/
def parseField {n : ℕ} (field : Bytes n) (tokbuf filnam : List UInt8) : Bytes n × List UInt8 :=
  match filnam with
  | 0x2a :: filnam => (copyUpper tokbuf (Bytes.fill 0x3f), filnam)
  | filnam => (copyUpper tokbuf field, filnam)

/-- The extension, if one is specified. -/
def parseType (fcbp : Fcb) : List UInt8 → Fcb × List UInt8
  | 0x2e :: filnam =>
    let (tokbuf, filnam) := getToken filnam 32
    let (ftype, filnam) := parseField fcbp.ftype tokbuf filnam
    ({ fcbp with ftype := ftype }, filnam)
  | filnam => (fcbp, filnam)

/-- The password, if one is specified. -/
def parsePassword (fcbp : Fcb) : List UInt8 → Fcb × List UInt8
  | 0x3b :: filnam =>
    let (tokbuf, filnam) := getToken filnam 32
    ({ fcbp with fpasswd := copyUpper tokbuf fcbp.fpasswd }, filnam)
  | filnam => (fcbp, filnam)

/-- The name, the extension and the password; whether the string ends there. -/
def parseRest (fcbp : Fcb) (tokbuf filnam : List UInt8) : Fcb × Bool :=
  let (fname, filnam) := parseField fcbp.fname tokbuf filnam
  let (fcbp, filnam) := parseType { fcbp with fname := fname } filnam
  let (fcbp, filnam) := parsePassword fcbp filnam
  (fcbp, filnam = [] ∨ filnam.head? = some 0x0a ∨ filnam.head? = some 0x0d)

/-- `_parsefn`: the file control block, and whether the name is legal. -/
def parsefn (filnam : List UInt8) (fcbp : Fcb) : Fcb × Bool :=
  let fcbp := clearFcb fcbp
  let (tokbuf, filnam) := getToken filnam 32
  match filnam with
  | 0x3a :: filnam =>
    let (fcbp, ok) := stuffDrive fcbp tokbuf
    if ok = true then
      let (tokbuf, filnam) := getToken filnam 32
      parseRest fcbp tokbuf filnam
    else (fcbp, false)
  | filnam => parseRest fcbp tokbuf filnam

/-! ### The record number -/

theorem stuffDrive_record (fcbp : Fcb) (r : ℤ) (src : List UInt8) :
    stuffDrive { fcbp with record := r } src =
      ({ (stuffDrive fcbp src).1 with record := r }, (stuffDrive fcbp src).2) := by
  unfold stuffDrive
  rfl

theorem parseType_record (fcbp : Fcb) (r : ℤ) (filnam : List UInt8) :
    parseType { fcbp with record := r } filnam =
      ({ (parseType fcbp filnam).1 with record := r }, (parseType fcbp filnam).2) := by
  unfold parseType
  split <;> rfl

theorem parsePassword_record (fcbp : Fcb) (r : ℤ) (filnam : List UInt8) :
    parsePassword { fcbp with record := r } filnam =
      ({ (parsePassword fcbp filnam).1 with record := r }, (parsePassword fcbp filnam).2) := by
  unfold parsePassword
  split <;> rfl

theorem parseRest_record (fcbp : Fcb) (r : ℤ) (tokbuf filnam : List UInt8) :
    parseRest { fcbp with record := r } tokbuf filnam =
      ({ (parseRest fcbp tokbuf filnam).1 with record := r }, (parseRest fcbp tokbuf filnam).2) := by
  have htype := fun field src => parseType_record { fcbp with fname := field } r src
  simp only at htype
  unfold parseRest
  simp only [htype, parsePassword_record]

/-- Of the file control block, only the record number is left. -/
theorem parsefn_record (filnam : List UInt8) (fcbp fcbp' : Fcb) :
    parsefn filnam fcbp =
      ({ (parsefn filnam fcbp').1 with record := fcbp.record }, (parsefn filnam fcbp').2) := by
  have hclear : clearFcb fcbp = { clearFcb fcbp' with record := fcbp.record } := rfl
  unfold parsefn
  simp only [hclear, stuffDrive_record]
  split
  · split_ifs
    · exact parseRest_record _ _ _ _
    · rfl
  · exact parseRest_record _ _ _ _

end Cpm68k.Cpmlib
