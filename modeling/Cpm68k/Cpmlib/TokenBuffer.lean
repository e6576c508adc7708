import Mathlib.Data.List.GetD
import Cpm68k.Cpmlib.DriveCodes

/-!
# The token buffer

`cpmlib/parsefn.c` once more, with the memory it uses: the string, the 32 bytes of `tokbuf`,
and the fields of the file control block.

## The model

* The functions named `…At` are those of the source with pointers as indices. Each also gives
  the list of its accesses, in order.
* The memory from `tokbuf` on is a function on indices, so that the byte behind the buffer can
  be stored to. What is stored there does no harm in the model; `Safe` is what finds it.

## What is proved

* `parsefnAt_snd` — what `_parsefn` does with its memory is what the model of it on lists says.
* `safe_iff` — a string is parsed within the buffers exactly if no token that is reached has
  32 characters or more.
-/

namespace Cpm68k.Cpmlib

/-! ### Accesses -/

/-- An access to memory. -/
inductive Access where
  /-- The string is read at `p`. -/
  | string (p : ℕ)
  /-- `get_token` begins. -/
  | token
  /-- `tokbuf[i]` is stored. -/
  | put (i : ℕ)
  /-- `tokbuf[i]` is read. -/
  | get (i : ℕ)
  /-- Byte `i` of a field of `n` bytes is stored. -/
  | field (n i : ℕ)

/-- The accesses to a string of `len` characters and to the buffers are inside them, and only
what the last `get_token` has stored in `tokbuf` is read; `stored` is what it has so far. -/
def Safe (len : ℕ) : Finset ℕ → List Access → Prop
  | _, [] => True
  | stored, .string p :: l => p ≤ len ∧ Safe len stored l
  | _, .token :: l => Safe len ∅ l
  | stored, .put i :: l => i < 32 ∧ Safe len (insert i stored) l
  | stored, .get i :: l => i ∈ stored ∧ Safe len stored l
  | stored, .field n i :: l => i < n ∧ Safe len stored l

/-! ### The functions of `parsefn.c` -/

/-- Memory from an address on. -/
abbrev Buffer := ℕ → UInt8

/-- The character at `p`, a null byte at the end of the string. -/
def charAt (s : List UInt8) (p : ℕ) : UInt8 := s.getD p 0

/-- The loop of `get_token`: the accesses, the buffer, and where the delimiter is. -/
def getTokenLoop (s : List UInt8) : ℕ → ℕ → ℕ → Buffer → List Access × Buffer × ℕ
  | 0, src, dest, tokbuf => ([.string src, .put dest], Function.update tokbuf dest 0, src)
  | len + 1, src, dest, tokbuf =>
    if charAt s src ≠ 0 ∧ charAt s src ∉ delim then
      let (accesses, tokbuf, src') := getTokenLoop s len (src + 1) (dest + 1) (Function.update tokbuf dest (charAt s src))
      (.string src :: .put dest :: accesses, tokbuf, src')
    else ([.string src, .put dest], Function.update tokbuf dest 0, src)

/-- `get_token(src, tokbuf, 32)`. -/
def getTokenAt (s : List UInt8) (src : ℕ) (tokbuf : Buffer) : List Access × Buffer × ℕ :=
  let (accesses, tokbuf, src) := getTokenLoop s 32 src 0 tokbuf
  (.token :: accesses, tokbuf, src)

/-- `_strcpy(tokbuf, d, c)`, with `i` bytes copied before: the accesses and the field. -/
def strcpyAt (tokbuf : Buffer) {n : ℕ} : ℕ → ℕ → Bytes n → List Access × Bytes n
  | 0, i, d => ([.get i], d)
  | c + 1, i, d =>
    if tokbuf i ≠ 0 then
      let (accesses, d) := strcpyAt tokbuf c (i + 1) (d.move i [toupper (tokbuf i)])
      (.get i :: .field n i :: accesses, d)
    else ([.get i], d)

/-- The digits of a drive spec: the accesses, the user field, and what follows them. A token
has no more than 32. -/
def userDigitsAt (tokbuf : Buffer) : ℕ → ℕ → Int16 → Int8 → List Access × Int8 × ℕ
  | 0, src, _, fuser => ([], fuser, src)
  | fuel + 1, src, i, fuser =>
    if isdigit (tokbuf src) = true then
      let i := i * 10 + Int16.ofInt ((tokbuf src).toNat - 48)
      let (accesses, fuser, src') := userDigitsAt tokbuf fuel (src + 1) i (i + 1).toInt8
      (.get src :: .get src :: accesses, fuser, src')
    else ([.get src], fuser, src)

/-- `stuff_drive`: the accesses, the file control block, and whether the drive spec is
legal. -/
def stuffDriveAt (fcbp : Fcb) (tokbuf : Buffer) : List Access × Fcb × Bool :=
  let (digits, fuser, src) := userDigitsAt tokbuf 33 0 0 fcbp.fuser
  let (letter, drive, src) :=
    if tokbuf src ≠ 0 then ([.get src, .get src], (toupper (tokbuf src) - 0x41 + 1).toInt8, src + 1)
    else ([.get src], fcbp.drive, src)
  (digits ++ letter ++ [.get src], { fcbp with fuser := fuser, drive := drive },
    tokbuf src = 0 ∧ ¬ fuser > 16 ∧ ¬ drive > 15)

/-- A token goes to a field: the accesses, the field, and the position after. -/
def parseFieldAt (s : List UInt8) {n : ℕ} (field : Bytes n) (tokbuf : Buffer) (p : ℕ) : List Access × Bytes n × ℕ :=
  let (field, p') := if charAt s p = 0x2a then (Bytes.fill 0x3f, p + 1) else (field, p)
  let (accesses, field) := strcpyAt tokbuf n 0 field
  (.string p :: accesses, field, p')

/-- The extension, if one is specified. -/
def parseTypeAt (s : List UInt8) (fcbp : Fcb) (tokbuf : Buffer) (p : ℕ) : List Access × Fcb × Buffer × ℕ :=
  if charAt s p = 0x2e then
    let (token, tokbuf, p') := getTokenAt s (p + 1) tokbuf
    let (accesses, ftype, p') := parseFieldAt s fcbp.ftype tokbuf p'
    (.string p :: (token ++ accesses), { fcbp with ftype := ftype }, tokbuf, p')
  else ([.string p], fcbp, tokbuf, p)

/-- The password, if one is specified. -/
def parsePasswordAt (s : List UInt8) (fcbp : Fcb) (tokbuf : Buffer) (p : ℕ) : List Access × Fcb × ℕ :=
  if charAt s p = 0x3b then
    let (token, tokbuf, p') := getTokenAt s (p + 1) tokbuf
    let (accesses, fpasswd) := strcpyAt tokbuf 8 0 fcbp.fpasswd
    (.string p :: (token ++ accesses), { fcbp with fpasswd := fpasswd }, p')
  else ([.string p], fcbp, p)

/-- The name, the extension and the password. -/
def parseRestAt (s : List UInt8) (fcbp : Fcb) (tokbuf : Buffer) (p : ℕ) : List Access × Fcb × Bool :=
  let (name, fname, p) := parseFieldAt s fcbp.fname tokbuf p
  let (type, fcbp, tokbuf, p) := parseTypeAt s { fcbp with fname := fname } tokbuf p
  let (passwd, fcbp, p) := parsePasswordAt s fcbp tokbuf p
  (name ++ (type ++ (passwd ++ [.string p])), fcbp, charAt s p = 0 ∨ charAt s p = 0x0a ∨ charAt s p = 0x0d)

/-- `_parsefn`, with whatever is in `tokbuf`. -/
def parsefnAt (s : List UInt8) (fcbp : Fcb) (tokbuf : Buffer) : List Access × Fcb × Bool :=
  let fcbp := clearFcb fcbp
  let (token, tokbuf, p) := getTokenAt s 0 tokbuf
  if charAt s p = 0x3a then
    let (drive, fcbp, ok) := stuffDriveAt fcbp tokbuf
    if ok = true then
      let (token', tokbuf, p') := getTokenAt s (p + 1) tokbuf
      let (rest, fcbp, ok) := parseRestAt s fcbp tokbuf p'
      (token ++ (.string p :: (drive ++ (token' ++ rest))), fcbp, ok)
    else (token ++ (.string p :: drive), fcbp, false)
  else
    let (rest, fcbp, ok) := parseRestAt s fcbp tokbuf p
    (token ++ (.string p :: rest), fcbp, ok)

/-! ### Tokens in the buffer -/

/-- A string without a null byte in it. -/
def NoNull (s : List UInt8) : Prop := ∀ c ∈ s, c ≠ 0

/-- The string `t` is in memory from index `i` on, with the null byte that ends it. -/
def StringAt (m : Buffer) (i : ℕ) (t : List UInt8) : Prop := ∀ j ≤ t.length, m (i + j) = t.getD j 0

theorem StringAt.cons {m : Buffer} {i : ℕ} {c : UInt8} {t : List UInt8} (hc : m i = c) (ht : StringAt m (i + 1) t) :
    StringAt m i (c :: t) := by
  intro j hj
  cases j with
  | zero => simpa using hc
  | succ j =>
    rw [List.getD_cons_succ, ← ht j (by simpa using hj)]
    congr 1
    omega

/-- The character at a position is the first of what is left of the string. -/
theorem charAt_eq (s : List UInt8) (p : ℕ) : charAt s p = (s.drop p).headD 0 := by
  rw [charAt, List.getD_eq_getElem?_getD, List.headD_eq_head?_getD, List.head?_drop]

theorem charAt_of_cons {s r : List UInt8} {c : UInt8} {p : ℕ} (h : s.drop p = c :: r) :
    charAt s p = c ∧ s.drop (p + 1) = r ∧ p < s.length := by
  refine ⟨by rw [charAt_eq, h, List.headD_cons], ?_, ?_⟩
  · rw [← List.tail_drop, h, List.tail_cons]
  · by_contra hle
    rw [List.drop_eq_nil_of_le (by omega)] at h
    exact absurd h (by simp)

/-- The token `t` from position `src` on has been moved to index `dest` on: the accesses, the
buffer and the position that are left, `r` being the rest of the string. -/
structure TokenMoved (s t r : List UInt8) (src dest : ℕ) (m : Buffer) (result : List Access × Buffer × ℕ) : Prop where
  position : result.2.2 = src + t.length
  position_le : result.2.2 ≤ s.length
  rest : s.drop result.2.2 = r
  stored : StringAt result.2.1 dest t
  kept : ∀ i < dest, result.2.1 i = m i
  safe : ∀ l, Safe s.length (Finset.range dest) (result.1 ++ l) ↔
    dest + t.length < 32 ∧ Safe s.length (Finset.range (dest + t.length + 1)) l

/-- A token is over: the null byte is stored behind it. -/
theorem TokenMoved.stop {s : List UInt8} {src : ℕ} (hsrc : src ≤ s.length) (dest : ℕ) (m : Buffer) :
    TokenMoved s [] (s.drop src) src dest m ([.string src, .put dest], Function.update m dest 0, src) where
  position := rfl
  position_le := hsrc
  rest := rfl
  stored := fun j hj => by
    rw [Nat.le_zero.mp hj]
    exact Function.update_self ..
  kept := fun i hi => Function.update_of_ne (by omega) ..
  safe := fun l => by
    simp only [List.cons_append, List.nil_append, Safe, hsrc, true_and, List.length_nil, Nat.add_zero,
      Finset.range_add_one]

/-- A character more. -/
theorem TokenMoved.step {s t r : List UInt8} {c : UInt8} {src dest : ℕ} (hsrc : src ≤ s.length) {m : Buffer}
    {result : List Access × Buffer × ℕ} (h : TokenMoved s t r (src + 1) (dest + 1) (Function.update m dest c) result) :
    TokenMoved s (c :: t) r src dest m (.string src :: .put dest :: result.1, result.2) where
  position := by
    have := h.position
    simp only [List.length_cons]
    omega
  position_le := h.position_le
  rest := h.rest
  stored := .cons ((h.kept dest (by omega)).trans (Function.update_self ..)) h.stored
  kept := fun i hi => (h.kept i (by omega)).trans (Function.update_of_ne (by omega) ..)
  safe := fun l => by
    have hsafe := h.safe l
    simp only [List.cons_append, Safe, hsrc, true_and, ← Finset.range_add_one, hsafe, List.length_cons]
    rw [show dest + 1 + t.length = dest + (t.length + 1) by omega]
    exact ⟨fun h => h.2, fun h => ⟨by omega, h⟩⟩

theorem getTokenLoop_moved {s t r : List UInt8} (hs : NoNull s) {len src : ℕ} (hsrc : src ≤ s.length)
    (dest : ℕ) (ht : getToken (s.drop src) len = (t, r)) (m : Buffer) :
    TokenMoved s t r src dest m (getTokenLoop s len src dest m) := by
  induction len generalizing src dest m t with
  | zero =>
    have hzero : getToken (s.drop src) 0 = ([], s.drop src) := by cases s.drop src <;> rfl
    obtain ⟨rfl, rfl⟩ := Prod.mk.inj (hzero.symm.trans ht)
    exact .stop hsrc dest m
  | succ len ih =>
    cases hdrop : s.drop src with
    | nil =>
      have hchar : charAt s src = 0 := by rw [charAt_eq, hdrop, List.headD_nil]
      have hstop := TokenMoved.stop hsrc dest m
      rw [hdrop] at ht hstop
      obtain ⟨rfl, rfl⟩ := Prod.mk.inj ht
      rw [getTokenLoop, if_neg (by simp [hchar])]
      exact hstop
    | cons c l =>
      obtain ⟨hchar, hnext, hlt⟩ := charAt_of_cons hdrop
      have hne : c ≠ 0 := hs c (List.mem_of_mem_drop (hdrop ▸ List.mem_cons_self))
      rw [hdrop, getToken] at ht
      by_cases hc : c ∈ delim
      · rw [if_pos hc] at ht
        obtain ⟨rfl, rfl⟩ := Prod.mk.inj ht
        rw [getTokenLoop, hchar, if_neg (by simp [hc]), ← hdrop]
        exact .stop hsrc dest m
      · rw [if_neg hc] at ht
        obtain ⟨rfl, rfl⟩ := Prod.mk.inj ht
        rw [getTokenLoop, hchar, if_pos ⟨hne, hc⟩]
        exact .step hsrc (ih hlt (dest + 1) (by rw [hnext]) _)

/-- What `get_token` leaves behind for the functions after it. -/
structure TokenRead (s t r : List UInt8) (result : List Access × Buffer × ℕ) : Prop where
  position_le : result.2.2 ≤ s.length
  rest : s.drop result.2.2 = r
  stored : StringAt result.2.1 0 t
  safe : ∀ stored l, Safe s.length stored (result.1 ++ l) ↔
    t.length < 32 ∧ Safe s.length (Finset.range (t.length + 1)) l

/-- **`get_token`** reads no further than the end of the string, leaves the token in the buffer,
and is safe if there is room for the null byte behind it. -/
theorem getTokenAt_read {s t r : List UInt8} (hs : NoNull s) {src : ℕ} (hsrc : src ≤ s.length)
    (ht : getToken (s.drop src) 32 = (t, r)) (m : Buffer) : TokenRead s t r (getTokenAt s src m) := by
  have h := getTokenLoop_moved hs hsrc 0 ht m
  refine ⟨h.position_le, h.rest, h.stored, fun stored l => ?_⟩
  have hsafe := h.safe l
  rw [Nat.zero_add] at hsafe
  exact hsafe

/-! ### Reading the token -/

/-- Every byte of the token has been stored, the null byte too. -/
def HasStored (stored : Finset ℕ) (t : List UInt8) : Prop := ∀ j ≤ t.length, j ∈ stored

theorem hasStored_range (t : List UInt8) : HasStored (Finset.range (t.length + 1)) t :=
  fun j hj => Finset.mem_range.mpr (by omega)

/-- Accesses that are safe whenever the token `t` has been stored. -/
def Harmless (len : ℕ) (t : List UInt8) (accesses : List Access) : Prop :=
  ∀ stored l, HasStored stored t → (Safe len stored (accesses ++ l) ↔ Safe len stored l)

namespace Harmless

variable {len : ℕ} {t : List UInt8} {accesses : List Access}

theorem nil (len : ℕ) (t : List UInt8) : Harmless len t [] := fun _ _ _ => Iff.rfl

theorem get {i : ℕ} (hi : i ≤ t.length) (h : Harmless len t accesses) : Harmless len t (.get i :: accesses) := by
  intro stored l hstored
  rw [List.cons_append, Safe, h stored l hstored]
  exact and_iff_right (hstored i hi)

theorem field {n i : ℕ} (hi : i < n) (h : Harmless len t accesses) : Harmless len t (.field n i :: accesses) := by
  intro stored l hstored
  rw [List.cons_append, Safe, h stored l hstored]
  exact and_iff_right hi

theorem string {p : ℕ} (hp : p ≤ len) (h : Harmless len t accesses) : Harmless len t (.string p :: accesses) := by
  intro stored l hstored
  rw [List.cons_append, Safe, h stored l hstored]
  exact and_iff_right hp

theorem append {l₁ l₂ : List Access} (h₁ : Harmless len t l₁) (h₂ : Harmless len t l₂) : Harmless len t (l₁ ++ l₂) := by
  intro stored l hstored
  rw [List.append_assoc, h₁ stored _ hstored, h₂ stored l hstored]

end Harmless

/-- The byte at a position of the token is its first character from there on. -/
theorem StringAt.cases {m : Buffer} {t : List UInt8} (h : StringAt m 0 t) (ht : NoNull t) {i : ℕ} (hi : i ≤ t.length) :
    (m i = 0 ∧ t.drop i = []) ∨ ∃ c, m i = c ∧ c ≠ 0 ∧ t.drop i = c :: t.drop (i + 1) ∧ i < t.length := by
  have hmi := h i hi
  rw [Nat.zero_add] at hmi
  rcases Nat.lt_or_ge i t.length with hlt | hge
  · refine Or.inr ⟨t[i], ?_, ht _ (List.getElem_mem hlt), List.drop_eq_getElem_cons hlt, hlt⟩
    rw [hmi, List.getD_eq_getElem _ _ hlt]
  · exact Or.inl ⟨by rw [hmi, List.getD_eq_default _ _ hge], List.drop_eq_nil_of_le hge⟩

theorem Bytes.move_cons {n : ℕ} (d : Bytes n) (i : ℕ) (c : UInt8) (l : List UInt8) :
    (d.move i [c]).move (i + 1) l = d.move i (c :: l) := by
  funext k
  unfold Bytes.move
  rcases Nat.lt_trichotomy k.val i with hk | hk | hk
  · rw [if_neg (by omega), if_neg (by omega), if_neg (by omega)]
  · rw [if_neg (by omega), if_pos (by omega), if_pos (by omega), hk, Nat.sub_self]
    rfl
  · rw [if_pos (by omega), if_pos (by omega), if_pos (by omega), show k.val - i = k.val - (i + 1) + 1 by omega]
    rfl

/-- **`_strcpy`** stays in the field, and reads no further than the null byte. -/
theorem strcpyAt_spec {m : Buffer} {t : List UInt8} (h : StringAt m 0 t) (ht : NoNull t) (len : ℕ) {n c i : ℕ} (hc : i + c = n)
    (hi : i ≤ t.length) (d : Bytes n) :
    (strcpyAt m c i d).2 = d.move i ((t.drop i).map toupper) ∧ Harmless len t (strcpyAt m c i d).1 := by
  induction c generalizing i d with
  | zero =>
    refine ⟨?_, .get hi (.nil len t)⟩
    funext k
    exact (if_neg (by omega)).symm
  | succ c ih =>
    rcases h.cases ht hi with ⟨hmi, hdrop⟩ | ⟨b, hmi, hb, hdrop, hlt⟩
    · rw [strcpyAt, if_neg (by simp [hmi]), hdrop]
      refine ⟨?_, .get hi (.nil len t)⟩
      funext k
      simp [Bytes.move]
    · obtain ⟨hfield, hsafe⟩ := ih (by omega) hlt (d.move i [toupper b])
      rw [strcpyAt, hmi, if_pos hb, hdrop, List.map_cons]
      exact ⟨hfield.trans (Bytes.move_cons ..), .get hi (.field (by omega) hsafe)⟩

/-- The digits of a drive spec, read from the buffer. -/
theorem userDigitsAt_spec {m : Buffer} {t : List UInt8} (h : StringAt m 0 t) (ht : NoNull t) (len : ℕ) (fuel : ℕ) {src : ℕ}
    (hsrc : src ≤ t.length) (hfuel : t.length < src + fuel) (i : Int16) (fuser : Int8) :
    let result := userDigitsAt m fuel src i fuser
    result.2.1 = (userDigits (t.drop src) i fuser).1 ∧ t.drop result.2.2 = (userDigits (t.drop src) i fuser).2 ∧
      result.2.2 ≤ t.length ∧ Harmless len t result.1 := by
  induction fuel generalizing src i fuser with
  | zero => omega
  | succ fuel ih =>
    rcases h.cases ht hsrc with ⟨hmi, hdrop⟩ | ⟨b, hmi, hb, hdrop, hlt⟩
    · rw [userDigitsAt, hmi, if_neg (by decide), hdrop]
      exact ⟨rfl, hdrop, hsrc, .get hsrc (.nil len t)⟩
    · rw [userDigitsAt, hmi, hdrop, userDigits]
      by_cases hdigit : isdigit b = true
      · rw [if_pos hdigit, if_pos hdigit]
        obtain ⟨huser, hrest, hle, hsafe⟩ := ih hlt (by omega) (i * 10 + Int16.ofInt (b.toNat - 48))
          (i * 10 + Int16.ofInt (b.toNat - 48) + 1).toInt8
        exact ⟨huser, hrest, hle, .get hsrc (.get hsrc hsafe)⟩
      · rw [if_neg hdigit, if_neg hdigit]
        exact ⟨rfl, hdrop, hsrc, .get hsrc (.nil len t)⟩

/-- **`stuff_drive`** reads no further than the null byte. -/
theorem stuffDriveAt_spec {m : Buffer} {t : List UInt8} (h : StringAt m 0 t) (ht : NoNull t) (len : ℕ)
    (hlen : t.length ≤ 32) (fcbp : Fcb) : (stuffDriveAt fcbp m).2 = stuffDrive fcbp t ∧ Harmless len t (stuffDriveAt fcbp m).1 := by
  obtain ⟨huser, hrest, hle, hsafe⟩ :=
    userDigitsAt_spec h ht len 33 (Nat.zero_le _) (by omega) 0 fcbp.fuser
  rw [List.drop_zero] at huser hrest
  unfold stuffDriveAt stuffDrive
  generalize userDigitsAt m 33 0 0 fcbp.fuser = digits at *
  obtain ⟨accesses, fuser, src⟩ := digits
  generalize userDigits t 0 fcbp.fuser = list at *
  obtain ⟨fuser', rest⟩ := list
  simp only at huser hrest hle hsafe
  subst huser hrest
  simp only
  rcases h.cases ht hle with ⟨hmi, hdrop⟩ | ⟨b, hmi, hb, hdrop, hlt⟩
  · simp only [hmi, ne_eq, not_true_eq_false, if_false, hdrop, true_and]
    exact (hsafe.append (.get hle (.nil len t))).append (.get hle (.nil len t))
  · have hnext : m (src + 1) = 0 ↔ t.drop (src + 1) = [] := by
      rcases h.cases ht hlt with ⟨hmi, hdrop⟩ | ⟨b, hmi, hb, hdrop, -⟩
      · simp [hmi, hdrop]
      · rw [hmi, hdrop]
        simp [hb]
    simp only [hmi, ne_eq, hb, not_false_iff, if_true, hdrop, hnext, true_and]
    exact (hsafe.append (.get hle (.get hle (.nil len t)))).append (.get hlt (.nil len t))

/-! ### Strings with short tokens -/

/-- The characters up to the first delimiter. -/
def run (s : List UInt8) : List UInt8 := s.takeWhile (· ∉ delim)

/-- The string from the first delimiter on. -/
def behindRun (s : List UInt8) : List UInt8 := s.dropWhile (· ∉ delim)

/-- Fewer than 32 characters up to the first delimiter. -/
def ShortRun (s : List UInt8) : Prop := (run s).length < 32

/-- The string behind a `*`, if it begins with one. -/
def dropStar : List UInt8 → List UInt8
  | 0x2a :: s => s
  | s => s

/-- Behind a name and a type: the password, if there is one, is short. -/
def ShortPasswd : List UInt8 → Prop
  | 0x3b :: s => ShortRun s
  | _ => True

/-- Behind a base: the type, if there is one, is short, and so is the password. -/
def ShortType : List UInt8 → Prop
  | 0x2e :: s => ShortRun s ∧ ShortPasswd (dropStar (behindRun s))
  | s => ShortPasswd s

/-- A drive spec that passes the checks. -/
def DrivePasses (t : List UInt8) : Prop :=
  ∃ digits letter, t = digits ++ Option.toList letter ∧ (∀ c ∈ digits, isdigit c = true) ∧
    (∀ c ∈ letter, isdigit c = false) ∧ (digits ≠ [] → UserPasses (decimal digits)) ∧ ∀ c ∈ letter, LetterPasses c

/-- A string of which every token that is reached is short. -/
def ShortTokens (s : List UInt8) : Prop :=
  ShortRun s ∧
    match behindRun s with
    | 0x3a :: r => DrivePasses (run s) → ShortRun r ∧ ShortType (dropStar (behindRun r))
    | r => ShortType (dropStar r)

theorem run_append_behindRun (s : List UInt8) : run s ++ behindRun s = s := List.takeWhile_append_dropWhile

theorem run_plain (s : List UInt8) : ∀ c ∈ run s, c ∉ delim := fun _ hc => by simpa using List.mem_takeWhile_imp hc

theorem head_behindRun (s : List UInt8) : ∀ c ∈ (behindRun s).head?, c ∈ delim := by
  intro c hc
  have := List.head?_dropWhile_not (· ∉ delim) s
  simp only [behindRun] at hc
  rw [Option.mem_def.mp hc] at this
  simpa using this

/-- A short token is the string up to the first delimiter. -/
theorem ShortRun.getToken_eq {s : List UInt8} (h : ShortRun s) : getToken s 32 = (run s, behindRun s) := by
  have htok := getToken_append (n := 32) (run_plain s) (Nat.le_of_lt h) (head_behindRun s)
  rwa [run_append_behindRun] at htok

/-- A token leaves room for the null byte if it is short. -/
theorem shortRun_iff {s t r : List UInt8} (h : getToken s 32 = (t, r)) : t.length < 32 ↔ ShortRun s := by
  obtain ⟨rfl, hplain, -, hstops⟩ := getToken_eq_iff.mp h
  constructor
  · intro hlt
    have hrun : run (t ++ r) = t := by
      rw [run, List.takeWhile_append_of_pos (fun c hc => decide_eq_true (hplain c hc))]
      cases r with
      | nil => simp
      | cons c r => rw [List.takeWhile_cons_of_neg (by simpa using hstops hlt c rfl), List.append_nil]
    rwa [ShortRun, hrun]
  · intro hshort
    obtain ⟨ht, -⟩ := Prod.mk.inj (h.symm.trans hshort.getToken_eq)
    rw [ht]
    exact hshort

theorem parseField_dropStar {n : ℕ} (field : Bytes n) (t s : List UInt8) : (parseField field t s).2 = dropStar s := by
  unfold parseField dropStar
  split
  · rfl
  · simp

/-- **`stuff_drive`** accepts the drive specs that pass. -/
theorem stuffDrive_iff (fcbp : Fcb) (t : List UInt8) :
    (stuffDrive (clearFcb fcbp) t).2 = true ↔ DrivePasses t := by
  constructor
  · intro hok
    obtain ⟨digits, letter, rfl, hdigits, hletter, huser, hpass⟩ := exists_letter hok
    exact ⟨digits, letter, rfl, hdigits, hletter, (userCode_le digits).mp huser, (letterCode_passes letter).mp hpass⟩
  · rintro ⟨digits, letter, rfl, hdigits, hletter, huser, hpass⟩
    have hhead : letter.toList.head? = letter := by cases letter <;> rfl
    have htail : letter.toList.tail = [] := by cases letter <;> rfl
    rw [stuffDrive_append (clearFcb fcbp) rfl rfl hdigits (by rwa [hhead]), hhead]
    exact decide_eq_true ⟨htail, (userCode_le digits).mpr huser, (letterCode_passes letter).mpr hpass⟩

/-! ### Parsing within the buffers -/

/-- Accesses that read nothing of a token stored before. -/
def Fresh (len : ℕ) (l : List Access) : Prop := ∀ stored stored', Safe len stored l ↔ Safe len stored' l

theorem fresh_string {len p : ℕ} : Fresh len [.string p] := fun _ _ => Iff.rfl

/-- What is left of the string tells the character at a position. -/
theorem charAt_eq_iff {s : List UInt8} {p : ℕ} {c : UInt8} (hc : c ≠ 0) :
    charAt s p = c ↔ ∃ r, s.drop p = c :: r := by
  rw [charAt_eq]
  cases s.drop p with
  | nil => simpa using hc.symm
  | cons d r => simp

theorem drop_ne_cons {s : List UInt8} {p : ℕ} {c : UInt8} (hc : c ≠ 0) (h : charAt s p ≠ c) : ∀ r, s.drop p ≠ c :: r :=
  fun r hr => h ((charAt_eq_iff hc).mpr ⟨r, hr⟩)

/-- Without a semicolon there is no password. -/
theorem parsePassword_none {s : List UInt8} (h : ∀ r, s ≠ 0x3b :: r) (fcbp : Fcb) :
    parsePassword fcbp s = (fcbp, s) ∧ ShortPasswd s := by
  constructor
  · unfold parsePassword
    split
    · exact absurd rfl (h _)
    · rfl
  · unfold ShortPasswd
    split
    · exact absurd rfl (h _)
    · trivial

theorem NoNull.token {s t r : List UInt8} (hs : NoNull s) {n p : ℕ} (ht : getToken (s.drop p) n = (t, r)) : NoNull t := by
  have heq := (getToken_eq_iff.mp ht).1
  exact fun c hc => hs c (List.mem_of_mem_drop (heq ▸ List.mem_append_left r hc))

section Parts

variable {s : List UInt8} {m : Buffer} {t : List UInt8} (hm : StringAt m 0 t) (ht : NoNull t) {p : ℕ} (hp : p ≤ s.length)

include hm ht hp

/-- A token goes to its field. -/
theorem parseFieldAt_spec {n : ℕ} (field : Bytes n) :
    let result := parseFieldAt s field m p
    result.2.1 = (parseField field t (s.drop p)).1 ∧ s.drop result.2.2 = dropStar (s.drop p) ∧
      result.2.2 ≤ s.length ∧ Harmless s.length t result.1 := by
  have hcopy := fun d => strcpyAt_spec (n := n) (c := n) hm ht s.length (Nat.zero_add n) (Nat.zero_le _) d
  simp only [List.drop_zero] at hcopy
  by_cases hstar : charAt s p = 0x2a
  · obtain ⟨r, hr⟩ := (charAt_eq_iff (by decide)).mp hstar
    obtain ⟨-, hnext, hlt⟩ := charAt_of_cons hr
    simp only [parseFieldAt, if_pos hstar, hr, parseField, dropStar, hnext, copyUpper, (hcopy _).1, true_and]
    exact ⟨hlt, .string hp (hcopy _).2⟩
  · have hne := drop_ne_cons (by decide) hstar
    have hparse : parseField field t (s.drop p) = (copyUpper t field, s.drop p) := by
      unfold parseField
      split
      · exact absurd ‹_› (hne _)
      · rfl
    have hdrop : dropStar (s.drop p) = s.drop p := by rw [← parseField_dropStar field t, hparse]
    simp only [parseFieldAt, if_neg hstar, hparse, hdrop, copyUpper, (hcopy _).1, true_and]
    exact ⟨hp, .string hp (hcopy _).2⟩

end Parts

/-- A password is read into the buffer again, if there is one. -/
theorem parsePasswordAt_spec {s : List UInt8} (hs : NoNull s) {p : ℕ} (hp : p ≤ s.length) (fcbp : Fcb) (m : Buffer) :
    let result := parsePasswordAt s fcbp m p
    result.2.1 = (parsePassword fcbp (s.drop p)).1 ∧ s.drop result.2.2 = (parsePassword fcbp (s.drop p)).2 ∧
      result.2.2 ≤ s.length ∧
      ∀ stored l, Fresh s.length l →
        (Safe s.length stored (result.1 ++ l) ↔ ShortPasswd (s.drop p) ∧ Safe s.length stored l) := by
  by_cases hsemi : charAt s p = 0x3b
  · obtain ⟨r, hr⟩ := (charAt_eq_iff (by decide)).mp hsemi
    obtain ⟨-, hnext, hlt⟩ := charAt_of_cons hr
    have htok : getToken (s.drop (p + 1)) 32 = ((getToken r 32).1, (getToken r 32).2) := by rw [hnext]
    have hread := getTokenAt_read hs (show p + 1 ≤ s.length from hlt) htok m
    obtain ⟨hcopy, hharm⟩ := strcpyAt_spec (n := 8) hread.stored (hs.token htok) s.length (Nat.zero_add 8)
      (Nat.zero_le _) fcbp.fpasswd
    simp only [parsePasswordAt, if_pos hsemi, hr, parsePassword, hcopy, List.drop_zero, copyUpper, true_and]
    refine ⟨hread.rest, hread.position_le, fun stored l hl => ?_⟩
    rw [List.cons_append, Safe, List.append_assoc, hread.safe, hharm _ _ (hasStored_range _), shortRun_iff rfl,
      hl _ stored]
    exact and_iff_right hp
  · obtain ⟨hparse, hshort⟩ := parsePassword_none (drop_ne_cons (by decide) hsemi) fcbp
    simp only [parsePasswordAt, if_neg hsemi, hparse, true_and]
    refine ⟨hp, fun stored l _ => ?_⟩
    rw [List.cons_append, Safe, List.nil_append]
    simp [hp, hshort]

/-- The token of a type, if there is one, is short. -/
def ShortTypeToken : List UInt8 → Prop
  | 0x2e :: s => ShortRun s
  | _ => True

/-- Without a full stop there is no type. -/
theorem parseType_none {s : List UInt8} (h : ∀ r, s ≠ 0x2e :: r) (fcbp : Fcb) :
    parseType fcbp s = (fcbp, s) ∧ ShortTypeToken s := by
  constructor
  · unfold parseType
    split
    · exact absurd rfl (h _)
    · rfl
  · unfold ShortTypeToken
    split
    · exact absurd rfl (h _)
    · trivial

theorem shortType_iff (fcbp : Fcb) (s : List UInt8) :
    ShortType s ↔ ShortTypeToken s ∧ ShortPasswd (parseType fcbp s).2 := by
  unfold ShortType ShortTypeToken parseType
  split
  · rename_i s
    refine and_congr_right fun hshort => ?_
    simp only [hshort.getToken_eq, parseField_dropStar]
  · simp

/-- A type is read into the buffer again, if there is one. -/
theorem parseTypeAt_spec {s : List UInt8} (hs : NoNull s) {p : ℕ} (hp : p ≤ s.length) (fcbp : Fcb) (m : Buffer) :
    let result := parseTypeAt s fcbp m p
    result.2.1 = (parseType fcbp (s.drop p)).1 ∧ s.drop result.2.2.2 = (parseType fcbp (s.drop p)).2 ∧
      result.2.2.2 ≤ s.length ∧
      ∀ stored l, Fresh s.length l →
        (Safe s.length stored (result.1 ++ l) ↔ ShortTypeToken (s.drop p) ∧ Safe s.length stored l) := by
  by_cases hdot : charAt s p = 0x2e
  · obtain ⟨r, hr⟩ := (charAt_eq_iff (by decide)).mp hdot
    obtain ⟨-, hnext, hlt⟩ := charAt_of_cons hr
    have htok : getToken (s.drop (p + 1)) 32 = ((getToken r 32).1, (getToken r 32).2) := by rw [hnext]
    have hread := getTokenAt_read hs (show p + 1 ≤ s.length from hlt) htok m
    obtain ⟨hfield, hrest, hle, hharm⟩ :=
      parseFieldAt_spec hread.stored (hs.token htok) hread.position_le fcbp.ftype
    rw [hread.rest] at hfield hrest
    simp only [parseTypeAt, if_pos hdot, hr, parseType, hfield, parseField_dropStar, true_and]
    refine ⟨hrest, hle, fun stored l hl => ?_⟩
    rw [List.cons_append, Safe, List.append_assoc, hread.safe, hharm _ _ (hasStored_range _), shortRun_iff rfl,
      hl _ stored]
    exact and_iff_right hp
  · obtain ⟨hparse, hshort⟩ := parseType_none (drop_ne_cons (by decide) hdot) fcbp
    simp only [parseTypeAt, if_neg hdot, hparse, true_and]
    refine ⟨hp, fun stored l _ => ?_⟩
    rw [List.cons_append, Safe, List.nil_append]
    simp [hp, hshort]

/-- A name that does not go on has ended, or the line has. -/
theorem ended_iff {s : List UInt8} (hs : NoNull s) (p : ℕ) :
    (charAt s p = 0 ∨ charAt s p = 0x0a ∨ charAt s p = 0x0d) ↔ Ending (s.drop p) := by
  unfold Ending
  cases hdrop : s.drop p with
  | nil => simp [charAt_eq, hdrop]
  | cons c r =>
    have hc : c ≠ 0 := hs c (List.mem_of_mem_drop (hdrop ▸ List.mem_cons_self))
    simp [charAt_eq, hdrop, hc]

/-- The rest of a name is parsed safely if the type and the password are short. -/
theorem parseRestAt_spec {s t : List UInt8} (hs : NoNull s) {m : Buffer} (hm : StringAt m 0 t) (ht : NoNull t) {p : ℕ}
    (hp : p ≤ s.length) (fcbp : Fcb) :
    (parseRestAt s fcbp m p).2 = parseRest fcbp t (s.drop p) ∧
      ∀ stored, HasStored stored t →
        (Safe s.length stored (parseRestAt s fcbp m p).1 ↔ ShortType (dropStar (s.drop p))) := by
  obtain ⟨hname, hrest₁, hle₁, hharm⟩ := parseFieldAt_spec hm ht hp fcbp.fname
  generalize hfield : parseFieldAt s fcbp.fname m p = name at *
  obtain ⟨accesses₁, fname, p₁⟩ := name
  simp only at hname hrest₁ hle₁ hharm
  obtain ⟨htype, hrest₂, hle₂, hsafe₂⟩ := parseTypeAt_spec hs hle₁ { fcbp with fname := fname } m
  generalize hfield₂ : parseTypeAt s { fcbp with fname := fname } m p₁ = type at *
  obtain ⟨accesses₂, fcbp₂, m₂, p₂⟩ := type
  simp only at htype hrest₂ hle₂ hsafe₂
  obtain ⟨hpasswd, hrest₃, hle₃, hsafe₃⟩ := parsePasswordAt_spec hs hle₂ fcbp₂ m₂
  generalize hfield₃ : parsePasswordAt s fcbp₂ m₂ p₂ = passwd at *
  obtain ⟨accesses₃, fcbp₃, p₃⟩ := passwd
  simp only at hpasswd hrest₃ hle₃ hsafe₃
  have hfresh : Fresh s.length (accesses₃ ++ [.string p₃]) := fun stored stored' => by
    rw [hsafe₃ stored _ fresh_string, hsafe₃ stored' _ fresh_string]
    rfl
  simp only [parseRestAt, hfield, hfield₂, hfield₃]
  constructor
  · simp only [parseRest, ← hname, parseField_dropStar, ← hrest₁, ← htype, ← hrest₂, ← hpasswd, ← hrest₃]
    rw [Prod.mk.injEq]
    exact ⟨rfl, decide_eq_decide.mpr (ended_iff hs p₃)⟩
  · intro stored hstored
    rw [hharm _ _ hstored, hsafe₂ _ _ hfresh, hsafe₃ _ _ fresh_string, ← hrest₁,
      shortType_iff { fcbp with fname := fname }, hrest₂]
    simp [Safe, hle₃]

/-- What `_parsefn` gives is what the model on lists gives, and the accesses are safe if the
tokens are short. -/
def ParsedSafely (s : List UInt8) (fcbp : Fcb) (result : List Access × Fcb × Bool) : Prop :=
  result.2 = parsefn s fcbp ∧ (Safe s.length ∅ result.1 ↔ ShortTokens s)

/-- A name without a drive spec. -/
theorem parsefnAt_base {s t r : List UInt8} (hs : NoNull s) {fcbp : Fcb} {m : Buffer} (ht : getToken s 32 = (t, r))
    (hread : TokenRead s t r (getTokenAt s 0 m)) (hnull : NoNull t) (hcolon : charAt s (getTokenAt s 0 m).2.2 ≠ 0x3a) :
    ParsedSafely s fcbp (parsefnAt s fcbp m) := by
  generalize htoken : getTokenAt s 0 m = token at *
  obtain ⟨accesses, m₁, p⟩ := token
  obtain ⟨hp, rfl, hstored, hsafe⟩ := hread
  simp only at hp hstored hsafe hcolon ht
  have hne : (s.drop p).head? ≠ some 0x3a := by
    intro h
    obtain ⟨r, hr⟩ := List.head?_eq_some_iff.mp h
    exact hcolon ((charAt_eq_iff (by decide)).mpr ⟨r, hr⟩)
  obtain ⟨hparse, hrest⟩ := parseRestAt_spec hs hstored hnull hp (clearFcb fcbp)
  simp only [ParsedSafely, parsefnAt, htoken, if_neg hcolon]
  rw [parsefn_base ht hne]
  refine ⟨hparse, ?_⟩
  rw [hsafe, shortRun_iff ht, Safe, hrest _ (hasStored_range _)]
  refine and_congr_right fun hrun => ?_
  obtain ⟨-, hafter⟩ := Prod.mk.inj (ht.symm.trans hrun.getToken_eq)
  rw [hafter] at hne ⊢
  rw [and_iff_right hp]
  split
  · simp_all
  · rfl

/-- A name with a drive spec: what comes after is parsed if the drive spec passes. -/
theorem parsefnAt_drive {s t r : List UInt8} (hs : NoNull s) {fcbp : Fcb} {m : Buffer}
    (ht : getToken s 32 = (t, 0x3a :: r)) (hread : TokenRead s t (0x3a :: r) (getTokenAt s 0 m)) (hnull : NoNull t) :
    ParsedSafely s fcbp (parsefnAt s fcbp m) := by
  generalize htoken : getTokenAt s 0 m = token at *
  obtain ⟨accesses, m₁, p⟩ := token
  obtain ⟨hp, hr, hstored, hsafe⟩ := hread
  simp only at hp hr hstored hsafe
  obtain ⟨hcolon, hnext, hlt⟩ := charAt_of_cons hr
  obtain ⟨hstuff, hharm⟩ :=
    stuffDriveAt_spec hstored hnull s.length (getToken_eq_iff.mp ht).2.length_le (clearFcb fcbp)
  generalize hdrive : stuffDriveAt (clearFcb fcbp) m₁ = drive at *
  obtain ⟨accesses₁, fcb, ok⟩ := drive
  simp only at hstuff hharm
  have hok := stuffDrive_iff fcbp t
  have hshort : ShortTokens s ↔ ShortRun s ∧ (ok = true → ShortRun r ∧ ShortType (dropStar (getToken r 32).2)) := by
    refine and_congr_right fun hrun => ?_
    obtain ⟨hrun₁, hafter₁⟩ := Prod.mk.inj (ht.symm.trans hrun.getToken_eq)
    rw [← hstuff] at hok
    rw [← hafter₁, ← hrun₁, hok]
    refine imp_congr_right fun _ => and_congr_right fun hrun₂ => ?_
    rw [hrun₂.getToken_eq]
  unfold ParsedSafely
  rw [parsefn_drive ht, ← hstuff, hshort, ← shortRun_iff ht]
  cases ok with
  | false =>
    simp only [parsefnAt, htoken, if_pos hcolon, hdrive, Bool.false_eq_true, if_false, false_imp_iff, and_true, true_and]
    rw [hsafe, Safe, ← List.append_nil accesses₁, hharm _ _ (hasStored_range _)]
    simp [Safe, hp]
  | true =>
    have htok₂ : getToken (s.drop (p + 1)) 32 = ((getToken r 32).1, (getToken r 32).2) := by rw [hnext]
    have hread₂ := getTokenAt_read hs (show p + 1 ≤ s.length from hlt) htok₂ m₁
    generalize htoken₂ : getTokenAt s (p + 1) m₁ = token at *
    obtain ⟨accesses₂, m₂, p₂⟩ := token
    obtain ⟨hp₂, hrest₂, hstored₂, hsafe₂⟩ := hread₂
    simp only at hp₂ hrest₂ hstored₂ hsafe₂
    obtain ⟨hparse, hsafe₃⟩ := parseRestAt_spec hs hstored₂ (hs.token htok₂) hp₂ fcb
    rw [hrest₂] at hparse hsafe₃
    simp only [parsefnAt, htoken, if_pos hcolon, hdrive, if_true, htoken₂]
    refine ⟨hparse, ?_⟩
    rw [hsafe, Safe, hharm _ _ (hasStored_range _), hsafe₂, shortRun_iff rfl, hsafe₃ _ (hasStored_range _)]
    simp [hp]

theorem parsefnAt_safely {s : List UInt8} (hs : NoNull s) (fcbp : Fcb) (m : Buffer) :
    ParsedSafely s fcbp (parsefnAt s fcbp m) := by
  have htok : getToken (s.drop 0) 32 = ((getToken s 32).1, (getToken s 32).2) := by rw [List.drop_zero]
  have hread := getTokenAt_read hs (Nat.zero_le _) htok m
  by_cases hcolon : charAt s (getTokenAt s 0 m).2.2 = 0x3a
  · obtain ⟨r, hr⟩ := (charAt_eq_iff (by decide)).mp hcolon
    have ht : getToken s 32 = ((getToken s 32).1, 0x3a :: r) := by rw [← hr, hread.rest]
    exact parsefnAt_drive hs ht (by rwa [← hr, hread.rest]) (hs.token htok)
  · exact parsefnAt_base hs rfl hread (hs.token htok) hcolon

/-- What `_parsefn` does in memory is what the model of it on lists does. -/
theorem parsefnAt_snd {s : List UInt8} (hs : NoNull s) (fcbp : Fcb) (m : Buffer) :
    (parsefnAt s fcbp m).2 = parsefn s fcbp := (parsefnAt_safely hs fcbp m).1

/-- **A string is parsed within the buffers** exactly if every token that is reached has fewer
than 32 characters: one of 32 has its null byte stored behind the buffer. -/
theorem safe_iff {s : List UInt8} (hs : NoNull s) (fcbp : Fcb) (m : Buffer) :
    Safe s.length ∅ (parsefnAt s fcbp m).1 ↔ ShortTokens s := (parsefnAt_safely hs fcbp m).2

/-- `3A:B` is parsed within the buffers. -/
theorem safe_threeAB : Safe 4 ∅ (parsefnAt [0x33, 0x41, 0x3a, 0x42] Fcb.zero fun _ => 0).1 := by
  have hnull : NoNull [0x33, 0x41, 0x3a, 0x42] := by simp [NoNull]
  have hshort : ShortTokens [0x33, 0x41, 0x3a, 0x42] :=
    ⟨by unfold ShortRun; decide, fun _ => ⟨by unfold ShortRun; decide, trivial⟩⟩
  exact (safe_iff hnull Fcb.zero fun _ => 0).mpr hshort

/-- A name of 32 characters is not. -/
theorem not_safe_thirtyTwo :
    ¬ ∀ (s : List UInt8) (fcbp : Fcb) (m : Buffer), NoNull s → Safe s.length ∅ (parsefnAt s fcbp m).1 := by
  intro h
  have hnull : NoNull (List.replicate 32 0x41) := fun c hc => by
    rw [List.eq_of_mem_replicate hc]
    decide
  have hshort := (parsefnAt_safely hnull Fcb.zero fun _ => 0).2.mp (h _ _ _ hnull)
  exact absurd hshort.1 (by unfold ShortRun; decide)

end Cpm68k.Cpmlib
