import Cpm68k.Cpmlib.FileIo

/-!
# Text in ASCII files

`_wrtasc` puts a carriage return before a newline, and `_rdasc` drops every carriage return
and stops at the end of file character. Both work on one sector at a time; here is what they
do to a text as a whole.

## What is proved

* `wrtascMove_append` — the pieces that the sectors cut are pieces of `wrtascOut`, what is
  put in the file for the data of one write.
* `wrtascMove_taken` — no data is taken without what is put in the file for it.
* `rdascMove_append` — reading goes on in the next sector where it stopped in the last.
* `text_wrtascOut` — without its carriage returns, what is put in the file is the data.
-/

namespace Cpm68k.Cpmlib

/-! ### Writing -/

/-- What `_wrtasc` puts in the file, after the character `cc`. -/
def wrtascOut : UInt8 → List UInt8 → List UInt8
  | _, [] => []
  | cc, c :: data =>
    if c = newline ∧ cc ≠ carriageReturn then carriageReturn :: c :: wrtascOut c data else c :: wrtascOut c data

theorem length_le_wrtascOut (data : List UInt8) (cc : UInt8) : data.length ≤ (wrtascOut cc data).length := by
  induction data generalizing cc with
  | nil => exact Nat.zero_le _
  | cons c data ih =>
    have := ih c
    rw [wrtascOut]
    split_ifs <;> simp only [List.length_cons] <;> omega

theorem length_wrtascOut_le (data : List UInt8) (cc : UInt8) : (wrtascOut cc data).length ≤ 2 * data.length := by
  induction data generalizing cc with
  | nil => exact Nat.zero_le _
  | cons c data ih =>
    have := ih c
    rw [wrtascOut]
    split_ifs <;> simp only [List.length_cons] <;> omega

/-- What goes to the buffer, and what will be put for the rest, is what is put in the file. -/
theorem wrtascMove_append (room : ℕ) (cc : UInt8) (data : List UInt8) :
    (wrtascMove room cc data).1 ++ wrtascOut (wrtascMove room cc data).2.1 (wrtascMove room cc data).2.2 =
      wrtascOut cc data := by
  induction room, cc, data using wrtascMove.induct with
  | case1 cc data => rfl
  | case2 room cc => cases room <;> rfl
  | case3 room cc c data hc put cc' left heq ih =>
    rw [wrtascMove, if_pos hc, wrtascOut, if_pos hc, List.cons_append, ih, wrtascOut, if_neg fun h => h.2 rfl]
  | case4 room cc c data hc put cc' left heq ih => rw [wrtascMove, if_neg hc, wrtascOut, if_neg hc, List.cons_append, ih]

/-- The buffer is filled as far as it goes. -/
theorem length_wrtascMove (room : ℕ) (cc : UInt8) (data : List UInt8) :
    (wrtascMove room cc data).1.length = min room (wrtascOut cc data).length := by
  induction room, cc, data using wrtascMove.induct with
  | case1 cc data => simp [wrtascMove]
  | case2 room cc => cases room <;> simp [wrtascMove, wrtascOut]
  | case3 room cc c data hc put cc' left heq ih =>
    rw [wrtascOut, if_neg fun h => h.2 rfl, List.length_cons] at ih
    rw [wrtascMove, if_pos hc, wrtascOut, if_pos hc, List.length_cons, ih, List.length_cons, List.length_cons]
    omega
  | case4 room cc c data hc put cc' left heq ih =>
    rw [wrtascMove, if_neg hc, wrtascOut, if_neg hc, List.length_cons, ih, List.length_cons]
    omega

theorem wrtascOut_eq_nil {cc : UInt8} {data : List UInt8} : wrtascOut cc data = [] ↔ data = [] := by
  cases data with
  | nil => simp [wrtascOut]
  | cons c data =>
    rw [wrtascOut]
    split_ifs <;> simp

/-- A carriage return that has been put already is not put again. -/
theorem length_wrtascOut_le_cr (cc : UInt8) (data : List UInt8) :
    (wrtascOut cc data).length ≤ (wrtascOut carriageReturn data).length + 1 := by
  cases data with
  | nil => exact Nat.zero_le _
  | cons c data =>
    have hcr : wrtascOut carriageReturn (c :: data) = c :: wrtascOut c data := if_neg fun h => h.2 rfl
    rw [hcr, wrtascOut]
    split_ifs <;> simp

/-- What goes to the buffer is at least what is put in the file for the data that is taken. -/
theorem wrtascMove_taken (room : ℕ) (cc : UInt8) (data : List UInt8) :
    ∃ taken, data = taken ++ (wrtascMove room cc data).2.2 ∧ ∀ more, (wrtascOut cc (taken ++ more)).length ≤
      (wrtascMove room cc data).1.length + (wrtascOut (wrtascMove room cc data).2.1 more).length := by
  induction room, cc, data using wrtascMove.induct with
  | case1 cc data => exact ⟨[], rfl, fun more => by simp [wrtascMove]⟩
  | case2 room cc => exact ⟨[], by cases room <;> rfl, fun more => by cases room <;> simp [wrtascMove]⟩
  | case3 room cc c data hc put cc' left heq ih =>
    obtain ⟨taken, hdata, hout⟩ := ih
    rw [wrtascMove, if_pos hc]
    refine ⟨taken, hdata, fun more => ?_⟩
    have hcr := length_wrtascOut_le_cr cc (taken ++ more)
    have hmore := hout more
    show _ ≤ ((wrtascMove room carriageReturn (c :: data)).1.length + 1) +
      (wrtascOut (wrtascMove room carriageReturn (c :: data)).2.1 more).length
    omega
  | case4 room cc c data hc put cc' left heq ih =>
    obtain ⟨taken, hdata, hout⟩ := ih
    rw [wrtascMove, if_neg hc]
    refine ⟨c :: taken, congrArg (c :: ·) hdata, fun more => ?_⟩
    have hmore := hout more
    rw [List.cons_append, wrtascOut, if_neg hc, List.length_cons]
    show _ ≤ ((wrtascMove room c data).1.length + 1) + (wrtascOut (wrtascMove room c data).2.1 more).length
    omega

/-! ### Reading -/

@[simp] theorem rdascMove_zero (bs : List UInt8) : rdascMove bs 0 = ([], 0, false) := by cases bs <;> rfl

@[simp] theorem rdascMove_nil (n : ℕ) : rdascMove [] n = ([], 0, false) := by cases n <;> rfl

theorem rdascMove_eof (bs : List UInt8) (n : ℕ) : rdascMove (EOFCHAR :: bs) (n + 1) = ([], 0, true) := rfl

theorem rdascMove_cr (bs : List UInt8) (n : ℕ) : rdascMove (carriageReturn :: bs) (n + 1) =
    ((rdascMove bs (n + 1)).1, (rdascMove bs (n + 1)).2.1 + 1, (rdascMove bs (n + 1)).2.2) := rfl

theorem rdascMove_char {c : UInt8} (bs : List UInt8) (n : ℕ) (heof : c ≠ EOFCHAR) (hcr : c ≠ carriageReturn) :
    rdascMove (c :: bs) (n + 1) = (c :: (rdascMove bs n).1, (rdascMove bs n).2.1 + 1, (rdascMove bs n).2.2) := by
  rw [rdascMove, if_neg heof, if_neg hcr]

/-- The characters of a text, by what `_rdasc` does with them. -/
theorem rdascMove_induction {P : List UInt8 → ℕ → Prop} (zero : ∀ bs, P bs 0) (nil : ∀ n, P [] n)
    (eof : ∀ bs n, P (EOFCHAR :: bs) (n + 1)) (cr : ∀ bs n, P bs (n + 1) → P (carriageReturn :: bs) (n + 1))
    (char : ∀ c bs n, c ≠ EOFCHAR → c ≠ carriageReturn → P bs n → P (c :: bs) (n + 1)) (bs : List UInt8) (n : ℕ) :
    P bs n := by
  induction bs generalizing n with
  | nil => exact nil n
  | cons c bs ih =>
    cases n with
    | zero => exact zero _
    | succ n =>
      by_cases heof : c = EOFCHAR
      · exact heof ▸ eof bs n
      · by_cases hcr : c = carriageReturn
        · exact hcr ▸ cr bs n (ih _)
        · exact char c bs n heof hcr (ih n)

theorem rdascMove_consumed_le (bs : List UInt8) (n : ℕ) : (rdascMove bs n).2.1 ≤ bs.length := by
  induction bs, n using rdascMove_induction with
  | zero bs => simp
  | nil n => simp
  | eof bs n => simp [rdascMove_eof]
  | cr bs n ih => simpa [rdascMove_cr] using ih
  | char c bs n heof hcr ih => simpa [rdascMove_char bs n heof hcr] using ih

theorem rdascMove_stored_le (bs : List UInt8) (n : ℕ) : (rdascMove bs n).1.length ≤ n := by
  induction bs, n using rdascMove_induction with
  | zero bs => simp
  | nil n => simp
  | eof bs n => simp [rdascMove_eof]
  | cr bs n ih => simpa [rdascMove_cr] using ih
  | char c bs n heof hcr ih => simpa [rdascMove_char bs n heof hcr] using ih

theorem rdascMove_stored_le_consumed (bs : List UInt8) (n : ℕ) : (rdascMove bs n).1.length ≤ (rdascMove bs n).2.1 := by
  induction bs, n using rdascMove_induction with
  | zero bs => simp
  | nil n => simp
  | eof bs n => simp [rdascMove_eof]
  | cr bs n ih => exact ih.trans (Nat.le_succ _)
  | char c bs n heof hcr ih =>
    rw [rdascMove_char bs n heof hcr]
    exact Nat.succ_le_succ ih

/-- The end of file character cuts the request short. -/
theorem rdascMove_stored_lt (bs : List UInt8) (n : ℕ) (h : (rdascMove bs n).2.2 = true) : (rdascMove bs n).1.length < n := by
  induction bs, n using rdascMove_induction with
  | zero bs => simp at h
  | nil n => simp at h
  | eof bs n => simp [rdascMove_eof]
  | cr bs n ih => exact ih h
  | char c bs n heof hcr ih =>
    rw [rdascMove_char bs n heof hcr] at h ⊢
    exact Nat.succ_lt_succ (ih h)

/-- The request is met, or the end of file character was found. -/
def Done (r : List UInt8 × ℕ × Bool) (n : ℕ) : Prop := r.1.length = n ∨ r.2.2 = true

/-- What is read, when it is not done, is followed by what is read of the rest. -/
def rdascThen (r : List UInt8 × ℕ × Bool) (cs : List UInt8) (n : ℕ) : List UInt8 × ℕ × Bool :=
  let r' := rdascMove cs (n - r.1.length)
  (r.1 ++ r'.1, r.2.1 + r'.2.1, r'.2.2)

/-- Reading goes on in the next sector, unless it is done. -/
theorem rdascMove_append (bs cs : List UInt8) (n : ℕ) :
    (Done (rdascMove bs n) n → rdascMove (bs ++ cs) n = rdascMove bs n) ∧
      (¬ Done (rdascMove bs n) n → (rdascMove bs n).2.1 = bs.length ∧
        rdascMove (bs ++ cs) n = rdascThen (rdascMove bs n) cs n) := by
  induction bs, n using rdascMove_induction with
  | zero bs => simp [Done]
  | nil n =>
    simp only [Done, rdascThen, rdascMove_nil, List.length_nil, List.nil_append, Nat.sub_zero, Nat.zero_add]
    refine ⟨?_, fun _ => ⟨trivial, trivial⟩⟩
    rintro (rfl | h)
    · simp
    · cases h
  | eof bs n => simp [rdascMove_eof, Done]
  | cr bs n ih =>
    rw [List.cons_append, rdascMove_cr, rdascMove_cr]
    refine ⟨fun h => by rw [ih.1 h], fun h => ?_⟩
    obtain ⟨hm, hrest⟩ := ih.2 h
    refine ⟨by rw [hm, List.length_cons], ?_⟩
    rw [hrest]
    simp only [rdascThen, Prod.mk.injEq, true_and, and_true]
    omega
  | char c bs n heof hcr ih =>
    rw [List.cons_append, rdascMove_char _ _ heof hcr, rdascMove_char _ _ heof hcr]
    have hdone : Done (c :: (rdascMove bs n).1, (rdascMove bs n).2.1 + 1, (rdascMove bs n).2.2) (n + 1) ↔
        Done (rdascMove bs n) n := by
      simp [Done]
    rw [hdone]
    refine ⟨fun h => by rw [ih.1 h], fun h => ?_⟩
    obtain ⟨hm, hrest⟩ := ih.2 h
    refine ⟨by rw [hm, List.length_cons], ?_⟩
    rw [hrest]
    simp only [rdascThen, List.length_cons, Nat.add_sub_add_right, List.cons_append, Prod.mk.injEq, true_and, and_true]
    omega

/-- All that is read of `bs` is in the sector, of which the bytes from the offset on are `cs`. -/
structure Stops (bs cs : List UInt8) (n : ℕ) : Prop where
  done : Done (rdascMove bs n) n
  move : rdascMove cs n = rdascMove bs n

/-- Reading `bs` goes on behind the sector. -/
structure GoesOn (bs cs : List UInt8) (n : ℕ) : Prop where
  done : ¬ Done (rdascMove cs n) n
  length : cs.length ≤ bs.length
  consumed : (rdascMove cs n).2.1 = cs.length
  move : rdascMove bs n = rdascThen (rdascMove cs n) (bs.drop cs.length) n

/-- The sector has the same bytes, as far as both go. -/
theorem stops_or_goesOn {bs cs : List UInt8} {n : ℕ} (hsame : cs.take bs.length = bs.take cs.length)
    (hend : Done (rdascMove bs n) n ∨ cs.length ≤ bs.length) : Stops bs cs n ∨ GoesOn bs cs n := by
  obtain ⟨hstop, hgo⟩ := rdascMove_append (cs.take bs.length) (bs.drop cs.length) n
  obtain ⟨hstop', -⟩ := rdascMove_append (cs.take bs.length) (cs.drop bs.length) n
  rw [hsame, List.take_append_drop, ← hsame] at hstop hgo
  rw [List.take_append_drop] at hstop'
  by_cases hdone : Done (rdascMove (cs.take bs.length) n) n
  · left
    constructor
    · rw [hstop hdone]
      exact hdone
    · rw [hstop' hdone, hstop hdone]
  · right
    obtain ⟨hconsumed, hthen⟩ := hgo hdone
    -- bytes that end in this sector have nothing to go on with
    have hlong : cs.length ≤ bs.length := by
      by_contra hshort
      rcases hend with hend | hle
      · rw [List.drop_eq_nil_of_le (by omega)] at hthen
        rw [hthen] at hend
        exact hdone (by simpa [Done, rdascThen] using hend.imp id (fun h => absurd h (by simp [rdascThen])))
      · exact hshort hle
    rw [List.take_of_length_le hlong] at hdone hconsumed hthen
    exact ⟨hdone, hlong, hconsumed, hthen⟩

/-- A text, without its carriage returns. -/
def text (bs : List UInt8) : List UInt8 := bs.filter (· ≠ carriageReturn)

theorem text_cr (bs : List UInt8) : text (carriageReturn :: bs) = text bs := by simp [text]

theorem text_char {c : UInt8} (bs : List UInt8) (hcr : c ≠ carriageReturn) : text (c :: bs) = c :: text bs := by
  simp [text, hcr]

/-- Without an end of file character, reading takes as much of the text as is asked for. -/
theorem rdascMove_text (bs : List UInt8) (n : ℕ) (hbs : ∀ c ∈ bs, c ≠ EOFCHAR) :
    (rdascMove bs n).1 = (text bs).take n ∧ text (bs.drop (rdascMove bs n).2.1) = (text bs).drop n ∧
      (rdascMove bs n).2.2 = false := by
  induction bs, n using rdascMove_induction with
  | zero bs => simp
  | nil n => simp [text]
  | eof bs n => exact absurd rfl (hbs EOFCHAR List.mem_cons_self)
  | cr bs n ih =>
    rw [rdascMove_cr, text_cr]
    exact ih fun c h => hbs c (List.mem_cons_of_mem _ h)
  | char c bs n heof hcr ih =>
    obtain ⟨h₁, h₂, h₃⟩ := ih fun c h => hbs c (List.mem_cons_of_mem _ h)
    rw [rdascMove_char _ _ heof hcr, text_char _ hcr]
    exact ⟨by rw [h₁, List.take_succ_cons], by simpa using h₂, h₃⟩

/-- With an end of file character behind it, reading a text is done, and takes the same. -/
theorem rdascMove_ended (bs : List UInt8) (n : ℕ) :
    Done (rdascMove (bs ++ [EOFCHAR]) n) n ∧ (rdascMove (bs ++ [EOFCHAR]) n).1 = (rdascMove bs n).1 ∧
      (rdascMove (bs ++ [EOFCHAR]) n).2.1 = (rdascMove bs n).2.1 := by
  obtain ⟨hdone, hgo⟩ := rdascMove_append bs [EOFCHAR] n
  by_cases h : Done (rdascMove bs n) n
  · rw [hdone h]
    exact ⟨h, rfl, rfl⟩
  · obtain ⟨m, hm⟩ : ∃ m, n - (rdascMove bs n).1.length = m + 1 := by
      have hle := rdascMove_stored_le bs n
      have hne : (rdascMove bs n).1.length ≠ n := fun heq => h (.inl heq)
      exact ⟨n - (rdascMove bs n).1.length - 1, by omega⟩
    rw [(hgo h).2]
    simp only [rdascThen, hm, rdascMove_eof, List.append_nil, Nat.add_zero]
    exact ⟨.inr rfl, trivial, trivial⟩

/-- What is stored is the text of the bytes that the offset moves over. -/
theorem rdascMove_scanned (bs : List UInt8) (n : ℕ) :
    text (bs.take (rdascMove bs n).2.1) = (rdascMove bs n).1 ∧ ∀ c ∈ bs.take (rdascMove bs n).2.1, c ≠ EOFCHAR := by
  induction bs, n using rdascMove_induction with
  | zero bs => simp [text]
  | nil n => simp [text]
  | eof bs n => simp [rdascMove_eof, text]
  | cr bs n ih =>
    rw [rdascMove_cr, List.take_succ_cons, text_cr]
    exact ⟨ih.1, List.forall_mem_cons.mpr ⟨by decide, ih.2⟩⟩
  | char c bs n heof hcr ih =>
    rw [rdascMove_char _ _ heof hcr, List.take_succ_cons, text_char _ hcr]
    exact ⟨congrArg (c :: ·) ih.1, List.forall_mem_cons.mpr ⟨heof, ih.2⟩⟩

theorem text_append (bs cs : List UInt8) : text (bs ++ cs) = text bs ++ text cs := List.filter_append ..

/-- Without its carriage returns, what is put in the file is the data. -/
theorem text_wrtascOut {data : List UInt8} (hdata : ∀ c ∈ data, c ≠ carriageReturn) (cc : UInt8) :
    text (wrtascOut cc data) = data := by
  induction data generalizing cc with
  | nil => rfl
  | cons c data ih =>
    obtain ⟨hc, hdata⟩ := List.forall_mem_cons.mp hdata
    have hcons : text (c :: wrtascOut c data) = c :: data := by rw [text_char _ hc, ih hdata c]
    rw [wrtascOut]
    split_ifs
    · rw [text_cr, hcons]
    · exact hcons

/-- No end of file character is put in the file. -/
theorem eof_notMem_wrtascOut {data : List UInt8} (hdata : ∀ c ∈ data, c ≠ EOFCHAR) (cc : UInt8) :
    ∀ c ∈ wrtascOut cc data, c ≠ EOFCHAR := by
  induction data generalizing cc with
  | nil => exact fun _ h => absurd h List.not_mem_nil
  | cons c data ih =>
    obtain ⟨hc, hdata⟩ := List.forall_mem_cons.mp hdata
    have hcons : ∀ x ∈ c :: wrtascOut c data, x ≠ EOFCHAR := List.forall_mem_cons.mpr ⟨hc, ih hdata c⟩
    rw [wrtascOut]
    split_ifs
    · exact List.forall_mem_cons.mpr ⟨by decide, hcons⟩
    · exact hcons

end Cpm68k.Cpmlib
