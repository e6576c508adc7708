import Cpm68k.Cpmlib.Mode
import Mathlib.Tactic.IntervalCases

/-!
# Channel allocation

A channel is allocated in `_chvec` and opened in its flag word: two records of one thing.
The invariant `Allocated` says that they agree.

## What is proved

* `allocated_of_run` — whatever calls are made and whatever the BDOS answers, the records
  agree in every state reached, as long as no creation of a file fails and no negative descriptor
  is closed for the channel whose bit `_freec` clears then.
* `creat_leaks` — `_creat` does not free its channel when it fails.

`_open` frees its channel when `__open` fails, and so does `unlink`; `_creat` does not.
-/

namespace Cpm68k.Cpmlib

open Cpm68k.Library

variable {σ : Type} {B : Osif σ}

/-- `_chinit`. -/
def chinitAll : ℕ → OsM σ PUnit
  | 0 => pure ⟨⟩
  | i + 1 => do
    chinitAll i
    chinit i

/-- The calls that allocate or free channels. -/
inductive Call
  | openChan (fname : List UInt8) (mode xtype : ℤ)
  | opena (fname : List UInt8) (mode : ℤ)
  | openb (fname : List UInt8) (mode : ℤ)
  | posixOpen (fname : List UInt8) (oflags : OFlags)
  | creat (fname : List UInt8) (type : ℤ)
  | creata (fname : List UInt8)
  | creatb (fname : List UInt8)
  | unlink (filename : List UInt8)
  | close (fd : ℤ)

/-- The program of a call. -/
def Call.program (B : Osif σ) : Call → OsM σ ℤ
  | .openChan fname mode xtype => Cpmlib.openChan B fname mode xtype
  | .opena fname mode => Cpmlib.opena B fname mode
  | .openb fname mode => Cpmlib.openb B fname mode
  | .posixOpen fname oflags => Cpmlib.posixOpen B fname oflags
  | .creat fname type => Cpmlib.creat B fname type
  | .creata fname => Cpmlib.creata B fname
  | .creatb fname => Cpmlib.creatb B fname
  | .unlink filename => Cpmlib.unlink B filename
  | .close fd => Cpmlib.close B fd

/-- The state after a program, however it ends. -/
def after {α : Type} (m : OsM σ α) (w : World σ) : World σ :=
  match m w with
  | .ok _ w' => w'
  | .error _ w' => w'

/-- The state after a sequence of calls. -/
def runCalls (B : Osif σ) : List Call → World σ → World σ
  | [], w => w
  | c :: cs, w => runCalls B cs (after (c.program B) w)

/-- Bit `i` of `_chvec` is set if and only if channel `i` is open. -/
def Allocated (w : World σ) : Prop :=
  ∀ i : ℕ, i < 16 → (w.chvec.getLsbD i = true ↔ (w.fds i).flags.OPENED = true)

/-! ### When a creation succeeds -/

/-- The code the BDOS gives to `CREATE`, after it was told to delete the file. -/
def createAnswer (B : Osif σ) (fcb : Fcb) (os : σ) : UInt16 :=
  let deleted := B.file .DELETE fcb (chkuser B fcb.fuser.toInt16 os).2
  (B.file .CREATE deleted.2.1 deleted.2.2).1

/-- `_creat`, called in this state, does not fail with `ENOSPC`: the name is a device, or
there is no free channel, or the name is legal and not wild and the BDOS creates it. -/
def CreateOk (B : Osif σ) (w : World σ) (fname : List UInt8) : Prop :=
  sameName fname tname = true ∨ sameName fname lname = true ∨
    ∀ i : ℕ, i < 16 → w.chvec.getLsbD i = false → (∀ j < i, w.chvec.getLsbD j = true) →
      (parsefn fname (clearFcb (w.fds i).fcb)).2 = true ∧
        hasWildcard (parsefn fname (clearFcb (w.fds i).fcb)).1 = false ∧
        (createAnswer B (parsefn fname (clearFcb (w.fds i).fcb)).1 w.os).toInt16 ≤ 3

/-- A negative descriptor is not taken for an open channel, or `_freec` clears the bit of no channel
for it. -/
def CloseOk (w : World σ) (fd : ℤ) : Prop :=
  fd < 0 → (w.fds fd).flags.OPENED = true → (fd % 64).toNat < 16 → w.chvec.getLsbD (fd % 64).toNat = false

/-- The condition on a call in a state: what `_creat` is called for is created, and `close` does not
clear the bit of another channel. -/
def CallOk (B : Osif σ) (w : World σ) : Call → Prop
  | .creat fname _ => CreateOk B w fname
  | .creata fname => CreateOk B w fname
  | .creatb fname => CreateOk B w fname
  | .posixOpen fname oflags =>
    -- `open` gets as far as `_creat` when the file is to be made, can be written, and does not exist
    ∀ w', oflags.O_CREAT = true → ¬ (oflags.O_WRONLY = false ∧ oflags.O_RDWR = false) →
      openChan B fname READ (if oflags.O_BINARY = true then 1 else 0) w = .error .ENOENT w' → CreateOk B w' fname
  | .close fd => CloseOk w fd
  | _ => True

/-- Every call of a sequence meets the condition. -/
def RunOk (B : Osif σ) : List Call → World σ → Prop
  | [], _ => True
  | c :: cs, w => CallOk B w c ∧ RunOk B cs (after (c.program B) w)

/-! ### The two records -/

/-- Bit `i` of `_chvec` is `v i`, and channel `i` is open if `o i` says so. -/
def Records (v o : ℕ → Bool) (w : World σ) : Prop :=
  ∀ i : ℕ, i < 16 → w.chvec.getLsbD i = v i ∧ (w.fds i).flags.OPENED = o i

theorem Records.toAllocated {b : ℕ → Bool} {w : World σ} (h : Records b b w) : Allocated w := by
  intro i hi
  rw [(h i hi).1, (h i hi).2]

theorem Allocated.records {w : World σ} (h : Allocated w) :
    Records (fun i => w.chvec.getLsbD i) (fun i => w.chvec.getLsbD i) w :=
  fun i hi => ⟨rfl, (Bool.eq_iff_iff.mpr (h i hi)).symm⟩

theorem wp_onCcb {α : Type} {fd : ℤ} {m : IoM σ α} {Q : α → World σ → Prop} {E : Errno → World σ → Prop}
    {w : World σ} :
    wp (onCcb fd m) Q E w =
      wp m (fun a s => Q a { w with fds := Function.update w.fds fd s.fp, os := s.os })
        (fun e s => E e { w with fds := Function.update w.fds fd s.fp, os := s.os }) ⟨w.fds fd, w.os, []⟩ := by
  unfold wp onCcb
  cases m ⟨w.fds fd, w.os, []⟩ <;> rfl

theorem wp_orFailure {τ : Type} {m : EStateM Errno τ ℤ} {Q : ℤ → τ → Prop} {E : Errno → τ → Prop} {s : τ} :
    wp (orFailure m) Q E s = wp m Q (fun _ => Q (-1)) s := by
  unfold wp orFailure
  cases m s <;> rfl

theorem wp_attempt {m : OsM σ ℤ} {ok : ℤ → OsM σ ℤ} {failed : Errno → OsM σ ℤ} {Q : ℤ → World σ → Prop}
    {E : Errno → World σ → Prop} {w : World σ} :
    wp (attempt m ok failed) Q E w =
      match m w with
      | .ok ret w' => wp (ok ret) Q E w'
      | .error e w' => wp (failed e) Q E w' := by
  unfold attempt
  simp only [wp]
  cases m w <;> rfl

theorem wp_ignore {m : OsM σ ℤ} {Q : PUnit → World σ → Prop} {E : Errno → World σ → Prop} {w : World σ} :
    wp (ignore m) Q E w = wp m (fun _ => Q ⟨⟩) (fun _ => Q ⟨⟩) w := by
  rw [ignore, wp_bind, wp_orFailure]
  rfl

/-- A program on one channel changes neither record. -/
theorem keeps_onCcb {α : Type} {v o : ℕ → Bool} (fd : ℤ) {m : IoM σ α} (hm : KeepsMode m) :
    Keeps (Records v o) (onCcb fd m) := by
  intro w hw
  have hupd : ∀ fp : Ccb, fp.mode = (w.fds fd).mode →
      Records v o { w with fds := Function.update w.fds fd fp } := by
    intro fp hfp i hi
    refine ⟨(hw i hi).1, ?_⟩
    by_cases hj : (i : ℤ) = fd
    · subst hj
      rw [← (hw i hi).2]
      have hopen : fp.flags.OPENED = (w.fds i).flags.OPENED := congrArg (fun x => x.1.OPENED) hfp
      simpa using hopen
    · simpa [Function.update_of_ne hj] using (hw i hi).2
  rw [wp_onCcb]
  exact wp_mono (hm _ ⟨w.fds fd, w.os, []⟩ rfl) (fun _ s hs => hupd s.fp hs) (fun _ s hs => hupd s.fp hs)

theorem keeps_chkc {P : World σ → Prop} (ch : ℤ) : Keeps P (chkc ch) :=
  Keeps.get.bind fun _ => (Keeps.whenever (Keeps.throw _)).bind fun _ => Keeps.whenever (Keeps.throw _)

theorem keeps_ignore {P : World σ → Prop} {m : OsM σ ℤ} (hm : Keeps P m) : Keeps P (ignore m) := by
  intro w hw
  rw [wp_ignore]
  exact hm w hw

/-- The check of a channel: it is below 16 and open, or the call fails and changes nothing. -/
theorem wp_chkc (w : World σ) (fd : ℤ) :
    wp (chkc fd) (fun _ w' => w' = w ∧ fd < 16 ∧ (w.fds fd).flags.OPENED = true)
      (fun e w' => e = .EBADF ∧ w' = w ∧ (fd < 16 → (w.fds fd).flags.OPENED = false)) w := by
  rw [chkc, wp_bind, wp_get, wp_bind, wp_whenever, wp_throw]
  split_ifs with h
  · exact ⟨rfl, rfl, fun hlt => absurd h (not_le.mpr hlt)⟩
  · rw [wp_whenever, wp_throw]
    split_ifs with h'
    · exact ⟨rfl, rfl, fun _ => h'⟩
    · exact ⟨rfl, not_le.mp h, by simpa using h'⟩

/-- The check of an open channel passes. -/
theorem wp_chkc_open {w : World σ} {fd : ℤ} {Q : PUnit → World σ → Prop} {E : Errno → World σ → Prop} (hlt : fd < MAXCCBS)
    (hopen : (w.fds fd).flags.OPENED = true) : wp (chkc fd) Q E w = Q ⟨⟩ w := by
  rw [chkc, wp_bind, wp_get, wp_bind, wp_whenever, if_neg (not_le.mpr hlt), wp_whenever, if_neg (by simp [hopen])]

/-! ### Writing -/

theorem spill_nil (fd : ℤ) : (spill fd [] : OsM σ PUnit) = pure ⟨⟩ := rfl

/-- What is moved behind a control block leaves it and those before it alone. -/
theorem wp_spill {fd : ℤ} {bs : List UInt8} {Q : PUnit → World σ → Prop} {E : Errno → World σ → Prop} {w : World σ}
    (h : ∀ fds : ℤ → Ccb, (∀ i ≤ fd, fds i = w.fds i) → Q ⟨⟩ { w with fds := fds }) : wp (spill fd bs) Q E w := by
  rw [spill, wp_whenever]
  split_ifs
  · exact h _ fun _ hi => spillOver_of_le hi
  · exact h w.fds fun _ _ => rfl

/-- `write` on an open channel: other control blocks may change, but only those behind its own. -/
theorem wp_write {fd : ℤ} {buff : List UInt8} {Q : ℤ → World σ → Prop} {E : Errno → World σ → Prop} {w : World σ}
    (hlt : fd < MAXCCBS) (hopen : (w.fds fd).flags.OPENED = true)
    (hm : wp (writeFp B buff)
      (fun r s => ∀ fds : ℤ → Ccb, (∀ i ≤ fd, fds i = Function.update w.fds fd s.fp i) → Q r { w with fds := fds, os := s.os })
      (fun e s => E e { w with fds := Function.update w.fds fd s.fp, os := s.os }) ⟨w.fds fd, w.os, []⟩) :
    wp (write B fd buff) Q E w := by
  rw [write, wp_bind, wp_chkc_open hlt hopen, wp_bind, wp_get, wp_bind, wp_onCcb]
  refine wp_mono hm (fun r s h => ?_) (fun _ _ h => h)
  rw [wp_bind]
  exact wp_spill h

/-- What a write does to its own channel and to the operating system is what the routine does. -/
theorem wp_write_own {fd : ℤ} {buff : List UInt8} {Q : ℤ → Ccb → σ → Prop} {E : Errno → Ccb → σ → Prop} {w : World σ}
    (h : wp (do chkc fd; onCcb fd (writeFp B buff)) (fun r w' => Q r (w'.fds fd) w'.os) (fun e w' => E e (w'.fds fd) w'.os) w) :
    wp (write B fd buff) (fun r w' => Q r (w'.fds fd) w'.os) (fun e w' => E e (w'.fds fd) w'.os) w := by
  rw [wp_bind] at h
  rw [write, wp_bind]
  refine wp_mono h (fun _ w₁ h₁ => ?_) (fun _ _ h => h)
  rw [wp_bind, wp_get, wp_bind]
  refine wp_mono h₁ (fun r w₂ h₂ => ?_) (fun _ _ h => h)
  rw [wp_bind]
  refine wp_spill fun fds hfds => ?_
  have hown : Q r (fds fd) w₂.os := by
    rw [hfds fd le_rfl]
    exact h₂
  exact hown

/-- A write that fits the buffer of its channel changes no other control block. -/
theorem write_of_fits {fd : ℤ} {buff : List UInt8} {w : World σ} (h : WriteFits (w.fds fd) buff) :
    write B fd buff w =
      (do
        chkc fd
        onCcb fd (writeFp B buff)) w := by
  refine bind_eq_of_wp (wp_mono (wp_chkc w fd) ?_ fun _ _ _ => trivial)
  rintro _ w' ⟨hw, -⟩
  rw [hw]
  show (onCcb fd (writeFp B buff) >>= fun ret => do
    spill fd (overrun (w.fds fd) buff)
    pure ret) w = _
  rw [(overrun_eq_nil_iff _ _).mpr h, spill_nil]
  simp only [pure_bind, bind_pure]

/-- What it does on an open channel. -/
theorem wp_write_fits {fd : ℤ} {buff : List UInt8} {Q : ℤ → World σ → Prop} {E : Errno → World σ → Prop} {w : World σ}
    (hlt : fd < MAXCCBS) (hopen : (w.fds fd).flags.OPENED = true) (hfits : WriteFits (w.fds fd) buff) :
    wp (write B fd buff) Q E w =
      wp (writeFp B buff) (fun r s => Q r { w with fds := Function.update w.fds fd s.fp, os := s.os })
        (fun e s => E e { w with fds := Function.update w.fds fd s.fp, os := s.os }) ⟨w.fds fd, w.os, []⟩ := by
  rw [wp_congr (write_of_fits hfits), wp_bind, wp_chkc_open hlt hopen, wp_onCcb]

/-- Every write of less than 65536 bytes fits. -/
theorem write_of_lt {fd : ℤ} {buff : List UInt8} (h : buff.length < 2 ^ 16) :
    write B fd buff = (do
      chkc fd
      onCcb fd (writeFp B buff)) :=
  funext fun _ => write_of_fits (writeFits_of_lt h)

/-- The end of file character is one byte. -/
theorem write_eofchar (fd : ℤ) :
    write B fd [EOFCHAR] = (do
      chkc fd
      onCcb fd (writeFp B [EOFCHAR])) :=
  write_of_lt (by decide)

variable {v o : ℕ → Bool}

theorem keeps_lseek (fd offs sense : ℤ) : Keeps (Records v o) (lseek B fd offs sense) :=
  (keeps_chkc fd).bind fun _ => keeps_onCcb fd (keepsMode_lseekFp offs sense)

theorem keeps_writeEof (fd : ℤ) : Keeps (Records v o) (write B fd [EOFCHAR]) := by
  rw [write_eofchar]
  exact (keeps_chkc fd).bind fun _ => keeps_onCcb fd (keepsMode_writeFp [EOFCHAR])

theorem wp_writeLoop (sector : ℤ) (buffer : List Sector) (s : Io σ) :
    wp (writeLoop B sector buffer) (fun _ _ => True) (fun _ _ => False) s := by
  induction buffer generalizing sector s with
  | nil => trivial
  | cons record buffer ih =>
    simp only [writeLoop, wp_bind, wp_setFp, wp_osifWrite, wp_ite, wp_pure]
    split_ifs
    exact wp_mono (ih _ _) (fun _ _ _ => trivial) (fun _ _ h => h)

/-- Closing the file of a channel never ends with an error number of its own. -/
theorem wp_closeFcb (s : Io σ) : wp (closeFcb B) (fun _ _ => True) (fun _ _ => False) s := by
  simp only [closeFcb, blkioWrite, wp_bind, wp_get, wp_ite, wp_pure, wp_chkuserFp, wp_osif, wp_uchkuserFp]
  split_ifs
  exact wp_mono (wp_writeLoop _ _ _) (fun _ _ _ => trivial) (fun _ _ h => h)

theorem wp_closeFile {w : World σ} (fd : ℤ) (hw : Records v o w) :
    wp (closeFile B fd) (fun _ => Records v o) (fun _ _ => False) w := by
  have hlast : ∀ w', Records v o w' → wp (onCcb fd (closeFcb B)) (fun _ => Records v o) (fun _ _ => False) w' := by
    intro w' h
    have hend : wp (onCcb fd (closeFcb B)) (fun _ _ => True) (fun _ _ => False) w' := by
      rw [wp_onCcb]
      exact wp_closeFcb _
    exact wp_mono (wp_and (keeps_onCcb fd keepsMode_closeFcb w' h) hend) (fun _ _ h => h.1) (fun _ _ h => h.2)
  have heof : ∀ w', Records v o w' →
      wp (ignore (write B fd [EOFCHAR])) (fun _ => wp (onCcb fd (closeFcb B)) (fun _ => Records v o) (fun _ _ => False))
        (fun _ _ => False) w' := by
    intro w' h
    rw [wp_ignore]
    exact wp_mono (keeps_writeEof fd w' h) (fun _ w'' h => hlast w'' h) (fun _ w'' h => hlast w'' h)
  simp only [closeFile, closeEof, wp_bind, wp_get, wp_whenever]
  split_ifs
  · rw [wp_ignore]
    exact wp_mono (keeps_lseek fd _ _ w hw) (fun _ w' h => heof w' h) (fun _ w' h => heof w' h)
  · exact heof w hw
  · exact hlast w hw

/-! ### Allocating, initialising and freeing -/

/-- The state after channel `k` was allocated. -/
def takeChannel (w : World σ) (k : ℕ) : World σ := { w with chvec := w.chvec ||| (1#32 <<< k) }

/-- Channel `k` is the first free one. -/
def FirstFree (w : World σ) (k : ℕ) : Prop := k < 16 ∧ w.chvec.getLsbD k = false ∧ ∀ j < k, w.chvec.getLsbD j = true

theorem wp_alloccLoop (w : World σ) (fuel i : ℕ) (hi : i + fuel = 16) (hset : ∀ j < i, w.chvec.getLsbD j = true) :
    wp (alloccLoop fuel i) (fun ich w' => ∃ k : ℕ, FirstFree w k ∧ ich = k ∧ w' = takeChannel w k)
      (fun e w' => e = .EMFILE ∧ w' = w ∧ ∀ j < 16, w.chvec.getLsbD j = true) w := by
  induction fuel generalizing i with
  | zero => exact ⟨rfl, rfl, fun j hj => hset j (by omega)⟩
  | succ fuel ih =>
    simp only [alloccLoop, wp_bind, wp_get, wp_ite, wp_set, wp_pure]
    split_ifs with hbit
    · exact ⟨i, ⟨by omega, hbit, hset⟩, rfl, rfl⟩
    · refine ih (i + 1) (by omega) fun j hj => ?_
      rcases Nat.lt_succ_iff_lt_or_eq.mp hj with hj | rfl
      · exact hset j hj
      · simpa using hbit

/-- `_allocc` takes the first free channel, or there is none and it changes nothing. -/
theorem wp_allocc (w : World σ) :
    wp allocc (fun ich w' => ∃ k : ℕ, FirstFree w k ∧ ich = k ∧ w' = takeChannel w k)
      (fun e w' => e = .EMFILE ∧ w' = w ∧ ∀ j < 16, w.chvec.getLsbD j = true) w :=
  wp_alloccLoop w 16 0 rfl (by simp)

/-- A channel number fits a byte. -/
theorem toInt_chan {k : ℕ} (hk : k < MAXCCBS) : (Int8.ofInt k).toInt = k := by
  have hlt : k < 16 := hk
  interval_cases k <;> rfl

theorem getLsbD_bit {k i : ℕ} (hi : i < 16) : (1#32 <<< k).getLsbD i = decide (i = k) := by
  simp only [BitVec.getLsbD_shiftLeft, BitVec.getLsbD_one]
  by_cases h : i = k
  · subst h
    simp
    omega
  · by_cases hlt : i < k
    · simp [hlt, h]
    · have : i - k ≠ 0 := by omega
      simp [this, h]

theorem Records.takeChannel {w : World σ} (h : Records v o w) (k : ℕ) :
    Records (Function.update v k true) o (takeChannel w k) := by
  intro i hi
  refine ⟨?_, (h i hi).2⟩
  rw [Cpmlib.takeChannel, BitVec.getLsbD_or, getLsbD_bit hi, (h i hi).1]
  by_cases hk : i = k
  · subst hk
    simp
  · simp [hk]

theorem wp_freec {w : World σ} (h : Records v o w) (ch : ℤ) :
    wp (freec ch) (fun _ => Records (Function.update v (ch % 64).toNat false) o) (fun _ _ => False) w := by
  intro i hi
  refine ⟨?_, (h i hi).2⟩
  have hi' : i < 32 := by omega
  rw [BitVec.getLsbD_and, BitVec.getLsbD_not, getLsbD_bit hi, (h i hi).1]
  by_cases hk : i = (ch % 64).toNat
  · subst hk
    simp
  · simp [hk, hi']

/-- Changing the flags of channel `k`. -/
theorem wp_setFlags {w : World σ} (h : Records v o w) (k : ℕ) (f : Flags → Flags) {x : Bool}
    (hx : (f (w.fds k).flags).OPENED = x) :
    wp (setFlags (k : ℤ) f) (fun _ => Records v (Function.update o k x)) (fun _ _ => False) w := by
  intro i hi
  refine ⟨(h i hi).1, ?_⟩
  by_cases hk : i = k
  · subst hk
    simpa using hx
  · simp [hk, (h i hi).2]

theorem wp_chinit {w : World σ} (h : Records v o w) (k : ℕ) :
    wp (chinit (k : ℤ)) (fun _ => Records v (Function.update o k false)) (fun _ _ => False) w := by
  intro i hi
  refine ⟨(h i hi).1, ?_⟩
  by_cases hk : i = k
  · subst hk
    simp [initCcb, Flags.none]
  · simp [hk, (h i hi).2]

/-- The records without channel `fd`. -/
def freed (b : ℕ → Bool) (fd : ℤ) (i : ℕ) : Bool := if (i : ℤ) = fd then false else b i

theorem freed_negative (b : ℕ → Bool) {fd : ℤ} (h : fd < 0) : freed b fd = b := by
  funext i
  rw [freed, if_neg (by omega)]

theorem freed_taken {b : ℕ → Bool} {k : ℕ} (h : b k = false) : freed (Function.update b k true) k = b := by
  funext i
  by_cases hi : i = k
  · rw [freed, if_pos (congrArg _ hi), hi, h]
  · rw [freed, if_neg (by exact_mod_cast hi), Function.update_of_ne hi]

theorem wp_chinit_freed {w : World σ} (h : Records v o w) (fd : ℤ) :
    wp (chinit fd) (fun _ => Records v (freed o fd)) (fun _ _ => False) w := by
  intro i hi
  refine ⟨(h i hi).1, ?_⟩
  by_cases hfd : (i : ℤ) = fd
  · subst hfd
    simp [freed, initCcb, Flags.none]
  · simp [freed, hfd, (h i hi).2]

/-! ### The calls -/

/-- Channel `k` as `_creat` and `_open` set it up before they call `__open`. -/
def freshChannel (w : World σ) (k : ℕ) (f : Flags → Flags) : World σ :=
  { takeChannel w k with fds := Function.update w.fds k { initCcb k (w.fds k) with flags := f Flags.none } }

theorem wp_fresh {w : World σ} {f : Flags → Flags} {rest : ℤ → OsM σ ℤ} {Q : ℤ → World σ → Prop}
    {E : Errno → World σ → Prop} (h : ∀ k, FirstFree w k → wp (rest k) Q E (freshChannel w k f))
    (he : (∀ j < 16, w.chvec.getLsbD j = true) → E .EMFILE w) :
    wp (do
      let ich ← allocc
      chinit ich
      setFlags ich f
      rest ich) Q E w := by
  rw [wp_bind]
  refine wp_mono (wp_allocc w) ?_ ?_
  · rintro _ _ ⟨k, hk, rfl, rfl⟩
    have hfresh := h k hk
    simp only [wp_bind, chinit, setFlags, wp_modify, Function.update_self, Function.update_idem]
    exact hfresh
  · rintro _ _ ⟨rfl, rfl, hfull⟩
    exact he hfull

/-- Between the allocation of channel `k` and its opening. -/
theorem Records.freshChannel {b : ℕ → Bool} {w : World σ} (h : Records b b w) {k : ℕ} (hk : FirstFree w k)
    {f : Flags → Flags} (hf : (f Flags.none).OPENED = false) :
    b k = false ∧ Records (Function.update b k true) b (freshChannel w k f) := by
  have hbk : b k = false := (h k hk.1).1 ▸ hk.2.1
  refine ⟨hbk, fun i hi => ⟨(h.takeChannel k i hi).1, ?_⟩⟩
  by_cases hik : i = k
  · subst hik
    simpa [Cpmlib.freshChannel, hbk] using hf
  · simp [Cpmlib.freshChannel, hik, (h i hi).2]

/-- A device, or a file that `__open` finds, is opened on channel `k`. -/
theorem wp_attach {b : ℕ → Bool} {k : ℕ} {w : World σ} (hw : Records (Function.update b k true) b w)
    {fname : List UInt8} {bdosfunc : BdosFunc} {failed : OsM σ ℤ} {opened : OsM σ PUnit} {E : Errno → World σ → Prop}
    {F : Prop}
    (hrv : sameName fname tname = false → sameName fname lname = false →
      wp (openFcb B fname bdosfunc) (fun rv _ => rv ≠ 0 → F) (fun _ _ => F) ⟨w.fds k, w.os, []⟩)
    (hfailed : F → ∀ w', Records (Function.update b k true) b w' →
      wp failed (fun ret w' => ret = k ∧ Records (Function.update b k true) (Function.update b k true) w') E w')
    (hopened : ∀ w', Records (Function.update b k true) (Function.update b k true) w' →
      wp opened (fun _ => Records (Function.update b k true) (Function.update b k true)) (fun _ _ => False) w') :
    wp (attach B k fname bdosfunc failed opened)
      (fun ret w' => ret = k ∧ Records (Function.update b k true) (Function.update b k true) w') E w := by
  unfold attach
  split_ifs with ht hl
  · rw [wp_bind]
    exact wp_mono (wp_setFlags hw k _ rfl) (fun _ _ h => ⟨rfl, h⟩) (fun _ _ h => h.elim)
  · rw [wp_bind]
    exact wp_mono (wp_setFlags hw k _ rfl) (fun _ _ h => ⟨rfl, h⟩) (fun _ _ h => h.elim)
  · have hcall : wp (onCcb (k : ℤ) (orFailure (openFcb B fname bdosfunc))) (fun rv _ => rv ≠ 0 → F)
        (fun _ _ => False) w := by
      rw [wp_onCcb, wp_orFailure]
      exact wp_mono (hrv (by simpa using ht) (by simpa using hl)) (fun _ _ h => h) (fun _ _ h _ => h)
    rw [wp_bind]
    refine wp_mono (wp_and hcall (keeps_onCcb k (keepsMode_openFcb _ _).orFailure w hw)) ?_ (fun _ _ h => h.1.elim)
    rintro rv w' ⟨hF, hw'⟩
    rw [wp_ite]
    split_ifs with h0
    · exact hfailed (hF h0) w' hw'
    · rw [wp_bind]
      refine wp_mono (wp_setFlags hw' k _ rfl) (fun _ w'' h => ?_) (fun _ _ h => h.elim)
      rw [wp_bind]
      exact wp_mono (hopened w'' h) (fun _ _ h => ⟨rfl, h⟩) (fun _ _ h => h.elim)

/-- Freeing the channel undoes its allocation. -/
theorem wp_freec_taken {b : ℕ → Bool} {k : ℕ} {w : World σ} (hk : k < 16) (hb : b k = false)
    (hw : Records (Function.update b k true) b w) : wp (freec (k : ℤ)) (fun _ => Records b b) (fun _ _ => False) w := by
  have hupd : Function.update (Function.update b k true) k false = b := by
    rw [Function.update_idem, ← hb, Function.update_eq_self]
  have hmod : ((k : ℤ) % 64).toNat = k := by omega
  have hfree := wp_freec hw k
  rwa [hmod, hupd] at hfree

/-- `__open` with `CREATE` returns 0 for a name that is legal and not wild, if the BDOS
creates the file. -/
theorem wp_openFcb_create {fname : List UInt8} {s : Io σ} (huser : s.fp.user = 0)
    (hname : (parsefn fname s.fp.fcb).2 = true) (hwild : hasWildcard (parsefn fname s.fp.fcb).1 = false)
    (hcode : (createAnswer B (parsefn fname s.fp.fcb).1 s.os).toInt16 ≤ 3) :
    wp (openFcb B fname .CREATE) (fun rv _ => rv = 0) (fun _ _ => False) s := by
  have hu := fuser_of_zero (parsefn fname s.fp.fcb).1.fuser huser
  unfold openFcb openCall
  simp only [wp_bind, wp_get, wp_setFp, wp_whenever, wp_chkuserFp, wp_osif, wp_uchkuserFp, wp_ite, wp_pure, hu,
    hname, hwild]
  simpa [createAnswer] using hcode

/-- `_creat` takes a channel and opens it, or has none. -/
theorem wp_creat {b : ℕ → Bool} {w : World σ} (hw : Records b b w) (fname : List UInt8) (type : ℤ)
    (hok : CreateOk B w fname) :
    wp (creat B fname type) (fun ret w' => ∃ k : ℕ, k < 16 ∧ ret = k ∧
        Records (Function.update b k true) (Function.update b k true) w')
      (fun _ => Records b b) w := by
  refine wp_fresh (fun k hk => ?_) fun _ => hw
  obtain ⟨hbk, hfresh⟩ := hw.freshChannel hk (f := fun f => { f with ISASCII := decide (type = 0) }) rfl
  refine wp_mono (wp_attach (F := False) (E := fun _ _ => False) hfresh ?_ (fun h => h.elim) fun w' h => h)
    (fun ret w' h => ⟨k, hk.1, h⟩) (fun _ _ h => h.elim)
  intro ht hl
  rcases hok with h | h | h
  · rw [ht] at h
    cases h
  · rw [hl] at h
    cases h
  · obtain ⟨hname, hwild, hcode⟩ := h k hk.1 hk.2.1 hk.2.2
    have hfds : (Cpmlib.freshChannel w k fun f => { f with ISASCII := decide (type = 0) }).fds k =
        { initCcb k (w.fds k) with flags := { Flags.none with ISASCII := decide (type = 0) } } := by
      simp [Cpmlib.freshChannel]
    rw [hfds]
    exact wp_mono (wp_openFcb_create rfl hname hwild hcode) (fun rv _ h h0 => h0 h) (fun _ _ h => h)

/-- `_open` takes a channel and opens it, or has none, or frees it again. -/
theorem wp_openChan {b : ℕ → Bool} {w : World σ} (hw : Records b b w) (fname : List UInt8) (mode xtype : ℤ) :
    wp (openChan B fname mode xtype) (fun ret w' => ∃ k : ℕ, k < 16 ∧ b k = false ∧ ret = k ∧
        Records (Function.update b k true) (Function.update b k true) w')
      (fun e w' => e = .EMFILE ∧ w' = w ∨ e = .ENOENT ∧ Records b b w') w := by
  refine wp_fresh (fun k hk => ?_) fun _ => .inl ⟨rfl, rfl⟩
  obtain ⟨hbk, hfresh⟩ := hw.freshChannel hk
    (f := fun f => { f with ISREAD := decide (mode = READ), ISASCII := decide (xtype = 0) }) rfl
  refine wp_mono (wp_attach (F := True) hfresh (fun _ _ => wp_mono (keepsMode_openFcb _ _ _ _ rfl)
    (fun _ _ _ _ => trivial) (fun _ _ _ => trivial)) (fun _ w' h => ?_) fun w' h => ?_)
    (fun ret w' h => ⟨k, hk.1, hbk, h⟩) (fun _ _ h => h)
  · rw [wp_bind]
    exact wp_mono (wp_freec_taken hk.1 hbk h) (fun _ _ h => .inr ⟨rfl, h⟩) (fun _ _ h => h.elim)
  · rw [wp_bind, wp_get, wp_bind, wp_ignore]
    have hlast : ∀ w₁, Records (Function.update b k true) (Function.update b k true) w₁ →
        wp (ignore (lseek B (w'.fds k).chan.toInt 0 0))
          (fun _ => Records (Function.update b k true) (Function.update b k true)) (fun _ _ => False) w₁ := by
      intro w₁ h
      rw [wp_ignore]
      exact keeps_lseek _ _ _ w₁ h
    exact wp_mono (keeps_lseek _ _ _ w' h) (fun _ w₁ h => hlast w₁ h) (fun _ w₁ h => hlast w₁ h)

/-- `unlink` frees the channel it takes. -/
theorem wp_unlink {b : ℕ → Bool} {w : World σ} (hw : Records b b w) (filename : List UInt8) :
    wp (unlink B filename) (fun _ => Records b b) (fun _ => Records b b) w := by
  rw [unlink, wp_bind]
  refine wp_mono (wp_allocc w) ?_ ?_
  · rintro _ _ ⟨k, hk, rfl, rfl⟩
    have hbk : b k = false := (hw k hk.1).1 ▸ hk.2.1
    rw [wp_bind]
    refine wp_mono (wp_chinit (hw.takeChannel k) k) (fun _ w' h => ?_) (fun _ _ h => h.elim)
    have hupd : Function.update b k false = b := by rw [← hbk, Function.update_eq_self]
    rw [hupd] at h
    have hfree : ∀ (ret : ℤ) (w₁ : World σ), Records (Function.update b k true) b w₁ →
        wp (do
          freec (k : ℤ)
          pure ret) (fun _ => Records b b) (fun _ => Records b b) w₁ := by
      intro ret w₁ h
      rw [wp_bind]
      exact wp_mono (wp_freec_taken hk.1 hbk h) (fun _ _ h => h) (fun _ _ h => h.elim)
    rw [wp_bind]
    have hopen := keeps_onCcb (k : ℤ) (keepsMode_openFcb (B := B) filename .DELETE).orFailure w' h
    have hend : wp (onCcb (k : ℤ) (orFailure (openFcb B filename .DELETE))) (fun _ _ => True) (fun _ _ => False) w' := by
      rw [wp_onCcb, wp_orFailure]
      exact wp_mono (keepsMode_openFcb _ _ _ _ rfl) (fun _ _ _ => trivial) (fun _ _ _ => trivial)
    exact wp_mono (wp_and hopen hend) (fun ret w₁ h => hfree ret w₁ h.1) (fun _ _ h => h.2.elim)
  · rintro _ _ ⟨rfl, rfl, -⟩
    exact hw

/-- `close` frees its channel, even when its input and output fails. -/
theorem wp_close {b : ℕ → Bool} {w : World σ} (hw : Records b b w) {fd : ℤ} (hfd : CloseOk w fd) :
    wp (close B fd) (fun _ => Records (freed b fd) (freed b fd)) (fun _ => Records (freed b fd) (freed b fd)) w := by
  rw [close, wp_bind]
  refine wp_mono (wp_chkc w fd) ?_ ?_
  · rintro _ w₀ ⟨rfl, hlt, hopen⟩
    have hbit : ∀ i < 16, Function.update b (fd % 64).toNat false i = freed b fd i := by
      intro i hi
      by_cases hfdi : (i : ℤ) = fd
      · have hmod : (fd % 64).toNat = i := by omega
        rw [freed, if_pos hfdi, hmod, Function.update_self]
      by_cases hmod : i = (fd % 64).toNat
      · -- the bit of another channel, which is clear
        have hclear := hfd (by omega) hopen (hmod ▸ hi)
        rw [← hmod, (hw i hi).1] at hclear
        rw [freed, if_neg hfdi, ← hmod, Function.update_self, hclear]
      · rw [freed, if_neg hfdi, Function.update_of_ne hmod]
    have hend : ∀ (rv : Bool) (w₁ : World σ), Records b b w₁ →
        wp (do
          chinit fd
          freec fd
          if rv = true then pure (0 : ℤ) else throw Errno.EIO)
          (fun _ => Records (freed b fd) (freed b fd)) (fun _ => Records (freed b fd) (freed b fd)) w₁ := by
      intro rv w₁ h
      rw [wp_bind]
      refine wp_mono (wp_chinit_freed h fd) (fun _ w₂ h => ?_) (fun _ _ h => h.elim)
      rw [wp_bind]
      refine wp_mono (wp_freec h fd) (fun _ w₃ h => ?_) (fun _ _ h => h.elim)
      have hfreed : Records (freed b fd) (freed b fd) w₃ := fun i hi => ⟨(h i hi).1.trans (hbit i hi), (h i hi).2⟩
      rw [wp_ite]
      split_ifs
      · exact hfreed
      · exact hfreed
    rw [wp_bind, wp_get, wp_bind, wp_ite]
    split_ifs
    · exact hend true _ hw
    · exact wp_mono (wp_closeFile fd hw) (fun rv w₁ h => hend rv w₁ h) (fun _ _ h => h.elim)
  · rintro _ _ ⟨-, rfl, hclosed⟩ i hi
    have hfreed : freed b fd i = b i := by
      unfold freed
      split_ifs with hfdi
      · rw [← (hw i hi).2, hfdi, hclosed (by omega)]
      · rfl
    rw [hfreed]
    exact hw i hi

/-- Append mode seeks, which changes neither record. -/
theorem wp_openAppend {w : World σ} (hw : Records v o w) (oflags : OFlags) (ret : ℤ) :
    wp (openAppend B oflags ret) (fun _ => Records v o) (fun _ _ => False) w := by
  rw [openAppend, wp_bind, wp_whenever]
  split_ifs
  · rw [wp_ignore]
    exact keeps_lseek _ _ _ w hw
  · exact hw

/-- What a call that opens a channel does to the records: it may open one, and when it
fails they are as they were. -/
def Opens (b : ℕ → Bool) (m : OsM σ ℤ) (w : World σ) : Prop :=
  wp m (fun _ w' => ∃ b', Records b' b' w') (fun _ => Records b b) w

/-- Closing the channel that was just opened undoes the opening. -/
theorem wp_close_taken {b : ℕ → Bool} {k : ℕ} {w : World σ} (hb : b k = false)
    (hw : Records (Function.update b k true) (Function.update b k true) w) :
    wp (ignore (close B k)) (fun _ => Records b b) (fun _ _ => False) w := by
  have hok : CloseOk w k := fun hneg => absurd hneg (by omega)
  have hclose := wp_close (B := B) hw hok
  rw [freed_taken hb] at hclose
  rw [wp_ignore]
  exact hclose

/-- Closing channel -1 frees no channel, whatever lies there. -/
theorem wp_close_below {b : ℕ → Bool} {w : World σ} (hw : Records b b w) :
    wp (ignore (close B (-1))) (fun _ => Records b b) (fun _ _ => False) w := by
  -- `1 << -1` is 0
  have hok : CloseOk w (-1) := fun _ _ h => absurd h (by decide)
  have hclose := wp_close (B := B) hw hok
  rw [freed_negative b (by decide)] at hclose
  rw [wp_ignore]
  exact hclose

/-- What `open` does when `_open` failed. -/
theorem opens_openFailed {b : ℕ → Bool} {w : World σ} (hw : Records b b w) (fname : List UInt8) (oflags : OFlags)
    (xtype : ℤ) {rdonly : Prop} [Decidable rdonly] {errno : Errno}
    (hcreat : oflags.O_CREAT = true → errno = .ENOENT → ¬ rdonly → CreateOk B w fname) :
    Opens b (if oflags.O_CREAT = true then
      if errno = .ENOENT then
        if rdonly then throw .EINVAL
        else do
          let ret ← creat B fname xtype
          openAppend B oflags ret
      else if oflags.O_EXCL = true then do
        ignore (close B (-1))
        throw .EEXIST
      else throw errno
    else throw errno) w := by
  unfold Opens
  split_ifs with hc hn hr hx
  · exact hw
  · rw [wp_bind]
    refine wp_mono (wp_creat hw fname xtype (hcreat hc hn hr)) ?_ (fun _ _ h => h)
    rintro ret w' ⟨k, -, rfl, hw'⟩
    exact wp_mono (wp_openAppend hw' oflags _) (fun _ _ h => ⟨_, h⟩) (fun _ _ h => h.elim)
  · rw [wp_bind]
    exact wp_mono (wp_close_below hw) (fun _ _ h => h) (fun _ _ h => h.elim)
  · exact hw
  · exact hw

/-- `open` opens a channel with `_open` or with `_creat`, or has none. -/
theorem opens_posixOpen {b : ℕ → Bool} {w : World σ} (hw : Records b b w) (fname : List UInt8) (oflags : OFlags)
    (hok : CallOk B w (.posixOpen fname oflags)) : Opens b (posixOpen B fname oflags) w := by
  have hread : (if oflags.O_WRONLY = false ∧ oflags.O_RDWR = false then READ else 0) = READ := ite_self _
  have hopen := wp_openChan (B := B) hw fname READ (if oflags.O_BINARY = true then 1 else 0)
  unfold Opens posixOpen
  simp only [hread, wp_attempt]
  unfold wp at hopen
  cases hr : openChan B fname READ (if oflags.O_BINARY = true then 1 else 0) w with
  | ok ret w' =>
    rw [hr] at hopen
    obtain ⟨k, -, hbk, rfl, hw'⟩ := hopen
    simp only [wp_ite]
    split_ifs
    · rw [wp_bind]
      exact wp_mono (wp_close_taken hbk hw') (fun _ _ h => h) (fun _ _ h => h.elim)
    · exact wp_mono (wp_openAppend hw' oflags _) (fun _ _ h => ⟨_, h⟩) (fun _ _ h => h.elim)
  | error e w' =>
    rw [hr] at hopen
    rcases hopen with ⟨rfl, rfl⟩ | ⟨rfl, hw'⟩
    · exact opens_openFailed hw fname oflags _ fun _ h => by cases h
    · exact opens_openFailed hw' fname oflags _ fun hc _ hrw => hok w' hc hrw hr

/-- A call that does not close a channel. -/
def Call.isClose : Call → Bool
  | .close _ => true
  | _ => false

theorem opens_call {b : ℕ → Bool} {w : World σ} (hw : Records b b w) {c : Call} (hok : CallOk B w c)
    (hc : c.isClose = false) : Opens b (c.program B) w := by
  have hopen : ∀ fname mode xtype, Opens b (openChan B fname mode xtype) w := by
    intro fname mode xtype
    refine wp_mono (wp_openChan hw fname mode xtype) ?_ ?_
    · rintro _ w' ⟨k, -, -, -, h⟩
      exact ⟨_, h⟩
    · rintro _ w' (⟨-, rfl⟩ | ⟨-, h⟩)
      · exact hw
      · exact h
  have hcreat : ∀ fname type, CreateOk B w fname → Opens b (creat B fname type) w := by
    intro fname type h
    refine wp_mono (wp_creat hw fname type h) ?_ (fun _ _ h => h)
    rintro _ w' ⟨k, -, -, h⟩
    exact ⟨_, h⟩
  cases c with
  | openChan fname mode xtype => exact hopen fname mode xtype
  | opena fname mode => exact hopen fname mode 0
  | openb fname mode => exact hopen fname mode 1
  | posixOpen fname oflags => exact opens_posixOpen hw fname oflags hok
  | creat fname type => exact hcreat fname type hok
  | creata fname => exact hcreat fname 0 hok
  | creatb fname => exact hcreat fname 1 hok
  | unlink filename => exact wp_mono (wp_unlink hw filename) (fun _ _ h => ⟨b, h⟩) (fun _ _ h => h)
  | close fd => cases hc

theorem wp_after {α : Type} {m : OsM σ α} {P : World σ → Prop} {w : World σ}
    (h : wp m (fun _ => P) (fun _ => P) w) : P (after m w) := by
  unfold wp at h
  unfold after
  cases hr : m w <;> rw [hr] at h <;> exact h

/-- One call that meets the condition keeps the invariant. -/
theorem Allocated.call {w : World σ} (h : Allocated w) {c : Call} (hok : CallOk B w c) :
    Allocated (after (c.program B) w) := by
  apply wp_after
  cases hc : c.isClose with
  | false =>
    refine wp_mono (opens_call h.records hok hc) ?_ (fun _ _ h => h.toAllocated)
    rintro _ w' ⟨b', h⟩
    exact h.toAllocated
  | true =>
    cases c with
    | close fd => exact wp_mono (wp_close h.records hok) (fun _ _ h => h.toAllocated) (fun _ _ h => h.toAllocated)
    | _ => cases hc

theorem Allocated.run {w : World σ} (h : Allocated w) {cs : List Call} (hok : RunOk B cs w) :
    Allocated (runCalls B cs w) := by
  induction cs generalizing w with
  | nil => exact h
  | cons c cs ih => exact ih (h.call hok.1) hok.2

theorem allocated_chinitAll {w : World σ} (hw : w.chvec = 0) : Allocated (after (chinitAll 16) w) := by
  have hinit : ∀ n, wp (chinitAll n) (fun _ w' => w'.chvec = 0 ∧ ∀ i : ℕ, i < n → (w'.fds i).flags.OPENED = false)
      (fun _ _ => False) w := by
    intro n
    induction n with
    | zero => exact ⟨hw, fun i hi => absurd hi (by omega)⟩
    | succ n ih =>
      rw [chinitAll, wp_bind]
      refine wp_mono ih (fun _ w' h => ?_) (fun _ _ h => h)
      refine ⟨h.1, fun i hi => ?_⟩
      by_cases hin : i = n
      · subst hin
        simp [initCcb, Flags.none]
      · simpa [hin] using h.2 i (by omega)
  apply wp_after
  refine wp_mono (hinit 16) (fun _ w' h i hi => ?_) (fun _ _ h => h.elim)
  simp [h.1, h.2 i hi]

/-- **Channels do not leak** in a run whose calls all meet the condition: in the state it
reaches, the allocation bits and the open flags agree; a further call that fails leaves the
allocation as it was, and `close` frees its channel whatever happens. -/
theorem allocated_of_run (B : Osif σ) (w₀ : World σ) (h₀ : w₀.chvec = 0) (cs : List Call)
    (hcs : RunOk B cs (after (chinitAll 16) w₀)) (w : World σ) (hw : w = runCalls B cs (after (chinitAll 16) w₀)) :
    Allocated w ∧
      (∀ c e w', CallOk B w c → c.isClose = false → c.program B w = .error e w' →
        ∀ i < 16, w'.chvec.getLsbD i = w.chvec.getLsbD i) ∧
      ∀ k : ℕ, k < 16 → (after (close B k) w).chvec.getLsbD k = false := by
  have hal : Allocated w := hw ▸ (allocated_chinitAll h₀).run hcs
  refine ⟨hal, fun c e w' hok hc hr i hi => ?_, fun k hk => ?_⟩
  · have h := opens_call hal.records hok hc
    unfold Opens wp at h
    rw [hr] at h
    exact (h i hi).1
  · have hfreed : ∀ w' : World σ, Records (freed (fun i => w.chvec.getLsbD i) k) (freed (fun i => w.chvec.getLsbD i) k) w' →
        w'.chvec.getLsbD k = false := fun w' h => (h k hk).1.trans (if_pos rfl)
    refine wp_after (P := fun w' => w'.chvec.getLsbD k = false) ?_
    exact wp_mono (wp_close hal.records fun hneg => absurd hneg (by omega)) (fun _ w' h => hfreed w' h) (fun _ w' h => hfreed w' h)

/-- A BDOS that answers 0 to everything. -/
def willingOsif : Osif Unit where
  user _ os := (0, os)
  file _ fcb os := (0, fcb, os)
  bRead fcb os := (.ok (Bytes.fill 0), fcb, os)
  bWrite fcb _ os := (0, fcb, os)
  rename _ _ os := (0, os)
  conin os := (0, os)
  conout _ os := os
  conio _ os := (0, os)
  writestr _ os := os
  conbuf _ os := ([], os)
  lstout _ os := os
  exit os := os
  behind _ := 0

/-- Memory before the program starts: all zeros. -/
def coldWorld {σ : Type} (os : σ) : World σ where
  fds _ :=
    { flags := Flags.none, user := 0, chan := 0, offset := 0, sector := 0, hiwater := 0
      fcb := ⟨0, Bytes.fill 0, Bytes.fill 0, 0, 0, 0, 0, Bytes.fill 0, 0, Bytes.fill 0, 0⟩
      buffer := Bytes.fill 0 }
  chvec := 0
  os := os

theorem runOk_creat_close : RunOk willingOsif [.creat [0x41] 0, .close 0] (after (chinitAll 16) (coldWorld ())) :=
  ⟨.inr (.inr fun _ _ _ _ => ⟨rfl, rfl, show (0 : Int16) ≤ 3 by decide⟩), fun h => absurd h (by decide), trivial⟩

theorem allocated_of_run_creat_close :
    Allocated (runCalls willingOsif [.creat [0x41] 0, .close 0] (after (chinitAll 16) (coldWorld ()))) :=
  (allocated_of_run willingOsif (coldWorld ()) rfl _ runOk_creat_close _ rfl).1

/-- **`_creat` leaks** a channel when it refuses a name, here `A?`: bit 0 stays set, and
channel 0 is not open. -/
theorem creat_leaks :
    ¬ Allocated (runCalls willingOsif [.creat [0x41, 0x3f] 0] (after (chinitAll 16) (coldWorld ()))) := by
  intro h
  have h₀ := h 0 (by decide)
  revert h₀
  decide

end Cpm68k.Cpmlib
