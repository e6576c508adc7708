import Cpm68k.Cpmlib.StoreCalls

/-!
# Open files

The calls `_creat`, `_open` and `close` of a BDOS that stores records, and runs of calls on
the file they open and close.

## The model

`OpenFile` says that a channel is open on a file and that something holds of the channel
control block and of the BDOS. A call on the channel takes one such statement to another
(`OpenFile.call`). `FileCall` are the calls of a program on one open file, and `runFile` is
the state after some of them: a call that fails does not end the run.

## What is proved

* `wp_creat_file`, `wp_openChan_file` — the channel that `_creat` and `_open` return.
* `wp_close_file` — `close` writes a dirty buffer and frees the channel.
-/

namespace Cpm68k.Cpmlib

open Cpm68k.Library RecordStore

variable {σ : Type} {B : Osif σ} {S : RecordStore B} {file : FileId} {u : UInt16} {D : ℕ → Option Sector}

/-! ### Channels that are open on a file -/

/-- The fixed flags of channel `k` when it is open on a file, and its number. -/
def fileMode (isread isascii : Bool) (k : ℕ) : Flags × Int8 :=
  ({ Flags.none with OPENED := true, ISREAD := isread, ISASCII := isascii }, Int8.ofInt k)

variable {isread isascii : Bool} {k : ℕ} {w : World σ}

/-- The flags that the mode fixes. -/
structure FileFlags (isread isascii : Bool) (flags : Flags) : Prop where
  opened : flags.OPENED = true
  notTty : flags.ISTTY = false
  notLpt : flags.ISLPT = false
  read : flags.ISREAD = isread
  ascii : flags.ISASCII = isascii
  notAux : flags.ISAUX = false
  notQue : flags.ISQUE = false

theorem flags_of_mode {fp : Ccb} (h : fp.mode = fileMode isread isascii k) : FileFlags isread isascii fp.flags := by
  have hflags : ({ fp.flags with ATEOF := false, DIRTY := false } : Flags) = _ := congrArg Prod.fst h
  simp only [fileMode, Flags.none, Flags.mk.injEq] at hflags
  obtain ⟨ho, ht, hl, hr, ha, -, -, -, hx, hq⟩ := hflags
  exact ⟨ho, ht, hl, hr, ha, hx, hq⟩

/-- Channel `k` is open on a file, and `P` holds of its control block and of the BDOS. -/
structure OpenFile (isread isascii : Bool) (k : ℕ) (P : Ccb → σ → Prop) (w : World σ) : Prop where
  lt : k < 16
  mode : (w.fds k).mode = fileMode isread isascii k
  holds : P (w.fds k) w.os

namespace OpenFile

variable {P : Ccb → σ → Prop} (h : OpenFile isread isascii k P w)

include h

theorem flags : FileFlags isread isascii (w.fds k).flags := flags_of_mode h.mode

/-- The check of the channel passes. -/
theorem wp_chkc {α : Type} {m : OsM σ α} {Q : α → World σ → Prop} {E : Errno → World σ → Prop}
    (hm : wp m Q E w) : wp (do chkc (k : ℤ); m) Q E w := by
  have hlt : (k : ℤ) < MAXCCBS := by exact_mod_cast h.lt
  rw [wp_bind, wp_chkc_open hlt h.flags.opened]
  exact hm

/-- A program on the channel takes what holds before it to what holds after it. -/
theorem onCcb {α : Type} {m : IoM σ α} {Q : α → Ccb → σ → Prop} {E : Errno → Ccb → σ → Prop} (hmode : KeepsMode m)
    (hm : wp m (fun a s' => Q a s'.fp s'.os) (fun e s' => E e s'.fp s'.os) ⟨w.fds k, w.os, []⟩) :
    wp (Cpmlib.onCcb (k : ℤ) m) (fun a => OpenFile isread isascii k (Q a)) (fun e => OpenFile isread isascii k (E e)) w := by
  have hafter : ∀ (P' : Ccb → σ → Prop) (s' : Io σ), s'.fp.mode = (w.fds k).mode → P' s'.fp s'.os →
      OpenFile isread isascii k P' { w with fds := Function.update w.fds k s'.fp, os := s'.os } := by
    intro P' s' hs' hP'
    refine ⟨h.lt, ?_, ?_⟩ <;> simp only [Function.update_self]
    · exact hs'.trans h.mode
    · exact hP'
  rw [wp_onCcb]
  exact wp_mono (wp_and (hmode _ ⟨w.fds k, w.os, []⟩ rfl) hm) (fun a s' hs' => hafter (Q a) s' hs'.1 hs'.2)
    (fun e s' hs' => hafter (E e) s' hs'.1 hs'.2)

/-- A call on the channel does the same. -/
theorem call {α : Type} {m : IoM σ α} {Q : α → Ccb → σ → Prop} {E : Errno → Ccb → σ → Prop} (hmode : KeepsMode m)
    (hm : wp m (fun a s' => Q a s'.fp s'.os) (fun e s' => E e s'.fp s'.os) ⟨w.fds k, w.os, []⟩) :
    wp (do
      chkc (k : ℤ)
      Cpmlib.onCcb (k : ℤ) m) (fun a => OpenFile isread isascii k (Q a)) (fun e => OpenFile isread isascii k (E e)) w :=
  h.wp_chkc (h.onCcb hmode hm)

/-- `read` on the channel. -/
theorem wp_read {bytes : ℕ} {Q : ℤ × List UInt8 → Ccb → σ → Prop} {E : Errno → Ccb → σ → Prop}
    (hm : wp (readFp B bytes) (fun r s' => Q (r, s'.buff) s'.fp s'.os) (fun e s' => E e s'.fp s'.os)
      ⟨w.fds k, w.os, []⟩) :
    wp (read B k bytes) (fun r => OpenFile isread isascii k (Q r)) (fun e => OpenFile isread isascii k (E e)) w := by
  refine h.call (.bind (keepsMode_readFp bytes) fun _ => .bind .get fun _ => .pure _) ?_
  rw [wp_bind]
  exact hm

/-- `write` on the channel: what is moved behind its control block is no part of it. -/
theorem wp_write {buff : List UInt8} {Q : ℤ → Ccb → σ → Prop} {E : Errno → Ccb → σ → Prop}
    (hm : wp (writeFp B buff) (fun r s' => Q r s'.fp s'.os) (fun e s' => E e s'.fp s'.os) ⟨w.fds k, w.os, []⟩) :
    wp (write B k buff) (fun r => OpenFile isread isascii k (Q r)) (fun e => OpenFile isread isascii k (E e)) w := by
  have hcall := h.call (keepsMode_writeFp buff) hm
  refine wp_mono (wp_write_own (Q := fun r fp os => fp.mode = fileMode isread isascii k ∧ Q r fp os)
    (E := fun e fp os => fp.mode = fileMode isread isascii k ∧ E e fp os)
    (wp_mono hcall (fun _ _ h' => ⟨h'.mode, h'.holds⟩) (fun _ _ h' => ⟨h'.mode, h'.holds⟩)))
    (fun _ _ h' => ⟨h.lt, h'.1, h'.2⟩) (fun _ _ h' => ⟨h.lt, h'.1, h'.2⟩)

end OpenFile

/-! ### What a call does on a file -/

section Dispatch

variable {s : Io σ} (hmode : s.fp.mode = fileMode isread isascii k)

include hmode

/-- `write` on a file that is not read-only. -/
theorem wp_writeFp_file {data : List UInt8} {Q : ℤ → Io σ → Prop} {E : Errno → Io σ → Prop} (hdata : data ≠ [])
    (hread : isread = false) :
    wp (writeFp B data) Q E s = wp (if isascii = true then wrtasc B data else wrtbin B data) Q E s := by
  have hlen : data.length ≠ 0 := fun h => hdata (List.length_eq_zero_iff.mp h)
  obtain ⟨-, htty, hlpt, hr, ha, -, hque⟩ := flags_of_mode hmode
  subst hread
  rw [writeFp, wp_bind, wp_get, wp_ite, if_neg hlen, wp_ite, if_neg (by simp [hr]), wp_ite,
    if_neg (by simp [htty, hlpt, hque]), ha]

/-- `read` on a file, not at its end. -/
theorem wp_readFp_file {bytes : ℕ} {Q : ℤ → Io σ → Prop} {E : Errno → Io σ → Prop} (heof : s.fp.flags.ATEOF = false) :
    wp (readFp B bytes) Q E s = wp (if isascii = true then rdasc B bytes else rdbin B bytes) Q E s := by
  obtain ⟨-, htty, hlpt, -, ha, -, -⟩ := flags_of_mode hmode
  rw [readFp, wp_bind, wp_get, wp_ite, if_neg (by simp [heof]), wp_ite, if_neg (by simp [hlpt]), wp_ite,
    if_neg (by simp [htty]), ha]

end Dispatch

/-! ### Opening -/

/-- What `_creat` leaves in the channel control block. -/
structure Created (fp : Ccb) : Prop where
  offset : fp.offset = 0
  sector : fp.sector = -1
  hiwater : fp.hiwater = 0
  clean : fp.flags.DIRTY = false
  noEof : fp.flags.ATEOF = false

/-- `_creat` opens an empty file, or fails. -/
theorem wp_creat_file {fname : List UInt8} {type : ℤ} (hname : NotDevice fname) (hu : S.user w.os = u)
    (hknown : S.users (namedFile u fname).user) :
    wp (creat B fname type)
      (fun fd w' => Legal fname ∧ ∃ k : ℕ, fd = k ∧
        OpenFile false (decide (type = 0)) k
          (fun fp os => Created fp ∧ S.On (namedFile u fname) u (fun _ => none) fp os) w')
      (fun _ _ => True) w := by
  refine wp_fresh (fun k hk => ?_) fun _ => trivial
  obtain ⟨htty, hlst⟩ := hname
  have hfds : (freshChannel w k fun f => { f with ISASCII := decide (type = 0) }).fds k =
      { initCcb k (w.fds k) with flags := { Flags.none with ISASCII := decide (type = 0) } } := by
    simp [freshChannel]
  rw [attach, if_neg (by simp [htty]), if_neg (by simp [hlst]), wp_bind, wp_onCcb, wp_orFailure, hfds]
  refine wp_mono (wp_openFcb_create_store (S := S) (u := u) rfl hu hknown) ?_ fun _ _ _ => ?_
  · rintro rv _ ⟨hlegal, fcb, user, os, rfl, hon⟩
    rw [wp_ite]
    split_ifs with hrv
    · trivial
    · have hon := hon (not_not.mp hrv)
      simp only [setFlags, wp_bind, wp_modify, wp_pure, Function.update_self, Function.update_idem]
      refine ⟨hlegal, k, rfl, hk.1, ?_, ?_⟩ <;> simp only [Function.update_self]
      · rfl
      · exact ⟨⟨rfl, rfl, rfl, rfl, rfl⟩, hon.user, hon.id, hon.files⟩
  · rw [wp_ite, if_pos (by decide)]
    trivial

/-- What `_open` leaves in the channel control block of a file of `n` records. -/
structure Opened (S : RecordStore B) (file : FileId) (u : UInt16) (D : ℕ → Option Sector) (n : ℕ) (isascii : Bool)
    (fp : Ccb) (os : σ) : Prop where
  on : S.On file u D fp os
  offset : fp.offset = 0
  hiwater : fp.hiwater = diskEnd isascii D n
  clean : fp.flags.DIRTY = false
  coherent : Coherent fp D
  noEof : fp.flags.ATEOF = false

/-- The two seeks of `_open`. -/
theorem wp_openSeeks {n : ℕ} (hn : IsSize D n)
    (h : OpenFile isread isascii k
      (fun fp os => S.On file u D fp os ∧ fp.flags.DIRTY = false ∧ fp.sector = -1) w) :
    wp (ignore (lseek B k 0 2))
      (fun _ => wp (ignore (lseek B k 0 0)) (fun _ => OpenFile isread isascii k (Opened S file u D n isascii))
        (fun _ _ => False))
      (fun _ _ => False) w := by
  obtain ⟨hon, hclean, hsec⟩ := h.holds
  have hcoh : Coherent (w.fds k) D := fun _ j hj => absurd (hsec.symm.trans hj) (by omega)
  rw [wp_ignore]
  refine wp_mono (h.call (E := fun _ _ _ => False)
    (Q := fun _ fp os => S.On file u D fp os ∧ Coherent fp D ∧ fp.flags.DIRTY = false ∧ fp.hiwater = diskEnd isascii D n)
    (keepsMode_lseekFp 0 2) ?_) ?_ ?_
  · refine wp_mono (wp_lseekFp_end_clean h.flags.notTty h.flags.notLpt hon hclean (fun _ => hcoh) hn) ?_ (fun _ _ h => h)
    rintro _ _ ⟨-, fcb, os, sector, buffer, rfl, hon', hcoh', -⟩
    exact ⟨hon', hcoh' hcoh, hclean, congrArg (fun a => (diskEnd a D n : ℤ)) h.flags.ascii⟩
  · intro _ w' h'
    obtain ⟨hon', hcoh', hclean', hhi'⟩ := h'.holds
    rw [wp_ignore]
    refine wp_mono (h'.call (E := fun _ _ _ => False) (Q := fun _ => Opened S file u D n isascii)
      (keepsMode_lseekFp 0 0) ?_) (fun _ _ h => h) (fun _ _ h => h.holds.elim)
    rw [wp_lseekFp_set le_rfl]
    exact ⟨⟨hon'.user, hon'.id, hon'.files⟩, rfl, hhi', hclean', hcoh', rfl⟩
  · intro _ w' h'
    exact h'.holds.elim

/-- `_open` opens a file that is there, unless no channel is free. -/
theorem wp_openChan_file {fname : List UInt8} {mode xtype : ℤ} {n : ℕ} (hname : NotDevice fname) (hlegal : Legal fname)
    (hu : S.user w.os = u) (hfile : S.files w.os (namedFile u fname) = some D) (hn : IsSize D n) :
    wp (openChan B fname mode xtype)
      (fun fd w' => ∃ k : ℕ, fd = k ∧
        OpenFile (decide (mode = READ)) (decide (xtype = 0)) k
          (Opened S (namedFile u fname) u D n (decide (xtype = 0))) w')
      (fun _ _ => ∀ j < 16, w.chvec.getLsbD j = true) w := by
  refine wp_fresh (fun k hk => ?_) fun hfull => hfull
  obtain ⟨htty, hlst⟩ := hname
  have hfds : (freshChannel w k fun f =>
      { f with ISREAD := decide (mode = READ), ISASCII := decide (xtype = 0) }).fds k =
        { initCcb k (w.fds k) with
          flags := { Flags.none with ISREAD := decide (mode = READ), ISASCII := decide (xtype = 0) } } := by
    simp [freshChannel]
  rw [attach, if_neg (by simp [htty]), if_neg (by simp [hlst]), wp_bind, wp_onCcb, wp_orFailure, hfds]
  refine wp_mono (wp_openFcb_open_store (S := S) hlegal rfl hu hfile) ?_ fun _ _ h => h.elim
  rintro rv _ ⟨rfl, fcb, user, os, rfl, hon⟩
  have hchan := toInt_chan hk.1
  rw [wp_ite, if_neg (by decide)]
  simp only [setFlags, wp_bind, wp_modify, wp_get, Function.update_self, Function.update_idem, initCcb, hchan]
  refine wp_mono (wp_openSeeks hn ⟨hk.1, ?_, ?_⟩) (fun _ _ h => wp_mono h (fun _ _ h => ⟨k, rfl, h⟩) (fun _ _ h => h.elim))
    (fun _ _ h => h.elim) <;> simp only [Function.update_self]
  · rfl
  · exact ⟨⟨hon.user, hon.id, hon.files⟩, rfl, trivial⟩

/-! ### Closing -/

/-- `close` does what `closeFile` does, and frees the channel. -/
theorem wp_close_file {P : Ccb → σ → Prop} {R : σ → Prop} (h : OpenFile isread isascii k P w)
    (hfile : wp (closeFile B k) (fun ok w' => ok = true ∧ R w'.os) (fun _ _ => False) w) :
    wp (close B k) (fun ret w' => ret = 0 ∧ R w'.os ∧ ∃ j < 16, w'.chvec.getLsbD j = false) (fun _ _ => False) w := by
  rw [close]
  refine h.wp_chkc ?_
  rw [wp_bind, wp_get, wp_bind, wp_ite, if_neg (by simp [h.flags.notTty, h.flags.notLpt])]
  refine wp_mono hfile ?_ (fun _ _ h => h)
  rintro _ w' ⟨rfl, hR⟩
  have hlt := h.lt
  have hmod : ((k : ℤ) % 64).toNat = k := by omega
  have hlt' : k < 32 := by omega
  simp only [wp_bind, chinit, freec, wp_modify, wp_pure, if_true, hmod]
  refine ⟨trivial, hR, k, hlt, ?_⟩
  rw [BitVec.getLsbD_and, BitVec.getLsbD_not, getLsbD_bit hlt]
  simp

/-- Closing a file that gets no end of file character. -/
theorem wp_closeFile_plain {P : Ccb → σ → Prop} (h : OpenFile isread isascii k P w)
    (hplain : isascii = false ∨ isread = true) (hon : S.On file u D (w.fds k) w.os) (hl : Labelled S.cap (w.fds k)) :
    wp (closeFile B k)
      (fun ok w' => ok = true ∧ S.user w'.os = u ∧ S.files w'.os file = some (flushed D (w.fds k)))
      (fun _ _ => False) w := by
  have hno : ¬ ((w.fds k).flags.ISASCII = true ∧ (w.fds k).flags.ISREAD = false) := by
    rw [h.flags.ascii, h.flags.read]
    rcases hplain with rfl | rfl <;> simp
  rw [closeFile, wp_bind, closeEof, wp_bind, wp_get, wp_whenever, if_neg hno, wp_onCcb]
  exact wp_closeFcb_store hon hl

/-! ### Runs of calls -/

/-- The calls on an open file. -/
inductive FileCall
  | read (bytes : ℕ)
  | write (buff : List UInt8)
  | lseek (offs sense : ℤ)
  | fstat

/-- The state after a call, however it ends. -/
def FileCall.after (B : Osif σ) (fd : ℤ) (w : World σ) : FileCall → World σ
  | .read bytes => Cpmlib.after (Cpmlib.read B fd bytes) w
  | .write buff => Cpmlib.after (Cpmlib.write B fd buff) w
  | .lseek offs sense => Cpmlib.after (Cpmlib.lseek B fd offs sense) w
  | .fstat => Cpmlib.after (Cpmlib.fstat B fd) w

/-- The state after a sequence of calls. -/
def runFile (B : Osif σ) (fd : ℤ) : List FileCall → World σ → World σ
  | [], w => w
  | c :: cs, w => runFile B fd cs (c.after B fd w)

end Cpm68k.Cpmlib
