import Cpm68k.Cpmlib.Descriptors

/-!
# The access mode of a channel

`_open` marks a channel read-only when its mode is `READ`, and `open` gives it 0 for every
mode. `READ` is 0. So every channel that `_open` opens is read-only, and `_creat` opens the
only ones that are not.

## The model

`Later B fd w w'` says that `w'` is a later state than `w`, with channel `fd` not closed in
between: any calls are made, on any channels, and files are opened, created and deleted.

## What is proved

* `raises_writeFp` — `write` on a channel that is not read-only fails with an I/O error or
  with `ENOTTY`.
* `Later.channelIs` — the fixed flags of the channel are the same in a later state.
* `posixOpen_opened` — which channels `open` makes read-only.
* `access_mode` — the access mode is honoured if and only if the file is opened for reading
  only or created.
-/

namespace Cpm68k.Cpmlib

open Cpm68k.Library

variable {σ : Type} {B : Osif σ} {w : World σ} {fd : ℤ}

/-! ### The errors of `write` -/

/-- The errors of a transfer. -/
def IsTransferError (e : Errno) : Prop := e = Errno.EIO ∨ e = Errno.ENOTTY

abbrev TransferErrors {α : Type} (m : IoM σ α) : Prop := Raises IsTransferError m

theorem isTransferError_eio : IsTransferError Errno.EIO := .inl rfl

theorem raises_eio {α : Type} : TransferErrors (throw Errno.EIO : IoM σ α) := .throw isTransferError_eio

theorem raises_needBuffer (xsector : ℤ) : TransferErrors (do
    let found ← readBuffer B xsector
    whenever (found = false) (throw Errno.EIO)) :=
  .bind (Raises.readBuffer _) fun _ => .whenever raises_eio

theorem raises_prepareBuffer (xsector : ℤ) : TransferErrors (prepareBuffer B xsector) :=
  .bind .get fun _ => .ite (.modify _) (raises_needBuffer _)

theorem raises_wrtbinClean (xsector : ℕ) : TransferErrors (wrtbinClean B xsector) :=
  .bind .get fun _ => .whenever (.bind (.whenever (Raises.writeBuffer isTransferError_eio _)) fun _ =>
    .bind (raises_prepareBuffer _) fun _ => .modify _)

theorem raises_wrtbinBuffer (xsector : ℕ) (data : List UInt8) : TransferErrors (wrtbinBuffer B xsector data) := by
  refine .bind .get fun _ => .ite (.bind (.modify _) fun _ => .ite ?_ ?_) (.pure _)
  · exact .bind (.modify _) fun _ => .pure _
  · exact .bind (Raises.writeBuffer isTransferError_eio _) fun _ => .bind (.modify _) fun _ => .pure _

theorem raises_wrtbinTail (xsector : ℕ) (data : List UInt8) : TransferErrors (wrtbinTail B xsector data) :=
  .whenever (.bind (raises_prepareBuffer _) fun _ => .modify _)

theorem raises_wrtbin (data : List UInt8) : TransferErrors (wrtbin B data) := by
  refine .bind .get fun _ => .bind (raises_wrtbinClean _) fun _ => .bind (raises_wrtbinBuffer _ _) fun _ =>
    .bind (.ite (.bind ?_ fun _ => raises_wrtbinTail _ _) (raises_wrtbinTail _ _)) fun _ => .bind (.modify _) fun _ => .pure _
  exact .bind (Raises.blkioWrite _ _) fun _ => .bind (.whenever raises_eio) fun _ => .bind (.modify _) fun _ => .pure _

theorem raises_wrtascSector (xsector : ℤ) : TransferErrors (wrtascSector B xsector) :=
  .bind .get fun _ => .whenever <|
    .bind (Raises.flush isTransferError_eio) fun _ => .bind (.whenever (raises_needBuffer _)) fun _ => .modify _

theorem raises_wrtascPut (xsector : ℤ) (pos : ℕ) (put : List UInt8) : TransferErrors (wrtascPut B xsector pos put) := by
  refine .bind (.modify _) fun _ => .bind .get fun _ => .ite ?_ ?_
  · exact .bind (Raises.blkioWrite _ _) fun _ => .pure _
  · exact .bind (.modify _) fun _ => .pure _

theorem raises_wrtascLoop (written fuel : ℕ) (cc : UInt8) (data : List UInt8) :
    TransferErrors (wrtascLoop B written fuel cc data) := by
  induction fuel generalizing cc data with
  | zero => exact .pure _
  | succ fuel ih =>
    refine .ite (.bind .get fun _ => .bind (raises_wrtascSector _) fun _ => ?_) (.pure _)
    refine .bind (raises_wrtascPut _ _ _) fun _ => .ite (.pure _) (.ite ?_ (ih _ _))
    exact .bind (.modify _) fun _ => .pure _

theorem raises_wrtchr (data : List UInt8) : TransferErrors (wrtchr B data) := by
  have hloop : ∀ (fnout : List UInt8 → IoM σ PUnit), (∀ cp, TransferErrors (fnout cp)) →
      ∀ buf doXTabs fuel nbs i col, TransferErrors (wrtchrLoop fnout buf doXTabs fuel nbs i col) := by
    intro fnout hout buf doXTabs fuel
    induction fuel with
    | zero => exact fun _ _ _ => .pure _
    | succ fuel ih => exact fun _ _ _ => .whenever (.bind (hout _) fun _ => ih _ _ _)
  refine .bind .get fun _ => .ite ?_ (.ite ?_ (.throw (.inr rfl)))
  · exact .bind (hloop _ (fun _ => .modify _) _ _ _ _ _ _) fun _ => .pure _
  · exact .bind (hloop _ (fun _ => .modify _) _ _ _ _ _ _) fun _ => .pure _

/-- `write` on a channel that is not read-only fails with the error of a transfer. -/
theorem raises_writeFp {s : Io σ} (data : List UInt8) (hread : s.fp.flags.ISREAD = false) :
    wp (writeFp B data) (fun _ _ => True) (fun e _ => IsTransferError e) s := by
  have hrest : TransferErrors (if s.fp.flags.ISTTY = true ∨ s.fp.flags.ISLPT = true ∨ s.fp.flags.ISQUE = true then wrtchr B data
      else if s.fp.flags.ISASCII = true then wrtasc B data else wrtbin B data) :=
    .ite (raises_wrtchr _) (.ite (raises_wrtascLoop _ _ _ _) (raises_wrtbin _))
  rw [writeFp, wp_bind, wp_get, wp_ite, wp_ite, if_neg (show ¬ s.fp.flags.ISREAD = true by simp [hread])]
  by_cases hlen : data.length = 0
  · rw [if_pos hlen]
    exact trivial
  · rw [if_neg hlen]
    exact hrest s

/-! ### Later states -/

/-- Channel `k` is in use, with these fixed flags. -/
def ChannelIs (k : ℕ) (x : Flags × Int8) (w : World σ) : Prop := (w.fds k).mode = x ∧ w.chvec.getLsbD k = true

variable {k : ℕ} {x : Flags × Int8}

theorem keeps_channel_onCcb {α : Type} (d : ℤ) {m : IoM σ α} (hm : KeepsMode m) : Keeps (ChannelIs k x) (onCcb d m) := by
  intro w hw
  have hupd : ∀ s : Io σ, s.fp.mode = (w.fds d).mode →
      ChannelIs k x { w with fds := Function.update w.fds d s.fp, os := s.os } := by
    intro s hs
    refine ⟨?_, hw.2⟩
    by_cases hd : (k : ℤ) = d
    · subst hd
      simp only [Function.update_self, hs]
      exact hw.1
    · simp only [Function.update_of_ne hd]
      exact hw.1
  rw [wp_onCcb]
  exact wp_mono (hm _ ⟨w.fds d, w.os, []⟩ rfl) (fun _ s hs => hupd s hs) (fun _ s hs => hupd s hs)

theorem keeps_channel_lseek (d offs sense : ℤ) : Keeps (ChannelIs k x) (lseek B d offs sense) :=
  (keeps_chkc d).bind fun _ => keeps_channel_onCcb d (keepsMode_lseekFp offs sense)

theorem wp_channel_write {d : ℤ} {buff : List UInt8} (hfits : WriteFits (w.fds d) buff) (hw : ChannelIs k x w) :
    wp (write B d buff) (fun _ => ChannelIs k x) (fun _ => ChannelIs k x) w := by
  rw [wp_congr (write_of_fits hfits)]
  exact (keeps_chkc d).bind (fun _ => keeps_channel_onCcb d (keepsMode_writeFp buff)) w hw

/-- Another channel is changed. -/
theorem ChannelIs.update {d : ℤ} (hd : d ≠ k) (h : ChannelIs k x w) (fp : Ccb) :
    ChannelIs k x { w with fds := Function.update w.fds d fp } := by
  refine ⟨?_, h.2⟩
  simp only [Function.update_of_ne (Ne.symm hd)]
  exact h.1

theorem keeps_channel_chinit {d : ℤ} (hd : d ≠ k) : Keeps (ChannelIs k x) (chinit d : OsM σ PUnit) :=
  Keeps.modify fun _ h => h.update hd _

theorem keeps_channel_setFlags {d : ℤ} (hd : d ≠ k) (f : Flags → Flags) :
    Keeps (ChannelIs k x) (setFlags d f : OsM σ PUnit) :=
  Keeps.modify fun _ h => h.update hd _

theorem keeps_channel_freec (hk : k < 16) {d : ℤ} (hd : (d % 64).toNat ≠ k) :
    Keeps (ChannelIs k x) (freec d : OsM σ PUnit) := by
  refine Keeps.modify fun w h => ⟨h.1, ?_⟩
  have hbit : (1#32 <<< (d % 64).toNat).getLsbD k = false := by
    rw [getLsbD_bit hk]
    exact decide_eq_false (Ne.symm hd)
  simp only [BitVec.getLsbD_and, BitVec.getLsbD_not, h.2, hbit, Bool.true_and, Bool.not_false, Bool.and_true,
    decide_eq_true_eq]
  omega

/-- Closing another channel. -/
theorem keeps_channel_close (hk : k < 16) {d : ℤ} (hd : d ≠ k) (hbit : (d % 64).toNat ≠ k) :
    Keeps (ChannelIs k x) (close B d) := by
  have heof : Keeps (ChannelIs k x) (closeEof B d) :=
    Keeps.get.bind fun _ => Keeps.whenever <|
      (Keeps.whenever (keeps_ignore (keeps_channel_lseek _ _ _))).bind fun _ =>
        keeps_ignore fun _ => wp_channel_write (writeFits_of_lt (by decide))
  refine (keeps_chkc d).bind fun _ => Keeps.get.bind fun _ => (Keeps.ite (Keeps.pure _) ?_).bind fun _ =>
    (keeps_channel_chinit hd).bind fun _ => (keeps_channel_freec hk hbit).bind fun _ => Keeps.ite (Keeps.pure _) (Keeps.throw _)
  exact heof.bind fun _ => keeps_channel_onCcb d keepsMode_closeFcb

/-- A call with a descriptor, other than closing the channel. -/
theorem wp_channel_fdCall (hk : k < 16) {d : ℤ} {c : FdCall} (hc : c = .close → 0 ≤ d ∧ d ≠ k) (hfits : c.Fits d w)
    (hw : ChannelIs k x w) : wp (c.program B d) (fun _ => ChannelIs k x) (fun _ => ChannelIs k x) w := by
  cases c with
  | read bytes =>
    exact Keeps.map _ ((keeps_chkc d).bind fun _ => keeps_channel_onCcb d ((keepsMode_readFp bytes).bind fun _ =>
      KeepsFp.get.bind fun _ => KeepsFp.pure _)) w hw
  | write buff =>
    rw [FdCall.program, wp_map]
    exact wp_channel_write hfits hw
  | lseek offs sense => exact Keeps.map _ (keeps_channel_lseek d offs sense) w hw
  | close =>
    obtain ⟨hge, hne⟩ := hc rfl
    by_cases hlt : d < 16
    · exact Keeps.map _ (keeps_channel_close hk hne (by omega)) w hw
    · rw [FdCall.program, wp_map, close, wp_bind]
      refine wp_mono (wp_chkc w d) ?_ ?_
      · rintro _ w' ⟨-, hlt', -⟩
        exact absurd hlt' hlt
      · rintro e w' ⟨-, rfl, -⟩
        exact hw
  | fstat => exact Keeps.map _ ((keeps_chkc d).bind fun _ => keeps_channel_onCcb d keepsMode_fstatFp) w hw
  | isatty =>
    exact Keeps.map _ ((keeps_chkc d).bind fun _ => Keeps.get.bind fun _ => Keeps.ite (Keeps.throw _) (Keeps.pure _)) w hw
  | stty argp =>
    exact Keeps.map _ ((keeps_chkc _).bind fun _ => Keeps.get.bind fun _ => Keeps.ite (Keeps.throw _) (Keeps.pure _)) w hw
  | gtty argp =>
    refine Keeps.map _ ((keeps_chkc _).bind fun _ => fun w hw => ?_) w hw
    rw [wp_bind, wp_get, wp_ite]
    split_ifs
    · exact hw
    · refine ⟨?_, hw.2⟩
      by_cases hd : (k : ℤ) = toWord d
      · rw [← hd]
        simp only [Function.update_self]
        exact hw.1
      · simp only [Function.update_of_ne hd]
        exact hw.1

/-- A free channel is another one. -/
theorem ChannelIs.fresh (h : ChannelIs k x w) {j : ℕ} (hj : FirstFree w j) (f : Flags → Flags) :
    (j : ℤ) ≠ k ∧ ChannelIs k x (freshChannel w j f) := by
  have hne : (j : ℤ) ≠ k := by
    intro hjk
    obtain rfl : j = k := by exact_mod_cast hjk
    have hfree := hj.2.1
    rw [h.2] at hfree
    cases hfree
  have hupd := h.update hne { initCcb j (w.fds j) with flags := f Flags.none }
  refine ⟨hne, hupd.1, ?_⟩
  simp only [freshChannel, takeChannel, BitVec.getLsbD_or, h.2, Bool.true_or]

/-- Attaching another channel. -/
theorem wp_channel_attach {j : ℕ} (hj : (j : ℤ) ≠ k) {failed : OsM σ ℤ} {opened : OsM σ PUnit} (fname : List UInt8)
    (bdosfunc : BdosFunc) (hw : ChannelIs k x w)
    (hfailed : ∀ w, ChannelIs k x w → wp failed (fun ret w' => ret = j ∧ ChannelIs k x w') (fun _ => ChannelIs k x) w)
    (hopened : Keeps (ChannelIs k x) opened) :
    wp (attach B j fname bdosfunc failed opened) (fun ret w' => ret = j ∧ ChannelIs k x w') (fun _ => ChannelIs k x) w := by
  have hpure : ∀ {m : OsM σ PUnit}, Keeps (ChannelIs k x) m → ∀ w, ChannelIs k x w → wp (do
      m
      pure (j : ℤ)) (fun ret w' => ret = j ∧ ChannelIs k x w') (fun _ => ChannelIs k x) w := by
    intro m hm w hw
    rw [wp_bind]
    exact wp_mono (hm w hw) (fun _ _ h => ⟨rfl, h⟩) (fun _ _ h => h)
  rw [attach, wp_ite, wp_ite]
  split_ifs
  · exact hpure (keeps_channel_setFlags hj _) w hw
  · exact hpure (keeps_channel_setFlags hj _) w hw
  · rw [wp_bind]
    refine wp_mono (keeps_channel_onCcb _ (keepsMode_openFcb _ _).orFailure w hw) (fun rv w' hw' => ?_) (fun _ _ h => h)
    rw [wp_ite]
    split_ifs
    · exact hfailed w' hw'
    · rw [wp_bind]
      exact wp_mono (keeps_channel_setFlags hj _ w' hw') (fun _ w'' hw'' => hpure hopened w'' hw'') (fun _ _ h => h)

/-- What a call that opens another channel does: it returns the number of that channel. -/
def OpensOther (k : ℕ) (x : Flags × Int8) (m : OsM σ ℤ) : Prop :=
  ∀ w, ChannelIs k x w → wp m (fun ret w' => (∃ j : ℕ, j < 16 ∧ ret = j ∧ (j : ℤ) ≠ k) ∧ ChannelIs k x w') (fun _ => ChannelIs k x) w

theorem opensOther_openChan (hk : k < 16) (fname : List UInt8) (mode xtype : ℤ) :
    OpensOther k x (openChan B fname mode xtype) := by
  intro w hw
  refine wp_fresh (fun j hj => ?_) fun _ => hw
  obtain ⟨hne, hfresh⟩ := hw.fresh hj fun f => { f with ISREAD := decide (mode = READ), ISASCII := decide (xtype = 0) }
  refine wp_mono (wp_channel_attach hne fname .OPEN hfresh (fun w₁ hw₁ => ?_) ?_)
    (fun ret w' h => ⟨⟨j, hj.1, h.1, hne⟩, h.2⟩) (fun _ _ h => h)
  · rw [wp_bind]
    exact wp_mono (keeps_channel_freec hk (by have := hj.1; omega) w₁ hw₁) (fun _ _ h => h) (fun _ _ h => h)
  · exact Keeps.get.bind fun _ => (keeps_ignore (keeps_channel_lseek _ _ _)).bind fun _ => keeps_ignore (keeps_channel_lseek _ _ _)

theorem opensOther_creat (fname : List UInt8) (type : ℤ) : OpensOther k x (creat B fname type) := by
  intro w hw
  refine wp_fresh (fun j hj => ?_) fun _ => hw
  obtain ⟨hne, hfresh⟩ := hw.fresh hj fun f => { f with ISASCII := decide (type = 0) }
  exact wp_mono (wp_channel_attach hne fname .CREATE hfresh (fun _ h => h) (Keeps.pure _))
    (fun ret w' h => ⟨⟨j, hj.1, h.1, hne⟩, h.2⟩) (fun _ _ h => h)

theorem keeps_channel_openAppend (oflags : OFlags) (ret : ℤ) : Keeps (ChannelIs k x) (openAppend B oflags ret) :=
  (Keeps.whenever (keeps_ignore (keeps_channel_lseek _ _ _))).bind fun _ => Keeps.pure _

theorem OpensOther.keeps {m : OsM σ ℤ} (h : OpensOther k x m) : Keeps (ChannelIs k x) m :=
  fun w hw => wp_mono (h w hw) (fun _ _ h => h.2) (fun _ _ h => h)

theorem keeps_channel_posixOpen (hk : k < 16) (fname : List UInt8) (oflags : OFlags) :
    Keeps (ChannelIs k x) (posixOpen B fname oflags) := by
  have hclose : ∀ {d : ℤ} (e : Errno), d ≠ k → (d % 64).toNat ≠ k → Keeps (ChannelIs k x) (do
      ignore (close B d)
      throw e : OsM σ ℤ) := fun e hd hbit =>
    (keeps_ignore (keeps_channel_close hk hd hbit)).bind fun _ => Keeps.throw e
  intro w hw
  unfold posixOpen
  rw [wp_attempt]
  have hopen := opensOther_openChan (B := B) hk fname (if oflags.O_WRONLY = false ∧ oflags.O_RDWR = false then READ else 0)
    (if oflags.O_BINARY = true then 1 else 0) w hw
  unfold wp at hopen
  split at hopen
  · rename_i ret w' hr
    obtain ⟨⟨j, hj, rfl, hne⟩, hw'⟩ := hopen
    rw [hr]
    exact Keeps.ite (hclose _ hne (by omega)) (keeps_channel_openAppend _ _) w' hw'
  · rename_i e w' hr
    rw [hr]
    refine Keeps.ite (Keeps.ite (Keeps.ite (Keeps.throw _) ?_) (Keeps.ite (hclose _ (by omega) (by omega)) (Keeps.throw _)))
      (Keeps.throw _) w' hopen
    exact (opensOther_creat _ _).keeps.bind fun _ => keeps_channel_openAppend _ _

theorem keeps_channel_unlink (hk : k < 16) (filename : List UInt8) : Keeps (ChannelIs k x) (unlink B filename) := by
  intro w hw
  rw [unlink, wp_bind]
  refine wp_mono (wp_allocc w) ?_ ?_
  · rintro _ w' ⟨j, hj, rfl, rfl⟩
    obtain ⟨hne, -⟩ := hw.fresh hj fun f => f
    have htaken : ChannelIs k x (takeChannel w j) := by
      refine ⟨hw.1, ?_⟩
      simp only [takeChannel, BitVec.getLsbD_or, hw.2, Bool.true_or]
    exact ((keeps_channel_chinit hne).bind fun _ => (keeps_channel_onCcb _ (keepsMode_openFcb _ _).orFailure).bind fun _ =>
      (keeps_channel_freec hk (by have := hj.1; omega)).bind fun _ => Keeps.pure _) _ htaken
  · rintro e w' ⟨-, rfl, -⟩
    exact hw

/-- A call that opens, creates or deletes a file. -/
theorem keeps_channel_call (hk : k < 16) {c : Call} (hc : c.isClose = false) : Keeps (ChannelIs k x) (c.program B) := by
  cases c with
  | openChan fname mode xtype => exact (opensOther_openChan hk _ _ _).keeps
  | opena fname mode => exact (opensOther_openChan hk _ _ _).keeps
  | openb fname mode => exact (opensOther_openChan hk _ _ _).keeps
  | posixOpen fname oflags => exact keeps_channel_posixOpen hk _ _
  | creat fname type => exact (opensOther_creat _ _).keeps
  | creata fname => exact (opensOther_creat _ _).keeps
  | creatb fname => exact (opensOther_creat _ _).keeps
  | unlink filename => exact keeps_channel_unlink hk _
  | close fd => cases hc

theorem keeps_channel_rename (old new : List UInt8) : Keeps (ChannelIs k x) (rename B old new) := by
  intro w hw
  unfold rename
  by_cases hbad : (parsefn old Fcb.zero).2 = false ∨ (parsefn new Fcb.zero).2 = false
  · simp only [wp, if_pos hbad]
    exact hw
  · simp only [wp, if_neg hbad]
    cases renameUser (parsefn old Fcb.zero).1 (parsefn new Fcb.zero).1 with
    | error e => exact hw
    | ok nuser =>
      simp only
      split_ifs
      · exact hw
      · exact hw

/-- The states after `w` in which channel `fd` has not been closed, and no write was too long for
`_wrtbin`. -/
inductive Later (B : Osif σ) (fd : ℤ) (w : World σ) : World σ → Prop
  | refl : Later B fd w w
  | onChannel {w' : World σ} (d : ℤ) (c : FdCall) (hc : c = .close → 0 ≤ d ∧ d ≠ fd) (hfits : c.Fits d w') :
      Later B fd w w' → Later B fd w (after (c.program B d) w')
  | opening {w' : World σ} (c : Call) (hc : c.isClose = false) :
      Later B fd w w' → Later B fd w (after (c.program B) w')
  | rename {w' : World σ} (old new : List UInt8) :
      Later B fd w w' → Later B fd w (after (Cpmlib.rename B old new) w')

/-- **A channel stays what it is** until it is closed. -/
theorem Later.channelIs {w' : World σ} (h : Later B k w w') (hk : k < 16) (hw : ChannelIs k x w) : ChannelIs k x w' := by
  induction h with
  | refl => exact hw
  | onChannel d c hc hfits _ ih => exact wp_after (wp_channel_fdCall hk hc hfits ih)
  | opening c hc _ ih => exact wp_after (keeps_channel_call hk hc _ ih)
  | rename old new _ ih => exact wp_after (keeps_channel_rename old new _ ih)

/-! ### Which channels are read-only -/

/-- The name is legal, and the BDOS answers that it opened the file; `_open` asks for it with
the read-only bit. -/
def FileOpens (B : Osif σ) (fname : List UInt8) (fcb : Fcb) (os : σ) : Prop :=
  (parsefn fname fcb).2 = true ∧
    (B.file .OPEN (setF6 (parsefn fname fcb).1) (chkuser B (parsefn fname fcb).1.fuser.toInt16 os).2).1.toInt16 ≤ 3

/-- The name is that of a device or of a file that is there. -/
def NameExists (B : Osif σ) (w : World σ) (fname : List UInt8) : Prop :=
  sameName fname tname = true ∨ sameName fname lname = true ∨
    ∀ i, FirstFree w i → FileOpens B fname (clearFcb (w.fds i).fcb) w.os

theorem FirstFree.unique {i j : ℕ} (hi : FirstFree w i) (hj : FirstFree w j) : i = j := by
  rcases Nat.lt_trichotomy i j with hlt | heq | hlt
  · exact absurd (hj.2.2 i hlt) (by simp [hi.2.1])
  · exact heq
  · exact absurd (hi.2.2 j hlt) (by simp [hj.2.1])

theorem wp_openFcb_open {fname : List UInt8} {s : Io σ} (huser : s.fp.user = 0) (hread : s.fp.flags.ISREAD = true) :
    wp (openFcb B fname .OPEN)
      (fun rv _ => if rv = 0 then FileOpens B fname s.fp.fcb s.os else ¬ FileOpens B fname s.fp.fcb s.os)
      (fun _ _ => ¬ FileOpens B fname s.fp.fcb s.os) s := by
  have hu := fuser_of_zero (parsefn fname s.fp.fcb).1.fuser huser
  unfold openFcb openCall FileOpens
  simp only [wp_bind, wp_get, wp_setFp, wp_whenever, wp_chkuserFp, wp_osif, wp_uchkuserFp, wp_ite, wp_pure, wp_throw, hu, hread,
    reduceCtorEq, false_and, or_self, if_false, and_self, if_true]
  cases (parsefn fname s.fp.fcb).2 with
  | false => simp
  | true => split_ifs <;> simp_all

/-- Channel `k` is open, and read-only or not. -/
def OpenedAs (isread : Bool) (k : ℕ) (w : World σ) : Prop :=
  ∃ x, ChannelIs k x w ∧ x.1.OPENED = true ∧ x.1.ISREAD = isread

theorem wp_setFlags_opened (hw : ChannelIs k x w) (f : Flags → Flags) (hf : ∀ fl, (f fl).OPENED = true ∧ (f fl).ISREAD = fl.ISREAD) :
    wp (setFlags (k : ℤ) f) (fun _ => OpenedAs x.1.ISREAD k) (fun _ _ => False) w := by
  obtain ⟨rfl, hbit⟩ := hw
  rw [setFlags, wp_modify]
  refine ⟨_, ⟨rfl, hbit⟩, ?_⟩
  simp only [Function.update_self]
  exact hf (w.fds k).flags

/-- A device is attached, or a file for which `__open` returns 0. -/
theorem wp_attach_opened {R T : Prop} {fname : List UInt8} {bdosfunc : BdosFunc} {failed : OsM σ ℤ} {opened : OsM σ PUnit}
    {E : Errno → World σ → Prop} (hw : ChannelIs k x w)
    (hrv : wp (openFcb B fname bdosfunc) (fun rv _ => if rv = 0 then R else T) (fun _ _ => T) ⟨w.fds k, w.os, []⟩)
    (hfailed : sameName fname tname ≠ true → sameName fname lname ≠ true → T → ∀ w', wp failed (fun _ _ => False) E w')
    (hopened : ∀ x w', ChannelIs k x w' → wp opened (fun _ => ChannelIs k x) (fun _ _ => False) w') :
    wp (attach B k fname bdosfunc failed opened)
      (fun ret w' => ret = k ∧ OpenedAs x.1.ISREAD k w' ∧ (sameName fname tname = true ∨ sameName fname lname = true ∨ R)) E w := by
  rw [attach, wp_ite, wp_ite]
  split_ifs with ht hl
  · rw [wp_bind]
    exact wp_mono (wp_setFlags_opened hw _ fun _ => ⟨rfl, rfl⟩) (fun _ _ h => ⟨rfl, h, .inl ht⟩) (fun _ _ h => h.elim)
  · rw [wp_bind]
    exact wp_mono (wp_setFlags_opened hw _ fun _ => ⟨rfl, rfl⟩) (fun _ _ h => ⟨rfl, h, .inr (.inl hl)⟩) (fun _ _ h => h.elim)
  · have hcall : wp (onCcb (k : ℤ) (orFailure (openFcb B fname bdosfunc))) (fun rv _ => if rv = 0 then R else T)
        (fun _ _ => False) w := by
      rw [wp_onCcb, wp_orFailure]
      exact wp_mono hrv (fun _ _ h => h) (fun _ _ h => by rwa [if_neg (by decide)])
    rw [wp_bind]
    refine wp_mono (wp_and hcall (keeps_channel_onCcb (k : ℤ) (keepsMode_openFcb _ _).orFailure w hw)) ?_
      (fun _ _ h => h.1.elim)
    rintro rv w' ⟨hR, hw'⟩
    rw [wp_ite]
    split_ifs with h0
    · rw [if_neg h0] at hR
      exact wp_mono (hfailed ht hl hR w') (fun _ _ h => h.elim) (fun _ _ h => h)
    · rw [if_pos (not_not.mp h0)] at hR
      rw [wp_bind]
      refine wp_mono (wp_setFlags_opened hw' _ fun _ => ⟨rfl, rfl⟩) ?_ (fun _ _ h => h.elim)
      rintro _ w'' ⟨y, hy, hopen, hread⟩
      rw [wp_bind]
      exact wp_mono (hopened y w'' hy) (fun _ w₁ h => ⟨rfl, ⟨y, h, hopen, hread⟩, .inr (.inr hR)⟩)
        (fun _ _ h => h.elim)

/-- The channel that was allocated, with its flags. -/
theorem channelIs_fresh {j : ℕ} (hj : FirstFree w j) (f : Flags → Flags) :
    (freshChannel w j f).fds j = { initCcb j (w.fds j) with flags := f Flags.none } ∧
      ChannelIs j (Ccb.mode { initCcb j (w.fds j) with flags := f Flags.none }) (freshChannel w j f) := by
  have hfds : (freshChannel w j f).fds j = { initCcb j (w.fds j) with flags := f Flags.none } := Function.update_self ..
  refine ⟨hfds, congrArg Ccb.mode hfds, ?_⟩
  have hlt := hj.1
  simp only [freshChannel, takeChannel, BitVec.getLsbD_or, getLsbD_bit hlt, decide_true, Bool.or_true]

/-- The channels that `_open` opens with the mode `READ` are read-only. -/
theorem wp_openChan_read (fname : List UInt8) (xtype : ℤ) :
    wp (openChan B fname READ xtype) (fun ret w' => NameExists B w fname ∧ ∃ j : ℕ, j < 16 ∧ ret = j ∧ OpenedAs true j w')
      (fun e _ => e = .EMFILE ∨ e = .ENOENT ∧ ¬ NameExists B w fname) w := by
  refine wp_fresh (fun j hj => ?_) fun _ => .inl rfl
  obtain ⟨hfds, hfresh⟩ := channelIs_fresh hj fun f => { f with ISREAD := decide (READ = READ), ISASCII := decide (xtype = 0) }
  have hiff : (sameName fname tname = true ∨ sameName fname lname = true ∨ FileOpens B fname (clearFcb (w.fds j).fcb) w.os) ↔
      NameExists B w fname := by
    refine or_congr_right (or_congr_right ⟨fun h i hi => ?_, fun h => h j hj⟩)
    rw [hi.unique hj]
    exact h
  refine wp_mono (wp_attach_opened (R := FileOpens B fname (clearFcb (w.fds j).fcb) w.os)
    (T := ¬ FileOpens B fname (clearFcb (w.fds j).fcb) w.os) (E := fun e _ => e = .EMFILE ∨ e = .ENOENT ∧ ¬ NameExists B w fname)
    hfresh ?_ (fun ht hl hnot w' => ?_) fun y w' hw' => ?_)
    (fun ret w' h => ⟨hiff.mp h.2.2, j, hj.1, h.1, h.2.1⟩) (fun _ _ h => h)
  · rw [hfds]
    exact wp_openFcb_open (s := ⟨{ initCcb j (w.fds j) with
      flags := { Flags.none with ISREAD := decide (READ = READ), ISASCII := decide (xtype = 0) } }, w.os, []⟩) rfl rfl
  · rw [wp_bind]
    exact .inr ⟨rfl, mt hiff.mpr (not_or.mpr ⟨ht, not_or.mpr ⟨hl, hnot⟩⟩)⟩
  · rw [wp_bind, wp_get, wp_bind, wp_ignore]
    have hlast : ∀ w₁, ChannelIs j y w₁ →
        wp (ignore (lseek B (w'.fds j).chan.toInt 0 0)) (fun _ => ChannelIs j y) (fun _ _ => False) w₁ := by
      intro w₁ h
      rw [wp_ignore]
      exact keeps_channel_lseek _ _ _ w₁ h
    exact wp_mono (keeps_channel_lseek _ _ _ w' hw') (fun _ w₁ h => hlast w₁ h) (fun _ w₁ h => hlast w₁ h)

/-- The channels that `_creat` opens are not. -/
theorem wp_creat_read (fname : List UInt8) (type : ℤ) :
    wp (creat B fname type) (fun ret w' => ∃ j : ℕ, j < 16 ∧ ret = j ∧ OpenedAs false j w') (fun _ _ => True) w := by
  refine wp_fresh (fun j hj => ?_) fun _ => trivial
  obtain ⟨-, hfresh⟩ := channelIs_fresh hj fun f => { f with ISASCII := decide (type = 0) }
  refine wp_mono (wp_attach_opened (R := True) (T := True) (E := fun _ _ => True) hfresh ?_ (fun _ _ _ _ => trivial) fun _ _ h => h)
    (fun ret w' h => ⟨j, hj.1, h.1, h.2.1⟩) (fun _ _ _ => trivial)
  exact wp_mono (keepsMode_openFcb fname .CREATE _ _ rfl) (fun _ _ _ => by rw [ite_self]; trivial) (fun _ _ _ => trivial)

/-- **Which channels `open` makes read-only**: those of a device and of a file that is there. -/
theorem posixOpen_opened {fname : List UInt8} {oflags : OFlags} {w' : World σ} (h : posixOpen B fname oflags w = .ok fd w') :
    ∃ j : ℕ, j < 16 ∧ fd = j ∧
      (NameExists B w fname ∧ OpenedAs true j w' ∨
        ¬ NameExists B w fname ∧ OpenedAs false j w' ∧ ¬ (oflags.O_WRONLY = false ∧ oflags.O_RDWR = false)) := by
  have hread : (if oflags.O_WRONLY = false ∧ oflags.O_RDWR = false then READ else 0) = READ := ite_self _
  have happend : ∀ {b : Bool} {j : ℕ} {w₁ : World σ}, OpenedAs b j w₁ → wp (openAppend B oflags j)
      (fun ret w₂ => ret = j ∧ OpenedAs b j w₂) (fun _ _ => False) w₁ := by
    rintro b j w₁ ⟨x, hx, hb⟩
    rw [openAppend, wp_bind, wp_whenever]
    split_ifs
    · rw [wp_ignore]
      exact wp_mono (keeps_channel_lseek _ _ _ w₁ hx) (fun _ _ h => ⟨rfl, x, h, hb⟩) (fun _ _ h => ⟨rfl, x, h, hb⟩)
    · exact ⟨rfl, x, hx, hb⟩
  have hopen := wp_openChan_read (B := B) (w := w) fname (if oflags.O_BINARY = true then 1 else 0)
  suffices hspec : wp (posixOpen B fname oflags) (fun ret w' => ∃ j : ℕ, j < 16 ∧ ret = j ∧
      (NameExists B w fname ∧ OpenedAs true j w' ∨
        ¬ NameExists B w fname ∧ OpenedAs false j w' ∧ ¬ (oflags.O_WRONLY = false ∧ oflags.O_RDWR = false)))
      (fun _ _ => True) w by
    rwa [wp, h] at hspec
  unfold posixOpen
  simp only [hread, wp_attempt]
  generalize (if oflags.O_BINARY = true then (1 : ℤ) else 0) = xtype at hopen ⊢
  unfold wp at hopen
  cases hr : openChan B fname READ xtype w with
  | ok ret w₁ =>
    rw [hr] at hopen
    obtain ⟨hex, j, hj, rfl, hopened⟩ := hopen
    simp only [wp_ite]
    split_ifs
    · rw [wp_bind]
      exact wp_ignore_of fun _ => trivial
    · exact wp_mono (happend hopened) (fun _ _ h => ⟨j, hj, h.1, .inl ⟨hex, h.2⟩⟩) (fun _ _ h => h.elim)
  | error e w₁ =>
    rw [hr] at hopen
    simp only [wp_ite]
    split_ifs with hc hn hro hx
    · exact trivial
    · have hex : ¬ NameExists B w fname := by
        rcases hopen with heq | ⟨-, hex⟩
        · rw [hn] at heq
          cases heq
        · exact hex
      rw [wp_bind]
      refine wp_mono (wp_creat_read fname _) ?_ (fun _ _ h => h)
      rintro ret w₂ ⟨j, hj, rfl, hopened⟩
      exact wp_mono (happend hopened) (fun _ _ h => ⟨j, hj, h.1, .inr ⟨hex, h.2, hro⟩⟩) (fun _ _ h => h.elim)
    · rw [wp_bind]
      exact wp_ignore_of fun _ => trivial
    · exact trivial
    · exact trivial

/-! ### Writing -/

/-- `write` is refused with `EBADF`. -/
def Refused (m : OsM σ ℤ) (w : World σ) : Prop := ∃ w', m w = .error .EBADF w'

/-- A write of something is refused on a channel that is read-only, and on no other. -/
theorem refused_write_iff {b : Bool} {buff : List UInt8} (h : OpenedAs b k w) (hk : k < 16) (hbuff : buff ≠ []) :
    Refused (write B k buff) w ↔ b = true := by
  obtain ⟨x, ⟨rfl, -⟩, hopen, hread⟩ := h
  have hlen : buff.length ≠ 0 := fun h => hbuff (List.length_eq_zero_iff.mp h)
  have hopen : (w.fds k).flags.OPENED = true := hopen
  have hread : (w.fds k).flags.ISREAD = b := hread
  have hlt : (k : ℤ) < MAXCCBS := by
    unfold MAXCCBS
    omega
  cases b with
  | true =>
    have hspec : wp (write B k buff) (fun _ _ => False) (fun e _ => e = .EBADF) w := by
      have hfits : WriteFits (w.fds k) buff := writeFits_of_not fun hto => absurd (hread.symm.trans hto.1) (by decide)
      rw [wp_write_fits hlt hopen hfits, writeFp, wp_bind, wp_get, wp_ite, if_neg hlen, wp_ite, if_pos hread]
      rfl
    refine ⟨fun _ => rfl, fun _ => ?_⟩
    unfold wp at hspec
    split at hspec
    · exact hspec.elim
    · rename_i e w' hr
      exact ⟨w', by rw [hr, hspec]⟩
  | false =>
    have hspec : wp (write B k buff) (fun _ _ => True) (fun e _ => IsTransferError e) w := by
      exact wp_write hlt hopen (wp_mono (raises_writeFp buff hread) (fun _ _ _ _ _ => trivial) (fun _ _ h => h))
    refine ⟨fun hrefused => ?_, fun h => by cases h⟩
    obtain ⟨w', hr⟩ := hrefused
    rw [wp, hr] at hspec
    rcases hspec with h | h <;> cases h

/-- **The access mode is honoured** by the descriptor that `open` returns if and only if it was
to be opened for reading only, or is neither a device nor a file that was there before. -/
theorem access_mode {fname : List UInt8} {oflags : OFlags} {w' : World σ} (h : posixOpen B fname oflags w = .ok fd w') :
    (∀ w'' buff, Later B fd w' w'' → buff ≠ [] →
      (Refused (write B fd buff) w'' ↔ oflags.O_WRONLY = false ∧ oflags.O_RDWR = false)) ↔
      (oflags.O_WRONLY = false ∧ oflags.O_RDWR = false) ∨ ¬ NameExists B w fname := by
  obtain ⟨j, hj, rfl, hcase⟩ := posixOpen_opened h
  have hlater : ∀ {b : Bool} {w''}, OpenedAs b j w' → Later B j w' w'' → OpenedAs b j w'' := by
    rintro b w'' ⟨x, hx, hb⟩ hl
    exact ⟨x, hl.channelIs hj hx, hb⟩
  rcases hcase with ⟨hex, hopened⟩ | ⟨hex, hopened, hro⟩
  · constructor
    · intro hall
      refine .inl ((hall w' [0] .refl (by decide)).mp ?_)
      exact (refused_write_iff hopened hj (by decide)).mpr rfl
    · intro hor w'' buff hl hbuff
      have hro := hor.resolve_right (not_not.mpr hex)
      rw [refused_write_iff (hlater hopened hl) hj hbuff]
      exact ⟨fun _ => hro, fun _ => rfl⟩
  · refine ⟨fun _ => .inr hex, fun _ w'' buff hl hbuff => ?_⟩
    rw [refused_write_iff (hlater hopened hl) hj hbuff]
    exact ⟨fun h => absurd h (by decide), fun h => absurd h hro⟩

/-- The flags of `open` for reading and writing, or for reading only. -/
def rdwr (yes : Bool) : OFlags := ⟨false, yes, false, false, false, false⟩

theorem access_mode_rdonly :
    Refused (write willingOsif 0 [0x61]) (after (posixOpen willingOsif [0x41] (rdwr false)) (coldWorld ())) :=
  ((access_mode (show posixOpen willingOsif [0x41] (rdwr false) (coldWorld ()) = .ok 0 _ from rfl)).mpr
    (.inl ⟨rfl, rfl⟩) _ [0x61] .refl (by decide)).mpr ⟨rfl, rfl⟩

/-- **`open` for reading and writing** of a file that is there gives a descriptor with which
nothing can be written. -/
theorem rdwr_refused :
    ∃ w', posixOpen willingOsif [0x41] (rdwr true) (coldWorld ()) = .ok 0 w' ∧ Refused (write willingOsif 0 [0x61]) w' :=
  ⟨_, rfl, _, rfl⟩

end Cpm68k.Cpmlib
