import Cpm68k.Cpmlib.Descriptors
import Cpm68k.Cpmlib.MemStore

/-!
# The user number is put back

Whatever a call does and whatever the BDOS answers, the user number is after the call what
it was before, and is that of the file during every call of the BDOS that works on a file.

## The model

`UserView B` says that only the function `USER` changes the user number, and sets it to every number
of `V.users`. `V.Allows t P` says that the functions on files keep `P` when they are called under the
user number `t`.
`UserView.logged` is the BDOS `B` with a log behind its state: every function that works on a
file appends the user number under which it was called.

## What is proved

* `coupled_traced` — the routines of an open channel call the functions on files under the
  user number of the channel.
* `LibraryCall.wp_traced` — the same of the calls of the library.
* `user_restored` — for the user number, and for the log.
-/

namespace Cpm68k.Cpmlib

open Cpm68k.Library

variable {σ : Type} {B : Osif σ}

/-- The user number, which only `USER` changes. -/
structure UserView (B : Osif σ) where
  /-- The current user number. -/
  user : σ → UInt16
  /-- The user numbers that there are. -/
  users : UInt16 → Prop
  isUser : IsUser B users user
  file : ∀ g fcb os, user (B.file g fcb os).2.2 = user os
  bRead : ∀ fcb os, user (B.bRead fcb os).2.2 = user os
  bWrite : ∀ fcb record os, user (B.bWrite fcb record os).2.2 = user os
  rename : ∀ old new os, user (B.rename old new os).2 = user os
  conin : ∀ os, user (B.conin os).2 = user os
  conout : ∀ c os, user (B.conout c os) = user os
  conio : ∀ c os, user (B.conio c os).2 = user os
  writestr : ∀ cp os, user (B.writestr cp os) = user os
  conbuf : ∀ n os, user (B.conbuf n os).2 = user os
  lstout : ∀ c os, user (B.lstout c os) = user os

variable {V : UserView B} {P : σ → Prop} {c t : UInt16}

/-- The functions that work on a file keep `P` while the user number is `t`, if there is such a user,
and the others keep it always. -/
structure UserView.Allows (V : UserView B) (t : UInt16) (P : σ → Prop) : Prop where
  setUser : ∀ n os, P os → P (B.user n os).2
  file : ∀ g fcb os, (V.users t → V.user os = t) → P os → P (B.file g fcb os).2.2
  bRead : ∀ fcb os, (V.users t → V.user os = t) → P os → P (B.bRead fcb os).2.2
  bWrite : ∀ fcb record os, (V.users t → V.user os = t) → P os → P (B.bWrite fcb record os).2.2
  rename : ∀ old new os, (V.users t → V.user os = t) → P os → P (B.rename old new os).2
  console : ConsoleKeeps B P

/-- The user number is `c`, and `P` holds. -/
def Traced (V : UserView B) (P : σ → Prop) (c : UInt16) (os : σ) : Prop := V.user os = c ∧ P os

/-- The same, on a channel whose file belongs to the user `t`. -/
def TracedOn (V : UserView B) (P : σ → Prop) (c t : UInt16) (fp : Ccb) (os : σ) : Prop :=
  V.user os = c ∧ P os ∧ fileUser fp.user c = t

theorem TracedOn.traced {fp : Ccb} {os : σ} (h : TracedOn V P c t fp os) : Traced V P c os := ⟨h.1, h.2.1⟩

section Routines

variable (hc : V.users c) (hP : V.Allows t P)

include hc hP

theorem userCoupled_of_allows :
    UserCoupled B B V.users V.user V.user c (Diag fun fp os => P os ∧ fileUser fp.user c = t) where
  left := V.isUser
  right := V.isUser
  known := hc
  fixed := by
    rintro fp fp' os _ ⟨rfl, hos, ht⟩ hfixed
    exact ⟨rfl, hos, by rw [user_of_fixed hfixed, ht]⟩
  setUser := by
    rintro fp os _ n ⟨rfl, hos, ht⟩
    exact ⟨rfl, hP.setUser _ _ hos, ht⟩
  file := by
    rintro fp os _ g hl - ⟨rfl, hos, ht⟩
    exact ⟨rfl, rfl, V.file _ _ _, V.file _ _ _, rfl, hP.file _ _ _ (ht ▸ hl) hos, ht⟩
  bRead := by
    rintro fp os _ hl - ⟨rfl, hos, ht⟩
    exact ⟨rfl, rfl, V.bRead _ _, V.bRead _ _, rfl, hP.bRead _ _ (ht ▸ hl) hos, ht⟩
  bWrite := by
    rintro fp os _ record hl - ⟨rfl, hos, ht⟩
    exact ⟨rfl, rfl, V.bWrite _ _ _, V.bWrite _ _ _, rfl, hP.bWrite _ _ _ (ht ▸ hl) hos, ht⟩

theorem bracketed_traced :
    Bracketed B B (Diag (TracedOn V P c t))
      (Inside V.users V.user V.user c (Diag fun fp os => P os ∧ fileUser fp.user c = t)) := by
  have h := (userCoupled_of_allows hc hP).bracketed
  rw [outside_diag] at h
  exact h

/-- The routines of a channel leave the user number as it was, and work on the file under the
user number of the channel. -/
theorem coupled_traced : Coupled B B (Diag (TracedOn V P c t)) := by
  have hconsole : ∀ fp, ConsoleKeeps B (TracedOn V P c t fp) := fun fp =>
    { conin := fun os h => ⟨(V.conin os).trans h.1, hP.console.conin os h.2.1, h.2.2⟩
      conout := fun ch os h => ⟨(V.conout ch os).trans h.1, hP.console.conout ch os h.2.1, h.2.2⟩
      conio := fun ch os h => ⟨(V.conio ch os).trans h.1, hP.console.conio ch os h.2.1, h.2.2⟩
      writestr := fun cp os h => ⟨(V.writestr cp os).trans h.1, hP.console.writestr cp os h.2.1, h.2.2⟩
      conbuf := fun n os h => ⟨(V.conbuf n os).trans h.1, hP.console.conbuf n os h.2.1, h.2.2⟩
      lstout := fun ch os h => ⟨(V.lstout ch os).trans h.1, hP.console.lstout ch os h.2.1, h.2.2⟩ }
  exact (bracketed_traced hc hP).coupled
    (fun bytes s s' _ h => sync_of_keeps (keeps_ttyin hconsole (fun _ _ h => h) bytes) s s' h)
    fun data s s' _ h => sync_of_keeps (keeps_wrtchr hconsole data) s s' h

end Routines

/-! ### Calls on a channel -/

/-- The user number and the log, when channel `fd` is on a file of the user `t`. -/
def ChannelTraced (V : UserView B) (P : σ → Prop) (c t : UInt16) (fd : ℤ) (w : World σ) : Prop :=
  TracedOn V P c t (w.fds fd) w.os

variable {fd : ℤ}

theorem keeps_onCcb_traced {α : Type} {m : IoM σ α} (hm : Keeps (fun s => TracedOn V P c t s.fp s.os) m) :
    Keeps (ChannelTraced V P c t fd) (onCcb fd m) := by
  intro w hw
  have hafter : ∀ s : Io σ, TracedOn V P c t s.fp s.os →
      ChannelTraced V P c t fd { w with fds := Function.update w.fds fd s.fp, os := s.os } := by
    intro s hs
    unfold ChannelTraced
    simp only [Function.update_self]
    exact hs
  rw [wp_onCcb]
  exact wp_mono (hm ⟨w.fds fd, w.os, []⟩ hw) (fun _ s hs => hafter s hs) (fun _ s hs => hafter s hs)

theorem wp_setFlags_traced {w : World σ} (hw : ChannelTraced V P c t fd w) (f : Flags → Flags) :
    wp (setFlags fd f) (fun _ w' => ChannelTraced V P c t fd w' ∧ (w'.fds fd).chan = (w.fds fd).chan) (fun _ _ => False) w := by
  rw [setFlags, wp_modify]
  unfold ChannelTraced
  simp only [Function.update_self]
  exact ⟨hw, trivial⟩

section Calls

variable (hc : V.users c) (hP : V.Allows t P)

include hc hP

theorem keeps_lseek_traced (offs sense : ℤ) :
    Keeps (ChannelTraced V P c t fd) (lseek B fd offs sense) :=
  (keeps_chkc fd).bind fun _ => keeps_onCcb_traced (keeps_of_sync ((coupled_traced hc hP).lseekFp offs sense))

/-- A write that runs over its buffer leaves its own control block alone. -/
theorem keeps_write_traced (buff : List UInt8) : Keeps (ChannelTraced V P c t fd) (write B fd buff) := fun w hw =>
  wp_write_own (Q := fun _ => TracedOn V P c t) (E := fun _ => TracedOn V P c t) <|
    Keeps.bind (keeps_chkc fd) (fun _ => keeps_onCcb_traced (keeps_of_sync ((coupled_traced hc hP).writeFp buff))) w hw

theorem keeps_read_traced (bytes : ℕ) : Keeps (ChannelTraced V P c t fd) (read B fd bytes) :=
  (keeps_chkc fd).bind fun _ => keeps_onCcb_traced
    ((keeps_of_sync ((coupled_traced hc hP).readFp bytes)).bind fun _ => Keeps.get.bind fun _ => Keeps.pure _)

theorem keeps_fstat_traced : Keeps (ChannelTraced V P c t fd) (fstat B fd) :=
  (keeps_chkc fd).bind fun _ => keeps_onCcb_traced (keeps_of_sync (coupled_traced hc hP).fstatFp)

/-- After `close` the channel is on no file. -/
theorem wp_close_traced {w : World σ} (hw : ChannelTraced V P c t fd w) :
    wp (close B fd) (fun _ w' => Traced V P c w'.os) (fun _ w' => Traced V P c w'.os) w := by
  have heof : Keeps (ChannelTraced V P c t fd) (closeEof B fd) :=
    Keeps.get.bind fun _ => Keeps.whenever <|
      (Keeps.whenever (keeps_ignore (keeps_lseek_traced hc hP _ _))).bind fun _ => keeps_ignore (keeps_write_traced hc hP _)
  have hfile : Keeps (ChannelTraced V P c t fd) (closeFile B fd) :=
    heof.bind fun _ => keeps_onCcb_traced (keeps_of_sync (coupled_traced hc hP).closeFcb)
  have hend : ∀ (rv : Bool) (w : World σ), ChannelTraced V P c t fd w → wp (do
      chinit fd
      freec fd
      if rv = true then pure 0 else throw Errno.EIO : OsM σ ℤ)
      (fun _ w' => Traced V P c w'.os) (fun _ w' => Traced V P c w'.os) w := by
    intro rv w hw
    rw [wp_bind, chinit, wp_modify, wp_bind, freec, wp_modify, wp_ite]
    split_ifs
    · exact hw.traced
    · exact hw.traced
  rw [close, wp_bind]
  refine wp_mono (keeps_chkc fd w hw) (fun _ w₁ h₁ => ?_) (fun _ _ h => h.traced)
  rw [wp_bind, wp_get, wp_bind, wp_ite]
  split_ifs
  · exact hend true w₁ h₁
  · exact wp_mono (hfile w₁ h₁) (fun rv w₂ h₂ => hend rv w₂ h₂) (fun _ _ h => h.traced)

/-! ### Calls that open a file -/

/-- The stored user number of the file of a name. -/
def parsedUser (fname : List UInt8) : Int8 := (parsefn fname Fcb.zero).1.fuser

/-- The name is that of a device. -/
def IsDevice (fname : List UInt8) : Prop := sameName fname tname = true ∨ sameName fname lname = true

instance (fname : List UInt8) : Decidable (IsDevice fname) := inferInstanceAs (Decidable (_ ∨ _))

/-- The stored user number of a channel that is opened to a name. -/
def nameUser (fname : List UInt8) : Int8 := if IsDevice fname then 0 else parsedUser fname

/-- `__open` on a channel that has no user number yet gives it that of the name. -/
theorem wp_openFcb_traced {fname : List UInt8} (ht : fileUser (parsedUser fname) c = t) (g : BdosFunc) {s : Io σ}
    (huser : s.fp.user = 0) (hs : Traced V P c s.os) :
    wp (openFcb B fname g) (fun _ s' => TracedOn V P c t s'.fp s'.os) (fun _ s' => Traced V P c s'.os) s := by
  have hfuser : (parsefn fname s.fp.fcb).1.fuser = parsedUser fname := by
    rw [parsefn_record fname s.fp.fcb Fcb.zero, parsedUser]
  have hu : (if (parsefn fname s.fp.fcb).1.fuser ≠ 0 then (parsefn fname s.fp.fcb).1.fuser else s.fp.user) = parsedUser fname := by
    rw [hfuser]
    exact fuser_of_zero _ huser
  have hcall : Keeps (fun s => TracedOn V P c t s.fp s.os) (openCall B g) :=
    keeps_of_sync ((bracketed_traced hc hP).openCall g)
  rw [openFcb, wp_bind, wp_get, wp_bind, wp_setFp, wp_bind, wp_whenever]
  by_cases hlegal : (parsefn fname s.fp.fcb).2 = false
  · rw [if_pos hlegal]
    exact hs
  · rw [if_neg hlegal, wp_bind, wp_setFp, wp_bind, wp_whenever]
    by_cases hwild : g = .CREATE ∧ hasWildcard (parsefn fname s.fp.fcb).1 = true
    · rw [if_pos hwild]
      exact hs
    · rw [if_neg hwild, wp_bind]
      refine wp_mono (hcall _ ⟨hs.1, hs.2, ?_⟩) (fun rv s' hs' => ?_) (fun _ _ h => h.traced)
      · simp only [hu]
        exact ht
      · rw [wp_ite, wp_ite]
        split_ifs
        · exact hs'
        · exact hs'
        · exact hs'

variable {w : World σ} {k : ℕ} {fname : List UInt8}

/-- Channel `k`, on which no file has been opened yet. -/
structure FreshTraced (V : UserView B) (P : σ → Prop) (c t : UInt16) (k : ℕ) (w : World σ) : Prop where
  user : (w.fds k).user = 0
  chan : (w.fds k).chan = Int8.ofInt k
  traced : Traced V P c w.os

omit hc hP in
theorem freshTraced {f : Flags → Flags} (hw : Traced V P c w.os) : FreshTraced V P c t k (freshChannel w k f) := by
  have hfds : (freshChannel w k f).fds k = { initCcb k (w.fds k) with flags := f Flags.none } := Function.update_self ..
  exact ⟨by rw [hfds]; rfl, by rw [hfds]; rfl, hw⟩

/-- Attaching a channel to a name. -/
theorem wp_attach_traced (ht : fileUser (nameUser fname) c = t) {g : BdosFunc}
    {failed : OsM σ ℤ} {opened : OsM σ PUnit} (hw : FreshTraced V P c t k w)
    (hfailed : ∀ w', Traced V P c w'.os → wp failed (fun _ _ => False) (fun _ w'' => Traced V P c w''.os) w')
    (hopened : ∀ w', ChannelTraced V P c t k w' → (w'.fds k).chan = Int8.ofInt k →
      wp opened (fun _ => ChannelTraced V P c t k) (fun _ _ => False) w') :
    wp (attach B k fname g failed opened) (fun ret w' => ret = k ∧ ChannelTraced V P c t k w')
      (fun _ w' => Traced V P c w'.os) w := by
  obtain ⟨huser, hchan, htraced⟩ := hw
  have hdevice : IsDevice fname → ChannelTraced V P c t k w := by
    intro hdev
    rw [nameUser, if_pos hdev] at ht
    exact ⟨htraced.1, htraced.2, by rw [huser, ht]⟩
  rw [attach, wp_ite, wp_ite]
  split_ifs with htty hlpt
  · rw [wp_bind]
    exact wp_mono (wp_setFlags_traced (hdevice (.inl htty)) _) (fun _ _ h => ⟨rfl, h.1⟩) (fun _ _ h => h.elim)
  · rw [wp_bind]
    exact wp_mono (wp_setFlags_traced (hdevice (.inr hlpt)) _) (fun _ _ h => ⟨rfl, h.1⟩) (fun _ _ h => h.elim)
  · have hfile : fileUser (parsedUser fname) c = t := by
      rw [nameUser, if_neg (show ¬ IsDevice fname from not_or.mpr ⟨htty, hlpt⟩)] at ht
      exact ht
    have hopen : wp (openFcb B fname g) (fun _ s' => TracedOn V P c t s'.fp s'.os ∧ s'.fp.chan = Int8.ofInt k)
        (fun _ s' => Traced V P c s'.os) ⟨w.fds k, w.os, []⟩ := by
      refine wp_mono (wp_and (wp_openFcb_traced hc hP hfile g huser htraced)
        (keepsMode_openFcb fname g _ _ rfl)) (fun _ s' h => ⟨h.1, ?_⟩) (fun _ _ h => h.1)
      exact (congrArg Prod.snd h.2).trans hchan
    rw [wp_bind, wp_onCcb, wp_orFailure]
    refine wp_mono hopen (fun rv s' hs' => ?_) (fun _ s' hs' => ?_)
    · rw [wp_ite]
      split_ifs
      · exact wp_mono (hfailed _ hs'.1.traced) (fun _ _ h => h.elim) (fun _ _ h => h)
      · have hon : ChannelTraced V P c t k { w with fds := Function.update w.fds k s'.fp, os := s'.os } := by
          unfold ChannelTraced
          simp only [Function.update_self]
          exact hs'.1
        rw [wp_bind]
        refine wp_mono (wp_setFlags_traced hon _) (fun _ w₁ h₁ => ?_) (fun _ _ h => h.elim)
        rw [wp_bind]
        refine wp_mono (hopened w₁ h₁.1 (h₁.2.trans ?_)) (fun _ _ h => ⟨rfl, h⟩) (fun _ _ h => h.elim)
        simp only [Function.update_self]
        exact hs'.2
    · rw [wp_ite, if_pos (by decide)]
      exact wp_mono (hfailed _ hs') (fun _ _ h => h.elim) (fun _ _ h => h)

theorem wp_creat_traced (ht : fileUser (nameUser fname) c = t) (type : ℤ) (hw : Traced V P c w.os) :
    wp (creat B fname type) (fun ret w' => ChannelTraced V P c t ret w') (fun _ w' => Traced V P c w'.os) w := by
  refine wp_fresh (fun j hj => ?_) fun _ => hw
  refine wp_mono (wp_attach_traced hc hP ht (freshTraced hw) (fun _ h => h) fun _ h _ => h) (fun ret w' h => ?_) (fun _ _ h => h)
  rw [h.1]
  exact h.2

theorem wp_openChan_traced (ht : fileUser (nameUser fname) c = t) (mode xtype : ℤ)
    (hw : Traced V P c w.os) :
    wp (openChan B fname mode xtype) (fun ret w' => ChannelTraced V P c t ret w')
      (fun _ w' => Traced V P c w'.os) w := by
  refine wp_fresh (fun j hj => ?_) fun _ => hw
  refine wp_mono (wp_attach_traced hc hP ht (freshTraced hw) (fun _ h => h) fun w' h hchan => ?_) (fun ret w' h => ?_)
    (fun _ _ h => h)
  · have hnum : (w'.fds j).chan.toInt = j := by
      rw [hchan]
      exact toInt_chan hj.1
    rw [wp_bind, wp_get]
    simp only [hnum]
    have hlast : ∀ w₁, ChannelTraced V P c t j w₁ →
        wp (ignore (lseek B j 0 0)) (fun _ => ChannelTraced V P c t j) (fun _ _ => False) w₁ := by
      intro w₁ h
      rw [wp_ignore]
      exact keeps_lseek_traced hc hP _ _ w₁ h
    rw [wp_bind, wp_ignore]
    exact wp_mono (keeps_lseek_traced hc hP _ _ w' h) (fun _ w₁ h => hlast w₁ h) (fun _ w₁ h => hlast w₁ h)
  · rw [h.1]
    exact h.2

theorem wp_openAppend_traced (oflags : OFlags) {ret : ℤ} (hw : ChannelTraced V P c t ret w) :
    wp (openAppend B oflags ret) (fun _ w' => Traced V P c w'.os) (fun _ _ => False) w := by
  rw [openAppend, wp_bind, wp_whenever]
  split_ifs
  · rw [wp_ignore]
    exact wp_mono (keeps_lseek_traced hc hP _ _ w hw) (fun _ _ h => h.traced) (fun _ _ h => h.traced)
  · exact hw.traced

/-- `open`, when there is a channel for it. -/
theorem wp_posixOpen_traced (ht : fileUser (nameUser fname) c = t) (oflags : OFlags) (hfree : ¬ TableFull w)
    (hw : Traced V P c w.os) :
    wp (posixOpen B fname oflags) (fun _ w' => Traced V P c w'.os) (fun _ w' => Traced V P c w'.os) w := by
  unfold posixOpen
  dsimp only
  generalize (if oflags.O_BINARY = true then (1 : ℤ) else 0) = xtype
  generalize (if oflags.O_WRONLY = false ∧ oflags.O_RDWR = false then READ else 0) = mode
  have hopen := wp_openChan_traced hc hP ht mode xtype hw
  rw [wp_attempt]
  unfold wp at hopen
  cases hr : openChan B fname mode xtype w with
  | ok ret w₁ =>
    rw [hr] at hopen
    simp only [wp_ite]
    split_ifs
    · rw [wp_bind, wp_ignore]
      exact wp_mono (wp_close_traced hc hP hopen) (fun _ _ h => h) (fun _ _ h => h)
    · exact wp_mono (wp_openAppend_traced hc hP oflags hopen) (fun _ _ h => h) (fun _ _ h => h.elim)
  | error e w₁ =>
    rw [hr] at hopen
    obtain rfl := openChan_error hfree hr
    simp only [wp_ite, if_true]
    split_ifs
    · exact hopen
    · rw [wp_bind]
      refine wp_mono (wp_creat_traced hc hP ht xtype hopen) (fun ret w₂ h₂ => ?_) (fun _ _ h => h)
      exact wp_mono (wp_openAppend_traced hc hP oflags h₂) (fun _ _ h => h) (fun _ _ h => h.elim)
    · exact hopen

/-- `open`, when there is none: it may close what lies below the table. -/
theorem wp_posixOpen_traced_full (ht : fileUser (w.fds (-1)).user c = t) (oflags : OFlags) (hfull : TableFull w)
    (hw : Traced V P c w.os) :
    wp (posixOpen B fname oflags) (fun _ w' => Traced V P c w'.os) (fun _ w' => Traced V P c w'.os) w := by
  unfold posixOpen
  dsimp only
  generalize (if oflags.O_BINARY = true then (1 : ℤ) else 0) = xtype
  generalize (if oflags.O_WRONLY = false ∧ oflags.O_RDWR = false then READ else 0) = mode
  rw [wp_attempt, openChan_of_tableFull hfull]
  simp only [wp_ite, if_neg (show Errno.EMFILE ≠ .ENOENT by decide)]
  split_ifs
  · rw [wp_bind, wp_ignore]
    exact wp_mono (wp_close_traced hc hP ⟨hw.1, hw.2, ht⟩) (fun _ _ h => h) (fun _ _ h => h)
  · exact hw
  · exact hw

theorem wp_unlink_traced (ht : fileUser (parsedUser fname) c = t) (hw : Traced V P c w.os) :
    wp (unlink B fname) (fun _ w' => Traced V P c w'.os) (fun _ w' => Traced V P c w'.os) w := by
  rw [unlink, wp_bind]
  refine wp_mono (wp_allocc w) (fun ch w₁ h => ?_) fun _ w₁ h => by rw [h.2.1]; exact hw
  obtain ⟨k, -, rfl, rfl⟩ := h
  rw [wp_bind, chinit, wp_modify, wp_bind, wp_onCcb, wp_orFailure]
  have huser : ((Function.update (takeChannel w k).fds k (initCcb k ((takeChannel w k).fds k))) k).user = 0 := by
    rw [Function.update_self]
    rfl
  refine wp_mono (wp_openFcb_traced hc hP ht .DELETE huser hw) (fun _ _ h => ?_) (fun _ _ h => ?_)
  · rw [wp_bind, freec, wp_modify, wp_pure]
    exact h.traced
  · rw [wp_bind, freec, wp_modify, wp_pure]
    exact h

theorem wp_rename_traced {old new : List UInt8} {nuser : Int8}
    (hok : renameUser (parsefn old Fcb.zero).1 (parsefn new Fcb.zero).1 = .ok nuser) (ht : fileUser nuser c = t)
    (hw : Traced V P c w.os) :
    wp (rename B old new) (fun _ w' => Traced V P c w'.os) (fun _ w' => Traced V P c w'.os) w := by
  obtain ⟨huser, hos⟩ := hw
  have hin : V.users t → V.user (chkuser B nuser.toInt16 w.os).2 = t := by
    rw [← ht, ← huser]
    exact V.isUser.user_chkuser
  have hafter : Traced V P c (uchkuser B nuser.toInt16 (chkuser B nuser.toInt16 w.os).1
      (B.rename (parsefn old Fcb.zero).1 (parsefn new Fcb.zero).1 (chkuser B nuser.toInt16 w.os).2).2) := by
    constructor
    · rw [V.isUser.chkuser_fst, huser]
      refine V.isUser.user_uchkuser nuser hc fun hknown => ?_
      rw [V.rename, ht]
      exact hin (ht ▸ hknown)
    · exact uchkuser_keeps hP.setUser (hP.rename _ _ _ hin (chkuser_keeps hP.setUser hos))
  unfold wp rename
  dsimp only
  rw [hok]
  dsimp only
  split_ifs
  · exact ⟨huser, hos⟩
  · exact hafter
  · exact hafter

end Calls

/-! ### All calls -/

/-- The calls of the library on files. -/
inductive LibraryCall
  | posixOpen (fname : List UInt8) (oflags : OFlags)
  | openChan (fname : List UInt8) (mode xtype : ℤ)
  | creat (fname : List UInt8) (type : ℤ)
  | read (fd : ℤ) (bytes : ℕ)
  | write (fd : ℤ) (buff : List UInt8)
  | lseek (fd offs sense : ℤ)
  | fstat (fd : ℤ)
  | close (fd : ℤ)
  | unlink (filename : List UInt8)
  | rename (old new : List UInt8)

/-- The program of a call, without what it returns. -/
def LibraryCall.program (B : Osif σ) : LibraryCall → OsM σ PUnit
  | .posixOpen fname oflags => (fun _ => ⟨⟩) <$> Cpmlib.posixOpen B fname oflags
  | .openChan fname mode xtype => (fun _ => ⟨⟩) <$> Cpmlib.openChan B fname mode xtype
  | .creat fname type => (fun _ => ⟨⟩) <$> Cpmlib.creat B fname type
  | .read fd bytes => (fun _ => ⟨⟩) <$> Cpmlib.read B fd bytes
  | .write fd buff => (fun _ => ⟨⟩) <$> Cpmlib.write B fd buff
  | .lseek fd offs sense => (fun _ => ⟨⟩) <$> Cpmlib.lseek B fd offs sense
  | .fstat fd => (fun _ => ⟨⟩) <$> Cpmlib.fstat B fd
  | .close fd => (fun _ => ⟨⟩) <$> Cpmlib.close B fd
  | .unlink filename => (fun _ => ⟨⟩) <$> Cpmlib.unlink B filename
  | .rename old new => (fun _ => ⟨⟩) <$> Cpmlib.rename B old new

instance (w : World σ) : Decidable (TableFull w) := inferInstanceAs (Decidable (∀ i < MAXCCBS, _))

/-- The stored user number of the file that a call works on: that of the channel, or of the
name. With all channels in use `open` may only close channel -1. -/
def LibraryCall.storedUser (w : World σ) : LibraryCall → Int8
  | .posixOpen fname _ => if TableFull w then (w.fds (-1)).user else nameUser fname
  | .openChan fname _ _ => nameUser fname
  | .creat fname _ => nameUser fname
  | .read fd _ => (w.fds fd).user
  | .write fd _ => (w.fds fd).user
  | .lseek fd _ _ => (w.fds fd).user
  | .fstat fd => (w.fds fd).user
  | .close fd => (w.fds fd).user
  | .unlink filename => parsedUser filename
  | .rename old new =>
    match renameUser (parsefn old Fcb.zero).1 (parsefn new Fcb.zero).1 with
    | .ok nuser => nuser
    | .error _ => 0

/-- A call leaves the user number as it was, and what the functions on files keep under the
user number of the file. -/
theorem LibraryCall.wp_traced {P : σ → Prop} {w : World σ} (call : LibraryCall)
    (hP : V.Allows (fileUser (call.storedUser w) (V.user w.os)) P) (hw : P w.os) :
    wp (call.program B) (fun _ w' => Traced V P (V.user w.os) w'.os) (fun _ w' => Traced V P (V.user w.os) w'.os) w := by
  have hc := V.isUser.known w.os
  have hchannel : ∀ {α : Type} {m : OsM σ α} {t : UInt16} {fd : ℤ}, fileUser (w.fds fd).user (V.user w.os) = t →
      Keeps (ChannelTraced V P (V.user w.os) t fd) m →
      wp m (fun _ w' => Traced V P (V.user w.os) w'.os) (fun _ w' => Traced V P (V.user w.os) w'.os) w :=
    fun ht hm => wp_mono (hm w ⟨rfl, hw, ht⟩) (fun _ _ h => h.traced) (fun _ _ h => h.traced)
  cases call with
  | posixOpen fname oflags =>
    rw [program, wp_map]
    by_cases hfull : TableFull w
    · rw [storedUser, if_pos hfull] at hP
      exact wp_posixOpen_traced_full hc hP rfl oflags hfull ⟨rfl, hw⟩
    · rw [storedUser, if_neg hfull] at hP
      exact wp_posixOpen_traced hc hP rfl oflags hfull ⟨rfl, hw⟩
  | openChan fname mode xtype =>
    rw [program, wp_map]
    exact wp_mono (wp_openChan_traced hc hP rfl mode xtype ⟨rfl, hw⟩) (fun _ _ h => h.traced) (fun _ _ h => h)
  | creat fname type =>
    rw [program, wp_map]
    exact wp_mono (wp_creat_traced hc hP rfl type ⟨rfl, hw⟩) (fun _ _ h => h.traced) (fun _ _ h => h)
  | read fd bytes =>
    rw [program, wp_map]
    exact hchannel rfl (keeps_read_traced hc hP bytes)
  | write fd buff =>
    rw [program, wp_map]
    exact hchannel rfl (keeps_write_traced hc hP buff)
  | lseek fd offs sense =>
    rw [program, wp_map]
    exact hchannel rfl (keeps_lseek_traced hc hP offs sense)
  | fstat fd =>
    rw [program, wp_map]
    exact hchannel rfl (keeps_fstat_traced hc hP)
  | close fd =>
    rw [program, wp_map]
    exact wp_close_traced hc hP ⟨rfl, hw, rfl⟩
  | unlink filename =>
    rw [program, wp_map]
    exact wp_unlink_traced hc hP rfl ⟨rfl, hw⟩
  | rename old new =>
    rw [program, wp_map]
    cases hr : renameUser (parsefn old Fcb.zero).1 (parsefn new Fcb.zero).1 with
    | ok nuser =>
      simp only [storedUser, hr] at hP
      exact wp_rename_traced hc hP hr rfl ⟨rfl, hw⟩
    | error e =>
      unfold wp Cpmlib.rename
      dsimp only
      rw [hr]
      split_ifs
      · exact ⟨rfl, hw⟩
      · exact ⟨rfl, hw⟩

/-! ### The log -/

/-- The BDOS, with a log of the user numbers under which its functions on files were called. -/
def UserView.logged (V : UserView B) : Osif (σ × List UInt16) where
  user n os := ((B.user n os.1).1, (B.user n os.1).2, os.2)
  file g fcb os := ((B.file g fcb os.1).1, (B.file g fcb os.1).2.1, (B.file g fcb os.1).2.2, os.2 ++ [V.user os.1])
  bRead fcb os := ((B.bRead fcb os.1).1, (B.bRead fcb os.1).2.1, (B.bRead fcb os.1).2.2, os.2 ++ [V.user os.1])
  bWrite fcb record os :=
    ((B.bWrite fcb record os.1).1, (B.bWrite fcb record os.1).2.1, (B.bWrite fcb record os.1).2.2, os.2 ++ [V.user os.1])
  rename old new os := ((B.rename old new os.1).1, (B.rename old new os.1).2, os.2 ++ [V.user os.1])
  conin os := ((B.conin os.1).1, (B.conin os.1).2, os.2)
  conout c os := (B.conout c os.1, os.2)
  conio c os := ((B.conio c os.1).1, (B.conio c os.1).2, os.2)
  writestr cp os := (B.writestr cp os.1, os.2)
  conbuf n os := ((B.conbuf n os.1).1, (B.conbuf n os.1).2, os.2)
  lstout c os := (B.lstout c os.1, os.2)
  exit os := (B.exit os.1, os.2)
  behind := B.behind

/-- The user number, behind the log. -/
def UserView.viewLogged (V : UserView B) : UserView V.logged where
  user os := V.user os.1
  users := V.users
  isUser :=
    { get := fun os => V.isUser.get os.1
      set := fun n os h => V.isUser.set n os.1 h
      known := fun os => V.isUser.known os.1 }
  file g fcb os := V.file g fcb os.1
  bRead fcb os := V.bRead fcb os.1
  bWrite fcb record os := V.bWrite fcb record os.1
  rename old new os := V.rename old new os.1
  conin os := V.conin os.1
  conout c os := V.conout c os.1
  conio c os := V.conio c os.1
  writestr cp os := V.writestr cp os.1
  conbuf n os := V.conbuf n os.1
  lstout c os := V.lstout c os.1

/-- All entries of the log since `l₀` are `t`. -/
def LogIs (l₀ : List UInt16) (t : UInt16) (log : List UInt16) : Prop := ∃ l, log = l₀ ++ l ∧ ∀ v ∈ l, v = t

theorem LogIs.refl (l₀ : List UInt16) (t : UInt16) : LogIs l₀ t l₀ :=
  ⟨[], (List.append_nil l₀).symm, fun _ h => absurd h List.not_mem_nil⟩

theorem LogIs.append {l₀ log : List UInt16} (h : LogIs l₀ t log) : LogIs l₀ t (log ++ [t]) := by
  obtain ⟨l, rfl, hl⟩ := h
  refine ⟨l ++ [t], List.append_assoc .., fun v hv => ?_⟩
  rcases List.mem_append.mp hv with h | h
  · exact hl v h
  · exact List.mem_singleton.mp h

theorem UserView.allows_logIs (V : UserView B) (l₀ : List UInt16) {t : UInt16} (hknown : V.users t) :
    V.viewLogged.Allows t fun os => LogIs l₀ t os.2 where
  setUser _ _ h := h
  file g fcb os ht h := by
    obtain rfl := ht hknown
    exact h.append
  bRead fcb os ht h := by
    obtain rfl := ht hknown
    exact h.append
  bWrite fcb record os ht h := by
    obtain rfl := ht hknown
    exact h.append
  rename old new os ht h := by
    obtain rfl := ht hknown
    exact h.append
  console := ⟨fun _ h => h, fun _ _ h => h, fun _ _ h => h, fun _ _ h => h, fun _ _ h => h, fun _ _ h => h⟩

/-- **The user number is put back** by every call, whatever the BDOS answers; and all its
functions on files that a call uses are called under the user number of the file, if that is one the
BDOS sets. -/
theorem user_restored (V : UserView B) (call : LibraryCall) :
    (∀ w : World σ, wp (call.program B) (fun _ w' => V.user w'.os = V.user w.os) (fun _ w' => V.user w'.os = V.user w.os) w) ∧
      ∀ w : World (σ × List UInt16), V.users (fileUser (call.storedUser w) (V.user w.os.1)) →
        wp (call.program V.logged)
          (fun _ w' => LogIs w.os.2 (fileUser (call.storedUser w) (V.user w.os.1)) w'.os.2)
          (fun _ w' => LogIs w.os.2 (fileUser (call.storedUser w) (V.user w.os.1)) w'.os.2) w := by
  constructor
  · intro w
    have htrivial : V.Allows (fileUser (call.storedUser w) (V.user w.os)) fun _ => True :=
      ⟨fun _ _ h => h, fun _ _ _ _ h => h, fun _ _ _ h => h, fun _ _ _ _ h => h, fun _ _ _ _ h => h,
        ⟨fun _ h => h, fun _ _ h => h, fun _ _ h => h, fun _ _ h => h, fun _ _ h => h, fun _ _ h => h⟩⟩
    exact wp_mono (call.wp_traced htrivial trivial) (fun _ _ h => h.1) (fun _ _ h => h.1)
  · intro w hknown
    exact wp_mono (call.wp_traced (V := V.viewLogged) (V.allows_logIs w.os.2 hknown) (LogIs.refl _ _)) (fun _ _ h => h.2)
      (fun _ _ h => h.2)

/-- The user number of the BDOS with its files in memory. -/
def memView : UserView memOsif where
  user := MemOs.user
  users := memStore.users
  isUser := memStore.isUser
  file := memStore.file_user
  bRead := memStore.read_user
  bWrite := memStore.write_user
  rename _ _ _ := rfl
  conin _ := rfl
  conout _ _ := rfl
  conio _ _ := rfl
  writestr _ _ := rfl
  conbuf _ _ := rfl
  lstout _ _ := rfl

/-- User 0 creates the file `A` of user 3: the user number is 3 when the BDOS deletes a file of that
name and when it makes the new one, and 0 after. -/
theorem user_restored_creat :
    let call : LibraryCall := .creat [0x33, 0x3a, 0x41] 1
    wp (call.program memOsif) (fun _ w' => w'.os.user = 0) (fun _ w' => w'.os.user = 0) (coldWorld emptyDisk) ∧
      wp (call.program memView.logged) (fun _ w' => LogIs [] 3 w'.os.2) (fun _ w' => LogIs [] 3 w'.os.2)
        (coldWorld (emptyDisk, [])) ∧
      (after (call.program memView.logged) (coldWorld (emptyDisk, []))).os.2 = [3, 3] := by
  have hrestored := user_restored memView (.creat [0x33, 0x3a, 0x41] 1)
  have huser : fileUser (LibraryCall.storedUser (coldWorld (emptyDisk, ([] : List UInt16))) (.creat [0x33, 0x3a, 0x41] 1)) 0 = 3 := by
    decide
  have hlog := hrestored.2 (coldWorld (emptyDisk, [])) (show _ ≤ 15 by decide)
  refine ⟨hrestored.1 (coldWorld emptyDisk), ?_, by decide⟩
  rw [← huser]
  exact hlog

end Cpm68k.Cpmlib
