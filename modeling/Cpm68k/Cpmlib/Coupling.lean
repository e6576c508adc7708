import Cpm68k.Cpmlib.Channels
import Cpm68k.Cpmlib.UserNumber
import Cpm68k.Library.Sync

/-!
# Two channels that keep step

The routines of an open channel, run with two operating systems. They differ only in what
the operating systems answer; so they keep step when these give the same answers.

## The model

`Lockstep B B' R` says what the routines rely on, when `R` relates their states: the control
blocks may differ in the file control block. `Coupled B B' r` is the case of the same control block.
`Bracketed B B' r q` says what is to be known of the two: `r` relates their states between
calls, and `q` while the user number is that of the file, between `_chkuser` and `_uchkuser`.
Nothing else of a channel may matter than what reading, writing and seeking leave alone
(`Ccb.fixed`): its fixed flags, its number, its user number, and the file that its file
control block names.

## What is proved

* `Lockstep.readFp`, `Lockstep.writeFp`, … — one lemma for each routine on a channel.
* `Bracketed.coupled` — what is to be shown of the operating systems for that.
* `coupled_of_keeps` — an invariant of the operating system alone.
* `UserCoupled.bracketed` — the same when all that is inside is the user number of the file.
* `keeps_of_sync`, `sync_of_keeps` — the case of one operating system, in one state.
-/

namespace Cpm68k.Cpmlib

open Cpm68k.Library

variable {σ σ' : Type} {B : Osif σ} {B' : Osif σ'} {r : Ccb → σ → σ' → Prop}

/-- The flags that are fixed when a channel is opened, and the channel number. -/
def Ccb.mode (fp : Ccb) : Flags × Int8 := ({ fp.flags with ATEOF := false, DIRTY := false }, fp.chan)

/-- What reading, writing and seeking leave alone. -/
def Ccb.fixed (fp : Ccb) : (Flags × Int8) × Int8 × FileId := (fp.mode, fp.user, fileId 0 fp.fcb)

/-- The same channel control block, and operating systems that `r` relates. -/
def IoRel (r : Ccb → σ → σ' → Prop) (s : Io σ) (t : Io σ') : Prop := t.fp = s.fp ∧ t.buff = s.buff ∧ r s.fp s.os t.os

/-- A BDOS function, called for the user number of the file. -/
def bracket (B : Osif σ) (bdosfunc : BdosFunc) : IoM σ UInt16 := do
  let xuser ← chkuserFp B
  let code ← osif B bdosfunc
  uchkuserFp B xuser
  pure code

/-- `FILSIZ`: the number of sectors of the file. -/
def fileSectors (B : Osif σ) : IoM σ ℤ := do
  let _ ← bracket B .FILSIZ
  setFp fun fp => { fp with fcb := { fp.fcb with record := fp.fcb.record % 0x1000000 } }
  let s ← get
  pure s.fp.fcb.record

theorem fileszDisk_eq : fileszDisk B = (do
    let sectors ← fileSectors B
    let s ← get
    if s.fp.flags.ISASCII = true then fileszAscii B (sectors - 1)
    else setFp fun fp => { fp with offset := (sectors - 1 + 1) * 128 }) := rfl

/-- `CLOSE`: whether it worked. -/
def closeOk (B : Osif σ) : IoM σ Bool := do
  let code ← bracket B .CLOSE
  pure (decide (code &&& 0xff ≠ 0xff))

theorem closeFcb_eq : closeFcb B = (do
    let s ← get
    let seccnt ← (if s.fp.flags.DIRTY = true then blkioWrite B s.fp.sector [s.fp.buffer] else pure 1)
    let ok ← closeOk B
    pure (decide (seccnt = 1 ∧ ok = true))) := by
  simp only [closeFcb, closeOk, bracket, bind_assoc, pure_bind, decide_eq_true_eq]

/-- What the two operating systems do for a channel. -/
structure Coupled (B : Osif σ) (B' : Osif σ') (r : Ccb → σ → σ' → Prop) : Prop where
  fixed : ∀ {fp fp' os os'}, r fp os os' → fp'.fixed = fp.fixed → r fp' os os'
  blkioRead : ∀ sector count, Sync (IoRel r) (blkioRead B sector count) (blkioRead B' sector count)
  blkioWrite : ∀ sector buffer, Sync (IoRel r) (blkioWrite B sector buffer) (blkioWrite B' sector buffer)
  bracket : ∀ bdosfunc, Sync (IoRel r) (bracket B bdosfunc) (bracket B' bdosfunc)
  ttyin : ∀ bytes s t, s.fp.flags.ISTTY = true → IoRel r s t → SyncAt (IoRel r) (ttyin B bytes) (ttyin B' bytes) s t
  wrtchr : ∀ data s t, s.fp.flags.ISTTY = true ∨ s.fp.flags.ISLPT = true ∨ s.fp.flags.ISQUE = true → IoRel r s t →
    SyncAt (IoRel r) (wrtchr B data) (wrtchr B' data) s t

/-- A change of the control block that has nothing to do with the file control block. -/
def BesideFcb (f : Ccb → Ccb) : Prop :=
  ∀ fp fcb, (f fp).fixed = fp.fixed ∧ f { fp with fcb := fcb } = { f fp with fcb := fcb }

/-- Two operating systems, and what relates the states of two programs on a channel: the control
blocks differ at most in the file control block, of which a program sees nothing but what it asks
for, and what these do keeps step. -/
structure Lockstep (B : Osif σ) (B' : Osif σ') (R : Io σ → Io σ' → Prop) : Prop where
  same : ∀ {s t}, R s t → t.fp = { s.fp with fcb := t.fp.fcb } ∧ t.buff = s.buff
  change : ∀ {f : Ccb → Ccb} {s t}, BesideFcb f → R s t → R { s with fp := f s.fp } { t with fp := f t.fp }
  append : ∀ bs {s t}, R s t → R { s with buff := s.buff ++ bs } { t with buff := t.buff ++ bs }
  blkioRead : ∀ sector count, Sync R (blkioRead B sector count) (blkioRead B' sector count)
  blkioWrite : ∀ sector buffer, Sync R (blkioWrite B sector buffer) (blkioWrite B' sector buffer)
  fileSectors : Sync R (fileSectors B) (fileSectors B')
  closeOk : Sync R (closeOk B) (closeOk B')
  ttyin : ∀ bytes s t, s.fp.flags.ISTTY = true → R s t → SyncAt R (ttyin B bytes) (ttyin B' bytes) s t
  wrtchr : ∀ data s t, s.fp.flags.ISTTY = true ∨ s.fp.flags.ISLPT = true ∨ s.fp.flags.ISQUE = true → R s t →
    SyncAt R (wrtchr B data) (wrtchr B' data) s t

/-- Looking at the state. -/
theorem sync_getIo {α : Type} {f : Io σ → IoM σ α} {f' : Io σ' → IoM σ' α}
    (h : ∀ s os', Sync (IoRel r) (f s) (f' ⟨s.fp, os', s.buff⟩)) : Sync (IoRel r) (get >>= f) (get >>= f') := by
  rintro s ⟨fp, os', buff⟩ ⟨rfl, rfl, hr⟩
  exact h s os' s _ ⟨rfl, rfl, hr⟩

theorem sync_orFailure {τ τ' : Type} {R : τ → τ' → Prop} {m : EStateM Errno τ ℤ} {m' : EStateM Errno τ' ℤ}
    (h : Sync R m m') : Sync R (orFailure m) (orFailure m') := by
  intro s t hst
  unfold orFailure
  cases (h s t hst).ends with
  | inl hok =>
    obtain ⟨n, s₁, t₁, hs, ht, hR⟩ := hok
    exact .of_ok (a := n) (by rw [hs]) (by rw [ht]) hR
  | inr herror =>
    obtain ⟨e, s₁, t₁, hs, ht, hR⟩ := herror
    exact .of_ok (a := -1) (by rw [hs]) (by rw [ht]) hR

/-- The attribute bit does not change the name. -/
theorem fileId_setF6 (v : UInt16) (fcbp : Fcb) : fileId v (setF6 fcbp) = fileId v fcbp := by
  have hmask : ∀ x : UInt8, (x ||| 0x80) &&& 0x7f = x &&& 0x7f := by
    intro x
    apply UInt8.eq_of_toBitVec_eq
    rw [UInt8.toBitVec_and, UInt8.toBitVec_or, BitVec.and_or_distrib_right]
    exact BitVec.or_zero
  unfold fileId setF6
  congr 1
  funext i
  simp only
  split_ifs
  · exact hmask _
  · rfl

/-- The same state of the same operating system, of which `P` holds. -/
def Diag (P : Ccb → σ → Prop) (fp : Ccb) (os os' : σ) : Prop := os' = os ∧ P fp os

theorem ioRel_diag {P : Ccb → σ → Prop} : IoRel (Diag P) = fun s t => t = s ∧ P s.fp s.os := by
  funext s t
  apply propext
  constructor
  · rintro ⟨hfp, hbuff, hos, hP⟩
    cases t
    cases s
    subst hfp hbuff hos
    exact ⟨rfl, hP⟩
  · rintro ⟨rfl, hP⟩
    exact ⟨rfl, rfl, rfl, hP⟩

theorem keeps_of_sync {P : Ccb → σ → Prop} {α : Type} {m : IoM σ α} (h : Sync (IoRel (Diag P)) m m) :
    Keeps (fun s => P s.fp s.os) m := by
  rw [ioRel_diag] at h
  exact h.keeps

theorem sync_of_keeps {P : Ccb → σ → Prop} {α : Type} {m : IoM σ α} (h : Keeps (fun s => P s.fp s.os) m) :
    Sync (IoRel (Diag P)) m m := by
  rw [ioRel_diag]
  exact .of_keeps h

namespace Lockstep

variable {R : Io σ → Io σ' → Prop} (h : Lockstep B B' R)

include h

/-- Looking at the state. -/
theorem look {α : Type} {f : Io σ → IoM σ α} {f' : Io σ' → IoM σ' α}
    (hf : ∀ s fcb os', Sync R (f s) (f' ⟨{ s.fp with fcb := fcb }, os', s.buff⟩)) : Sync R (get >>= f) (get >>= f') := by
  rintro s ⟨fp, os', buff⟩ hst
  obtain ⟨hfp, rfl⟩ := h.same hst
  have hsync := hf s fp.fcb os' s ⟨fp, os', s.buff⟩ hst
  rw [← hfp] at hsync
  exact hsync

theorem setFp {f : Ccb → Ccb} (hf : BesideFcb f) : Sync R (setFp f) (setFp f) := .modify fun _ _ hst => h.change hf hst

theorem store (bs : List UInt8) : Sync R (store bs) (store bs) := .modify fun _ _ hst => h.append bs hst

theorem setAteof : Sync R (setAteof : IoM σ PUnit) (setAteof : IoM σ' PUnit) := h.setFp fun _ _ => ⟨rfl, rfl⟩

theorem raiseHiwater : Sync R (raiseHiwater : IoM σ PUnit) (raiseHiwater : IoM σ' PUnit) :=
  h.setFp fun _ _ => by
    dsimp only
    split_ifs
    · exact ⟨rfl, rfl⟩
    · exact ⟨rfl, rfl⟩

theorem writeBuffer (sector : ℤ) : Sync R (writeBuffer B sector) (writeBuffer B' sector) :=
  h.look fun _ _ _ => .bind (h.blkioWrite _ _) fun _ => .whenever (.throw _)

theorem readBuffer (xsector : ℤ) : Sync R (readBuffer B xsector) (readBuffer B' xsector) := by
  refine .bind (h.blkioRead _ _) fun records => ?_
  split
  · exact .bind (h.setFp fun _ _ => ⟨rfl, rfl⟩) fun _ => .pure _
  · exact .pure _

/-- A sector that has to be there is read into the buffer. -/
theorem needBuffer (xsector : ℤ) :
    Sync R
      (do
        let found ← Cpmlib.readBuffer B xsector
        whenever (found = false) (throw Errno.EIO))
      (do
        let found ← Cpmlib.readBuffer B' xsector
        whenever (found = false) (throw Errno.EIO)) :=
  .bind (h.readBuffer _) fun _ => .whenever (.throw _)

theorem flush : Sync R (flush B) (flush B') :=
  h.look fun _ _ _ => .whenever (.bind (h.writeBuffer _) fun _ => h.setFp fun _ _ => ⟨rfl, rfl⟩)

theorem prepareBuffer (xsector : ℤ) : Sync R (prepareBuffer B xsector) (prepareBuffer B' xsector) :=
  h.look fun _ _ _ => .ite (h.setFp fun _ _ => ⟨rfl, rfl⟩) (h.needBuffer _)

/-! ### Reading -/

theorem rdbinBuffer (bytes : ℕ) : Sync R (rdbinBuffer B bytes) (rdbinBuffer B' bytes) := by
  refine h.look fun _ _ _ => .bind (.whenever (.bind h.flush fun _ => ?_)) fun _ => h.look fun _ _ _ =>
    .bind (h.store _) fun _ => .bind (h.setFp fun _ _ => ⟨rfl, rfl⟩) fun _ => .pure _
  exact .bind (h.readBuffer _) fun _ => .bind (.whenever (.throw _)) fun _ => h.setFp fun _ _ => ⟨rfl, rfl⟩

theorem rdbinTail (xbytes bytes : ℕ) (xsector : ℤ) :
    Sync R (rdbinTail B xbytes bytes xsector) (rdbinTail B' xbytes bytes xsector) := by
  refine .bind h.flush fun _ => .bind (h.readBuffer _) fun _ => .ite ?_ ?_
  · exact .bind h.setAteof fun _ => .pure _
  · exact .bind (h.setFp fun _ _ => ⟨rfl, rfl⟩) fun _ => h.look fun _ _ _ => .bind (h.store _) fun _ =>
      .bind h.raiseHiwater fun _ => .pure _

theorem rdbinSectors (xbytes bytes : ℕ) (xsector : ℤ) :
    Sync R (rdbinSectors B xbytes bytes xsector) (rdbinSectors B' xbytes bytes xsector) := by
  refine .bind (.ite (h.blkioRead _ _) (.pure _)) fun _ => .bind (h.setFp fun _ _ => ⟨rfl, rfl⟩) fun _ =>
    .bind (h.store _) fun _ => .bind h.raiseHiwater fun _ => .ite ?_ (.ite (.pure _) ?_)
  · exact .bind h.setAteof fun _ => .pure _
  · exact h.rdbinTail _ _ _

theorem rdbin (bytes : ℕ) : Sync R (rdbin B bytes) (rdbin B' bytes) := by
  refine h.look fun _ _ _ => .ite (.bind (h.rdbinBuffer _) fun _ => .ite ?_ ?_) ?_
  · exact .bind h.raiseHiwater fun _ => .pure _
  · exact h.rdbinSectors _ _ _
  · exact h.rdbinSectors _ _ _

theorem rdascSector : Sync R (rdascSector B) (rdascSector B') := by
  refine h.look fun _ _ _ => .ite (.bind h.flush fun _ => .bind (h.readBuffer _) fun _ => ?_) (.pure _)
  exact .ite (.bind h.setAteof fun _ => .pure _) (.bind (h.setFp fun _ _ => ⟨rfl, rfl⟩) fun _ => .pure _)

theorem rdascLoop (xbytes fuel bytes : ℕ) : Sync R (rdascLoop B xbytes fuel bytes) (rdascLoop B' xbytes fuel bytes) := by
  induction fuel generalizing bytes with
  | zero => exact .pure _
  | succ fuel ih =>
    refine .ite (.bind h.rdascSector fun _ => .ite (.pure _) ?_) ?_
    · refine h.look fun _ _ _ => .bind (h.store _) fun _ => .bind (h.setFp fun _ _ => ⟨rfl, rfl⟩) fun _ => .ite ?_ (ih _)
      exact .bind h.setAteof fun _ => .bind h.raiseHiwater fun _ => .pure _
    · exact .bind h.raiseHiwater fun _ => .pure _

/-- `read`. -/
theorem readFp (bytes : ℕ) : Sync R (readFp B bytes) (readFp B' bytes) := by
  refine .get fun s t hst => ?_
  have hflags : t.fp.flags = s.fp.flags := by rw [(h.same hst).1]
  rw [hflags]
  split_ifs with heof hlpt htty hascii
  · exact Sync.pure _ _ _ hst
  · exact Sync.throw _ _ _ hst
  · exact h.ttyin bytes _ _ htty hst
  · exact h.rdascLoop _ _ _ _ _ hst
  · exact h.rdbin _ _ _ hst

/-! ### Writing -/

theorem wrtbinClean (xsector : ℕ) : Sync R (wrtbinClean B xsector) (wrtbinClean B' xsector) :=
  h.look fun _ _ _ => .whenever (.bind (.whenever (h.writeBuffer _)) fun _ =>
    .bind (h.prepareBuffer _) fun _ => h.setFp fun _ _ => ⟨rfl, rfl⟩)

theorem wrtbinBuffer (xsector : ℕ) (data : List UInt8) :
    Sync R (wrtbinBuffer B xsector data) (wrtbinBuffer B' xsector data) := by
  refine h.look fun _ _ _ => .ite (.bind (h.setFp fun _ _ => ⟨rfl, rfl⟩) fun _ => .ite ?_ ?_) (.pure _)
  · exact .bind (h.setFp fun _ _ => ⟨rfl, rfl⟩) fun _ => .pure _
  · exact .bind (h.writeBuffer _) fun _ => .bind (h.setFp fun _ _ => ⟨rfl, rfl⟩) fun _ => .pure _

theorem wrtbinSectors (xsector nsector : ℕ) (data : List UInt8) :
    Sync R (wrtbinSectors B xsector nsector data) (wrtbinSectors B' xsector nsector data) :=
  .bind (h.blkioWrite _ _) fun _ => .bind (.whenever (.throw _)) fun _ => .bind (h.setFp fun _ _ => ⟨rfl, rfl⟩) fun _ =>
    .pure _

theorem wrtbinTail (xsector : ℕ) (data : List UInt8) :
    Sync R (wrtbinTail B xsector data) (wrtbinTail B' xsector data) :=
  .whenever (.bind (h.prepareBuffer _) fun _ => h.setFp fun _ _ => ⟨rfl, rfl⟩)

theorem wrtbinRest (xsector : ℕ) (data : List UInt8) :
    Sync R (wrtbinRest B xsector data) (wrtbinRest B' xsector data) :=
  .ite (.bind (h.wrtbinSectors _ _ _) fun _ => h.wrtbinTail _ _) (h.wrtbinTail _ _)

theorem wrtbin (data : List UInt8) : Sync R (wrtbin B data) (wrtbin B' data) :=
  h.look fun _ _ _ => .bind (h.wrtbinClean _) fun _ => .bind (h.wrtbinBuffer _ _) fun _ =>
    .bind (h.wrtbinRest _ _) fun _ => .bind h.raiseHiwater fun _ => .pure _

theorem wrtascSector (xsector : ℤ) : Sync R (wrtascSector B xsector) (wrtascSector B' xsector) :=
  h.look fun _ _ _ => .whenever (.bind h.flush fun _ => .bind (.whenever (h.needBuffer _)) fun _ =>
    h.setFp fun _ _ => ⟨rfl, rfl⟩)

theorem wrtascPut (xsector : ℤ) (pos : ℕ) (put : List UInt8) :
    Sync R (wrtascPut B xsector pos put) (wrtascPut B' xsector pos put) := by
  refine .bind (h.setFp fun _ _ => ⟨rfl, rfl⟩) fun _ => h.look fun _ _ _ => .ite ?_ ?_
  · exact .bind (h.blkioWrite _ _) fun _ => .pure _
  · exact .bind (h.setFp fun _ _ => ⟨rfl, rfl⟩) fun _ => .pure _

theorem wrtascLoop (written fuel : ℕ) (cc : UInt8) (data : List UInt8) :
    Sync R (wrtascLoop B written fuel cc data) (wrtascLoop B' written fuel cc data) := by
  induction fuel generalizing cc data with
  | zero => exact .pure _
  | succ fuel ih =>
    refine .ite (h.look fun _ _ _ => .bind (h.wrtascSector _) fun _ => ?_) (.pure _)
    refine .bind (h.wrtascPut _ _ _) fun _ => .ite (.pure _) (.ite ?_ (ih _ _))
    exact .bind h.raiseHiwater fun _ => .pure _

/-- `write`. -/
theorem writeFp (data : List UInt8) : Sync R (writeFp B data) (writeFp B' data) := by
  refine .get fun s t hst => ?_
  have hflags : t.fp.flags = s.fp.flags := by rw [(h.same hst).1]
  rw [hflags]
  split_ifs with hlen hread hdev hascii
  · exact Sync.pure _ _ _ hst
  · exact Sync.throw _ _ _ hst
  · exact h.wrtchr data _ _ hdev hst
  · exact h.wrtascLoop _ _ _ _ _ _ hst
  · exact h.wrtbin _ _ _ hst

/-! ### Seeking, and the end of the file -/

theorem fileszAscii (xsector : ℤ) : Sync R (fileszAscii B xsector) (fileszAscii B' xsector) := by
  refine h.look fun _ _ _ => .ite (.bind (.whenever ?_) fun _ => h.setFp fun _ _ => ⟨rfl, rfl⟩)
    (h.setFp fun _ _ => ⟨rfl, rfl⟩)
  exact .bind h.flush fun _ => h.needBuffer _

theorem fileszDisk : Sync R (fileszDisk B) (fileszDisk B') := by
  rw [fileszDisk_eq, fileszDisk_eq]
  exact .bind h.fileSectors fun _ => h.look fun _ _ _ => .ite (h.fileszAscii _) (h.setFp fun _ _ => ⟨rfl, rfl⟩)

theorem fileszFp : Sync R (fileszFp B) (fileszFp B') :=
  h.look fun _ _ _ => .ite (.pure _) (.bind (.ite (h.setFp fun _ _ => ⟨rfl, rfl⟩) h.fileszDisk) fun _ =>
    .bind (h.setFp fun _ _ => ⟨rfl, rfl⟩) fun _ => h.look fun _ _ _ => .pure _)

/-- `lseek`. -/
theorem lseekFp (offs sense : ℤ) : Sync R (lseekFp B offs sense) (lseekFp B' offs sense) := by
  refine .bind (.ite (h.setFp fun _ _ => ⟨rfl, rfl⟩) (.ite (h.setFp fun _ _ => ⟨rfl, rfl⟩) (.ite ?_ (.throw _))))
    fun _ => ?_
  · exact .bind (sync_orFailure h.fileszFp) fun _ => h.setFp fun _ _ => ⟨rfl, rfl⟩
  · exact .bind (h.setFp fun _ _ => ⟨rfl, rfl⟩) fun _ => h.look fun _ _ _ => .pure _

/-- `fstat`. -/
theorem fstatFp : Sync R (fstatFp B) (fstatFp B') :=
  h.look fun _ _ _ => .ite (.pure _) (.bind (sync_orFailure h.fileszFp) fun _ =>
    .bind (h.setFp fun _ _ => ⟨rfl, rfl⟩) fun _ => .pure _)

/-- What `close` does with the file control block. -/
theorem closeFcb : Sync R (closeFcb B) (closeFcb B') := by
  rw [closeFcb_eq, closeFcb_eq]
  exact h.look fun _ _ _ => .bind (.ite (h.blkioWrite _ _) (.pure _)) fun _ => .bind h.closeOk fun _ => .pure _

end Lockstep

namespace Coupled

variable (h : Coupled B B' r)

include h

theorem setFp {f : Ccb → Ccb} (hf : ∀ fp, (f fp).fixed = fp.fixed) : Sync (IoRel r) (setFp f) (setFp f) := by
  refine .modify ?_
  rintro s ⟨fp, os', buff⟩ ⟨rfl, rfl, hr⟩
  exact ⟨rfl, rfl, h.fixed hr (hf _)⟩

/-- The control blocks are the same, and `r` relates the operating systems. -/
theorem lockstep : Lockstep B B' (IoRel r) where
  same := by
    rintro s ⟨fp, os', buff⟩ ⟨rfl, rfl, -⟩
    exact ⟨rfl, rfl⟩
  change hf hst := ⟨congrArg _ hst.1, hst.2.1, h.fixed hst.2.2 (hf _ Fcb.zero).1⟩
  append bs _ _ hst := ⟨hst.1, congrArg (· ++ bs) hst.2.1, hst.2.2⟩
  blkioRead := h.blkioRead
  blkioWrite := h.blkioWrite
  fileSectors := .bind (h.bracket _) fun _ => .bind (h.setFp fun _ => rfl) fun _ => by
    refine .get ?_
    rintro s ⟨fp, os', buff⟩ ⟨rfl, rfl, hr⟩
    exact ⟨rfl, rfl, rfl, hr⟩
  closeOk := .bind (h.bracket _) fun _ => .pure _
  ttyin := h.ttyin
  wrtchr := h.wrtchr

theorem readFp (bytes : ℕ) : Sync (IoRel r) (readFp B bytes) (readFp B' bytes) := h.lockstep.readFp bytes

theorem writeFp (data : List UInt8) : Sync (IoRel r) (writeFp B data) (writeFp B' data) := h.lockstep.writeFp data

theorem lseekFp (offs sense : ℤ) : Sync (IoRel r) (lseekFp B offs sense) (lseekFp B' offs sense) :=
  h.lockstep.lseekFp offs sense

theorem fstatFp : Sync (IoRel r) (fstatFp B) (fstatFp B') := h.lockstep.fstatFp

theorem closeFcb : Sync (IoRel r) (closeFcb B) (closeFcb B') := h.lockstep.closeFcb

end Coupled

/-! ### What is to be shown of the operating systems -/

theorem readLoop_total (sector : ℤ) (count : ℕ) (s : Io σ) : ∃ l s', readLoop B sector count s = .ok l s' := by
  have hloop : Raises (fun _ => False) (readLoop B sector count) := by
    induction count generalizing sector with
    | zero => exact .pure _
    | succ count ih =>
      refine .bind (.modify _) fun _ => .bind (.of_ok fun _ => ⟨_, _, rfl⟩) fun retcode => ?_
      cases retcode with
      | error code => exact .pure _
      | ok record => exact .bind (ih _) fun _ => .pure _
  obtain ⟨l, s', hr, -⟩ := exists_of_wp (hloop s)
  exact ⟨l, s', hr⟩

theorem writeLoop_total (sector : ℤ) (buffer : List Sector) (s : Io σ) : ∃ n s', writeLoop B sector buffer s = .ok n s' := by
  have hloop : Raises (fun _ => False) (writeLoop B sector buffer) := by
    induction buffer generalizing sector with
    | nil => exact .pure _
    | cons record buffer ih =>
      refine .bind (.modify _) fun _ => .bind (.of_ok fun _ => ⟨_, _, rfl⟩) fun retcode => ?_
      exact .ite (.pure _) (.bind (ih _) fun _ => .pure _)
  obtain ⟨n, s', hr, -⟩ := exists_of_wp (hloop s)
  exact ⟨n, s', hr⟩

/-- Between calls the operating systems are related by `r`, and while the user number is that
of the file, after `_chkuser` gave `xuser`, by `q`. -/
structure Bracketed (B : Osif σ) (B' : Osif σ') (r : Ccb → σ → σ' → Prop) (q : Ccb → Int16 → σ → σ' → Prop) : Prop where
  fixed : ∀ {fp fp' os os'}, r fp os os' → fp'.fixed = fp.fixed → r fp' os os'
  inside : ∀ {fp fp' xuser os os'}, q fp xuser os os' → fp'.fixed = fp.fixed → q fp' xuser os os'
  enter : ∀ {fp os os'}, r fp os os' →
    (chkuser B' fp.user.toInt16 os').1 = (chkuser B fp.user.toInt16 os).1 ∧
      q fp (chkuser B fp.user.toInt16 os).1 (chkuser B fp.user.toInt16 os).2 (chkuser B' fp.user.toInt16 os').2
  leave : ∀ {fp xuser os os'}, q fp xuser os os' →
    r fp (uchkuser B fp.user.toInt16 xuser os) (uchkuser B' fp.user.toInt16 xuser os')
  file : ∀ {fp xuser os os'} (g : BdosFunc), q fp xuser os os' →
    (B'.file g fp.fcb os').1 = (B.file g fp.fcb os).1 ∧ (B'.file g fp.fcb os').2.1 = (B.file g fp.fcb os).2.1 ∧
      q { fp with fcb := (B.file g fp.fcb os).2.1 } xuser (B.file g fp.fcb os).2.2 (B'.file g fp.fcb os').2.2
  bRead : ∀ {fp xuser os os'}, q fp xuser os os' →
    (B'.bRead fp.fcb os').1 = (B.bRead fp.fcb os).1 ∧ (B'.bRead fp.fcb os').2.1 = (B.bRead fp.fcb os).2.1 ∧
      q { fp with fcb := (B.bRead fp.fcb os).2.1 } xuser (B.bRead fp.fcb os).2.2 (B'.bRead fp.fcb os').2.2
  bWrite : ∀ {fp xuser os os'} (record : Sector), q fp xuser os os' →
    (B'.bWrite fp.fcb record os').1 = (B.bWrite fp.fcb record os).1 ∧
      (B'.bWrite fp.fcb record os').2.1 = (B.bWrite fp.fcb record os).2.1 ∧
      q { fp with fcb := (B.bWrite fp.fcb record os).2.1 } xuser (B.bWrite fp.fcb record os).2.2
        (B'.bWrite fp.fcb record os').2.2

namespace Bracketed

variable {q : Ccb → Int16 → σ → σ' → Prop} (h : Bracketed B B' r q)

include h

theorem setRecord (xuser : Int16) (sector : ℤ) :
    Sync (IoRel fun fp => q fp xuser) (setFp fun fp => { fp with fcb := { fp.fcb with record := sector } })
      (setFp fun fp => { fp with fcb := { fp.fcb with record := sector } }) := by
  refine .modify ?_
  rintro s ⟨fp, os', buff⟩ ⟨rfl, rfl, hq⟩
  exact ⟨rfl, rfl, h.inside hq rfl⟩

theorem readLoop (xuser : Int16) (sector : ℤ) (count : ℕ) :
    Sync (IoRel fun fp => q fp xuser) (readLoop B sector count) (readLoop B' sector count) := by
  induction count generalizing sector with
  | zero => exact .pure _
  | succ count ih =>
    refine .bind (h.setRecord _ _) fun _ => .bind ?_ fun retcode => ?_
    · rintro s ⟨fp, os', buff⟩ ⟨rfl, rfl, hq⟩
      obtain ⟨hcode, hfcb, hq'⟩ := h.bRead hq
      exact ⟨hcode, congrArg (fun fcb => { s.fp with fcb := fcb }) hfcb, rfl, hq'⟩
    · cases retcode with
      | error code => exact .pure _
      | ok record => exact .bind (ih _) fun _ => .pure _

theorem writeLoop (xuser : Int16) (sector : ℤ) (buffer : List Sector) :
    Sync (IoRel fun fp => q fp xuser) (writeLoop B sector buffer) (writeLoop B' sector buffer) := by
  induction buffer generalizing sector with
  | nil => exact .pure _
  | cons record buffer ih =>
    refine .bind (h.setRecord _ _) fun _ => .bind ?_ fun retcode => .ite (.pure _) (.bind (ih _) fun _ => .pure _)
    rintro s ⟨fp, os', buff⟩ ⟨rfl, rfl, hq⟩
    obtain ⟨hcode, hfcb, hq'⟩ := h.bWrite record hq
    exact ⟨hcode, congrArg (fun fcb => { s.fp with fcb := fcb }) hfcb, rfl, hq'⟩

theorem osif (xuser : Int16) (g : BdosFunc) : Sync (IoRel fun fp => q fp xuser) (osif B g) (osif B' g) := by
  rintro s ⟨fp, os', buff⟩ ⟨rfl, rfl, hq⟩
  obtain ⟨hcode, hfcb, hq'⟩ := h.file g hq
  exact ⟨hcode, congrArg (fun fcb => { s.fp with fcb := fcb }) hfcb, rfl, hq'⟩

/-- The user number is changed and put back around what keeps step in between and has no
exceptions. -/
theorem around {α : Type} {m : IoM σ α} {m' : IoM σ' α} (hm : ∀ xuser, Sync (IoRel fun fp => q fp xuser) m m')
    (hok : ∀ s, ∃ a s', m s = .ok a s') :
    Sync (IoRel r)
      (do
        let xuser ← chkuserFp B
        let a ← m
        uchkuserFp B xuser
        pure a)
      (do
        let xuser ← chkuserFp B'
        let a ← m'
        uchkuserFp B' xuser
        pure a) := by
  rintro s ⟨fp, os', buff⟩ ⟨rfl, rfl, hr⟩
  obtain ⟨hx, hq⟩ := h.enter hr
  have hin := hm _ ⟨s.fp, (chkuser B s.fp.user.toInt16 s.os).2, s.buff⟩ ⟨s.fp, (chkuser B' s.fp.user.toInt16 os').2, s.buff⟩
    ⟨rfl, rfl, hq⟩
  have hx' : (chkuser B' s.fp.user.toInt16 os').1 = (chkuser B s.fp.user.toInt16 s.os).1 := hx
  obtain ⟨a, s₁, hs⟩ := hok ⟨s.fp, (chkuser B s.fp.user.toInt16 s.os).2, s.buff⟩
  unfold SyncAt at hin ⊢
  simp only [bind, EStateM.bind, chkuserFp, hx', hs]
  rw [hs] at hin
  cases ht : m' ⟨s.fp, (chkuser B' s.fp.user.toInt16 os').2, s.buff⟩ <;> rw [ht] at hin
  · rename_i a' t
    obtain ⟨rfl, hfp, hbuff, hq'⟩ := hin
    refine ⟨rfl, hfp, hbuff, ?_⟩
    have hleave := h.leave hq'
    simp only [hfp]
    exact hleave
  · exact hin.elim

/-- What `__open` does between the parse and the return. -/
theorem openCall (bdosfunc : BdosFunc) : Sync (IoRel r) (openCall B bdosfunc) (openCall B' bdosfunc) := by
  have hprog : ∀ {σ : Type} (B : Osif σ), Cpmlib.openCall B bdosfunc = (do
      let xuser ← chkuserFp B
      let rv ← (do
        whenever (bdosfunc = .CREATE) do
          let _ ← Cpmlib.osif B .DELETE
          pure ⟨⟩
        let s ← get
        whenever (bdosfunc = .OPEN ∧ s.fp.flags.ISREAD = true) (setFp fun fp => { fp with fcb := setF6 fp.fcb })
        Cpmlib.osif B bdosfunc)
      uchkuserFp B xuser
      pure rv) := by
    intro σ B
    simp only [Cpmlib.openCall, bind_assoc]
  rw [hprog, hprog]
  refine h.around (fun xuser => ?_) fun s => ?_
  · refine .bind (.whenever (.bind (h.osif _ _) fun _ => .pure _)) fun _ => sync_getIo fun s _ =>
      .bind (.whenever ?_) fun _ => h.osif _ _
    refine .modify ?_
    rintro s ⟨fp, os', buff⟩ ⟨rfl, rfl, hq⟩
    refine ⟨rfl, rfl, h.inside hq ?_⟩
    exact congrArg (fun f => (s.fp.mode, s.fp.user, f)) (fileId_setF6 0 s.fp.fcb)
  · have hok : Raises (fun _ => False) (do
        whenever (bdosfunc = .CREATE) do
          let _ ← Cpmlib.osif B .DELETE
          pure ⟨⟩
        let s ← get
        whenever (bdosfunc = .OPEN ∧ s.fp.flags.ISREAD = true) (setFp fun fp => { fp with fcb := setF6 fp.fcb })
        Cpmlib.osif B bdosfunc) :=
      .bind (.whenever (.bind (.of_ok fun _ => ⟨_, _, rfl⟩) fun _ => .pure _)) fun _ => .bind .get fun _ =>
        .bind (.whenever (.modify _)) fun _ => .of_ok fun _ => ⟨_, _, rfl⟩
    obtain ⟨rv, s', hr, -⟩ := exists_of_wp (hok s)
    exact ⟨rv, s', hr⟩

/-- **Channels keep step** when the operating systems do, inside and outside of the change
of the user number. -/
theorem coupled
    (ttyin : ∀ bytes s t, s.fp.flags.ISTTY = true → IoRel r s t → SyncAt (IoRel r) (ttyin B bytes) (ttyin B' bytes) s t)
    (wrtchr : ∀ data s t, s.fp.flags.ISTTY = true ∨ s.fp.flags.ISLPT = true ∨ s.fp.flags.ISQUE = true → IoRel r s t →
      SyncAt (IoRel r) (wrtchr B data) (wrtchr B' data) s t) : Coupled B B' r where
  fixed := h.fixed
  blkioRead sector count := h.around (fun xuser => h.readLoop xuser sector count) (readLoop_total sector count)
  blkioWrite sector buffer := h.around (fun xuser => h.writeLoop xuser sector buffer) (writeLoop_total sector buffer)
  bracket g := h.around (fun xuser => h.osif xuser g) fun _ => ⟨_, _, rfl⟩
  ttyin := ttyin
  wrtchr := wrtchr

end Bracketed

/-- The user number is that of the file of the channel, if there is such a user. -/
def UserOf (users : UInt16 → Prop) (user : σ → UInt16) (c : UInt16) (fp : Ccb) (os : σ) : Prop :=
  users (fileUser fp.user c) → user os = fileUser fp.user c

/-- Two operating systems with the user number `c` between calls. `ρ` relates the rest of
what is to be known of them: changing the user number does not touch it, and the functions
on files, called for the user number of the file, keep it and answer alike. -/
structure UserCoupled (B : Osif σ) (B' : Osif σ') (users : UInt16 → Prop) (user : σ → UInt16) (user' : σ' → UInt16) (c : UInt16)
    (ρ : Ccb → σ → σ' → Prop) : Prop where
  left : IsUser B users user
  right : IsUser B' users user'
  known : users c
  fixed : ∀ {fp fp' os os'}, ρ fp os os' → fp'.fixed = fp.fixed → ρ fp' os os'
  setUser : ∀ {fp os os'} (n : UInt16), ρ fp os os' → ρ fp (B.user n os).2 (B'.user n os').2
  file : ∀ {fp os os'} (g : BdosFunc), UserOf users user c fp os → UserOf users user' c fp os' → ρ fp os os' →
    (B'.file g fp.fcb os').1 = (B.file g fp.fcb os).1 ∧ (B'.file g fp.fcb os').2.1 = (B.file g fp.fcb os).2.1 ∧
      user (B.file g fp.fcb os).2.2 = user os ∧ user' (B'.file g fp.fcb os').2.2 = user' os' ∧
      ρ { fp with fcb := (B.file g fp.fcb os).2.1 } (B.file g fp.fcb os).2.2 (B'.file g fp.fcb os').2.2
  bRead : ∀ {fp os os'}, UserOf users user c fp os → UserOf users user' c fp os' → ρ fp os os' →
    (B'.bRead fp.fcb os').1 = (B.bRead fp.fcb os).1 ∧ (B'.bRead fp.fcb os').2.1 = (B.bRead fp.fcb os).2.1 ∧
      user (B.bRead fp.fcb os).2.2 = user os ∧ user' (B'.bRead fp.fcb os').2.2 = user' os' ∧
      ρ { fp with fcb := (B.bRead fp.fcb os).2.1 } (B.bRead fp.fcb os).2.2 (B'.bRead fp.fcb os').2.2
  bWrite : ∀ {fp os os'} (record : Sector), UserOf users user c fp os → UserOf users user' c fp os' → ρ fp os os' →
    (B'.bWrite fp.fcb record os').1 = (B.bWrite fp.fcb record os).1 ∧
      (B'.bWrite fp.fcb record os').2.1 = (B.bWrite fp.fcb record os).2.1 ∧
      user (B.bWrite fp.fcb record os).2.2 = user os ∧ user' (B'.bWrite fp.fcb record os').2.2 = user' os' ∧
      ρ { fp with fcb := (B.bWrite fp.fcb record os).2.1 } (B.bWrite fp.fcb record os).2.2 (B'.bWrite fp.fcb record os').2.2

/-- Outside, the user number is `c`. -/
structure Outside (user : σ → UInt16) (user' : σ' → UInt16) (c : UInt16) (ρ : Ccb → σ → σ' → Prop) (fp : Ccb) (os : σ)
    (os' : σ') : Prop where
  left : user os = c
  right : user' os' = c
  rel : ρ fp os os'

/-- Inside, it is that of the file, and `xuser` is what `_chkuser` returned. -/
structure Inside (users : UInt16 → Prop) (user : σ → UInt16) (user' : σ' → UInt16) (c : UInt16) (ρ : Ccb → σ → σ' → Prop)
    (fp : Ccb) (xuser : Int16) (os : σ) (os' : σ') : Prop where
  left : UserOf users user c fp os
  right : UserOf users user' c fp os'
  xuser : xuser = prevUser fp.user c
  rel : ρ fp os os'

theorem outside_diag {user : σ → UInt16} {c : UInt16} {P : Ccb → σ → Prop} :
    Outside user user c (Diag P) = Diag fun fp os => user os = c ∧ P fp os := by
  funext fp os os'
  apply propext
  constructor
  · rintro ⟨hl, -, rfl, hP⟩
    exact ⟨rfl, hl, hP⟩
  · rintro ⟨rfl, hl, hP⟩
    exact ⟨hl, hl, rfl, hP⟩

theorem user_of_fixed {fp fp' : Ccb} (h : fp'.fixed = fp.fixed) : fp'.user = fp.user := congrArg (fun x => x.2.1) h

theorem UserOf.of_fixed {users : UInt16 → Prop} {user : σ → UInt16} {c : UInt16} {fp fp' : Ccb} {os : σ}
    (h : UserOf users user c fp os) (hfixed : fp'.fixed = fp.fixed) : UserOf users user c fp' os := by
  unfold UserOf at h ⊢
  rw [user_of_fixed hfixed]
  exact h

/-- `_chkuser` makes the user number that of the file. -/
theorem IsUser.userOf_chkuser {users : UInt16 → Prop} {user : σ → UInt16} (h : IsUser B users user) {fp : Ccb} {os : σ} {c : UInt16}
    (hc : user os = c) : UserOf users user c fp (chkuser B fp.user.toInt16 os).2 := by
  rw [UserOf, ← hc]
  exact h.user_chkuser

theorem UserCoupled.bracketed {users : UInt16 → Prop} {user : σ → UInt16} {user' : σ' → UInt16} {c : UInt16}
    {ρ : Ccb → σ → σ' → Prop} (h : UserCoupled B B' users user user' c ρ) :
    Bracketed B B' (Outside user user' c ρ) (Inside users user user' c ρ) where
  fixed hr hfixed := ⟨hr.left, hr.right, h.fixed hr.rel hfixed⟩
  inside hq hfixed := by
    obtain ⟨hl, hr, hx, hρ⟩ := hq
    rw [← user_of_fixed hfixed] at hx
    exact ⟨hl.of_fixed hfixed, hr.of_fixed hfixed, hx, h.fixed hρ hfixed⟩
  enter {fp os os'} hr := by
    obtain ⟨hl, hr, hρ⟩ := hr
    have hget : (B'.user 0xff os').1 = (B.user 0xff os).1 := by rw [(h.right.get os').1, (h.left.get os).1, hl, hr]
    refine ⟨?_, ⟨h.left.userOf_chkuser hl, h.right.userOf_chkuser hr, ?_, ?_⟩⟩
    · rw [h.left.chkuser_fst, h.right.chkuser_fst, hl, hr]
    · rw [h.left.chkuser_fst, hl]
    · exact chkuser_rel (fun n _ _ => h.setUser n) hget hρ
  leave {fp xuser os os'} hq := by
    obtain ⟨hl, hr, rfl, hρ⟩ := hq
    exact ⟨h.left.user_uchkuser _ h.known hl, h.right.user_uchkuser _ h.known hr, uchkuser_rel (fun n _ _ => h.setUser n) hρ⟩
  file g hq := by
    obtain ⟨hcode, hfcb, hl, hr, hρ⟩ := h.file g hq.left hq.right hq.rel
    exact ⟨hcode, hfcb, fun hu => hl.trans (hq.left hu), fun hu => hr.trans (hq.right hu), hq.xuser, hρ⟩
  bRead hq := by
    obtain ⟨hcode, hfcb, hl, hr, hρ⟩ := h.bRead hq.left hq.right hq.rel
    exact ⟨hcode, hfcb, fun hu => hl.trans (hq.left hu), fun hu => hr.trans (hq.right hu), hq.xuser, hρ⟩
  bWrite record hq := by
    obtain ⟨hcode, hfcb, hl, hr, hρ⟩ := h.bWrite record hq.left hq.right hq.rel
    exact ⟨hcode, hfcb, fun hu => hl.trans (hq.left hu), fun hu => hr.trans (hq.right hu), hq.xuser, hρ⟩

/-- What all functions of the BDOS keep is kept by the routines of a channel. -/
theorem coupled_of_keeps {P : σ → Prop} (huser : ∀ n os, P os → P (B.user n os).2)
    (hfile : ∀ g fcb os, P os → P (B.file g fcb os).2.2) (hread : ∀ fcb os, P os → P (B.bRead fcb os).2.2)
    (hwrite : ∀ fcb record os, P os → P (B.bWrite fcb record os).2.2) (hconsole : ConsoleKeeps B P) :
    Coupled B B (Diag fun _ os => P os) := by
  have hbracketed : Bracketed B B (Diag fun _ os => P os) fun fp _ => Diag (fun _ os => P os) fp :=
    { fixed := fun h _ => h
      inside := fun h _ => h
      enter := by
        rintro fp os _ ⟨rfl, hos⟩
        exact ⟨rfl, rfl, chkuser_keeps huser hos⟩
      leave := by
        rintro fp xuser os _ ⟨rfl, hos⟩
        exact ⟨rfl, uchkuser_keeps huser hos⟩
      file := by
        rintro fp xuser os _ g ⟨rfl, hos⟩
        exact ⟨rfl, rfl, rfl, hfile _ _ _ hos⟩
      bRead := by
        rintro fp xuser os _ ⟨rfl, hos⟩
        exact ⟨rfl, rfl, rfl, hread _ _ hos⟩
      bWrite := by
        rintro fp xuser os _ record ⟨rfl, hos⟩
        exact ⟨rfl, rfl, rfl, hwrite _ _ _ hos⟩ }
  exact hbracketed.coupled
    (fun bytes s t _ h => sync_of_keeps (keeps_ttyin (fun _ => hconsole) (fun _ _ h => h) bytes) s t h)
    fun data s t _ h => sync_of_keeps (keeps_wrtchr (fun _ => hconsole) data) s t h

end Cpm68k.Cpmlib
