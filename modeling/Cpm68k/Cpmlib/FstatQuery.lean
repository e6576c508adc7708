import Cpm68k.Cpmlib.TwoChannels

/-!
# `fstat` as a query

`fstat` calls `_filesz`, which moves the offset, sets the high water mark and the end of file flag,
and for an ASCII file reads the last sector into the buffer. Only the offset is put back.

## The model

* `Asks B` says of the BDOS `B` that asking changes nothing, and that of a file control block only
  the name and the record number matter.
* `Twin` relates two states of a channel that differ in the file control block only, and name the
  same file.
* `FstatUnseen` says that no calls after it show whether `fstat` was called.

## What is proved

* `lockstep_twin` — a routine on the channel answers the same in both.
* `runOn_twin` — so do all calls, on this channel and others.
* `fstat_unseen` — when `fstat` makes no difference to what follows.
-/

namespace Cpm68k.Cpmlib

open Cpm68k.Library

variable {σ : Type} {B : Osif σ}

/-- Two file control blocks of the same file. -/
def SameName (fcb fcb' : Fcb) : Prop := fileId 0 fcb' = fileId 0 fcb

/-- A BDOS that can be asked: getting the user number, the size of a file or a record changes
nothing, nor does setting the user number and putting it back. What it answers and does depends on
the name in the file control block and, for a record, on its number. -/
structure Asks (B : Osif σ) : Prop where
  user_get : ∀ os, (B.user 0xff os).2 = os
  user_back : ∀ n os, n ≠ 0xff → (B.user (B.user 0xff os).1 (B.user n os).2).2 = os
  size : ∀ fcb os, SameName fcb (B.file .FILSIZ fcb os).2.1 ∧ (B.file .FILSIZ fcb os).2.2 = os
  size_name : ∀ {fcb fcb'} os, SameName fcb fcb' →
    (B.file .FILSIZ fcb' os).2.1.record % 0x1000000 = (B.file .FILSIZ fcb os).2.1.record % 0x1000000
  close : ∀ fcb os, SameName fcb (B.file .CLOSE fcb os).2.1
  close_name : ∀ {fcb fcb'} os, SameName fcb fcb' →
    (B.file .CLOSE fcb' os).1 = (B.file .CLOSE fcb os).1 ∧ (B.file .CLOSE fcb' os).2.2 = (B.file .CLOSE fcb os).2.2
  read : ∀ fcb os, SameName fcb (B.bRead fcb os).2.1
  read_name : ∀ {fcb fcb'} os, SameName fcb fcb' → fcb'.record = fcb.record →
    (B.bRead fcb' os).1 = (B.bRead fcb os).1 ∧ (B.bRead fcb' os).2.2 = (B.bRead fcb os).2.2
  write : ∀ fcb r os, SameName fcb (B.bWrite fcb r os).2.1
  write_name : ∀ {fcb fcb'} r os, SameName fcb fcb' → fcb'.record = fcb.record →
    (B.bWrite fcb' r os).1 = (B.bWrite fcb r os).1 ∧ (B.bWrite fcb' r os).2.2 = (B.bWrite fcb r os).2.2

/-- The file control block of a channel after `FILSIZ`. -/
def sizedFcb (B : Osif σ) (fp : Ccb) (os : σ) : Fcb :=
  let fcb := (B.file .FILSIZ fp.fcb (chkuser B fp.user.toInt16 os).2).2.1
  { fcb with record := fcb.record % 0x1000000 }

/-- How many sectors the file of a channel has, as `FILSIZ` says. -/
def sectorCount (B : Osif σ) (fp : Ccb) (os : σ) : ℤ := (sizedFcb B fp os).record

/-! ### Twins -/

/-- Two states of a channel that is on no device. They differ in the file control block only, and
that names the same file. -/
structure Twin (s t : Io σ) : Prop where
  same : t.fp = { s.fp with fcb := t.fp.fcb }
  name : SameName s.fp.fcb t.fp.fcb
  buff : t.buff = s.buff
  os : t.os = s.os
  file : s.fp.flags.ISTTY = false ∧ s.fp.flags.ISLPT = false

theorem SameName.refl (fcb : Fcb) : SameName fcb fcb := rfl

/-- The name does not change, in either. -/
theorem SameName.steps {a a' b b' : Fcb} (h : SameName a b) (ha : SameName a a') (hb : SameName b b') : SameName a' b' :=
  hb.trans (h.trans ha.symm)

/-- Both states get a file control block and a state of the BDOS. -/
theorem Twin.step {s t : Io σ} (h : Twin s t) {fcb fcb' : Fcb} {os os' : σ} (hfcb : SameName s.fp.fcb fcb)
    (hfcb' : SameName t.fp.fcb fcb') (hos : os' = os) :
    Twin ⟨{ s.fp with fcb := fcb }, os, s.buff⟩ ⟨{ t.fp with fcb := fcb' }, os', t.buff⟩ := by
  refine ⟨?_, h.name.steps hfcb hfcb', h.buff, hos, h.file⟩
  rw [h.same]

section

variable (hB : Asks B)

include hB

/-- Asking a record. -/
theorem twin_readRecord (sector : ℤ) :
    Sync Twin
      (do
        setFp fun fp => { fp with fcb := { fp.fcb with record := sector } }
        osifRead B : IoM σ (Except UInt16 Sector))
      (do
        setFp fun fp => { fp with fcb := { fp.fcb with record := sector } }
        osifRead B) := by
  rintro s ⟨fp, os, buff⟩ h
  obtain rfl : os = s.os := h.os
  have hname : SameName { s.fp.fcb with record := sector } { fp.fcb with record := sector } := h.name
  obtain ⟨hcode, hos⟩ := hB.read_name s.os hname rfl
  exact ⟨hcode, h.step (hB.read _ _) (hB.read _ _) hos⟩

theorem twin_writeRecord (sector : ℤ) (record : Sector) :
    Sync Twin
      (do
        setFp fun fp => { fp with fcb := { fp.fcb with record := sector } }
        osifWrite B record : IoM σ UInt16)
      (do
        setFp fun fp => { fp with fcb := { fp.fcb with record := sector } }
        osifWrite B record) := by
  rintro s ⟨fp, os, buff⟩ h
  obtain rfl : os = s.os := h.os
  have hname : SameName { s.fp.fcb with record := sector } { fp.fcb with record := sector } := h.name
  obtain ⟨hcode, hos⟩ := hB.write_name record s.os hname rfl
  exact ⟨hcode, h.step (hB.write _ _ _) (hB.write _ _ _) hos⟩

theorem twin_readLoop (sector : ℤ) (count : ℕ) : Sync Twin (readLoop B sector count) (readLoop B sector count) := by
  induction count generalizing sector with
  | zero => exact .pure _
  | succ count ih =>
    rw [readLoop, ← bind_assoc]
    refine .bind (twin_readRecord hB sector) fun retcode => ?_
    cases retcode with
    | error code => exact .pure _
    | ok record => exact .bind (ih _) fun _ => .pure _

theorem twin_writeLoop (sector : ℤ) (buffer : List Sector) :
    Sync Twin (writeLoop B sector buffer) (writeLoop B sector buffer) := by
  induction buffer generalizing sector with
  | nil => exact .pure _
  | cons record buffer ih =>
    rw [writeLoop, ← bind_assoc]
    exact .bind (twin_writeRecord hB sector record) fun retcode => .ite (.pure _) (.bind (ih _) fun _ => .pure _)

omit hB in
/-- The user number is changed, and changed back. -/
theorem twin_around {α : Type} {m : IoM σ α} (hm : Sync Twin m m) :
    Sync Twin
      (do
        let xuser ← chkuserFp B
        let a ← m
        uchkuserFp B xuser
        pure a)
      (do
        let xuser ← chkuserFp B
        let a ← m
        uchkuserFp B xuser
        pure a) := by
  refine .bind (fun s t h => ?_) fun xuser => .bind hm fun a => .bind (.modify fun s t h => ?_) fun _ => .pure a
  · have hchk : chkuser B t.fp.user.toInt16 t.os = chkuser B s.fp.user.toInt16 s.os := by rw [h.same, h.os]
    exact ⟨congrArg Prod.fst hchk, h.same, h.name, h.buff, congrArg Prod.snd hchk, h.file⟩
  · have huchk : uchkuser B t.fp.user.toInt16 xuser t.os = uchkuser B s.fp.user.toInt16 xuser s.os := by rw [h.same, h.os]
    exact ⟨h.same, h.name, h.buff, huchk, h.file⟩

/-- The BDOS is as it was when the user number has been put back. -/
theorem uchkuser_chkuser (newu : Int8) (os : σ) :
    uchkuser B newu.toInt16 (chkuser B newu.toInt16 os).1 (chkuser B newu.toInt16 os).2 = os := by
  have hback : ((B.user 0xff os).1.toInt16 + 1 - 1).toUInt16 = (B.user 0xff os).1 := by simp
  unfold chkuser uchkuser
  simp only [hB.user_get]
  split_ifs with hzero hne
  · rfl
  · rw [hback]
    exact hB.user_back _ os (toUInt16_ne newu)
  · rfl

/-- `FILSIZ` changes the file control block, and nothing else. -/
theorem fileSectors_eq (s : Io σ) :
    fileSectors B s = .ok (sectorCount B s.fp s.os) { s with fp := { s.fp with fcb := sizedFcb B s.fp s.os } } := by
  have hos : uchkuser B s.fp.user.toInt16 (chkuser B s.fp.user.toInt16 s.os).1
      (B.file .FILSIZ s.fp.fcb (chkuser B s.fp.user.toInt16 s.os).2).2.2 = s.os := by
    rw [(hB.size _ _).2]
    exact uchkuser_chkuser hB s.fp.user s.os
  show EStateM.Result.ok _ (Io.mk _ (uchkuser B s.fp.user.toInt16 (chkuser B s.fp.user.toInt16 s.os).1
    (B.file .FILSIZ s.fp.fcb (chkuser B s.fp.user.toInt16 s.os).2).2.2) _) = _
  rw [hos]
  rfl

theorem sizedFcb_name (fp : Ccb) (os : σ) : SameName fp.fcb (sizedFcb B fp os) :=
  (hB.size fp.fcb (chkuser B fp.user.toInt16 os).2).1

theorem twin_fileSectors : Sync Twin (fileSectors B) (fileSectors B) := by
  intro s t h
  have hcount : sectorCount B t.fp t.os = sectorCount B s.fp s.os := by
    have huser : t.fp.user = s.fp.user := by rw [h.same]
    unfold sectorCount sizedFcb
    rw [huser, h.os]
    exact hB.size_name _ h.name
  have hs := fileSectors_eq hB s
  have ht := fileSectors_eq hB t
  rw [hcount] at ht
  exact .of_ok hs ht (h.step (sizedFcb_name hB _ _) (sizedFcb_name hB _ _) h.os)

theorem twin_closeOk : Sync Twin (closeOk B) (closeOk B) := by
  refine .bind (twin_around ?_) fun _ => .pure _
  rintro s ⟨fp, os, buff⟩ h
  obtain rfl : os = s.os := h.os
  obtain ⟨hcode, hos⟩ := hB.close_name s.os h.name
  exact ⟨hcode, h.step (hB.close _ _) (hB.close _ _) hos⟩

/-- **A routine on the channel** keeps step with itself on twins. -/
theorem lockstep_twin : Lockstep B B Twin where
  same h := ⟨h.same, h.buff⟩
  change := by
    intro f s t hf h
    obtain ⟨hfixed, hfcb⟩ := hf s.fp t.fp.fcb
    have hfp : f t.fp = { f s.fp with fcb := t.fp.fcb } := by rw [h.same, hfcb]
    refine ⟨?_, ?_, h.buff, h.os, ?_⟩
    · rw [hfp]
    · rw [hfp]
      exact h.name.trans (congrArg (fun x => x.2.2) hfixed).symm
    · have hflags : ({ (f s.fp).flags with ATEOF := false, DIRTY := false } : Flags) =
          { s.fp.flags with ATEOF := false, DIRTY := false } := congrArg (fun x => x.1.1) hfixed
      exact ⟨(congrArg Flags.ISTTY hflags).trans h.file.1, (congrArg Flags.ISLPT hflags).trans h.file.2⟩
  append bs _ _ h := ⟨h.same, h.name, congrArg (· ++ bs) h.buff, h.os, h.file⟩
  blkioRead sector count := twin_around (twin_readLoop hB sector count)
  blkioWrite sector buffer := twin_around (twin_writeLoop hB sector buffer)
  fileSectors := twin_fileSectors hB
  closeOk := twin_closeOk hB
  ttyin _ s t htty h := absurd (h.file.1.symm.trans htty) (by decide)
  wrtchr data s t _ h := by
    have hflags : t.fp.flags = s.fp.flags := by rw [h.same]
    refine SyncAt.get ?_
    simp only [hflags, h.file.1, h.file.2, Bool.false_eq_true, if_false]
    exact Sync.throw _ _ _ h

end

/-! ### Calls -/

/-- Two worlds that differ in the file control block of channel `fd` only, which is on no device,
and that names the same file. -/
structure TwinWorld (fd : ℤ) (w w' : World σ) : Prop where
  os : w'.os = w.os
  chvec : w'.chvec = w.chvec
  others : ∀ a, a ≠ fd → w'.fds a = w.fds a
  same : w'.fds fd = { w.fds fd with fcb := (w'.fds fd).fcb }
  name : SameName (w.fds fd).fcb (w'.fds fd).fcb
  file : (w.fds fd).flags.ISTTY = false ∧ (w.fds fd).flags.ISLPT = false

variable {fd : ℤ} {w w' : World σ}

namespace TwinWorld

theorem fds (h : TwinWorld fd w w') (a : ℤ) : w'.fds a = { w.fds a with fcb := (w'.fds a).fcb } := by
  by_cases ha : a = fd
  · rw [ha]
    exact h.same
  · rw [h.others a ha]

/-- The control block of the channel changes, and the BDOS. -/
theorem update (h : TwinWorld fd w w') {s t : Io σ} (hst : Twin s t) :
    TwinWorld fd { w with fds := Function.update w.fds fd s.fp, os := s.os }
      { w' with fds := Function.update w'.fds fd t.fp, os := t.os } := by
  constructor
  · exact hst.os
  · exact h.chvec
  · intro a ha
    simp only [Function.update_of_ne ha]
    exact h.others a ha
  · simp only [Function.update_self]
    exact hst.same
  · simp only [Function.update_self]
    exact hst.name
  · simp only [Function.update_self]
    exact hst.file

/-- The control block of another channel changes, and the BDOS. -/
theorem update_other (h : TwinWorld fd w w') {a : ℤ} (ha : a ≠ fd) (fp : Ccb) {os os' : σ} (hos : os' = os) :
    TwinWorld fd { w with fds := Function.update w.fds a fp, os := os }
      { w' with fds := Function.update w'.fds a fp, os := os' } := by
  constructor
  · exact hos
  · exact h.chvec
  · intro b hb
    by_cases hba : b = a
    · simp only [hba, Function.update_self]
    · simp only [Function.update_of_ne hba]
      exact h.others b hb
  · simp only [Function.update_of_ne ha.symm]
    exact h.same
  · simp only [Function.update_of_ne ha.symm]
    exact h.name
  · simp only [Function.update_of_ne ha.symm]
    exact h.file

end TwinWorld

theorem twin_chkc (a : ℤ) : Sync (TwinWorld fd) (chkc a : OsM σ PUnit) (chkc a) := by
  intro w w' h
  have hflags : (w'.fds a).flags = (w.fds a).flags := by rw [h.fds a]
  exact syncAt_chkc h hflags

theorem twin_onCcb (a : ℤ) {α : Type} {m : IoM σ α} (hm : Sync Twin m m) :
    Sync (TwinWorld fd) (onCcb a m) (onCcb a m) := by
  intro w w' h
  by_cases ha : a = fd
  · subst ha
    exact syncAt_onCcb hm ⟨h.same, h.name, rfl, h.os, h.file⟩ fun s s' hT => h.update hT
  · -- the channel is the same in both
    unfold SyncAt onCcb
    rw [h.others a ha, h.os]
    cases m ⟨w.fds a, w.os, []⟩ with
    | ok x s => exact ⟨rfl, h.update_other ha s.fp rfl⟩
    | error e s => exact ⟨rfl, h.update_other ha s.fp rfl⟩

/-- Where a write on channel `a` runs over, it covers the control block `fd` wholly, if it lies behind. -/
def ChannelCall.Clear (a fd : ℤ) : ChannelCall → Prop
  | .write buff => buff.length < 2 ^ 16 ∨ fd ≤ a + 363
  | _ => True

theorem ChannelCall.Clear.overrun {a : ℤ} {buff : List UInt8} (h : (ChannelCall.write buff).Clear a fd) (fp : Ccb) :
    Cpmlib.overrun fp buff = [] ∨ CCBSIZE * (fd - a).toNat ≤ (Cpmlib.overrun fp buff).length := by
  cases h with
  | inl hlt => exact .inl ((overrun_eq_nil_iff fp buff).mpr (writeFits_of_lt hlt))
  | inr hnear =>
    refine (length_overrun fp buff).imp_right fun hlen => ?_
    rw [CCBSIZE]
    omega

/-- Bytes that run over from channel `a`. -/
theorem twin_spill {a : ℤ} {bs : List UInt8} (hbs : bs = [] ∨ CCBSIZE * (fd - a).toNat ≤ bs.length) (h : TwinWorld fd w w') :
    SyncAt (fun w w' => TwinWorld fd w w' ∨ w' = w) (spill a bs) (spill a bs) w w' := by
  rcases hbs with rfl | hlen
  · exact ⟨rfl, .inl h⟩
  have hothers : ∀ b, b ≠ fd → spillOver a bs w'.fds b = spillOver a bs w.fds b := fun b hb => spillOver_congr (h.others b hb)
  unfold spill whenever
  split_ifs
  · refine ⟨rfl, ?_⟩
    by_cases hlt : a < fd
    · -- nothing is left of the control block in which the worlds differ
      have hfds : spillOver a bs w'.fds = spillOver a bs w.fds := by
        funext b
        by_cases hb : b = fd
        · rw [hb]
          exact spillOver_covered _ _ hlt hlen
        · exact hothers b hb
      right
      show World.mk (spillOver a bs w'.fds) w'.chvec w'.os = World.mk (spillOver a bs w.fds) w.chvec w.os
      rw [h.os, h.chvec, hfds]
    · have hle : fd ≤ a := not_lt.mp hlt
      have hkept : ∀ fds : ℤ → Ccb, spillOver a bs fds fd = fds fd := fun _ => spillOver_of_le hle
      refine .inl ⟨h.os, h.chvec, hothers, ?_, ?_, ?_⟩ <;> simp only [hkept]
      · exact h.same
      · exact h.name
      · exact h.file
  · exact ⟨rfl, .inl h⟩

section

variable (hB : Asks B)

include hB

theorem twin_closeEof (a : ℤ) : Sync (TwinWorld fd) (closeEof B a) (closeEof B a) := by
  have hlock := lockstep_twin hB
  have hlseek : Sync (TwinWorld fd) (lseek B a 0 2) (lseek B a 0 2) :=
    (twin_chkc a).bind fun _ => twin_onCcb a (hlock.lseekFp 0 2)
  have hwrite : Sync (TwinWorld fd) (write B a [EOFCHAR]) (write B a [EOFCHAR]) := by
    rw [write_eofchar]
    exact (twin_chkc a).bind fun _ => twin_onCcb a (hlock.writeFp [EOFCHAR])
  exact sync_closeEof (fun _ w' h => ⟨(w'.fds a).fcb, h.fds a⟩) hlseek hwrite

theorem twin_close (a : ℤ) : Sync (TwinWorld fd) (close B a) (close B a) := by
  have hinit : ∀ w w' : World σ, TwinWorld fd w w' →
      TwinWorld fd { w with fds := Function.update w.fds a (initCcb a (w.fds a)) }
        { w' with fds := Function.update w'.fds a (initCcb a (w'.fds a)) } := by
    intro w w' h
    by_cases ha : a = fd
    · subst ha
      refine h.update (s := ⟨initCcb a (w.fds a), w.os, []⟩) (t := ⟨initCcb a (w'.fds a), w'.os, []⟩) ⟨?_, rfl, rfl, h.os, rfl, rfl⟩
      rw [h.same]
      rfl
    · rw [h.others a ha]
      exact h.update_other ha _ h.os
  refine .bind (twin_chkc a) fun _ => .get fun w w' h => ?_
  rw [h.fds a]
  exact Sync.bind (.ite (.pure _) (.bind (twin_closeEof hB a) fun _ => twin_onCcb a (lockstep_twin hB).closeFcb))
    (sync_closeEnd hinit fun _ _ h => ⟨h.os, by rw [h.chvec], h.others, h.same, h.name, h.file⟩) w w' h

/-- **A call answers the same** in both worlds, and a write that runs over the control block of the
channel makes them the same. -/
theorem twin_program {a : ℤ} {call : ChannelCall} (hclear : call.Clear a fd) (h : TwinWorld fd w w') :
    SyncAt (fun w w' => TwinWorld fd w w' ∨ w' = w) (call.program B a) (call.program B a) w w' := by
  have hlock := lockstep_twin hB
  have hroutine : ∀ {m : IoM σ Answer}, Sync Twin m m →
      Sync (TwinWorld fd) (do chkc a; onCcb a (observe m)) (do chkc a; onCcb a (observe m)) :=
    fun hm => .bind (twin_chkc a) fun _ => twin_onCcb a (sync_observe Twin.buff hm)
  cases call with
  | read bytes => exact (hroutine ((hlock.readFp bytes).map _) w w' h).mono fun _ _ => .inl
  | write buff =>
    refine (twin_chkc a w w' h).andThen (fun _ w₁ w₁' h₁ => .get ?_) fun _ _ => .inl
    refine (twin_onCcb a (sync_observe Twin.buff ((hlock.writeFp buff).map _)) w₁ w₁' h₁).andThen (fun seen w₂ w₂' h₂ => ?_)
      fun _ _ => .inl
    have hsame : overrun (w₁'.fds a) buff = overrun (w₁.fds a) buff := by
      rw [h₁.fds a]
      rfl
    refine SyncAt.bind ?_ fun _ => .pure _
    rw [hsame]
    refine twin_spill ?_ h₂
    split_ifs
    · exact hclear.overrun _
    · exact .inl rfl
  | lseek offs sense => exact (hroutine ((hlock.lseekFp offs sense).map _) w w' h).mono fun _ _ => .inl
  | fstat => exact (hroutine (hlock.fstatFp.map _) w w' h).mono fun _ _ => .inl
  | close => exact ((twin_close hB a).map _ w w' h).mono fun _ _ => .inl

end

/-- Calls on any channels, one after the other. -/
def runOn (B : Osif σ) : List (ℤ × ChannelCall) → World σ → List (Except Errno Outcome) × World σ
  | [], w => ([], w)
  | (fd, call) :: calls, w =>
    let (seen, w₁) := call.run B fd w
    let (rest, w₂) := runOn B calls w₁
    (seen :: rest, w₂)

/-- No write of the run covers the control block `fd` in part. -/
def AllClear (fd : ℤ) (calls : List (ℤ × ChannelCall)) : Prop := ∀ call ∈ calls, call.2.Clear call.1 fd

/-- All that follows is the same in both worlds. -/
theorem runOn_twin (hB : Asks B) {calls : List (ℤ × ChannelCall)} (hclear : AllClear fd calls) (h : TwinWorld fd w w') :
    (runOn B calls w').1 = (runOn B calls w).1 ∧ (runOn B calls w').2.os = (runOn B calls w).2.os := by
  induction calls generalizing w w' with
  | nil => exact ⟨rfl, h.os⟩
  | cons call calls ih =>
    obtain ⟨a, call⟩ := call
    obtain ⟨hcall, hcalls⟩ := List.forall_mem_cons.mp hclear
    obtain ⟨hseen, hafter⟩ := run_of_syncAt (twin_program hB hcall h)
    cases hafter with
    | inl htwin =>
      obtain ⟨hrest, hos⟩ := ih hcalls htwin
      exact ⟨congrArg₂ List.cons hseen hrest, hos⟩
    | inr hsame =>
      have hrest : runOn B calls (call.run B a w').2 = runOn B calls (call.run B a w).2 := by rw [hsame]
      exact ⟨congrArg₂ List.cons hseen (congrArg Prod.fst hrest), congrArg (fun r => r.2.os) hrest⟩

/-! ### `fstat` -/

/-- A channel that `fstat` takes for a device. -/
def Ccb.IsChr (fp : Ccb) : Prop := fp.flags.ISTTY = true ∨ fp.flags.ISLPT = true ∨ fp.flags.ISAUX = true

/-- The end of the file as `_filesz` finds it, if it need not read a sector for that. -/
def knownEnd (B : Osif σ) (fp : Ccb) (os : σ) : Option ℤ :=
  if fp.flags.DIRTY = true then some fp.hiwater
  else if fp.flags.ISASCII = false then some (sectorCount B fp os * 128)
  else if sectorCount B fp os ≤ 0 then some 0
  else if fp.sector = sectorCount B fp os - 1 then
    some ((sectorCount B fp os - 1) * 128 + scanEof fp.buffer.bytes)
  else none

/-- A channel on which `fstat` has found the end of the file. -/
def Ccb.ended (fp : Ccb) (fcb : Fcb) (e : ℤ) : Ccb :=
  { fp with fcb := fcb, hiwater := e, flags := { fp.flags with ATEOF := true } }

/-- What `fstat` does to the channel. -/
theorem wp_fstatFp_known (hB : Asks B) {s : Io σ} {e : ℤ} (hfile : ¬ s.fp.IsChr) (hend : knownEnd B s.fp s.os = some e) :
    wp (fstatFp B)
      (fun _ s' => ∃ fcb, SameName s.fp.fcb fcb ∧ s' = { s with fp := s.fp.ended fcb e })
      (fun _ _ => False) s := by
  unfold Ccb.IsChr at hfile
  have hdisk : ¬ (s.fp.flags.ISTTY = true ∨ s.fp.flags.ISLPT = true) := fun h => hfile (h.imp_right .inl)
  have hsize : wp (if s.fp.flags.DIRTY = true then setFp fun fp => { fp with offset := fp.hiwater } else fileszDisk B)
      (fun _ s' => ∃ fcb, SameName s.fp.fcb fcb ∧ s' = { s with fp := { s.fp with fcb := fcb, offset := e } })
      (fun _ _ => False) s := by
    have hname := sizedFcb_name hB s.fp s.os
    unfold knownEnd at hend
    rw [wp_ite]
    split_ifs at hend ⊢ with hdirty hbinary hempty hlast
    · obtain rfl := Option.some.inj hend
      exact ⟨s.fp.fcb, .refl _, rfl⟩
    · obtain rfl := Option.some.inj hend
      rw [fileszDisk_eq, wp_bind, wp_of_eq_ok (fileSectors_eq hB s), wp_bind, wp_get, wp_ite, if_neg (by simp [hbinary]), wp_setFp]
      refine ⟨sizedFcb B s.fp s.os, hname, ?_⟩
      rw [sub_add_cancel]
    · obtain rfl := Option.some.inj hend
      rw [fileszDisk_eq, wp_bind, wp_of_eq_ok (fileSectors_eq hB s), wp_bind, wp_get, wp_ite, if_pos (by simpa using hbinary),
        fileszAscii, wp_bind, wp_get, wp_ite, if_neg (by omega), wp_setFp]
      exact ⟨sizedFcb B s.fp s.os, hname, rfl⟩
    · obtain rfl := Option.some.inj hend
      rw [fileszDisk_eq, wp_bind, wp_of_eq_ok (fileSectors_eq hB s), wp_bind, wp_get, wp_ite, if_pos (by simpa using hbinary),
        fileszAscii, wp_bind, wp_get, wp_ite, if_pos (by omega), wp_bind, wp_whenever, if_neg (not_not.mpr hlast.symm), wp_setFp]
      refine ⟨sizedFcb B s.fp s.os, hname, ?_⟩
      rw [← hlast]
  rw [fstatFp, wp_bind, wp_get, wp_ite, if_neg hfile, wp_bind, wp_orFailure, fileszFp, wp_bind, wp_get, wp_ite, if_neg hdisk, wp_bind]
  refine wp_mono hsize (fun _ s₁ h₁ => ?_) (fun _ _ h => h.elim)
  obtain ⟨fcb, hname, rfl⟩ := h₁
  simp only [wp_bind, wp_setFp, wp_get, wp_pure]
  exact ⟨fcb, hname, rfl⟩

theorem wp_fstat_open {Q : Stat → World σ → Prop} {E : Errno → World σ → Prop} (hfd : fd < MAXCCBS)
    (hopen : (w.fds fd).flags.OPENED = true) :
    wp (fstat B fd) Q E w =
      wp (fstatFp B) (fun st s => Q st { w with fds := Function.update w.fds fd s.fp, os := s.os })
        (fun e s => E e { w with fds := Function.update w.fds fd s.fp, os := s.os }) ⟨w.fds fd, w.os, []⟩ := by
  rw [fstat, wp_bind, wp_chkc_open hfd hopen, wp_onCcb]

/-- A call of `fstat` makes no difference: not to what any calls after it show, on any channels, not
to what they leave on disk, and not to the offset, the end of file flag and the high water mark. The
calls after it may run over the control block `fd`, but not over a part of it. -/
structure FstatUnseen (B : Osif σ) (fd : ℤ) (w : World σ) : Prop where
  seen : ∀ calls, AllClear fd calls → (runOn B calls (after (fstat B fd) w)).1 = (runOn B calls w).1
  os : ∀ calls, AllClear fd calls → (runOn B calls (after (fstat B fd) w)).2.os = (runOn B calls w).2.os
  offset : ((after (fstat B fd) w).fds fd).offset = (w.fds fd).offset
  ateof : ((after (fstat B fd) w).fds fd).flags.ATEOF = (w.fds fd).flags.ATEOF
  hiwater : ((after (fstat B fd) w).fds fd).hiwater = (w.fds fd).hiwater

/-- The channel is a device, or it is at the end of the file, and knows where that is. -/
def FstatStill (B : Osif σ) (fp : Ccb) (os : σ) : Prop :=
  fp.IsChr ∨ fp.flags.ATEOF = true ∧ knownEnd B fp os = some fp.hiwater

theorem fstat_of_isChr (hfd : fd < MAXCCBS) (hopen : (w.fds fd).flags.OPENED = true) (hchr : (w.fds fd).IsChr) :
    after (fstat B fd) w = w := by
  refine wp_after (P := fun w' => w' = w) ?_
  unfold Ccb.IsChr at hchr
  rw [wp_fstat_open hfd hopen, fstatFp, wp_bind, wp_get, wp_ite, if_pos hchr, wp_pure, Function.update_eq_self]

/-- What `fstat` leaves of a channel on a file. -/
theorem fstat_of_knownEnd (hB : Asks B) (hfd : fd < MAXCCBS) (hopen : (w.fds fd).flags.OPENED = true)
    (hfile : ¬ (w.fds fd).IsChr) {e : ℤ} (hend : knownEnd B (w.fds fd) w.os = some e) :
    ∃ fcb, SameName (w.fds fd).fcb fcb ∧
      after (fstat B fd) w = { w with fds := Function.update w.fds fd ((w.fds fd).ended fcb e) } := by
  refine wp_after (P := fun w' => ∃ fcb, SameName (w.fds fd).fcb fcb ∧
    w' = { w with fds := Function.update w.fds fd ((w.fds fd).ended fcb e) }) ?_
  rw [wp_fstat_open hfd hopen]
  refine wp_mono (wp_fstatFp_known hB hfile hend) (fun _ s' h => ?_) (fun _ _ h => h.elim)
  obtain ⟨fcb, hname, rfl⟩ := h
  exact ⟨fcb, hname, rfl⟩

/-- **`fstat` makes no difference** to a channel that is at the end of its file and knows where that
is, or that is a device. Otherwise it does, unless it has to read a sector to find the end. -/
theorem fstat_unseen (hB : Asks B) (hfd : fd < MAXCCBS) (hopen : (w.fds fd).flags.OPENED = true) :
    (FstatStill B (w.fds fd) w.os → FstatUnseen B fd w) ∧
      (FstatUnseen B fd w → FstatStill B (w.fds fd) w.os ∨ knownEnd B (w.fds fd) w.os = none) := by
  by_cases hchr : (w.fds fd).IsChr
  · have hsame := fstat_of_isChr (B := B) hfd hopen hchr
    refine ⟨fun _ => ?_, fun _ => .inl (.inl hchr)⟩
    constructor
    · intro calls _
      rw [hsame]
    · intro calls _
      rw [hsame]
    · rw [hsame]
    · rw [hsame]
    · rw [hsame]
  cases hend : knownEnd B (w.fds fd) w.os with
  | none => exact ⟨fun h => absurd ((h.resolve_left hchr).2.symm.trans hend) (by simp), fun _ => .inr rfl⟩
  | some e =>
    obtain ⟨fcb, hname, hafter⟩ := fstat_of_knownEnd hB hfd hopen hchr hend
    constructor
    · intro hstill
      obtain ⟨hateof, hhi⟩ := hstill.resolve_left hchr
      rw [hend, Option.some.injEq] at hhi
      subst hhi
      have hended : (w.fds fd).ended fcb (w.fds fd).hiwater = { w.fds fd with fcb := fcb } := by
        unfold Ccb.ended
        rw [← hateof]
      have hdisk : (w.fds fd).flags.ISTTY = false ∧ (w.fds fd).flags.ISLPT = false := by
        unfold Ccb.IsChr at hchr
        simp only [not_or, Bool.not_eq_true] at hchr
        exact ⟨hchr.1, hchr.2.1⟩
      have htwin : TwinWorld fd w (after (fstat B fd) w) := by
        rw [hafter, hended]
        constructor
        · rfl
        · rfl
        · exact fun a ha => Function.update_of_ne ha _ _
        · simp only [Function.update_self]
        · simp only [Function.update_self]
          exact hname
        · exact hdisk
      constructor
      · exact fun calls hclear => (runOn_twin hB hclear htwin).1
      · exact fun calls hclear => (runOn_twin hB hclear htwin).2
      · rw [htwin.same]
      · rw [htwin.same]
      · rw [htwin.same]
    · intro h
      have hateof := h.ateof
      have hhi := h.hiwater
      rw [hafter] at hateof hhi
      simp only [Function.update_self, Ccb.ended] at hateof hhi
      exact .inl (.inr ⟨hateof.symm, by rw [hend, hhi]⟩)

/-- The BDOS with its files in memory can be asked. -/
theorem asks_memOsif : Asks memOsif where
  user_get os := rfl
  user_back n os h := by
    have hne : os.user ≠ 0xff := fun heq => absurd (heq ▸ os.user_le) (by decide)
    have hback : ∀ os' : MemOs, os'.files = os.files → (memOsif.user os.user os').2 = os := by
      intro os' hfiles
      simp only [memOsif, if_neg hne, dif_pos os.user_le, hfiles]
    refine hback (memOsif.user n os).2 ?_
    simp only [memOsif, if_neg h]
    split_ifs
    · rfl
    · rfl
  size fcb os := ⟨rfl, rfl⟩
  size_name := by
    intro fcb fcb' os h
    have hid : fileId os.user fcb' = fileId os.user fcb := fileId_of_zero h
    simp only [memOsif, memFile, hid]
  close fcb os := rfl
  close_name := by
    intro fcb fcb' os h
    have hid : fileId os.user fcb' = fileId os.user fcb := fileId_of_zero h
    simp only [memOsif, memFile, hid, and_self]
  read fcb os := rfl
  read_name := by
    intro fcb fcb' os h hrec
    have hid : fileId os.user fcb' = fileId os.user fcb := fileId_of_zero h
    simp only [memOsif, memRead, hid, hrec, and_self]
  write fcb r os := rfl
  write_name := by
    intro fcb fcb' r os h hrec
    have hid : fileId os.user fcb' = fileId os.user fcb := fileId_of_zero h
    simp only [memOsif, memWrite, hid, hrec, and_self]

/-- A byte has been written, and `fstat` called. -/
def askedOnce : World MemOs := runFile memOsif 0 [.write [0x41], .fstat] (createdA 1)

theorem fstat_unseen_again : FstatUnseen memOsif 0 askedOnce :=
  (fstat_unseen asks_memOsif (by decide) rfl).1 (.inr ⟨rfl, rfl⟩)

/-- **A read after `fstat`** finds the end of the file at its beginning. -/
theorem fstat_seen : ¬ FstatUnseen memOsif 0 (runFile memOsif 0 [.write [0x41], .lseek 0 0] (createdA 1)) := by
  intro h
  have hread := congrArg (fun seen => seen.map fun r => r.toOption.map Prod.snd)
    (h.seen [(0, .read 1)] (List.forall_mem_singleton.mpr trivial))
  revert hread
  decide +kernel

end Cpm68k.Cpmlib
