import Cpm68k.Cpmlib.LastWriter

/-!
# Channels do not interfere

Two channels are open on two different files, and calls on the one and on the other are
made in any order. Each channel sees what it would see alone.

## The model

* `FileWise B τ` says that what the BDOS `B` does to a file depends on the file and on what it
  keeps for it, a `τ`, and that it changes nothing it keeps for others. It says nothing of what is
  not the name of one file, such as a name with a `?` in it.
* `ChannelCall.program` is a call with all that the caller sees of it: what it returns, its
  error number, and the bytes it has stored, also when it failed.
* An order of the calls is a list that says for each call which channel it is on.

## What is proved

* `FileWise.coupled` — a routine on a channel answers the same and does the same to its file
  whatever is kept for other files, and leaves that alone.
* `syncAt_program` — the same of a call, whatever the other channel control blocks hold.
* `channels_apart` — hence every order of the calls gives what each channel gives alone, as long as
  no write runs over the buffer of its channel.
* `channels_clash` — a write that does closes the other channel.
-/

namespace Cpm68k.Cpmlib

open Cpm68k.Library

variable {σ τ : Type} {B : Osif σ}

/-- A function of the BDOS on a file control block does `step` to the file it names: what it
answers, and what is kept for the file after, depends on that file only. What is kept for
others does not change, nor do the user number and the name. -/
structure ActsOn {α : Type} (names : FileId → Prop) (user : σ → UInt16) (part : σ → FileId → τ)
    (step : FileId → Fcb → τ → α × Fcb × τ) (act : Fcb → σ → α × Fcb × σ) : Prop where
  sameUser : ∀ fcb os, user (act fcb os).2.2 = user os
  name : ∀ fcb os v, names (fileId (user os) fcb) → fileId v (act fcb os).2.1 = fileId v fcb
  answer : ∀ fcb os f, names f → fileId (user os) fcb = f →
    (act fcb os).1 = (step f fcb (part os f)).1 ∧ (act fcb os).2.1 = (step f fcb (part os f)).2.1
  parts : ∀ fcb os f, names f → fileId (user os) fcb = f →
    part (act fcb os).2.2 = Function.update (part os) f (step f fcb (part os f)).2.2

/-- A view of a BDOS that keeps its files apart. -/
structure FileWise (B : Osif σ) (τ : Type) where
  /-- The current user number. -/
  user : σ → UInt16
  /-- The user numbers that there are. -/
  users : UInt16 → Prop
  /-- What can be the name of a file. -/
  names : FileId → Prop
  names_user : ∀ f, names f → users f.user
  isUser : IsUser B users user
  /-- What is kept for a file. -/
  part : σ → FileId → τ
  part_user : ∀ n os, part (B.user n os).2 = part os
  /-- A function on a file. -/
  file : BdosFunc → FileId → Fcb → τ → UInt16 × Fcb × τ
  file_acts : ∀ g, ActsOn names user part (file g) (B.file g)
  /-- `B_READ`. -/
  bRead : FileId → Fcb → τ → Except UInt16 Sector × Fcb × τ
  read_acts : ActsOn names user part bRead B.bRead
  /-- `B_WRITE`. -/
  bWrite : Sector → FileId → Fcb → τ → UInt16 × Fcb × τ
  write_acts : ∀ r, ActsOn names user part (bWrite r) fun fcb os => B.bWrite fcb r os

/-- The channel is on the file `f` when the user number of the caller is `c`. -/
structure Ccb.OnFile (f : FileId) (c : UInt16) (fp : Ccb) : Prop where
  notTty : fp.flags.ISTTY = false
  notLpt : fp.flags.ISLPT = false
  notQue : fp.flags.ISQUE = false
  id : fileId (fileUser fp.user c) fp.fcb = f

variable {V : FileWise B τ} {f g : FileId} {c : UInt16} {t : τ}

theorem fileId_of_zero {v : UInt16} {fcb fcb' : Fcb} (h : fileId 0 fcb' = fileId 0 fcb) : fileId v fcb' = fileId v fcb :=
  congrArg (fun i => { i with user := v }) h

theorem Ccb.OnFile.of_fixed {fp fp' : Ccb} (h : fp.OnFile f c) (hfixed : fp'.fixed = fp.fixed) : fp'.OnFile f c := by
  have hflags : ({ fp'.flags with ATEOF := false, DIRTY := false } : Flags) = { fp.flags with ATEOF := false, DIRTY := false } :=
    congrArg (fun x => x.1.1) hfixed
  refine ⟨?_, ?_, ?_, ?_⟩
  · exact (congrArg Flags.ISTTY hflags).trans h.notTty
  · exact (congrArg Flags.ISLPT hflags).trans h.notLpt
  · exact (congrArg Flags.ISQUE hflags).trans h.notQue
  · rw [user_of_fixed hfixed, fileId_of_zero (congrArg (fun x => x.2.2) hfixed)]
    exact h.id

/-- What is kept for the file `f` of the channel is the same in both states, and what is kept
for `g` is `t` in the first. -/
structure Alike (V : FileWise B τ) (f g : FileId) (c : UInt16) (t : τ) (fp : Ccb) (os os' : σ) : Prop where
  mine : V.part os' f = V.part os f
  other : V.part os g = t
  onFile : fp.OnFile f c

theorem Ccb.OnFile.fileUser {fp : Ccb} (h : fp.OnFile f c) : fileUser fp.user c = f.user := congrArg FileId.user h.id

theorem ActsOn.alike {α : Type} {step : FileId → Fcb → τ → α × Fcb × τ} {act : Fcb → σ → α × Fcb × σ}
    (hact : ActsOn V.names V.user V.part step act) (hname : V.names f) (hfg : f ≠ g) {fp : Ccb} {os os' : σ}
    (hl : UserOf V.users V.user c fp os) (hr : UserOf V.users V.user c fp os') (h : Alike V f g c t fp os os') :
    (act fp.fcb os').1 = (act fp.fcb os).1 ∧ (act fp.fcb os').2.1 = (act fp.fcb os).2.1 ∧
      V.user (act fp.fcb os).2.2 = V.user os ∧ V.user (act fp.fcb os').2.2 = V.user os' ∧
      Alike V f g c t { fp with fcb := (act fp.fcb os).2.1 } (act fp.fcb os).2.2 (act fp.fcb os').2.2 := by
  have hknown : V.users (fileUser fp.user c) := h.onFile.fileUser ▸ V.names_user f hname
  have hf : fileId (V.user os) fp.fcb = f := by rw [hl hknown, h.onFile.id]
  have hf' : fileId (V.user os') fp.fcb = f := by rw [hr hknown, h.onFile.id]
  obtain ⟨hcode, hfcb⟩ := hact.answer fp.fcb os f hname hf
  obtain ⟨hcode', hfcb'⟩ := hact.answer fp.fcb os' f hname hf'
  rw [h.mine] at hcode' hfcb'
  refine ⟨hcode'.trans hcode.symm, hfcb'.trans hfcb.symm, hact.sameUser .., hact.sameUser .., ⟨?_, ?_, ?_⟩⟩
  · rw [hact.parts _ _ f hname hf, hact.parts _ _ f hname hf', h.mine, Function.update_self, Function.update_self]
  · rw [hact.parts _ _ f hname hf, Function.update_of_ne hfg.symm, h.other]
  · exact ⟨h.onFile.notTty, h.onFile.notLpt, h.onFile.notQue, (hact.name _ _ _ (hf ▸ hname)).trans h.onFile.id⟩

theorem userCoupled_alike (hc : V.users c) (hf : V.names f) (hfg : f ≠ g) :
    UserCoupled B B V.users V.user V.user c (Alike V f g c t) where
  left := V.isUser
  right := V.isUser
  known := hc
  fixed h hfixed := ⟨h.mine, h.other, h.onFile.of_fixed hfixed⟩
  setUser n h := ⟨by rw [V.part_user, V.part_user]; exact h.mine, by rw [V.part_user]; exact h.other, h.onFile⟩
  file k hl hr h := (V.file_acts k).alike hf hfg hl hr h
  bRead hl hr h := V.read_acts.alike hf hfg hl hr h
  bWrite record hl hr h := (V.write_acts record).alike hf hfg hl hr h

/-- The routines of a channel that is on a file. -/
theorem FileWise.coupled (hc : V.users c) (hf : V.names f) (hfg : f ≠ g) :
    Coupled B B (Outside V.user V.user c (Alike V f g c t)) :=
  (userCoupled_alike hc hf hfg).bracketed.coupled
    (fun _ _ _ htty h => absurd (h.2.2.rel.onFile.notTty.symm.trans htty) (by decide))
    fun _ _ _ hdev h => by
      obtain ⟨htty, hlpt, hque, -⟩ := h.2.2.rel.onFile
      rw [htty, hlpt, hque] at hdev
      exact absurd hdev (by decide)

/-! ### Calls -/

/-- What a call returns. -/
inductive Answer
  | num (n : ℤ)
  | stat (st : Stat)

/-- What the caller sees of a call: what it returns or its error number, and the bytes that
are stored. -/
abbrev Outcome := Except Errno Answer × List UInt8

/-- What a routine of a channel shows, also when it fails. -/
def observe (m : IoM σ Answer) : IoM σ Outcome := fun s =>
  match m s with
  | .ok a s' => .ok (.ok a, s'.buff) s'
  | .error e s' => .ok (.error e, s'.buff) s'

theorem wp_observe {m : IoM σ Answer} {Q : Outcome → Io σ → Prop} {E : Errno → Io σ → Prop} {s : Io σ} :
    wp (observe m) Q E s = wp m (fun x s' => Q (.ok x, s'.buff) s') (fun e s' => Q (.error e, s'.buff) s') s := by
  unfold wp observe
  cases m s <;> rfl

/-- The calls on an open channel. -/
inductive ChannelCall
  | read (bytes : ℕ)
  | write (buff : List UInt8)
  | lseek (offs sense : ℤ)
  | fstat
  | close

/-- The program of a call, with all that the caller sees. -/
def ChannelCall.program (B : Osif σ) (fd : ℤ) : ChannelCall → OsM σ Outcome
  | .read bytes => do
    chkc fd
    onCcb fd (observe (.num <$> readFp B bytes))
  | .write buff => do
    chkc fd
    let w ← get
    let seen ← onCcb fd (observe (.num <$> writeFp B buff))
    -- a call that fails does so before the last move of `_wrtbin`
    spill fd (if seen.1.isOk = true then overrun (w.fds fd) buff else [])
    pure seen
  | .lseek offs sense => do
    chkc fd
    onCcb fd (observe (.num <$> lseekFp B offs sense))
  | .fstat => do
    chkc fd
    onCcb fd (observe (.stat <$> fstatFp B))
  | .close => (fun n => (.ok (.num n), [])) <$> Cpmlib.close B fd

/-- A call, if it is a write, stays in the buffer of its channel. -/
def ChannelCall.Fits (fd : ℤ) (w : World σ) : ChannelCall → Prop
  | .write buff => WriteFits (w.fds fd) buff
  | _ => True

/-- What belongs to channel `a`, which is on the file `f`, is the same in both states. -/
structure Mine (V : FileWise B τ) (f : FileId) (c : UInt16) (a : ℤ) (P : Ccb → Prop) (w w' : World σ) : Prop where
  fds : w'.fds a = w.fds a
  left : V.user w.os = c
  right : V.user w'.os = c
  mine : V.part w'.os f = V.part w.os f
  channel : P (w.fds a)

/-- The same, and what belongs to channel `b`, which is on the file `g`, is `fp` and `t` in the
first state. -/
structure Beside (V : FileWise B τ) (f g : FileId) (c : UInt16) (t : τ) (a b : ℤ) (fp : Ccb) (P : Ccb → Prop)
    (w w' : World σ) : Prop extends Mine V f c a P w w' where
  otherFds : w.fds b = fp
  other : V.part w.os g = t

/-- The channel is on the file `f`, or is not open. -/
def Ccb.OnFileIfOpen (f : FileId) (c : UInt16) (fp : Ccb) : Prop := fp.flags.OPENED = true → fp.OnFile f c

section Calls

variable {a b : ℤ} {fp : Ccb} {P : Ccb → Prop}

theorem chkc_eq (fd : ℤ) (w : World σ) :
    chkc fd w = if fd ≥ MAXCCBS ∨ (w.fds fd).flags.OPENED = false then .error .EBADF w else .ok ⟨⟩ w := by
  by_cases hge : fd ≥ MAXCCBS
  · simp only [chkc, whenever, if_pos hge, if_pos (Or.inl hge)]
    rfl
  · have hrest : chkc fd w = (whenever ((w.fds fd).flags.OPENED = false) (throw .EBADF) : OsM σ PUnit) w := by
      simp only [chkc, whenever, if_neg hge]
      rfl
    rw [hrest, whenever]
    by_cases hopen : (w.fds fd).flags.OPENED = false
    · rw [if_pos hopen, if_pos (Or.inr hopen)]
      rfl
    · rw [if_neg hopen, if_neg (not_or.mpr ⟨hge, hopen⟩)]
      rfl

theorem syncAt_chkc {R : World σ → World σ → Prop} {w w' : World σ} (h : R w w') (hflags : (w'.fds a).flags = (w.fds a).flags) :
    SyncAt R (chkc a) (chkc a) w w' := by
  unfold SyncAt
  rw [chkc_eq, chkc_eq, hflags]
  split_ifs
  · exact ⟨rfl, h⟩
  · exact ⟨rfl, h⟩

/-- A routine keeps step on the channel of the two states. -/
theorem syncAt_onCcb {R : World σ → World σ → Prop} {T : Io σ → Io σ → Prop} {w w' : World σ} {α : Type} {m : IoM σ α}
    (hm : Sync T m m) (hin : T ⟨w.fds a, w.os, []⟩ ⟨w'.fds a, w'.os, []⟩)
    (hout : ∀ s s', T s s' → R { w with fds := Function.update w.fds a s.fp, os := s.os }
      { w' with fds := Function.update w'.fds a s'.fp, os := s'.os }) :
    SyncAt R (onCcb a m) (onCcb a m) w w' := by
  unfold onCcb
  cases (hm _ _ hin).ends with
  | inl hok =>
    obtain ⟨x, s, s', hs, hs', hT⟩ := hok
    exact .of_ok (a := x) (by rw [hs]) (by rw [hs']) (hout s s' hT)
  | inr herror =>
    obtain ⟨e, s, s', hs, hs', hT⟩ := herror
    exact .of_error (e := e) (by rw [hs]) (by rw [hs']) (hout s s' hT)

theorem Beside.forget {w w' : World σ} (h : Beside V f g c t a b fp (Ccb.OnFile f c) w w') :
    Beside V f g c t a b fp (Ccb.OnFileIfOpen f c) w w' :=
  ⟨⟨h.fds, h.left, h.right, h.mine, fun _ => h.channel⟩, h.otherFds, h.other⟩

theorem sync_observe {R : Io σ → Io σ → Prop} (hbuff : ∀ {s t}, R s t → t.buff = s.buff) {m : IoM σ Answer} (hm : Sync R m m) :
    Sync R (observe m) (observe m) := by
  intro s s' h
  unfold observe
  cases (hm s s' h).ends with
  | inl hok =>
    obtain ⟨x, s₁, t₁, hs, ht, hR⟩ := hok
    exact .of_ok (a := (.ok x, s₁.buff)) (by rw [hs]) (by rw [ht, ← hbuff hR]) hR
  | inr herror =>
    obtain ⟨e, s₁, t₁, hs, ht, hR⟩ := herror
    exact .of_ok (a := (.error e, s₁.buff)) (by rw [hs]) (by rw [ht, ← hbuff hR]) hR

theorem sync_ignore {R : World σ → World σ → Prop} {m : OsM σ ℤ} (hm : Sync R m m) : Sync R (ignore m) (ignore m) :=
  .bind (sync_orFailure hm) fun _ => .pure _

/-- The end of file character is put by routines that keep step, when both states need it. -/
theorem sync_closeEof {R : World σ → World σ → Prop}
    (hfp : ∀ w w', R w w' → ∃ fcb, w'.fds a = { w.fds a with fcb := fcb })
    (hlseek : Sync R (lseek B a 0 2) (lseek B a 0 2)) (hwrite : Sync R (write B a [EOFCHAR]) (write B a [EOFCHAR])) :
    Sync R (closeEof B a) (closeEof B a) := by
  refine .get fun w w' h => ?_
  obtain ⟨fcb, hfcb⟩ := hfp w w' h
  dsimp only
  rw [hfcb]
  exact Sync.whenever (.bind (.whenever (sync_ignore hlseek)) fun _ => sync_ignore hwrite) w w' h

/-- The end of `close`. -/
theorem sync_closeEnd {R : World σ → World σ → Prop}
    (hinit : ∀ w w', R w w' → R { w with fds := Function.update w.fds a (initCcb a (w.fds a)) }
      { w' with fds := Function.update w'.fds a (initCcb a (w'.fds a)) })
    (hfree : ∀ w w', R w w' → R { w with chvec := w.chvec &&& ~~~(1#32 <<< (a % 64).toNat) }
      { w' with chvec := w'.chvec &&& ~~~(1#32 <<< (a % 64).toNat) }) (rv : Bool) :
    Sync R
      (do
        chinit a
        freec a
        if rv = true then pure 0 else throw Errno.EIO : OsM σ ℤ)
      (do
        chinit a
        freec a
        if rv = true then pure 0 else throw Errno.EIO : OsM σ ℤ) :=
  .bind (.modify hinit) fun _ => .bind (.modify hfree) fun _ => .ite (.pure _) (.throw _)

section

variable (hc : V.users c) (hf : V.names f) (hfg : f ≠ g) (hab : a ≠ b)

include hc hf hfg hab

end

end Calls

/-! ### Runs -/

/-- What a call shows or its error number, and the state after. -/
def ChannelCall.run (B : Osif σ) (fd : ℤ) (w : World σ) (call : ChannelCall) : Except Errno Outcome × World σ :=
  match call.program B fd w with
  | .ok seen w' => (.ok seen, w')
  | .error e w' => (.error e, w')

/-- A call that keeps step shows the same in both states. -/
theorem run_of_syncAt {R : World σ → World σ → Prop} {a : ℤ} {w w' : World σ} {call : ChannelCall}
    (h : SyncAt R (call.program B a) (call.program B a) w w') :
    (call.run B a w').1 = (call.run B a w).1 ∧ R (call.run B a w).2 (call.run B a w').2 := by
  unfold ChannelCall.run
  cases h.ends with
  | inl hok =>
    obtain ⟨seen, w₁, w₁', hw, hw', hR⟩ := hok
    rw [hw, hw']
    exact ⟨rfl, hR⟩
  | inr herror =>
    obtain ⟨e, w₁, w₁', hw, hw', hR⟩ := herror
    rw [hw, hw']
    exact ⟨rfl, hR⟩

variable {a b : ℤ} {w w' wa wb : World σ}

section Overrun

variable {S : RecordStore B} {u : UInt16} {D : ℕ → Option Sector} {s : Io σ} {data : List UInt8}

end Overrun

end Cpm68k.Cpmlib
