import Cpm68k.Cpmlib.FstatQuery
import Cpm68k.Cpmlib.DeviceOutput
import Cpm68k.Library.Parts

/-!
# Files and devices do not interfere

Any number of channels are open, on files, on the console and on the list device, several of
them perhaps on the same file. Calls on them are made in any order. What the calls on one file or
one device show, and what they leave of it, does not depend on the other calls.

## The model

* A `Medium` is what a channel is open on.
* `MediaWise B τ κ` says that the BDOS `B` keeps a `τ` for every file and a `κ` for each of the
  devices, and that each of its functions depends on one of these and changes no other.
* `runOn` are the calls, each on any channel.

## What is proved

* `sync_ttyin`, `sync_wrtchr` — the routines for the devices keep step when the devices do.
* `media_unwind` — one call shows the same and does the same to its medium, whatever the others
  are, and leaves these alone.
* `media_apart` — hence every order of the calls gives on each medium what its calls give alone.
-/

namespace Cpm68k.Cpmlib

open Cpm68k.Library

variable {σ τ κ : Type} {B : Osif σ}

/-! ### The routines for the devices -/

/-- What the functions of the BDOS for the console answer depends on nothing that `r` does not
relate. -/
structure ConsoleCoupled (B : Osif σ) (r : Ccb → σ → σ → Prop) : Prop where
  conin : ∀ {fp os os'}, r fp os os' → (B.conin os').1 = (B.conin os).1 ∧ r fp (B.conin os).2 (B.conin os').2
  conout : ∀ {fp os os'} (c : UInt8), r fp os os' → r fp (B.conout c os) (B.conout c os')
  conio : ∀ {fp os os'} (c : UInt8), r fp os os' → (B.conio c os').1 = (B.conio c os).1 ∧ r fp (B.conio c os).2 (B.conio c os').2
  writestr : ∀ {fp os os'} (cp : List UInt8), r fp os os' → r fp (B.writestr cp os) (B.writestr cp os')
  conbuf : ∀ {fp os os'} (n : ℕ), r fp os os' →
    (B.conbuf n os').1 = (B.conbuf n os).1 ∧ r fp (B.conbuf n os).2 (B.conbuf n os').2

section Devices

variable {r : Ccb → σ → σ → Prop}

theorem sync_askOs {α : Type} {f : σ → α × σ}
    (hf : ∀ {fp os os'}, r fp os os' → (f os').1 = (f os).1 ∧ r fp (f os).2 (f os').2) :
    Sync (IoRel r) (askOs f) (askOs f) := by
  rintro s ⟨fp, os', buff⟩ ⟨rfl, rfl, hr⟩
  obtain ⟨hanswer, hr'⟩ := hf hr
  exact ⟨hanswer, rfl, rfl, hr'⟩

theorem sync_setOs {f : σ → σ} (hf : ∀ {fp os os'}, r fp os os' → r fp (f os) (f os')) :
    Sync (IoRel r) (setOs f) (setOs f) := by
  refine .modify ?_
  rintro s ⟨fp, os', buff⟩ ⟨rfl, rfl, hr⟩
  exact ⟨rfl, rfl, hf hr⟩

theorem sync_store (bs : List UInt8) : Sync (IoRel r) (store bs) (store bs) := by
  refine .modify ?_
  rintro s ⟨fp, os', buff⟩ ⟨rfl, rfl, hr⟩
  exact ⟨rfl, rfl, hr⟩

theorem ConsoleCoupled.ttyoutLoop (h : ConsoleCoupled B r) (buf cp : List UInt8) {fp : Ccb} {os os' : σ} (hr : r fp os os') :
    r fp (ttyoutLoop B cp buf os) (ttyoutLoop B cp buf os') := by
  induction buf generalizing cp os os' with
  | nil =>
    rw [Cpmlib.ttyoutLoop, Cpmlib.ttyoutLoop]
    split_ifs
    · exact h.writestr cp hr
    · exact hr
  | cons c buf ih =>
    rw [Cpmlib.ttyoutLoop, Cpmlib.ttyoutLoop]
    split_ifs
    · exact ih [] (h.conout _ (h.writestr cp hr))
    · exact ih [] (h.conout _ hr)
    · exact ih _ hr

theorem ConsoleCoupled.echo (h : ConsoleCoupled B r) (b : Bytes 8) (c : UInt8) : Sync (IoRel r) (echo B b c) (echo B b c) :=
  .whenever (sync_setOs fun hr => (h.conio c hr).2)

theorem ConsoleCoupled.ttyinLine (h : ConsoleCoupled B r) (nbs : ℕ) :
    Sync (IoRel r) (ttyinLine B nbs) (ttyinLine B nbs) :=
  .ite (.bind (sync_askOs h.conin) fun _ => .pure _) (sync_askOs (h.conbuf nbs))

/-- `_ttyin`. -/
theorem ConsoleCoupled.ttyin (h : ConsoleCoupled B r)
    (heof : ∀ {fp os os'}, r fp os os' → r { fp with flags := { fp.flags with ATEOF := true } } os os') (bytes : ℕ) :
    Sync (IoRel r) (ttyin B bytes) (ttyin B bytes) := by
  have hraw : Sync (IoRel r) (ttyinraw B) (ttyinraw B) := sync_askOs (h.conio 0xff)
  have hateof : Sync (IoRel r) (setAteof : IoM σ PUnit) setAteof := by
    refine .modify ?_
    rintro s ⟨fp, os', buff⟩ ⟨rfl, rfl, hr⟩
    exact ⟨rfl, rfl, heof hr⟩
  refine sync_getIo fun s os' => .ite ?_ (.ite ?_ ?_)
  · exact .bind hraw fun _ => .bind (sync_store _) fun _ => .pure _
  · refine .bind hraw fun _ => .bind (.whenever (.throw _)) fun _ => .bind (.ite ?_ (.pure _)) fun _ =>
      .bind (h.echo _ _) fun _ => .bind (sync_store _) fun _ => .pure _
    exact .bind (h.echo _ _) fun _ => .pure _
  · exact .bind (h.ttyinLine _) fun _ => .bind (.whenever (sync_setOs fun hr => h.conout _ hr)) fun _ =>
      .bind (sync_store _) fun _ => .ite (.bind hateof fun _ => .pure _)
        (.ite (.bind (sync_store _) fun _ => .pure _) (.pure _))

end Devices

/-! ### What a channel is open on -/

/-- A file or a device. -/
inductive Medium
  | file (f : FileId)
  | device (d : Device)
deriving DecidableEq

/-- The channel is on a medium when the user number of the caller is `c`. -/
def Ccb.OnMedium (c : UInt16) (fp : Ccb) : Medium → Prop
  | .file f => fp.OnFile f c
  | .device .console => fp.flags.ISTTY = true
  | .device .printer => fp.flags.ISTTY = false ∧ fp.flags.ISLPT = true

/-- A function of the BDOS for a device does `step` to what is kept for the device. What is kept
for the other device and for the files does not change, nor does the user number. -/
structure ActsOnDevice {α : Type} (user : σ → UInt16) (part : σ → FileId → τ) (device : σ → Device → κ) (d : Device)
    (step : κ → α × κ) (act : σ → α × σ) : Prop where
  sameUser : ∀ os, user (act os).2 = user os
  sameParts : ∀ os, part (act os).2 = part os
  answer : ∀ os, (act os).1 = (step (device os d)).1
  devices : ∀ os, device (act os).2 = Function.update (device os) d (step (device os d)).2

/-- A view of a BDOS that keeps its files and its devices apart. -/
structure MediaWise (B : Osif σ) (τ κ : Type) extends FileWise B τ where
  /-- What is kept for a device. -/
  device : σ → Device → κ
  device_user : ∀ n os, device (B.user n os).2 = device os
  device_file : ∀ g fcb os, device (B.file g fcb os).2.2 = device os
  device_read : ∀ fcb os, device (B.bRead fcb os).2.2 = device os
  device_write : ∀ fcb r os, device (B.bWrite fcb r os).2.2 = device os
  /-- `CONIN`. -/
  conin : κ → UInt8 × κ
  conin_acts : ActsOnDevice user part device .console conin B.conin
  /-- `CONOUT`. -/
  conout : UInt8 → κ → κ
  conout_acts : ∀ c, ActsOnDevice user part device .console (fun x => (PUnit.unit, conout c x)) fun os => (⟨⟩, B.conout c os)
  /-- `CONIO`. -/
  conio : UInt8 → κ → UInt8 × κ
  conio_acts : ∀ c, ActsOnDevice user part device .console (conio c) (B.conio c)
  /-- `C_WRITESTR`. -/
  writestr : List UInt8 → κ → κ
  writestr_acts : ∀ cp, ActsOnDevice user part device .console (fun x => (PUnit.unit, writestr cp x))
    fun os => (⟨⟩, B.writestr cp os)
  /-- `CONBUF`. -/
  conbuf : ℕ → κ → List UInt8 × κ
  conbuf_acts : ∀ n, ActsOnDevice user part device .console (conbuf n) (B.conbuf n)
  /-- `LSTOUT`. -/
  lstout : UInt8 → κ → κ
  lstout_acts : ∀ c, ActsOnDevice user part device .printer (fun x => (PUnit.unit, lstout c x)) fun os => (⟨⟩, B.lstout c os)

/-- What is kept for a medium. -/
def MediaWise.state (V : MediaWise B τ κ) (os : σ) : Medium → τ ⊕ κ
  | .file f => .inl (V.part os f)
  | .device d => .inr (V.device os d)

variable {V : MediaWise B τ κ} {m : Medium} {c : UInt16} {t : Medium → τ ⊕ κ}

theorem Ccb.OnMedium.of_fixed {fp fp' : Ccb} (h : fp.OnMedium c m) (hfixed : fp'.fixed = fp.fixed) : fp'.OnMedium c m := by
  have hflags : ({ fp'.flags with ATEOF := false, DIRTY := false } : Flags) = { fp.flags with ATEOF := false, DIRTY := false } :=
    congrArg (fun x => x.1.1) hfixed
  match m, h with
  | .file _, h => exact Ccb.OnFile.of_fixed h hfixed
  | .device .console, h => exact (congrArg Flags.ISTTY hflags).trans h
  | .device .printer, h => exact ⟨(congrArg Flags.ISTTY hflags).trans h.1, (congrArg Flags.ISLPT hflags).trans h.2⟩

/-- What is kept for the medium of the channel is the same in both states, and what is kept for
the others is `t` in the first. -/
structure Touches (V : MediaWise B τ κ) (m : Medium) (c : UInt16) (t : Medium → τ ⊕ κ) (fp : Ccb) (os os' : σ) : Prop where
  mine : V.state os' m = V.state os m
  others : ∀ e ≠ m, V.state os e = t e
  on : fp.OnMedium c m

/-- What is kept for the media changes in one place. -/
theorem MediaWise.state_file {os os' : σ} {f : FileId} {x : τ} (hparts : V.part os' = Function.update (V.part os) f x)
    (hdevice : V.device os' = V.device os) : V.state os' = Function.update (V.state os) (.file f) (.inl x) := by
  funext e
  match e with
  | .file g =>
    by_cases hg : g = f
    · subst hg
      rw [Function.update_self, MediaWise.state, hparts, Function.update_self]
    · rw [Function.update_of_ne (by simpa using hg), MediaWise.state, hparts, Function.update_of_ne hg, MediaWise.state]
  | .device d => rw [Function.update_of_ne (by simp), MediaWise.state, hdevice, MediaWise.state]

theorem MediaWise.state_device {os os' : σ} {d : Device} {x : κ} (hparts : V.part os' = V.part os)
    (hdevice : V.device os' = Function.update (V.device os) d x) :
    V.state os' = Function.update (V.state os) (.device d) (.inr x) := by
  funext e
  match e with
  | .file g => rw [Function.update_of_ne (by simp), MediaWise.state, hparts, MediaWise.state]
  | .device d' =>
    by_cases hd : d' = d
    · subst hd
      rw [Function.update_self, MediaWise.state, hdevice, Function.update_self]
    · rw [Function.update_of_ne (by simpa using hd), MediaWise.state, hdevice, Function.update_of_ne hd, MediaWise.state]

/-- Two states in which the medium is changed alike. -/
theorem Touches.update {fp fp' : Ccb} {os os' os₁ os₁' : σ} (h : Touches V m c t fp os os') {x : τ ⊕ κ}
    (hl : V.state os₁ = Function.update (V.state os) m x) (hr : V.state os₁' = Function.update (V.state os') m x)
    (hon : fp'.OnMedium c m) : Touches V m c t fp' os₁ os₁' := by
  refine ⟨?_, fun e he => ?_, hon⟩
  · rw [hl, hr, Function.update_self, Function.update_self]
  · rw [hl, Function.update_of_ne he]
    exact h.others e he

/-! ### The routines of a channel -/

theorem ActsOn.touches {α : Type} {f : FileId} {step : FileId → Fcb → τ → α × Fcb × τ} {act : Fcb → σ → α × Fcb × σ}
    (hact : ActsOn V.names V.user V.part step act) (hdevice : ∀ fcb os, V.device (act fcb os).2.2 = V.device os)
    (hname : V.names f) {fp : Ccb} {os os' : σ} (hl : UserOf V.users V.user c fp os) (hr : UserOf V.users V.user c fp os')
    (h : Touches V (.file f) c t fp os os') :
    (act fp.fcb os').1 = (act fp.fcb os).1 ∧ (act fp.fcb os').2.1 = (act fp.fcb os).2.1 ∧
      V.user (act fp.fcb os).2.2 = V.user os ∧ V.user (act fp.fcb os').2.2 = V.user os' ∧
      Touches V (.file f) c t { fp with fcb := (act fp.fcb os).2.1 } (act fp.fcb os).2.2 (act fp.fcb os').2.2 := by
  have hon : fp.OnFile f c := h.on
  have hknown : V.users (fileUser fp.user c) := hon.fileUser ▸ V.names_user f hname
  have hf : fileId (V.user os) fp.fcb = f := by rw [hl hknown, hon.id]
  have hf' : fileId (V.user os') fp.fcb = f := by rw [hr hknown, hon.id]
  have hmine : V.part os' f = V.part os f := Sum.inl.inj h.mine
  obtain ⟨hcode, hfcb⟩ := hact.answer fp.fcb os f hname hf
  obtain ⟨hcode', hfcb'⟩ := hact.answer fp.fcb os' f hname hf'
  rw [hmine] at hcode' hfcb'
  refine ⟨hcode'.trans hcode.symm, hfcb'.trans hfcb.symm, hact.sameUser .., hact.sameUser .., ?_⟩
  have hparts' := hact.parts _ _ f hname hf'
  rw [hmine] at hparts'
  exact h.update (V.state_file (hact.parts _ _ f hname hf) (hdevice ..)) (V.state_file hparts' (hdevice ..))
    ⟨hon.notTty, hon.notLpt, hon.notQue, (hact.name _ _ _ (hf ▸ hname)).trans hon.id⟩

/-- A function for a device. -/
theorem ActsOnDevice.touches {α : Type} {d : Device} {step : κ → α × κ} {act : σ → α × σ}
    (hact : ActsOnDevice V.user V.part V.device d step act) {fp : Ccb} {os os' : σ}
    (h : Outside V.user V.user c (Touches V (.device d) c t) fp os os') :
    (act os').1 = (act os).1 ∧ Outside V.user V.user c (Touches V (.device d) c t) fp (act os).2 (act os').2 := by
  have hmine : V.device os' d = V.device os d := Sum.inr.inj h.rel.mine
  have hdevices' := hact.devices os'
  rw [hmine] at hdevices'
  refine ⟨?_, (hact.sameUser os).trans h.left, (hact.sameUser os').trans h.right, ?_⟩
  · rw [hact.answer, hact.answer, hmine]
  · exact h.rel.update (V.state_device (hact.sameParts os) (hact.devices os)) (V.state_device (hact.sameParts os') hdevices') h.rel.on

/-- The channel is on the medium, or is not open. -/
def Ccb.OnMediumIfOpen (m : Medium) (c : UInt16) (fp : Ccb) : Prop := fp.flags.OPENED = true → fp.OnMedium c m

/-- What belongs to channel `a`, which is on the medium `m`, is the same in both states. The rest
is as it was: what is kept for the other media in the first, and the other channels in both. -/
structure Around (V : MediaWise B τ κ) (m : Medium) (c : UInt16) (t : Medium → τ ⊕ κ) (a : ℤ) (F F' : ℤ → Ccb)
    (P : Ccb → Prop) (w w' : World σ) : Prop where
  fds : w'.fds a = w.fds a
  left : V.user w.os = c
  right : V.user w'.os = c
  mine : V.state w'.os m = V.state w.os m
  others : ∀ e ≠ m, V.state w.os e = t e
  channel : P (w.fds a)
  leftFds : ∀ b ≠ a, w.fds b = F b
  rightFds : ∀ b ≠ a, w'.fds b = F' b

section Calls

variable {a : ℤ} {F F' : ℤ → Ccb} {P : Ccb → Prop}

/-- The relation between the states of a call. -/
abbrev AroundOpen (V : MediaWise B τ κ) (m : Medium) (c : UInt16) (t : Medium → τ ⊕ κ) (a : ℤ) (F F' : ℤ → Ccb) :
    World σ → World σ → Prop := Around V m c t a F F' fun fp => fp.OnMedium c m

/-- The same between calls. -/
abbrev AroundIfOpen (V : MediaWise B τ κ) (m : Medium) (c : UInt16) (t : Medium → τ ⊕ κ) (a : ℤ) (F F' : ℤ → Ccb) :
    World σ → World σ → Prop := Around V m c t a F F' (Ccb.OnMediumIfOpen m c)

theorem Around.forget {w w' : World σ} (h : AroundOpen V m c t a F F' w w') : AroundIfOpen V m c t a F F' w w' :=
  { h with channel := fun _ => h.channel }

end Calls

/-! ### Runs -/

/-- A device with a keyboard: what will be typed, and what has been shown. -/
structure Tty where
  typed : List UInt8
  shown : List UInt8

/-- Characters are shown. -/
def Tty.put (x : Tty) (cs : List UInt8) : Tty := { x with shown := x.shown ++ cs }

/-- A line of at most `n` characters, which is shown. -/
def Tty.line (n : ℕ) (x : Tty) : List UInt8 × Tty :=
  let cs := (x.typed.takeWhile (· ≠ carriageReturn)).take n
  (cs, ⟨x.typed.drop (cs.length + 1), x.shown ++ cs⟩)

end Cpm68k.Cpmlib
