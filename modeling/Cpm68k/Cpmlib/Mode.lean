import Cpm68k.Cpmlib.Coupling

/-!
# What the routines of an open channel never change

Reading, writing and seeking set and clear `ATEOF` and `DIRTY`; the other flags of a
channel and its number are fixed when it is opened (`Ccb.mode`), whatever the BDOS does.

## What is proved

* `KeepsFp.blkioRead`, `KeepsFp.readBuffer`, … — what the transfers do not change.
* `keepsMode_readFp`, `keepsMode_writeFp`, … — no routine on a channel changes its mode.
* `Raises.readBuffer`, `Raises.flush`, … — a transfer fails with `EIO` only.
-/

namespace Cpm68k.Cpmlib

open Cpm68k.Library

variable {σ : Type} {B : Osif σ}

/-- A program that does not change `g` of the channel control block, however it ends. -/
def KeepsFp {γ : Type} (g : Ccb → γ) {α : Type} (m : IoM σ α) : Prop := ∀ x, Keeps (fun s => g s.fp = x) m

namespace KeepsFp

variable {γ α β : Type} {g : Ccb → γ}

theorem pure (a : α) : KeepsFp g (pure a : IoM σ α) := fun _ => Keeps.pure a

theorem throw (e : Errno) : KeepsFp g (throw e : IoM σ α) := fun _ => Keeps.throw e

theorem get : KeepsFp g (get : IoM σ (Io σ)) := fun _ => Keeps.get

theorem bind {m : IoM σ α} {f : α → IoM σ β} (hm : KeepsFp g m) (hf : ∀ a, KeepsFp g (f a)) : KeepsFp g (m >>= f) :=
  fun x => (hm x).bind fun a => hf a x

theorem ite {p : Prop} [Decidable p] {m m' : IoM σ α} (hm : KeepsFp g m) (hm' : KeepsFp g m') :
    KeepsFp g (if p then m else m') := fun x => (hm x).ite (hm' x)

theorem whenever {p : Prop} [Decidable p] {m : IoM σ PUnit} (hm : KeepsFp g m) : KeepsFp g (whenever p m) :=
  fun x => (hm x).whenever

theorem setFp {f : Ccb → Ccb} (h : ∀ fp, g (f fp) = g fp) : KeepsFp g (setFp f : IoM σ PUnit) :=
  fun _ => Keeps.modify fun s hs => (h s.fp).trans hs

/-- A step that touches at most the file control block of the channel. -/
theorem of_eq {m : IoM σ α} (h : ∀ s, ∃ a s', m s = .ok a s' ∧ g s'.fp = g s.fp) : KeepsFp g m := by
  intro x s hs
  obtain ⟨a, s', hm, hmode⟩ := h s
  rw [wp_of_eq_ok hm]
  exact hmode.trans hs

theorem orFailure {m : IoM σ ℤ} (hm : KeepsFp g m) : KeepsFp g (orFailure m) := by
  intro x s hs
  have h := hm x s hs
  unfold wp at h ⊢
  unfold Cpmlib.orFailure
  cases hr : m s <;> rw [hr] at h <;> exact h

/-! Transfers change the file control block, and reading into the buffer the buffer. -/

section

variable (hfcb : ∀ fp fcb, g { fp with fcb := fcb } = g fp)

include hfcb

theorem readLoop (sector : ℤ) (count : ℕ) : KeepsFp g (readLoop B sector count) := by
  induction count generalizing sector with
  | zero => exact .pure _
  | succ count ih =>
    refine .bind (.setFp fun _ => hfcb _ _) fun _ => .bind (.of_eq fun _ => ⟨_, _, rfl, hfcb _ _⟩) fun retcode => ?_
    cases retcode with
    | error code => exact .pure _
    | ok record => exact .bind (ih _) fun _ => .pure _

theorem writeLoop (sector : ℤ) (buffer : List Sector) : KeepsFp g (writeLoop B sector buffer) := by
  induction buffer generalizing sector with
  | nil => exact .pure _
  | cons record buffer ih =>
    refine .bind (.setFp fun _ => hfcb _ _) fun _ => .bind (.of_eq fun _ => ⟨_, _, rfl, hfcb _ _⟩) fun retcode => ?_
    exact .ite (.pure _) (.bind (ih _) fun _ => .pure _)

theorem blkioRead (sector : ℤ) (count : ℕ) : KeepsFp g (blkioRead B sector count) :=
  .bind (.of_eq fun _ => ⟨_, _, rfl, rfl⟩) fun _ => .bind (readLoop hfcb _ _) fun _ =>
    .bind (.of_eq fun _ => ⟨_, _, rfl, rfl⟩) fun _ => .pure _

theorem blkioWrite (sector : ℤ) (buffer : List Sector) : KeepsFp g (blkioWrite B sector buffer) :=
  .bind (.of_eq fun _ => ⟨_, _, rfl, rfl⟩) fun _ => .bind (writeLoop hfcb _ _) fun _ =>
    .bind (.of_eq fun _ => ⟨_, _, rfl, rfl⟩) fun _ => .pure _

theorem writeBuffer (sector : ℤ) : KeepsFp g (writeBuffer B sector) :=
  .bind .get fun _ => .bind (blkioWrite hfcb _ _) fun _ => .whenever (.throw _)

variable (hbuf : ∀ fp buffer, g { fp with buffer := buffer } = g fp)

include hbuf

theorem readBuffer (xsector : ℤ) : KeepsFp g (readBuffer B xsector) := by
  refine .bind (blkioRead hfcb _ _) fun records => ?_
  split
  · exact .bind (.setFp fun _ => hbuf _ _) fun _ => .pure _
  · exact .pure _

theorem prepareBuffer (xsector : ℤ) : KeepsFp g (prepareBuffer B xsector) :=
  .bind .get fun _ => .ite (.setFp fun _ => hbuf _ _) (.bind (readBuffer hfcb hbuf _) fun _ => .whenever (.throw _))

end

end KeepsFp

/-- A program that changes neither the fixed flags nor the channel number. -/
abbrev KeepsMode {α : Type} (m : IoM σ α) : Prop := KeepsFp Ccb.mode m

theorem keepsMode_chkuserFp : KeepsMode (chkuserFp B) := .of_eq fun _ => ⟨_, _, rfl, rfl⟩

theorem keepsMode_uchkuserFp (xuser : Int16) : KeepsMode (uchkuserFp B xuser) := .of_eq fun _ => ⟨_, _, rfl, rfl⟩

theorem keepsMode_osif (bdosfunc : BdosFunc) : KeepsMode (osif B bdosfunc) := .of_eq fun _ => ⟨_, _, rfl, rfl⟩

/-- Whatever the BDOS answers, a channel keeps its mode. -/
theorem coupled_mode (B : Osif σ) (x : Flags × Int8) : Coupled B B (Diag fun fp _ => fp.mode = x) := by
  have hmode : ∀ {fp fp' : Ccb} {os os' : σ}, Diag (fun fp _ => fp.mode = x) fp os os' → fp'.fixed = fp.fixed →
      Diag (fun fp _ => fp.mode = x) fp' os os' :=
    fun h hfixed => ⟨h.1, (congrArg Prod.fst hfixed).trans h.2⟩
  have hbracketed : Bracketed B B (Diag fun fp _ => fp.mode = x) (fun fp _ => Diag (fun fp _ => fp.mode = x) fp) := by
    refine ⟨hmode, hmode, ?_, ?_, ?_, ?_, ?_⟩
    · rintro fp os _ ⟨rfl, h⟩
      exact ⟨rfl, rfl, h⟩
    · rintro fp xuser os _ ⟨rfl, h⟩
      exact ⟨rfl, h⟩
    · rintro fp xuser os _ g ⟨rfl, h⟩
      exact ⟨rfl, rfl, rfl, h⟩
    · rintro fp xuser os _ ⟨rfl, h⟩
      exact ⟨rfl, rfl, rfl, h⟩
    · rintro fp xuser os _ record ⟨rfl, h⟩
      exact ⟨rfl, rfl, rfl, h⟩
  have hconsole : ∀ fp : Ccb, ConsoleKeeps B fun _ => fp.mode = x := fun _ => .const
  exact hbracketed.coupled (fun bytes s t _ h => sync_of_keeps (keeps_ttyin hconsole (fun _ _ h => h) bytes) s t h)
    fun data s t _ h => sync_of_keeps (keeps_wrtchr hconsole data) s t h

/-- `read` changes neither the fixed flags nor the channel number. -/
theorem keepsMode_readFp (bytes : ℕ) : KeepsMode (readFp B bytes) := fun x => keeps_of_sync ((coupled_mode B x).readFp bytes)

/-- `write` changes neither the fixed flags nor the channel number. -/
theorem keepsMode_writeFp (data : List UInt8) : KeepsMode (writeFp B data) :=
  fun x => keeps_of_sync ((coupled_mode B x).writeFp data)

theorem keepsMode_lseekFp (offs sense : ℤ) : KeepsMode (lseekFp B offs sense) :=
  fun x => keeps_of_sync ((coupled_mode B x).lseekFp offs sense)

theorem keepsMode_fstatFp : KeepsMode (fstatFp B) := fun x => keeps_of_sync (coupled_mode B x).fstatFp

theorem keepsMode_closeFcb : KeepsMode (closeFcb B) := fun x => keeps_of_sync (coupled_mode B x).closeFcb

theorem keepsMode_openCall (bdosfunc : BdosFunc) : KeepsMode (openCall B bdosfunc) := by
  refine .bind keepsMode_chkuserFp fun _ => .bind (.whenever (.bind (keepsMode_osif _) fun _ => .pure _)) fun _ => ?_
  exact .bind .get fun _ => .bind (.whenever (.setFp fun _ => rfl)) fun _ => .bind (keepsMode_osif _) fun _ =>
    .bind (keepsMode_uchkuserFp _) fun _ => .pure _

theorem keepsMode_openFcb (filnam : List UInt8) (bdosfunc : BdosFunc) : KeepsMode (openFcb B filnam bdosfunc) := by
  refine .bind .get fun _ => .bind (.setFp fun _ => rfl) fun _ => .bind (.whenever (.throw _)) fun _ => ?_
  refine .bind (.setFp fun _ => rfl) fun _ => .bind (.whenever (.throw _)) fun _ => ?_
  exact .bind (keepsMode_openCall _) fun _ => .ite (.pure _) (.ite (.pure _) (.pure _))

/-! ### The errors of a transfer -/

section

variable {P : Errno → Prop}

theorem Raises.blkioRead (sector : ℤ) (count : ℕ) : Raises P (blkioRead B sector count) :=
  .bind (.of_ok fun _ => ⟨_, _, rfl⟩) fun _ => .bind (.of_ok (readLoop_total sector count)) fun _ =>
    .bind (.modify _) fun _ => .pure _

theorem Raises.blkioWrite (sector : ℤ) (buffer : List Sector) : Raises P (blkioWrite B sector buffer) :=
  .bind (.of_ok fun _ => ⟨_, _, rfl⟩) fun _ => .bind (.of_ok (writeLoop_total sector buffer)) fun _ =>
    .bind (.modify _) fun _ => .pure _

theorem Raises.readBuffer (xsector : ℤ) : Raises P (readBuffer B xsector) := by
  refine .bind (Raises.blkioRead _ _) fun records => ?_
  split
  · exact .bind (.modify _) fun _ => .pure _
  · exact .pure _

variable (heio : P Errno.EIO)

include heio

theorem Raises.writeBuffer (sector : ℤ) : Raises P (writeBuffer B sector) :=
  .bind .get fun _ => .bind (Raises.blkioWrite _ _) fun _ => .whenever (.throw heio)

theorem Raises.flush : Raises P (flush B) := .bind .get fun _ => .whenever (.bind (Raises.writeBuffer heio _) fun _ => .modify _)

end

end Cpm68k.Cpmlib
