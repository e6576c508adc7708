import Cpm68k.Cpmlib.ChannelAlloc

/-!
# Bad descriptors

A call is given a descriptor that does not name an open channel. `_chkc` turns away what is
16 or more, and a channel that is closed; it takes a negative descriptor as an index.

## The model

`Inert m w` says that `m` fails with `EBADF` in every state that has the table of `w`,
whatever lies in memory around it, and changes nothing. So it neither reads nor writes
what lies outside.

## What is proved

* `FdCall.inert_iff` — a call with a bad descriptor is inert if and only if the descriptor
  it looks up is not negative, and is bad too.
* `bad_descriptors` — that, and which error `open` reports when all channels are in use.
* `negative_descriptor` — a call that is not inert, and the wrong error number.
-/

namespace Cpm68k.Cpmlib

open Cpm68k.Library

variable {σ : Type} {B : Osif σ} {w : World σ} {fd : ℤ}

/-- The calls that are given a descriptor. -/
inductive FdCall
  | read (bytes : ℕ)
  | write (buff : List UInt8)
  | lseek (offs sense : ℤ)
  | close
  | fstat
  | isatty
  | stty (argp : Bytes 8)
  | gtty (argp : Bytes 8)

/-- The program of a call, without what it returns. -/
def FdCall.program (B : Osif σ) (fd : ℤ) : FdCall → OsM σ PUnit
  | .read bytes => (fun _ => ⟨⟩) <$> Cpmlib.read B fd bytes
  | .write buff => (fun _ => ⟨⟩) <$> Cpmlib.write B fd buff
  | .lseek offs sense => (fun _ => ⟨⟩) <$> Cpmlib.lseek B fd offs sense
  | .close => (fun _ => ⟨⟩) <$> Cpmlib.close B fd
  | .fstat => (fun _ => ⟨⟩) <$> Cpmlib.fstat B fd
  | .isatty => (fun _ => ⟨⟩) <$> Cpmlib.isatty fd
  | .stty argp => (fun _ => ⟨⟩) <$> Cpmlib.stty fd argp
  | .gtty argp => (fun _ => ⟨⟩) <$> Cpmlib.gtty fd argp

/-- The descriptor that a call looks up. -/
def FdCall.descriptor (fd : ℤ) : FdCall → ℤ
  | .stty _ => toWord fd
  | .gtty _ => toWord fd
  | _ => fd

/-- A write that the call makes on the channel fits its buffer. -/
def FdCall.Fits (fd : ℤ) (w : World σ) : FdCall → Prop
  | .write buff => WriteFits (w.fds fd) buff
  | _ => True

/-- The descriptor names an open channel. -/
def NamesOpen (w : World σ) (fd : ℤ) : Prop := 0 ≤ fd ∧ fd < MAXCCBS ∧ (w.fds fd).flags.OPENED = true

/-- The two states have the same table, allocation bits and operating system. Around the
table memory may differ. -/
structure SameTable (w w' : World σ) : Prop where
  fds : ∀ i : ℤ, 0 ≤ i → i < MAXCCBS → w'.fds i = w.fds i
  chvec : w'.chvec = w.chvec
  os : w'.os = w.os

theorem SameTable.refl (w : World σ) : SameTable w w := ⟨fun _ _ _ => rfl, rfl, rfl⟩

theorem SameTable.namesOpen {w w' : World σ} (h : SameTable w w') : NamesOpen w' fd ↔ NamesOpen w fd := by
  constructor
  · rintro ⟨hge, hlt, hopen⟩
    exact ⟨hge, hlt, h.fds fd hge hlt ▸ hopen⟩
  · rintro ⟨hge, hlt, hopen⟩
    exact ⟨hge, hlt, (h.fds fd hge hlt).symm ▸ hopen⟩

/-- `m` fails with `EBADF` and changes nothing, whatever lies around the table. -/
def Inert {α : Type} (m : OsM σ α) (w : World σ) : Prop := ∀ w', SameTable w w' → m w' = .error .EBADF w'

/-! ### The check -/

theorem chkc_of_not_namesOpen (hge : 0 ≤ fd) (hbad : ¬ NamesOpen w fd) : chkc fd w = .error .EBADF w := by
  have h := wp_chkc w fd
  unfold wp at h
  cases hr : chkc fd w with
  | ok a w' =>
    rw [hr] at h
    exact absurd ⟨hge, h.2.1, h.2.2⟩ hbad
  | error e w' =>
    rw [hr] at h
    rw [h.1, h.2.1]

/-- Every call begins with the check of the descriptor it looks up. -/
theorem FdCall.program_eq (fd : ℤ) (c : FdCall) :
    ∃ rest : PUnit → OsM σ PUnit, c.program B fd = chkc (c.descriptor fd) >>= rest := by
  cases c with
  | read bytes => exact ⟨_, map_bind ..⟩
  | write buff => exact ⟨_, map_bind ..⟩
  | lseek offs sense => exact ⟨_, map_bind ..⟩
  | close => exact ⟨_, map_bind ..⟩
  | fstat => exact ⟨_, map_bind ..⟩
  | isatty => exact ⟨_, map_bind ..⟩
  | stty argp => exact ⟨_, map_bind ..⟩
  | gtty argp => exact ⟨_, map_bind ..⟩

/-- A call that looks up a bad descriptor that is not negative is inert. -/
theorem FdCall.inert (c : FdCall) (hge : 0 ≤ c.descriptor fd) (hbad : ¬ NamesOpen w (c.descriptor fd)) :
    Inert (c.program B fd) w := by
  intro w' hw'
  obtain ⟨rest, hrest⟩ := c.program_eq (B := B) fd
  rw [hrest]
  simp only [bind, EStateM.bind, chkc_of_not_namesOpen hge (mt hw'.namesOpen.mp hbad)]

/-! ### Calls that get past the check -/

theorem not_inert_of_wp {α : Type} {m : OsM σ α} {w' : World σ} (hw' : SameTable w w')
    (h : wp m (fun _ _ => True) (fun e _ => e ≠ .EBADF) w') : ¬ Inert m w := by
  intro hinert
  unfold wp at h
  rw [hinert w' hw'] at h
  exact h rfl

/-- What may lie in memory where a call looks: something that looks like an open channel,
and that the call does not turn away. -/
def FdCall.disguise : FdCall → Flags
  | .write _ => { Flags.none with OPENED := true, ISQUE := true }
  | _ => { Flags.none with OPENED := true, ISTTY := true, ATEOF := true }

/-- On such a channel no call fails with `EBADF`. -/
theorem FdCall.wp_disguised (c : FdCall) (hlt : c.descriptor fd < MAXCCBS)
    (hflags : (w.fds (c.descriptor fd)).flags = c.disguise) :
    wp (c.program B fd) (fun _ _ => True) (fun e _ => e ≠ .EBADF) w := by
  have hopen : (w.fds (c.descriptor fd)).flags.OPENED = true := by
    rw [hflags]
    cases c <;> rfl
  cases c with
  | read bytes =>
    have heof : (w.fds fd).flags.ATEOF = true := congrArg Flags.ATEOF hflags
    dsimp only [descriptor] at hlt hopen
    rw [program, Cpmlib.read, wp_map, wp_bind, wp_chkc_open hlt hopen, onCcbBuff, wp_onCcb, wp_bind, readFp, wp_bind, wp_get]
    simp only [heof, if_true]
    exact trivial
  | write buff =>
    have hread : (w.fds fd).flags.ISREAD = false := congrArg Flags.ISREAD hflags
    have hque : (w.fds fd).flags.ISQUE = true := congrArg Flags.ISQUE hflags
    have htty : (w.fds fd).flags.ISTTY = false := congrArg Flags.ISTTY hflags
    have hlpt : (w.fds fd).flags.ISLPT = false := congrArg Flags.ISLPT hflags
    dsimp only [descriptor] at hlt hopen
    have hfits : WriteFits (w.fds fd) buff := writeFits_of_not fun h => h.2.1 (.inr (.inr hque))
    rw [program, wp_map, wp_write_fits hlt hopen hfits, writeFp, wp_bind, wp_get, wp_ite]
    by_cases hbuff : buff.length = 0
    · rw [if_pos hbuff]
      exact trivial
    · rw [if_neg hbuff]
      simp only [hread, hque, htty, hlpt, wrtchr, wp_bind, wp_get, or_true, if_true, Bool.false_eq_true, if_false, wp_throw]
      decide
  | lseek offs sense =>
    have htty : (w.fds fd).flags.ISTTY = true := congrArg Flags.ISTTY hflags
    dsimp only [descriptor] at hlt hopen
    rw [program, Cpmlib.lseek, wp_map, wp_bind, wp_chkc_open hlt hopen, wp_onCcb, lseekFp, wp_bind, lseekOffset]
    split_ifs
    · exact trivial
    · exact trivial
    · rw [wp_bind, wp_orFailure, fileszFp, wp_bind, wp_get]
      simp only [htty, true_or, if_true]
      exact trivial
    · rw [wp_throw]
      decide
  | close =>
    have htty : (w.fds fd).flags.ISTTY = true := congrArg Flags.ISTTY hflags
    dsimp only [descriptor] at hlt hopen
    rw [program, Cpmlib.close, wp_map, wp_bind, wp_chkc_open hlt hopen, wp_bind, wp_get]
    simp only [htty, true_or, if_true]
    exact trivial
  | fstat =>
    have htty : (w.fds fd).flags.ISTTY = true := congrArg Flags.ISTTY hflags
    dsimp only [descriptor] at hlt hopen
    rw [program, Cpmlib.fstat, wp_map, wp_bind, wp_chkc_open hlt hopen, wp_onCcb, fstatFp, wp_bind, wp_get]
    simp only [htty, true_or, if_true]
    exact trivial
  | isatty =>
    have htty : (w.fds fd).flags.ISTTY = true := congrArg Flags.ISTTY hflags
    dsimp only [descriptor] at hlt hopen
    rw [program, Cpmlib.isatty, wp_map, wp_bind, wp_chkc_open hlt hopen, wp_bind, wp_get, if_neg (by simp [htty])]
    exact trivial
  | stty argp =>
    have htty : (w.fds (toWord fd)).flags.ISTTY = true := congrArg Flags.ISTTY hflags
    dsimp only [descriptor] at hlt hopen
    rw [program, Cpmlib.stty, wp_map, wp_bind, wp_chkc_open hlt hopen, wp_bind, wp_get, if_neg (by simp [htty])]
    exact trivial
  | gtty argp =>
    have htty : (w.fds (toWord fd)).flags.ISTTY = true := congrArg Flags.ISTTY hflags
    dsimp only [descriptor] at hlt hopen
    rw [program, Cpmlib.gtty, wp_map, wp_bind, wp_chkc_open hlt hopen, wp_bind, wp_get, if_neg (by simp [htty])]
    exact trivial

/-- A call with a negative descriptor is not inert: memory below the table may look like an
open channel. -/
theorem FdCall.not_inert_of_neg (c : FdCall) (hneg : c.descriptor fd < 0) : ¬ Inert (c.program B fd) w := by
  have hlt : c.descriptor fd < MAXCCBS := hneg.trans (by decide)
  let w' : World σ :=
    { w with fds := Function.update w.fds (c.descriptor fd) { w.fds (c.descriptor fd) with flags := c.disguise } }
  have hw' : SameTable w w' := ⟨fun i hi _ => Function.update_of_ne (by omega) _ _, rfl, rfl⟩
  refine not_inert_of_wp hw' (c.wp_disguised hlt ?_)
  simp only [w', Function.update_self]

/-- Nor is `stty` or `gtty` when the low half of the descriptor names an open channel. -/
theorem FdCall.not_inert_of_open (c : FdCall) (hbad : ¬ NamesOpen w fd) (hopen : NamesOpen w (c.descriptor fd)) :
    ¬ Inert (c.program B fd) w := by
  refine not_inert_of_wp (SameTable.refl w) ?_
  cases c with
  | stty argp =>
    dsimp only [descriptor] at hopen
    rw [program, Cpmlib.stty, wp_map, wp_bind, wp_chkc_open hopen.2.1 hopen.2.2, wp_bind, wp_get, wp_ite]
    split_ifs
    · show Errno.ENOTTY ≠ .EBADF
      decide
    · exact trivial
  | gtty argp =>
    dsimp only [descriptor] at hopen
    rw [program, Cpmlib.gtty, wp_map, wp_bind, wp_chkc_open hopen.2.1 hopen.2.2, wp_bind, wp_get, wp_ite]
    split_ifs
    · show Errno.ENOTTY ≠ .EBADF
      decide
    · exact trivial
  | _ => exact absurd hopen hbad

/-- **A call with a bad descriptor is inert** if and only if the descriptor it looks up is
not negative, and is bad. -/
theorem FdCall.inert_iff (c : FdCall) (hbad : ¬ NamesOpen w fd) :
    Inert (c.program B fd) w ↔ 0 ≤ c.descriptor fd ∧ ¬ NamesOpen w (c.descriptor fd) := by
  constructor
  · intro h
    refine ⟨?_, fun hopen => c.not_inert_of_open hbad hopen h⟩
    by_contra hneg
    exact c.not_inert_of_neg (not_le.mp hneg) h
  · rintro ⟨hge, hbad'⟩
    exact c.inert hge hbad'

/-! ### All channels in use -/

/-- All channels are in use. -/
def TableFull (w : World σ) : Prop := ∀ i < MAXCCBS, w.chvec.getLsbD i = true

theorem allocc_of_tableFull (h : TableFull w) : (allocc : OsM σ ℤ) w = .error .EMFILE w := by
  have hspec := wp_allocc w
  unfold wp at hspec
  cases hr : (allocc : OsM σ ℤ) w with
  | ok a w' =>
    rw [hr] at hspec
    obtain ⟨k, ⟨hk, hfree, -⟩, -⟩ := hspec
    rw [h k hk] at hfree
    cases hfree
  | error e w' =>
    rw [hr] at hspec
    rw [hspec.1, hspec.2.1]

theorem openChan_of_tableFull (h : TableFull w) (fname : List UInt8) (mode xtype : ℤ) :
    openChan B fname mode xtype w = .error .EMFILE w := by
  simp only [openChan, bind, EStateM.bind, allocc_of_tableFull h]

theorem wp_ignore_of {m : OsM σ ℤ} {Q : PUnit → World σ → Prop} {E : Errno → World σ → Prop} (h : ∀ w', Q ⟨⟩ w') :
    wp (ignore m) Q E w := by
  rw [wp_ignore]
  unfold wp
  split <;> exact h _

/-- Attaching a channel fails as the file that could not be opened. -/
theorem wp_attach_error {E : Errno → World σ → Prop} {failed : OsM σ ℤ} {opened : OsM σ PUnit} (ich : ℤ) (fname : List UInt8)
    (bdosfunc : BdosFunc) (hfailed : ∀ w, wp failed (fun _ _ => True) E w)
    (hopened : ∀ w, wp opened (fun _ _ => True) E w) :
    wp (attach B ich fname bdosfunc failed opened) (fun _ _ => True) E w := by
  rw [attach, wp_ite, wp_ite]
  split_ifs
  · exact trivial
  · exact trivial
  · have hend : ∀ (rv : ℤ) w₁, wp (if rv ≠ 0 then failed else do
        setFlags ich fun f => { f with OPENED := true }
        opened
        pure ich) (fun _ _ => True) E w₁ := by
      intro rv w₁
      rw [wp_ite]
      split_ifs
      · exact hfailed w₁
      · rw [wp_bind, setFlags, wp_modify, wp_bind]
        exact wp_mono (hopened _) (fun _ _ _ => trivial) (fun _ _ h => h)
    rw [wp_bind, wp_onCcb, wp_orFailure]
    exact wp_mono (keepsMode_openFcb _ _ _ _ rfl) (fun _ _ _ => hend _ _) (fun _ _ _ => hend _ _)

/-- `_open` reports that a file is not there, when there is a channel for it. -/
theorem openChan_error (h : ¬ TableFull w) {fname : List UInt8} {mode xtype : ℤ} {e : Errno} {w' : World σ}
    (he : openChan B fname mode xtype w = .error e w') : e = .ENOENT := by
  have hspec : wp (openChan B fname mode xtype) (fun _ _ => True) (fun e _ => e = .ENOENT) w := by
    refine wp_fresh (fun k _ => wp_attach_error _ _ _ (fun _ => rfl) fun w₁ => ?_) fun hfull => absurd hfull h
    rw [wp_bind, wp_get, wp_bind]
    exact wp_ignore_of fun _ => wp_ignore_of fun _ => trivial
  rw [wp, he] at hspec
  exact hspec

/-- With all channels in use, `open` reports `EMFILE` if it is not to create a file that must
not exist, and `EEXIST` if it is. -/
theorem posixOpen_of_tableFull (h : TableFull w) (fname : List UInt8) (oflags : OFlags) :
    ∃ w', posixOpen B fname oflags w =
      .error (if oflags.O_CREAT = true ∧ oflags.O_EXCL = true then .EEXIST else .EMFILE) w' := by
  unfold posixOpen
  simp only [attempt, openChan_of_tableFull h]
  by_cases hc : oflags.O_CREAT = true
  · by_cases hx : oflags.O_EXCL = true
    · simp only [hc, hx, and_self, if_true, if_neg (show Errno.EMFILE ≠ .ENOENT by decide)]
      have hignore : wp (do
          ignore (close B (-1))
          throw Errno.EEXIST : OsM σ ℤ) (fun _ _ => False) (fun e _ => e = .EEXIST) w := by
        rw [wp_bind]
        exact wp_ignore_of fun _ => rfl
      unfold wp at hignore
      split at hignore
      · exact hignore.elim
      · rename_i e w' hr
        exact ⟨w', by rw [hr, hignore]⟩
    · simp only [hc, hx, if_true, if_neg (show Errno.EMFILE ≠ .ENOENT by decide)]
      exact ⟨w, rfl⟩
  · simp only [hc]
    exact ⟨w, rfl⟩

/-- **Bad descriptors.** A call is inert if and only if the descriptor it looks up is bad and
not negative. With all channels in use, `open` reports so if and only if it is not told to
create a file that must not exist; otherwise it never hands a bad descriptor on, since `_open`
only fails when the file is not there. -/
theorem bad_descriptors (B : Osif σ) (w : World σ) :
    (∀ (fd : ℤ) (c : FdCall), ¬ NamesOpen w fd →
      (Inert (c.program B fd) w ↔ 0 ≤ c.descriptor fd ∧ ¬ NamesOpen w (c.descriptor fd))) ∧
    (TableFull w → ∀ (fname : List UInt8) (oflags : OFlags),
      ((∃ w', posixOpen B fname oflags w = .error .EMFILE w') ↔ ¬ (oflags.O_CREAT = true ∧ oflags.O_EXCL = true))) ∧
    (¬ TableFull w → ∀ (fname : List UInt8) (mode xtype : ℤ) (e : Errno) (w' : World σ),
      openChan B fname mode xtype w = .error e w' → e = .ENOENT) := by
  refine ⟨fun fd c hbad => c.inert_iff hbad, fun hfull fname oflags => ?_, fun h fname mode xtype e w' he => openChan_error h he⟩
  obtain ⟨w', hr⟩ := posixOpen_of_tableFull (B := B) hfull fname oflags
  rw [hr]
  constructor
  · rintro ⟨w'', heq⟩ hboth
    rw [if_pos hboth] at heq
    cases heq
  · intro hnot
    exact ⟨w', by rw [if_neg hnot]⟩

/-- All channels in use. -/
def fullTable : World Unit := { coldWorld () with chvec := 0xffff }

theorem tableFull_fullTable : TableFull fullTable := by
  show ∀ i < 16, (0xffff#32).getLsbD i = true
  decide

theorem bad_descriptors_fullTable :
    Inert (FdCall.close.program willingOsif 16) fullTable ∧
      ∃ w', posixOpen willingOsif [0x41] ⟨false, true, true, false, false, false⟩ fullTable = .error .EMFILE w' :=
  ⟨((bad_descriptors willingOsif fullTable).1 16 .close fun h => absurd h.2.1 (by decide)).mpr
      ⟨by decide, fun h => absurd h.2.1 (by decide)⟩,
    ((bad_descriptors willingOsif fullTable).2.1 tableFull_fullTable [0x41] ⟨false, true, true, false, false, false⟩).mpr (by decide)⟩

/-- **Descriptor -1** is looked up: memory that looks like an open terminal makes it one.
With all channels in use `open`, told to create a file that must not exist, closes it, and
reports `EEXIST`. -/
theorem negative_descriptor :
    ¬ Inert (FdCall.isatty.program willingOsif (-1)) (coldWorld ()) ∧
      ∃ w', posixOpen willingOsif [0x41] ⟨false, true, true, true, false, false⟩ fullTable = .error .EEXIST w' := by
  refine ⟨fun h => ?_, _, rfl⟩
  have hw : SameTable (coldWorld ()) { coldWorld () with fds := fun i =>
      if i = -1 then { (coldWorld ()).fds i with flags := FdCall.isatty.disguise } else (coldWorld ()).fds i } :=
    ⟨fun i hi _ => if_neg (by omega), rfl, rfl⟩
  cases h _ hw

end Cpm68k.Cpmlib
