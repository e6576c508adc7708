import Cpm68k.Cpmlib.CcbBytes
import Cpm68k.Cpmlib.FileIo
import Cpm68k.Cpmlib.Parsefn

/-!
# Channels

The channel table, and the calls of the library: `cpmlib/channels.c`, `__open.c`,
`open.c`, `creat.c`, `close.c`, `unlink.c`, `rename.c`, and `read`, `write`, `lseek`,
`fstat`, `isatty`, `stty` and `gtty` with the check of the channel they begin with.

## The model

* The state is the table `_fds`, the allocation bits `_chvec`, and the operating system.
  The table is a function on all integers: what it holds outside 0 to 15 is whatever
  memory lies there. `_chkc` looks there when it is given a negative number.
* A write that `_wrtbin` ends with a move beyond the buffer (`overrun`) goes on in the control
  blocks that follow (`spill`). What lies behind the table is not modelled.
* `1 << ch` is the 68000 instruction, which takes the count modulo 64 and shifts a long word.
* A call that fails ends with its error number as an exception. Where the source goes on
  after a call whatever it returned, the model catches the exception (`ignore`).
* The bits of the `oflags` of `open` are a record of truth values.
* The descriptor of `stty` and `gtty` is a `WORD`: they get the low half of what they are
  given. When `isatty` fails it returns 0.
* `rename` parses its names into one memory area, the second over the end of the first;
  `F_RENAME` is given what each parse left.
-/

namespace Cpm68k.Cpmlib

open Cpm68k.Library

variable {σ : Type} (B : Osif σ)

/-- The state of the library. -/
structure World (σ : Type) where
  /-- The channel control blocks. -/
  fds : ℤ → Ccb
  /-- The channels in use. -/
  chvec : BitVec 32
  /-- The operating system. -/
  os : σ

/-- A call of the library. -/
abbrev OsM (σ : Type) := EStateM Errno (World σ)

/-- `MAXCCBS`. -/
def MAXCCBS : ℕ := 16

/-! ### Allocation -/

/-- The loop of `_allocc`, from channel `i` on, with a number of channels to look at. -/
def alloccLoop : ℕ → ℕ → OsM σ ℤ
  | 0, _ => throw .EMFILE
  | fuel + 1, i => do
    let w ← get
    if w.chvec.getLsbD i = false then do
      set { w with chvec := w.chvec ||| (1#32 <<< i) }
      pure i
    else alloccLoop fuel (i + 1)

/-- `_allocc`. -/
def allocc : OsM σ ℤ := alloccLoop MAXCCBS 0

/-- `_freec`. -/
def freec (ch : ℤ) : OsM σ PUnit :=
  modify fun w => { w with chvec := w.chvec &&& ~~~(1#32 <<< (ch % 64).toNat) }

/-- A channel control block as `__chinit` leaves it: the buffer and the last bytes of the
file control block are not touched. -/
def initCcb (i : ℤ) (ch : Ccb) : Ccb where
  flags := Flags.none
  user := 0
  chan := Int8.ofInt i
  offset := 0
  sector := -1
  hiwater := 0
  fcb := clearFcb ch.fcb
  buffer := ch.buffer

/-- `__chinit`. -/
def chinit (i : ℤ) : OsM σ PUnit :=
  modify fun w => { w with fds := Function.update w.fds i (initCcb i (w.fds i)) }

/-- `_chkc`. -/
def chkc (ch : ℤ) : OsM σ PUnit := do
  let w ← get
  whenever (ch ≥ MAXCCBS) (throw .EBADF)
  whenever ((w.fds ch).flags.OPENED = false) (throw .EBADF)

/-- Run a program on the channel control block `fd`. -/
def onCcb {α : Type} (fd : ℤ) (m : IoM σ α) : OsM σ α := fun w =>
  match m { fp := w.fds fd, os := w.os, buff := [] } with
  | .ok a s => .ok a { w with fds := Function.update w.fds fd s.fp, os := s.os }
  | .error e s => .error e { w with fds := Function.update w.fds fd s.fp, os := s.os }

/-- Run a program on the channel control block `fd`, and give back what it stored for the
user as well. -/
def onCcbBuff (fd : ℤ) (m : IoM σ ℤ) : OsM σ (ℤ × List UInt8) :=
  onCcb fd do
    let n ← m
    let s ← get
    pure (n, s.buff)

/-- Bytes are moved to the memory behind the channel control block `fd`. -/
def spill (fd : ℤ) (bs : List UInt8) : OsM σ PUnit :=
  whenever (bs.length > 0) (modify fun w => { w with fds := spillOver fd bs w.fds })

/-- The call goes on, whatever `m` returned. -/
def ignore (m : OsM σ ℤ) : OsM σ PUnit := do
  let _ ← orFailure m
  pure ⟨⟩

/-! ### Calls on an open channel -/

/-- `lseek`. -/
def lseek (fd offs sense : ℤ) : OsM σ ℤ := do
  chkc fd
  onCcb fd (lseekFp B offs sense)

/-- `read`: what it returns, and what it stores. -/
def read (fd : ℤ) (bytes : ℕ) : OsM σ (ℤ × List UInt8) := do
  chkc fd
  onCcbBuff fd (readFp B bytes)

/-- `write`. -/
def write (fd : ℤ) (buff : List UInt8) : OsM σ ℤ := do
  chkc fd
  let w ← get
  let ret ← onCcb fd (writeFp B buff)
  spill fd (overrun (w.fds fd) buff)
  pure ret

/-- `fstat`. -/
def fstat (fd : ℤ) : OsM σ Stat := do
  chkc fd
  onCcb fd (fstatFp B)

/-- `isatty`. -/
def isatty (fd : ℤ) : OsM σ ℤ := do
  chkc fd
  let w ← get
  if (w.fds fd).flags.ISTTY = false then throw .ENOTTY else pure 1

/-- The conversion of an `int` to `WORD`. -/
def toWord (n : ℤ) : ℤ := n.bmod (2 ^ 16)

/-- `stty`: what it leaves in `*argp`. -/
def stty (fd : ℤ) (_ : Bytes 8) : OsM σ (Bytes 8) := do
  let fd := toWord fd
  chkc fd
  let w ← get
  if (w.fds fd).flags.ISTTY = false then throw .ENOTTY
  -- `blkmove(argp, &(fp->fcb), …)` moves to its first argument
  else pure (w.fds fd).fcb.sgttyb

/-- `gtty`: what it leaves in `*argp`. -/
def gtty (fd : ℤ) (argp : Bytes 8) : OsM σ (Bytes 8) := do
  let fd := toWord fd
  chkc fd
  let w ← get
  if (w.fds fd).flags.ISTTY = false then throw .ENOTTY
  else do
    -- `blkmove(&(fp->fcb), argp, …)` moves to its first argument
    set { w with fds := Function.update w.fds fd { w.fds fd with fcb := (w.fds fd).fcb.setSgttyb argp } }
    pure argp

/-! ### Opening and deleting -/

/-- `(fcbp->fname)[5] |= HIBIT`. -/
def setF6 (fcbp : Fcb) : Fcb := { fcbp with fname := fun i => if i = 5 then fcbp.fname i ||| 0x80 else fcbp.fname i }

/-- The part of `__open` between the parse and the return: the code of the BDOS. -/
def openCall (bdosfunc : BdosFunc) : IoM σ UInt16 := do
  let xuser ← chkuserFp B
  whenever (bdosfunc = .CREATE) do
    let _ ← osif B .DELETE
    pure ⟨⟩
  let s ← get
  whenever (bdosfunc = .OPEN ∧ s.fp.flags.ISREAD = true) (setFp fun fp => { fp with fcb := setF6 fp.fcb })
  let rv ← osif B bdosfunc
  uchkuserFp B xuser
  pure rv

/-- `__open`. -/
def openFcb (filnam : List UInt8) (bdosfunc : BdosFunc) : IoM σ ℤ := do
  let s ← get
  let parsed := parsefn filnam s.fp.fcb
  setFp fun fp => { fp with fcb := parsed.1 }
  whenever (parsed.2 = false) (throw .EINVAL)
  setFp fun fp => { fp with user := if fp.fcb.fuser ≠ 0 then fp.fcb.fuser else fp.user }
  whenever (bdosfunc = .CREATE ∧ hasWildcard parsed.1 = true) (throw .EINVAL)
  let rv ← openCall B bdosfunc
  if bdosfunc = .SEARCHF ∨ bdosfunc = .SEARCHN then pure rv.toInt16.toInt
  else if rv.toInt16 ≤ 3 then pure 0
  else pure (-1)

/-- A channel that has no user number yet gets the one of the name. -/
theorem fuser_of_zero (fuser : Int8) {user : Int8} (huser : user = 0) : (if fuser ≠ 0 then fuser else user) = fuser := by
  split_ifs with h
  · rfl
  · rw [huser, not_not.mp h]

/-- `strcasecmp(s, t) == 0`. -/
def sameName (s t : List UInt8) : Bool := s.map toupper = t.map toupper

/-- `__tname`, `CON:`. -/
def tname : List UInt8 := [0x43, 0x4f, 0x4e, 0x3a]

/-- `__lname`, `LST:`. -/
def lname : List UInt8 := [0x4c, 0x53, 0x54, 0x3a]

/-- Change the flags of a channel. -/
def setFlags (i : ℤ) (f : Flags → Flags) : OsM σ PUnit :=
  modify fun w => { w with fds := Function.update w.fds i { w.fds i with flags := f (w.fds i).flags } }

/-- `READ`, the read mode parameter for open. -/
def READ : ℤ := 0

/-- `WRITE`, the write mode. -/
def WRITE : ℤ := 1

/-- Attach a channel to a name: a device, or a file that `__open` opens or creates. What
follows when that fails differs between `_open` and `_creat`. -/
def attach (ich : ℤ) (fname : List UInt8) (bdosfunc : BdosFunc) (failed : OsM σ ℤ) (opened : OsM σ PUnit) : OsM σ ℤ :=
  if sameName fname tname = true then do
    setFlags ich fun f => { f with ISTTY := true, OPENED := true }
    pure ich
  else if sameName fname lname = true then do
    setFlags ich fun f => { f with ISLPT := true, OPENED := true }
    pure ich
  else do
    let rv ← onCcb ich (orFailure (openFcb B fname bdosfunc))
    if rv ≠ 0 then failed
    else do
      setFlags ich fun f => { f with OPENED := true }
      opened
      pure ich

/-- `_creat`. -/
def creat (fname : List UInt8) (type : ℤ) : OsM σ ℤ := do
  let ich ← allocc
  chinit ich
  setFlags ich fun f => { f with ISASCII := decide (type = 0) }
  attach B ich fname .CREATE (throw .ENOSPC) (pure ⟨⟩)

/-- `creata`. -/
def creata (fname : List UInt8) : OsM σ ℤ := creat B fname 0

/-- `creatb`. -/
def creatb (fname : List UInt8) : OsM σ ℤ := creat B fname 1

/-- `_open`. -/
def openChan (fname : List UInt8) (mode xtype : ℤ) : OsM σ ℤ := do
  let ich ← allocc
  chinit ich
  setFlags ich fun f => { f with ISREAD := decide (mode = READ), ISASCII := decide (xtype = 0) }
  attach B ich fname .OPEN
    (do
      freec ich
      throw .ENOENT)
    (do
      let w ← get
      let chan := (w.fds ich).chan.toInt
      ignore (lseek B chan 0 2)
      ignore (lseek B chan 0 0))

/-- `opena`. -/
def opena (fname : List UInt8) (mode : ℤ) : OsM σ ℤ := openChan B fname mode 0

/-- `openb`. -/
def openb (fname : List UInt8) (mode : ℤ) : OsM σ ℤ := openChan B fname mode 1

/-- `unlink`. -/
def unlink (filename : List UInt8) : OsM σ ℤ := do
  let ch ← allocc
  chinit ch
  let ret ← onCcb ch (orFailure (openFcb B filename .DELETE))
  freec ch
  pure ret

/-- The user number for a renaming, from the file control blocks of the two names. -/
def renameUser (old new : Fcb) : Except Errno Int8 :=
  if new.fuser ≠ 0 then
    if old.fuser ≠ 0 ∧ old.fuser ≠ new.fuser then .error .EINVAL else .ok new.fuser
  else .ok old.fuser

/-- `rename`. -/
def rename (old new : List UInt8) : OsM σ ℤ := fun w =>
  let oldFcb := parsefn old Fcb.zero
  let newFcb := parsefn new Fcb.zero
  if oldFcb.2 = false ∨ newFcb.2 = false then .error .EINVAL w
  else
    match renameUser oldFcb.1 newFcb.1 with
    | .error e => .error e w
    | .ok nuser =>
      let (xuser, os) := chkuser B nuser.toInt16 w.os
      let (rv, os) := B.rename oldFcb.1 newFcb.1 os
      let os := uchkuser B nuser.toInt16 xuser os
      if rv ≠ 0 then .error .ENOENT { w with os := os } else .ok 0 { w with os := os }

/-! ### Closing -/

/-- The dirty buffer is written, and the file control block closed: whether both worked. -/
def closeFcb : IoM σ Bool := do
  let s ← get
  let seccnt ← (if s.fp.flags.DIRTY = true then blkioWrite B s.fp.sector [s.fp.buffer] else pure 1)
  let xuser ← chkuserFp B
  let code ← osif B .CLOSE
  uchkuserFp B xuser
  pure (decide (seccnt = 1 ∧ code &&& 0xff ≠ 0xff))

/-- An ASCII file that was not opened read-only gets its end of file character. -/
def closeEof (fd : ℤ) : OsM σ PUnit := do
  let w ← get
  let fp := w.fds fd
  whenever (fp.flags.ISASCII = true ∧ fp.flags.ISREAD = false) do
    whenever (fp.offset < fp.hiwater) (ignore (lseek B fd 0 2))
    ignore (write B fd [EOFCHAR])

/-- What `close` does for a file. -/
def closeFile (fd : ℤ) : OsM σ Bool := do
  closeEof B fd
  onCcb fd (closeFcb B)

/-- `close`. -/
def close (fd : ℤ) : OsM σ ℤ := do
  chkc fd
  let w ← get
  let rv ← (if (w.fds fd).flags.ISTTY = true ∨ (w.fds fd).flags.ISLPT = true then pure true
    else closeFile B fd)
  chinit fd
  freec fd
  if rv = true then pure 0 else throw Errno.EIO

/-! ### `open` -/

/-- The bits of `oflags`. -/
structure OFlags where
  /-- Open for writing only. -/
  O_WRONLY : Bool
  /-- Open for reading and writing. -/
  O_RDWR : Bool
  /-- Create the file when it does not exist. -/
  O_CREAT : Bool
  /-- Fail when the file exists. -/
  O_EXCL : Bool
  /-- Start at the end of the file. -/
  O_APPEND : Bool
  /-- A binary file. -/
  O_BINARY : Bool

/-- Append mode is emulated by a seek to the end. -/
def openAppend (oflags : OFlags) (ret : ℤ) : OsM σ ℤ := do
  whenever (ret ≠ -1 ∧ oflags.O_APPEND = true) (ignore (lseek B ret 0 2))
  pure ret

/-- `m`, and what is done with the channel it returns or with its error number. -/
def attempt (m : OsM σ ℤ) (ok : ℤ → OsM σ ℤ) (failed : Errno → OsM σ ℤ) : OsM σ ℤ := fun w =>
  match m w with
  | .ok ret w' => ok ret w'
  | .error e w' => failed e w'

/-- `open`. -/
def posixOpen (fname : List UInt8) (oflags : OFlags) : OsM σ ℤ :=
  let rdonly := oflags.O_WRONLY = false ∧ oflags.O_RDWR = false
  let mode := if rdonly then READ else 0
  let xtype := if oflags.O_BINARY = true then 1 else 0
  attempt (openChan B fname mode xtype)
    (fun ret =>
      if oflags.O_CREAT = true ∧ oflags.O_EXCL = true then do
        ignore (close B ret)
        throw .EEXIST
      else openAppend B oflags ret)
    (fun errno =>
      if oflags.O_CREAT = true then
        if errno = .ENOENT then
          if rdonly then throw .EINVAL
          else do
            let ret ← creat B fname xtype
            openAppend B oflags ret
        else if oflags.O_EXCL = true then do
          ignore (close B (-1))
          throw .EEXIST
        else throw errno
      else throw errno)

end Cpm68k.Cpmlib
