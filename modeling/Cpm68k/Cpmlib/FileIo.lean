import Cpm68k.Cpmlib.Console

/-!
# Reading, writing and seeking on a channel

`_rdbin`, `_wrtbin`, `_rdasc`, `_wrtasc` and `_filesz`, and the parts of `read`, `write`,
`lseek` and `fstat` that come after the check of the channel.

## The model

* The loops that move bytes between the buffer and the user are list operations: the bytes
  of a sector from a position on, as many as are asked for.
* The loops over sectors of `_rdasc` and `_wrtasc` are recursions on a bound that the
  offset of a 32-bit file, or the length of the request, cannot exceed.
* `OFFSECT` and `HIWSECT` are the byte offsets of the sectors that hold the offset and the
  last byte below the high water mark.
* A count of type `size_t` is a natural number.
* What the last move of `_wrtbin` puts behind the buffer (`overrun`) is not part of the channel. It
  is moved by `write`, which has the control blocks that follow.
-/

namespace Cpm68k.Cpmlib

open Cpm68k.Library

variable {σ : Type} (B : Osif σ)

/-- `fp->offset & ~(SECSIZ-1)`. -/
def OFFSECT (fp : Ccb) : ℤ := fp.offset / 128 * 128

/-- `(fp->hiwater-1) & ~(SECSIZ-1)`. -/
def HIWSECT (fp : Ccb) : ℤ := (fp.hiwater - 1) / 128 * 128

/-- The position of the offset in its sector. -/
def bufPos (fp : Ccb) : ℕ := (fp.offset % 128).toNat

/-- The bytes of a sector. -/
def Sector.bytes (r : Sector) : List UInt8 := List.ofFn r

/-- The sectors, `n` of them, that lie one after the other in memory. -/
def sectorsOf (data : List UInt8) (n : ℕ) : List Sector :=
  (List.range n).map fun k i => data.getD (128 * k + i) 0

/-- `fp->hiwater`, raised to the offset. -/
def raiseHiwater : IoM σ PUnit :=
  setFp fun fp => if fp.offset > fp.hiwater then { fp with hiwater := fp.offset } else fp

@[simp] theorem wp_raiseHiwater {Q : PUnit → Io σ → Prop} {E : Errno → Io σ → Prop} {s : Io σ} :
    wp raiseHiwater Q E s = Q ⟨⟩ { s with fp := { s.fp with hiwater := max s.fp.hiwater s.fp.offset } } := by
  rw [raiseHiwater, wp_setFp]
  split_ifs with h
  · rw [max_eq_right (by omega)]
  · rw [max_eq_left (by omega)]

/-- Write the buffer to its sector. -/
def writeBuffer (sector : ℤ) : IoM σ PUnit := do
  let s ← get
  let seccnt ← blkioWrite B sector [s.fp.buffer]
  whenever (seccnt ≠ 1) (throw Errno.EIO)

/-- Read a sector into the buffer: whether it could. -/
def readBuffer (xsector : ℤ) : IoM σ Bool := do
  let records ← blkioRead B xsector 1
  match records with
  | [record] => do
    setFp fun fp => { fp with buffer := record }
    pure true
  | _ => pure false

/-- Write the buffer when it is dirty, and clear the flag. -/
def flush : IoM σ PUnit := do
  let s ← get
  whenever (s.fp.flags.DIRTY = true) do
    writeBuffer B s.fp.sector
    setFp fun fp => { fp with flags := { fp.flags with DIRTY := false } }

/-! ### `_rdbin` -/

/-- Not on a boundary: the bytes of the buffer from the offset on. What is left to read. -/
def rdbinBuffer (bytes : ℕ) : IoM σ ℕ := do
  let s ← get
  let xsector := s.fp.offset / 128
  whenever (s.fp.sector ≠ xsector) do
    flush B
    let found ← readBuffer B xsector
    whenever (found = false) (throw Errno.EIO)
    setFp fun fp => { fp with sector := xsector }
  let s ← get
  let moved := (s.fp.buffer.bytes.drop (bufPos s.fp)).take bytes
  store moved
  setFp fun fp => { fp with offset := fp.offset + moved.length }
  pure (bytes - moved.length)

/-- The last sector, of which `bytes` bytes are wanted. -/
def rdbinTail (xbytes bytes : ℕ) (xsector : ℤ) : IoM σ ℤ := do
  flush B
  let found ← readBuffer B xsector
  if found = false then do
    setAteof
    pure (toLong (xbytes - bytes))
  else do
    setFp fun fp => { fp with sector := xsector, offset := fp.offset + bytes }
    let s ← get
    store (s.fp.buffer.bytes.take bytes)
    raiseHiwater
    pure (toLong xbytes)

/-- On a boundary: a multi-sector transfer, and the last sector. -/
def rdbinSectors (xbytes bytes : ℕ) (xsector : ℤ) : IoM σ ℤ := do
  let nsector := bytes / 128
  let records ← (if nsector > 0 then blkioRead B xsector nsector else pure [])
  let i := records.length
  setFp fun fp => { fp with offset := fp.offset + i * 128 }
  store (records.flatMap Sector.bytes)
  raiseHiwater
  if i ≠ nsector then do
    setAteof
    pure (toLong (xbytes - (bytes - i * 128)))
  else if bytes - i * 128 = 0 then pure (toLong xbytes)
  else rdbinTail B xbytes (bytes - i * 128) (xsector + i)

/-- `_rdbin`. -/
def rdbin (bytes : ℕ) : IoM σ ℤ := do
  let s ← get
  let xsector := s.fp.offset / 128
  if s.fp.offset % 128 ≠ 0 then do
    let left ← rdbinBuffer B bytes
    if left = 0 then do
      raiseHiwater
      pure (toLong bytes)
    else rdbinSectors B bytes left (xsector + 1)
  else rdbinSectors B bytes bytes xsector

/-! ### `_wrtbin` -/

/-- The buffer for a sector that is not to be read when it lies above the high water mark. -/
def prepareBuffer (xsector : ℤ) : IoM σ PUnit := do
  let s ← get
  if OFFSECT s.fp > HIWSECT s.fp then setFp fun fp => { fp with buffer := Bytes.fill 0 }
  else do
    let found ← readBuffer B xsector
    whenever (found = false) (throw Errno.EIO)

/-- Get buffer cleaned and current. -/
def wrtbinClean (xsector : ℕ) : IoM σ PUnit := do
  let s ← get
  whenever ((xsector : ℤ) ≠ s.fp.sector) do
    whenever (s.fp.flags.DIRTY = true) (writeBuffer B s.fp.sector)
    prepareBuffer B xsector
    setFp fun fp => { fp with flags := { fp.flags with DIRTY := false }, sector := xsector }

/-- How many bytes go through the buffer first. -/
def wrtbinCount (pos bytes : ℕ) : ℕ :=
  let nbs := 128 - pos
  if nbs > bytes then bytes else if nbs = 128 then 0 else nbs

theorem wrtbinCount_le (pos bytes : ℕ) : wrtbinCount pos bytes ≤ bytes := by
  unfold wrtbinCount
  dsimp only
  split_ifs <;> omega

/-- Transfer data to the buffer, and the buffer to the disk when it is full. The current
sector after. -/
def wrtbinBuffer (xsector : ℕ) (data : List UInt8) : IoM σ ℕ := do
  let s ← get
  let pos := bufPos s.fp
  let nbs := data.length
  if nbs > 0 then do
    setFp fun fp => { fp with buffer := fp.buffer.move pos data, offset := fp.offset + nbs }
    if pos + nbs ≠ 128 then do
      setFp fun fp => { fp with flags := { fp.flags with DIRTY := true }, sector := xsector }
      pure xsector
    else do
      writeBuffer B xsector
      setFp fun fp => { fp with flags := { fp.flags with DIRTY := false }, sector := -1 }
      pure ((xsector + 1) % 2 ^ 16)
  else pure xsector

/-- The multi-sector transfer of `nsector` sectors. The current sector after. -/
def wrtbinSectors (xsector nsector : ℕ) (data : List UInt8) : IoM σ ℕ := do
  let seccnt ← blkioWrite B xsector (sectorsOf data nsector)
  whenever (seccnt ≠ nsector) (throw Errno.EIO)
  setFp fun fp => { fp with offset := fp.offset + (nsector * 128 % 2 ^ 16 : ℕ) }
  pure ((xsector + nsector) % 2 ^ 16)

/-- The rest of the data, to the buffer. More than a sector of it is moved beyond the buffer: that
part is `overrun`. -/
def wrtbinTail (xsector : ℕ) (data : List UInt8) : IoM σ PUnit :=
  whenever (data.length > 0) do
    prepareBuffer B xsector
    setFp fun fp =>
      { fp with
        buffer := fp.buffer.move 0 data, flags := { fp.flags with DIRTY := true }, sector := xsector,
        offset := fp.offset + data.length }

/-- What is left of the data behind the multi-sector transfer. It is less than a sector, unless the
number of bytes transferred has more than 16 bits. -/
def wrtbinLeft (data : List UInt8) : List UInt8 := data.drop (data.length / 128 % 2 ^ 16 * 128 % 2 ^ 16)

/-- What does not go through the buffer first: the multi-sector transfer, if there is one,
and the rest. -/
def wrtbinRest (xsector : ℕ) (data : List UInt8) : IoM σ PUnit :=
  if data.length ≥ 128 then do
    let nsector := data.length / 128 % 2 ^ 16
    let xsector ← wrtbinSectors B xsector nsector data
    wrtbinTail B xsector (wrtbinLeft data)
  else wrtbinTail B xsector data

/-- `_wrtbin`. -/
def wrtbin (data : List UInt8) : IoM σ ℤ := do
  let s ← get
  let xsector := (s.fp.offset / 128 % 2 ^ 16).toNat
  wrtbinClean B xsector
  let nbs := wrtbinCount (bufPos s.fp) data.length
  let xsector ← wrtbinBuffer B xsector (data.take nbs)
  wrtbinRest B xsector (data.drop nbs)
  raiseHiwater
  pure (data.length % 2 ^ 16 : ℕ)

/-! ### `_rdasc` -/

/-- The inner loop of `_rdasc`, over the bytes of the buffer from the offset on: what is
stored, by how much the offset grows, and whether `EOFCHAR` was met. -/
def rdascMove : List UInt8 → ℕ → List UInt8 × ℕ × Bool
  | _, 0 => ([], 0, false)
  | [], _ => ([], 0, false)
  | c :: cs, bytes + 1 =>
    if c = EOFCHAR then ([], 0, true)
    else if c = carriageReturn then
      let (stored, n, eof) := rdascMove cs (bytes + 1)
      (stored, n + 1, eof)
    else
      let (stored, n, eof) := rdascMove cs bytes
      (c :: stored, n + 1, eof)

/-- Get the sector of the offset into the buffer: whether it could. -/
def rdascSector : IoM σ Bool := do
  let s ← get
  let xsector := s.fp.offset / 128
  if xsector ≠ s.fp.sector then do
    flush B
    let found ← readBuffer B xsector
    if found = false then do
      setAteof
      pure false
    else do
      setFp fun fp => { fp with sector := xsector }
      pure true
  else pure true

/-- The loop of `_rdasc`, `bytes` bytes before the end of the request. -/
def rdascLoop (xbytes : ℕ) : ℕ → ℕ → IoM σ ℤ
  | 0, bytes => pure (toLong (xbytes - bytes))
  | fuel + 1, bytes =>
    if bytes > 0 then do
      let found ← rdascSector B
      if found = false then pure (toLong (xbytes - bytes))
      else do
        let s ← get
        let moved := rdascMove (s.fp.buffer.bytes.drop (bufPos s.fp)) bytes
        store moved.1
        setFp fun fp => { fp with offset := fp.offset + moved.2.1 }
        if moved.2.2 = true then do
          setAteof
          raiseHiwater
          pure (toLong (xbytes - (bytes - moved.1.length)))
        else rdascLoop xbytes fuel (bytes - moved.1.length)
    else do
      raiseHiwater
      pure (toLong xbytes)

/-- `_rdasc`. No file has more than 2^24 sectors. -/
def rdasc (bytes : ℕ) : IoM σ ℤ := rdascLoop B bytes (2 ^ 24 + 1) bytes

/-! ### `_wrtasc` -/

/-- The inner loop of `_wrtasc`, with room for a number of characters: the characters put
in the buffer, the last of them, and the data that is left. -/
def wrtascMove : ℕ → UInt8 → List UInt8 → List UInt8 × UInt8 × List UInt8
  | 0, cc, data => ([], cc, data)
  | _, cc, [] => ([], cc, [])
  | room + 1, cc, c :: data =>
    if c = newline ∧ cc ≠ carriageReturn then
      let (put, cc', left) := wrtascMove room carriageReturn (c :: data)
      (carriageReturn :: put, cc', left)
    else
      let (put, cc', left) := wrtascMove room c data
      (c :: put, cc', left)

/-- Get the sector of the offset into the buffer. -/
def wrtascSector (xsector : ℤ) : IoM σ PUnit := do
  let s ← get
  whenever (xsector ≠ s.fp.sector) do
    flush B
    whenever (OFFSECT s.fp ≤ HIWSECT s.fp) do
      let found ← readBuffer B xsector
      whenever (found = false) (throw Errno.EIO)
    setFp fun fp => { fp with sector := xsector }

/-- Characters go to the buffer at `pos`, and the buffer to the disk when it is full:
whether that could be done. -/
def wrtascPut (xsector : ℤ) (pos : ℕ) (put : List UInt8) : IoM σ Bool := do
  setFp fun fp => { fp with buffer := fp.buffer.move pos put, offset := fp.offset + put.length }
  let s ← get
  if pos + put.length ≥ 128 then do
    let seccnt ← blkioWrite B xsector [s.fp.buffer]
    pure (decide (seccnt = 1))
  else do
    setFp fun fp => { fp with flags := { fp.flags with DIRTY := true } }
    pure true

/-- The loop of `_wrtasc`. -/
def wrtascLoop (written : ℕ) : ℕ → UInt8 → List UInt8 → IoM σ ℤ
  | 0, _, _ => pure (toLong written)
  | fuel + 1, cc, data =>
    if data.length > 0 then do
      let s ← get
      let xsector := s.fp.offset / 128
      wrtascSector B xsector
      let pos := bufPos s.fp
      let moved := wrtascMove (128 - pos) cc data
      let done ← wrtascPut B xsector pos moved.1
      if done = false then pure (toLong (written - data.length))
      else if moved.2.2.length = 0 then do
        raiseHiwater
        pure (toLong written)
      else wrtascLoop written fuel moved.2.1 moved.2.2
    else pure (toLong written)

/-- `_wrtasc`. No character makes more than two. -/
def wrtasc (data : List UInt8) : IoM σ ℤ := wrtascLoop B data.length (2 * data.length + 1) 0 data

/-! ### `_filesz` and `lseek` -/

/-- The number of bytes before the first `EOFCHAR`. -/
def scanEof (bs : List UInt8) : ℕ := (bs.takeWhile (· ≠ EOFCHAR)).length

/-- The end of an ASCII file whose last sector is `xsector`. -/
def fileszAscii (xsector : ℤ) : IoM σ PUnit := do
  let s ← get
  if xsector ≥ 0 then do
    whenever (xsector ≠ s.fp.sector) do
      flush B
      let found ← readBuffer B xsector
      whenever (found = false) (throw Errno.EIO)
    setFp fun fp => { fp with sector := xsector, offset := xsector * 128 + scanEof fp.buffer.bytes }
  else setFp fun fp => { fp with offset := 0 }

/-- The end of the file as the disk has it. -/
def fileszDisk : IoM σ PUnit := do
  let xuser ← chkuserFp B
  let _ ← osif B .FILSIZ
  uchkuserFp B xuser
  setFp fun fp => { fp with fcb := { fp.fcb with record := fp.fcb.record % 0x1000000 } }
  let s ← get
  let xsector := s.fp.fcb.record - 1
  if s.fp.flags.ISASCII = true then fileszAscii B xsector
  else setFp fun fp => { fp with offset := (xsector + 1) * 128 }

/-- `_filesz`, of an open channel. -/
def fileszFp : IoM σ ℤ := do
  let s ← get
  if s.fp.flags.ISTTY = true ∨ s.fp.flags.ISLPT = true then pure 0
  else do
    (if s.fp.flags.DIRTY = true then setFp fun fp => { fp with offset := fp.hiwater } else fileszDisk B)
    setFp fun fp => { fp with hiwater := fp.offset, flags := { fp.flags with ATEOF := true } }
    let s ← get
    pure s.fp.offset

/-- The value a call returns: -1 when it ends with an error number. -/
def orFailure {τ : Type} (m : EStateM Errno τ ℤ) : EStateM Errno τ ℤ := fun s =>
  match m s with
  | .ok a s' => .ok a s'
  | .error _ s' => .ok (-1) s'

/-- The new offset of `lseek`. -/
def lseekOffset (offs sense : ℤ) : IoM σ PUnit :=
  if sense = 0 then setFp fun fp => { fp with offset := offs }
  else if sense = 1 then setFp fun fp => { fp with offset := fp.offset + offs }
  else if sense = 2 then do
    let size ← orFailure (fileszFp B)
    setFp fun fp => { fp with hiwater := size, offset := size + offs }
  else throw .EINVAL

/-- `lseek`, on an open channel. -/
def lseekFp (offs sense : ℤ) : IoM σ ℤ := do
  lseekOffset B offs sense
  setFp fun fp =>
    { fp with
      flags := { fp.flags with ATEOF := false }, offset := if fp.offset < 0 then -1 else fp.offset }
  let s ← get
  pure s.fp.offset

/-! ### `read`, `write` and `fstat` -/

/-- `read`, on an open channel. -/
def readFp (bytes : ℕ) : IoM σ ℤ := do
  let s ← get
  if s.fp.flags.ATEOF = true then pure 0
  else if s.fp.flags.ISLPT = true then throw .EBADF
  else if s.fp.flags.ISTTY = true then ttyin B bytes
  else if s.fp.flags.ISASCII = true then rdasc B bytes
  else rdbin B bytes

/-- `write`, on an open channel. -/
def writeFp (data : List UInt8) : IoM σ ℤ := do
  let s ← get
  if data.length = 0 then pure 0
  else if s.fp.flags.ISREAD = true then throw .EBADF
  else if s.fp.flags.ISTTY = true ∨ s.fp.flags.ISLPT = true ∨ s.fp.flags.ISQUE = true then wrtchr B data
  else if s.fp.flags.ISASCII = true then wrtasc B data
  else wrtbin B data

/-- A write on the channel goes to `_wrtbin`. -/
def Ccb.ToWrtbin (fp : Ccb) : Prop :=
  fp.flags.ISREAD = false ∧ ¬ (fp.flags.ISTTY = true ∨ fp.flags.ISLPT = true ∨ fp.flags.ISQUE = true) ∧
    fp.flags.ISASCII = false

instance (fp : Ccb) : Decidable fp.ToWrtbin := inferInstanceAs (Decidable (_ ∧ _))

/-- What `blkmove(fp->buffer,buff,bytes)` at the end of `_wrtbin` moves beyond the buffer, of the
data that does not go through the buffer first. -/
def overrun (fp : Ccb) (data : List UInt8) : List UInt8 :=
  let rest := data.drop (wrtbinCount (bufPos fp) data.length)
  if fp.ToWrtbin ∧ rest.length ≥ 128 then (wrtbinLeft rest).drop 128 else []

/-- A write on the channel stays in the buffer: if it goes to `_wrtbin`, what does not go through the
buffer first has less than 65536 bytes. -/
def WriteFits (fp : Ccb) (data : List UInt8) : Prop :=
  fp.ToWrtbin → data.length - wrtbinCount (bufPos fp) data.length < 2 ^ 16

instance (fp : Ccb) (data : List UInt8) : Decidable (WriteFits fp data) := inferInstanceAs (Decidable (_ → _))

theorem writeFits_of_lt {fp : Ccb} {data : List UInt8} (h : data.length < 2 ^ 16) : WriteFits fp data :=
  fun _ => lt_of_le_of_lt (Nat.sub_le _ _) h

theorem writeFits_of_not {fp : Ccb} {data : List UInt8} (h : ¬ fp.ToWrtbin) : WriteFits fp data := fun hto => absurd hto h

/-- A write to a device does not go to `_wrtbin`. -/
theorem writeFits_of_device {fp : Ccb} {data : List UInt8} (h : fp.flags.ISTTY = true ∨ fp.flags.ISLPT = true) : WriteFits fp data :=
  writeFits_of_not fun hto => hto.2.1 (h.imp_right .inl)

/-- Below 65536 bytes all whole sectors are transferred. -/
theorem wrtbinLeft_of_lt {data : List UInt8} (h : data.length < 2 ^ 16) :
    wrtbinLeft data = data.drop (128 * (data.length / 128)) := by
  rw [wrtbinLeft]
  congr 1
  omega

/-- At most the last sector is left, or more than 65535 bytes are. -/
theorem length_wrtbinLeft_le_iff (data : List UInt8) : (wrtbinLeft data).length ≤ 128 ↔ data.length < 2 ^ 16 := by
  rw [wrtbinLeft, List.length_drop]
  omega

/-- **The move at the end of `_wrtbin` stays in the buffer** exactly for the writes that fit. -/
theorem overrun_eq_nil_iff (fp : Ccb) (data : List UInt8) : overrun fp data = [] ↔ WriteFits fp data := by
  have hlen := List.length_drop (i := wrtbinCount (bufPos fp) data.length) (l := data)
  unfold overrun WriteFits
  dsimp only
  split_ifs with h
  · rw [List.drop_eq_nil_iff, length_wrtbinLeft_le_iff, hlen]
    exact ⟨fun hfits _ => hfits, fun hfits => hfits h.1⟩
  · refine iff_of_true rfl fun hto => ?_
    have hshort := (not_and.mp h) hto
    omega

/-- More than 65407 bytes run over, or none. -/
theorem length_overrun (fp : Ccb) (data : List UInt8) : overrun fp data = [] ∨ 65408 ≤ (overrun fp data).length := by
  by_cases hfits : WriteFits fp data
  · exact .inl ((overrun_eq_nil_iff fp data).mpr hfits)
  · simp only [WriteFits, Classical.not_imp, not_lt] at hfits
    have hlen := List.length_drop (i := wrtbinCount (bufPos fp) data.length) (l := data)
    right
    simp only [overrun]
    rw [if_pos ⟨hfits.1, by omega⟩, List.length_drop, wrtbinLeft, List.length_drop]
    omega

/-- What `fstat` reports of a file. -/
structure Stat where
  /-- `st_mode` is that of a character device. -/
  isChr : Bool
  /-- `st_size`. -/
  size : ℤ
  /-- `st_blocks`. -/
  blocks : ℤ
  /-- `st_blksize`. -/
  blksize : ℤ

/-- `fstat`, on an open channel. -/
def fstatFp : IoM σ Stat := do
  let s ← get
  if s.fp.flags.ISTTY = true ∨ s.fp.flags.ISLPT = true ∨ s.fp.flags.ISAUX = true then pure ⟨true, 0, 0, 0⟩
  else do
    let curpos := s.fp.offset
    let size ← orFailure (fileszFp B)
    setFp fun fp => { fp with offset := curpos }
    pure ⟨false, size, (size + 128 - 1).tdiv 128, 128⟩

variable {B} {Q : ℤ → Io σ → Prop} {E : Errno → Io σ → Prop} {s : Io σ}

/-- At the end of the file there is nothing to read. -/
theorem wp_readFp_ateof {bytes : ℕ} (h : s.fp.flags.ATEOF = true) : wp (readFp B bytes) Q E s = Q 0 s := by
  rw [readFp, wp_bind, wp_get, wp_ite, if_pos h, wp_pure]

theorem wp_writeFp_nil : wp (writeFp B []) Q E s = Q 0 s := by
  rw [writeFp, wp_bind, wp_get, wp_ite, if_pos List.length_nil, wp_pure]

end Cpm68k.Cpmlib
