import Cpm68k.Cpmlib.AsciiFile
import Cpm68k.Cpmlib.ReadExtent

/-!
# Reading and what comes after it

A program writes and seeks on a file it has created, and somewhere in between reads from it
and seeks back. Without the read the file would be the same: its end, the places where later
writes land, and what is on disk after `close`.

## The model

`Seen` is the file as the program sees it, and `FileCall.seen` what a call does to it. The
channel and the disk show that file (`Stands`), before the read and after it, so both runs
go on alike.

## What is proved

* `stands_after` — one write or seek, and what the program can observe of it.
* `stands_read` — a read and a seek back, if the read does not get behind the data (`ReadOk`).
* `read_frame` — both runs observe the same and leave the same file, if every seek to the
  end finds the end of the data (`EndKnown`).
* `read_moves_end` — otherwise a read of one byte makes a file of 10 bytes end at 128.
-/

namespace Cpm68k.Cpmlib

open Cpm68k.Library RecordStore

/-! ### The file as the program sees it -/

/-- A file as the program sees it. -/
structure Seen where
  /-- The bytes of the file. -/
  bytes : List UInt8
  /-- The position, which may lie behind the end; -1 after a seek to a place before the beginning. -/
  pos : ℤ

/-- What a write of `buff` puts in the file. -/
def putOf (isascii : Bool) (buff : List UInt8) : List UInt8 := if isascii = true then wrtascOut 0 buff else buff

/-- What a call does to the file: a write overwrites at the position, and a seek is from the
beginning, from the position or from the end. -/
def FileCall.seen (isascii : Bool) (a : Seen) : FileCall → Seen
  | .write buff => ⟨splice a.bytes a.pos.toNat (putOf isascii buff), a.pos + (putOf isascii buff).length⟩
  | .lseek offs sense =>
    if sense = 0 then { a with pos := seekTo offs }
    else if sense = 1 then { a with pos := seekTo (a.pos + offs) }
    else if sense = 2 then { a with pos := seekTo (a.bytes.length + offs) }
    else a
  | .read _ | .fstat => a

/-- What the program can observe of a call: where a write lands, and what a seek returns. -/
def FileCall.expect (isascii : Bool) (a : Seen) : FileCall → ℤ
  | .write _ => a.pos
  | .lseek offs sense =>
    if sense = 0 ∨ sense = 1 ∨ sense = 2 then (FileCall.seen isascii a (.lseek offs sense)).pos else -1
  | .read _ | .fstat => 0

/-- A write without a hole, for which there is room, or a seek. -/
def FileCall.Solid (cap : ℕ) (isascii : Bool) (a : Seen) : FileCall → Prop
  | .write buff =>
    buff ≠ [] → 0 ≤ a.pos ∧ a.pos ≤ a.bytes.length ∧ a.pos + (putOf isascii buff).length ≤ 128 * cap
  | .lseek _ _ => True
  | .read _ | .fstat => False

/-! ### Runs -/

variable {σ : Type} {B : Osif σ}

/-- What a call returns: -1 when it ends with an error number. -/
def returned {τ : Type} : EStateM.Result Errno τ ℤ → ℤ
  | .ok v _ => v
  | .error _ _ => -1

/-- What the program can observe of a call on the channel. -/
def FileCall.observe (B : Osif σ) (fd : ℤ) (w : World σ) : FileCall → ℤ
  | .write _ => (w.fds fd).offset
  | .lseek offs sense => returned (Cpmlib.lseek B fd offs sense w)
  | .read _ | .fstat => 0

/-- What it can observe of a sequence of calls. -/
def observeFile (B : Osif σ) (fd : ℤ) : List FileCall → World σ → List ℤ
  | [], _ => []
  | c :: cs, w => c.observe B fd w :: observeFile B fd cs (c.after B fd w)

variable (S : RecordStore B) (file : FileId) (isascii : Bool) (fd : ℤ)

/-- `_filesz` finds the end of `len` bytes of data: the buffer is dirty, or the disk has no
bytes behind the data. -/
def EndKnown (fp : Ccb) (os : σ) (len : ℕ) : Prop :=
  fp.flags.DIRTY = true ∨ ∀ D n, S.files os file = some D → IsSize D n → diskEnd isascii D n = len

/-- A write to a binary file is within the 16-bit counts of sectors and does not use a
buffer that is not current, and a seek from the end finds the end. -/
def FileCall.Sound (w : World σ) (a : Seen) : FileCall → Prop
  | .write buff => buff ≠ [] → isascii = false →
      buff.length < 2 ^ 16 ∧ a.pos + buff.length < 2 ^ 23 ∧
        ∀ D, S.files w.os file = some D → WriteOk (w.fds fd) D buff.length
  | .lseek _ sense => sense = 2 → EndKnown S file isascii (w.fds fd) w.os a.bytes.length
  | .read _ | .fstat => True

/-- The calls of a sequence are without holes. -/
def AllSolid (cap : ℕ) (isascii : Bool) : List FileCall → Seen → Prop
  | [], _ => True
  | c :: cs, a => c.Solid cap isascii a ∧ AllSolid cap isascii cs (c.seen isascii a)

/-- The calls of a sequence are sound, each in the state before it. -/
def AllSound : List FileCall → World σ → Seen → Prop
  | [], _, _ => True
  | c :: cs, w, a => c.Sound S file isascii fd w a ∧ AllSound cs (c.after B fd w) (c.seen isascii a)

/-- The file after a sequence of calls. -/
def seenRun (isascii : Bool) : List FileCall → Seen → Seen
  | [], a => a
  | c :: cs, a => seenRun isascii cs (c.seen isascii a)

variable {S file isascii} {u : UInt16} {k : ℕ} {w : World σ} {a : Seen} {E : ℕ → Option Sector} {f : List UInt8}

/-! ### What the channel shows -/

/-- The records `E` are the bytes `f` and nothing else; of an ASCII file they may have more
behind `f`, and the sector in the buffer is one of them. -/
def Image (cap : ℕ) (isascii : Bool) (E : ℕ → Option Sector) (f : List UInt8) (sector : ℤ) : Prop :=
  if isascii = true then Carries E f ∧ ∀ k : ℕ, sector = k → E k ≠ none else E = diskOf f ∧ f.length ≤ 128 * cap

/-- The file has the bytes `f`, up to the high water mark. -/
structure Shows (S : RecordStore B) (file : FileId) (u : UInt16) (isascii : Bool) (f : List UInt8) (fp : Ccb) (os : σ) :
    Prop where
  hiwater : fp.hiwater = f.length
  file : ∃ E, Content S file u E (isascii = true) fp os ∧ Image S.cap isascii E f fp.sector

/-- And the channel stands at the position. -/
structure Stands (S : RecordStore B) (file : FileId) (u : UInt16) (isascii : Bool) (a : Seen) (fp : Ccb) (os : σ) :
    Prop extends Shows S file u isascii a.bytes fp os where
  offset : fp.offset = a.pos
  start : -1 ≤ a.pos

theorem Shows.of_eq {fp fp' : Ccb} {os : σ} (h : Shows S file u isascii f fp os) (hfcb : fp'.fcb = fp.fcb)
    (huser : fp'.user = fp.user) (hdirty : fp'.flags.DIRTY = fp.flags.DIRTY) (hsec : fp'.sector = fp.sector)
    (hbuf : fp'.buffer = fp.buffer) (hhi : fp'.hiwater = fp.hiwater) : Shows S file u isascii f fp' os := by
  obtain ⟨hh, E, hcont, himage⟩ := h
  exact ⟨hhi.trans hh, E, hcont.of_eq hfcb huser hdirty hsec hbuf, hsec ▸ himage⟩

theorem seekTo_ge (x : ℤ) : -1 ≤ seekTo x := by
  unfold seekTo
  split_ifs <;> omega

theorem seekTo_of_ge {x : ℤ} (h : -1 ≤ x) : seekTo x = x := by
  unfold seekTo
  split_ifs <;> omega

/-! ### Writes -/

variable {s : Io σ}

/-- A dirty buffer of a binary file is a sector of it. -/
theorem flat_of_shows {D : ℕ → Option Sector} {fp : Ccb} {cap : ℕ} (hl : Labelled cap fp) (hE : flushed D fp = diskOf f)
    (hh : fp.hiwater = f.length) (h0 : 0 ≤ fp.offset) (hin : fp.offset ≤ f.length) :
    Flat f fp D := by
  refine ⟨hh, h0, hin, fun hd => ⟨(hl hd).1, ?_⟩, hE⟩
  by_contra hge
  have hrec : diskOf f fp.sector.toNat = some fp.buffer := by
    rw [← hE, flushed_of_dirty hd, Function.update_self]
  have hnone : diskOf f fp.sector.toNat = none := if_neg (by have := (hl hd).1; omega)
  rw [hnone] at hrec
  cases hrec

theorem wp_wrtbin_stands {data : List UInt8} (h : Stands S file u false a s.fp s.os) (hdata : data ≠ [])
    (hsolid : FileCall.Solid S.cap false a (.write data)) (hbytes : data.length < 2 ^ 16)
    (hsmall : a.pos + data.length < 2 ^ 23)
    (hok : ∀ D, S.files s.os file = some D → WriteOk s.fp D data.length) :
    wp (wrtbin B data) (fun _ s' => Stands S file u false (FileCall.seen false a (.write data)) s'.fp s'.os)
      (fun _ _ => False) s := by
  obtain ⟨h0, hin, hcap⟩ := hsolid hdata
  obtain ⟨E, ⟨D, hon, hl, hE, -⟩, rfl, hfcap⟩ := h.file
  have hoff := h.offset
  have hput : putOf false data = data := rfl
  rw [hput] at hcap
  refine wp_mono (wp_wrtbin_flat hon (flat_of_shows hl hE h.hiwater (by omega) (by omega)) (hok D hon.files) hdata hbytes
    (by omega) (by omega) hfcap) ?_ (fun _ _ h => h)
  rintro _ s' ⟨-, hoff', D', hon', hflat⟩
  rw [hoff] at hoff' hflat
  have hlen := length_splice (show a.pos.toNat ≤ a.bytes.length by omega) data
  have hlong : (splice a.bytes a.pos.toNat data).length ≤ 128 * S.cap := by omega
  refine ⟨⟨hflat.hiwater, _, ⟨D', hon', fun hd => ?_, hflat.disk, fun h => by cases h⟩, rfl, hlong⟩, hoff', ?_⟩
  · have := hflat.label hd
    omega
  · simp only [FileCall.seen]
    omega

theorem wp_wrtasc_stands {data : List UInt8} (h : Stands S file u true a s.fp s.os) (hdata : data ≠ [])
    (hsolid : FileCall.Solid S.cap true a (.write data)) :
    wp (wrtasc B data) (fun _ s' => Stands S file u true (FileCall.seen true a (.write data)) s'.fp s'.os)
      (fun _ _ => False) s := by
  obtain ⟨h0, hin, hcap⟩ := hsolid hdata
  obtain ⟨E, hcont, hf, hlabel⟩ := h.file
  have hput : putOf true data = wrtascOut 0 data := rfl
  rw [hput] at hcap
  obtain ⟨o, ho⟩ : ∃ o : ℕ, a.pos = o := ⟨a.pos.toNat, by omega⟩
  rw [ho] at hcap hin
  refine wp_mono (wp_wrtasc_carries (hcont.imp fun D h => ⟨h.1, h.2.1, h.2.2.1, fun _ => h.2.2.2 rfl⟩) hf
    (h.offset.trans ho) h.hiwater (by omega) hdata (by omega)) ?_ (fun _ _ h => h)
  rintro _ s' ⟨-, hoff', hhi', E', hcont', hf', ⟨k, hk, hsome⟩, -⟩
  have hlen := length_splice (show o ≤ a.bytes.length by omega) (wrtascOut 0 data)
  refine ⟨⟨?_, E', hcont'.imp fun D h => ⟨h.1, h.2.1, h.2.2.1, fun _ => h.2.2.2 trivial⟩, ?_⟩, ?_, ?_⟩
  · simp only [FileCall.seen, hput, ho, Int.toNat_natCast, hlen, hhi']
  · simp only [FileCall.seen, hput, ho, Int.toNat_natCast]
    refine ⟨hf', fun j hj => ?_⟩
    obtain rfl : k = j := by exact_mod_cast hk.symm.trans hj
    exact hsome
  · simp only [FileCall.seen, hput, ho, hoff']
    omega
  · simp only [FileCall.seen, ho]
    omega

/-! ### Seeks -/

theorem Image.keepsLabel {cap : ℕ} {sector sector' : ℤ} (h : Image cap isascii E f sector) (hl : KeepsLabel E sector sector') :
    Image cap isascii E f sector' := by
  unfold Image at h ⊢
  split_ifs at h ⊢
  · refine ⟨h.1, fun k hk => ?_⟩
    rcases hl with hl | ⟨j, hj, hsome⟩
    · exact h.2 k (hl.symm.trans hk)
    · obtain rfl : j = k := by exact_mod_cast hj.symm.trans hk
      exact hsome
  · exact h

/-- Looking for the end finds the end of the data. -/
theorem wp_fileszFp_shows {isread : Bool} (hmode : s.fp.mode = fileMode isread isascii k)
    (h : Shows S file u isascii f s.fp s.os) (hend : EndKnown S file isascii s.fp s.os f.length) :
    wp (fileszFp B) (fun size s' => size = f.length ∧ Shows S file u isascii f s'.fp s'.os) (fun _ _ => False) s := by
  obtain ⟨-, htty, hlpt, -, hascii, -, -⟩ := flags_of_mode hmode
  cases hd : s.fp.flags.DIRTY with
  | true =>
    rw [wp_fileszFp_dirty htty hlpt hd]
    exact ⟨h.hiwater, h.of_eq rfl rfl rfl rfl rfl rfl⟩
  | false =>
    obtain ⟨hhi, E, ⟨D, hon, hl, hE, hc⟩, himage⟩ := h
    rw [flushed_of_clean hd] at hE
    subst hE
    obtain ⟨n, -, hn⟩ := exists_isSize (S.bounded _ _ _ hon.files)
    have hsize : diskEnd s.fp.flags.ISASCII D n = f.length := by
      rw [hascii]
      exact hend.resolve_left (by simp [hd]) D n hon.files hn
    refine wp_mono (wp_fileszFp_clean htty hlpt hon hd (fun ha => hc (hascii.symm.trans ha)) hn) ?_ (fun _ _ h => h)
    rintro _ _ ⟨rfl, fcb, os, sector, buffer, rfl, hon', hcoh, hlabel⟩
    rw [hsize] at hon' hcoh ⊢
    exact ⟨rfl, rfl, D, content_of_clean hon' hd fun ha => hcoh (hc ha), himage.keepsLabel hlabel⟩

theorem wp_lseekFp_stands {isread : Bool} (offs sense : ℤ) (hmode : s.fp.mode = fileMode isread isascii k)
    (h : Stands S file u isascii a s.fp s.os) (hend : sense = 2 → EndKnown S file isascii s.fp s.os a.bytes.length) :
    wp (lseekFp B offs sense)
      (fun v s' => v = FileCall.expect isascii a (.lseek offs sense) ∧
        Stands S file u isascii (FileCall.seen isascii a (.lseek offs sense)) s'.fp s'.os)
      (fun _ s' => FileCall.expect isascii a (.lseek offs sense) = -1 ∧
        Stands S file u isascii (FileCall.seen isascii a (.lseek offs sense)) s'.fp s'.os) s := by
  by_cases h0 : sense = 0
  · subst h0
    rw [wp_lseekFp_start]
    exact ⟨rfl, h.toShows.of_eq rfl rfl rfl rfl rfl rfl, rfl, seekTo_ge _⟩
  by_cases h1 : sense = 1
  · subst h1
    rw [wp_lseekFp_current, h.offset]
    exact ⟨rfl, h.toShows.of_eq rfl rfl rfl rfl rfl rfl, rfl, seekTo_ge _⟩
  by_cases h2 : sense = 2
  · subst h2
    rw [wp_lseekFp_end, wp_orFailure]
    refine wp_mono (wp_fileszFp_shows hmode h.toShows (hend rfl)) ?_ (fun _ _ h => h.elim)
    rintro _ s' ⟨rfl, h'⟩
    exact ⟨rfl, h'.of_eq rfl rfl rfl rfl rfl h'.hiwater.symm, rfl, seekTo_ge _⟩
  · have hseen : FileCall.seen isascii a (.lseek offs sense) = a := by
      simp only [FileCall.seen, if_neg h0, if_neg h1, if_neg h2]
    rw [lseekFp, lseekOffset, if_neg h0, if_neg h1, if_neg h2, wp_bind, wp_throw, hseen]
    exact ⟨if_neg (by simp [h0, h1, h2]), h⟩

/-! ### One call -/

theorem returned_of_wp {τ : Type} {m : EStateM Errno τ ℤ} {x : ℤ} {t : τ}
    (h : wp m (fun v _ => v = x) (fun _ _ => x = -1) t) : returned (m t) = x := by
  unfold wp at h
  unfold returned
  cases hm : m t <;> rw [hm] at h
  · exact h
  · exact h.symm

/-- **One write or seek** does to the channel and the disk what it does to the file the
program sees, and the program can observe no more. -/
theorem stands_after (h : OpenFile false isascii k (Stands S file u isascii a) w) {c : FileCall}
    (hsolid : c.Solid S.cap isascii a) (hsound : c.Sound S file isascii k w a) :
    OpenFile false isascii k (Stands S file u isascii (c.seen isascii a)) (c.after B k w) ∧
      c.observe B k w = c.expect isascii a := by
  cases c with
  | write buff =>
    refine ⟨wp_after (wp_mono (h.wp_write (Q := fun _ => Stands S file u isascii (FileCall.seen isascii a (.write buff)))
      (E := fun _ _ _ => False) ?_) (fun _ _ h => h) (fun _ _ h => h.holds.elim)), h.holds.offset⟩
    by_cases hbuff : buff = []
    · have hseen : FileCall.seen isascii a (.write buff) = a := by
        rw [hbuff]
        cases isascii <;> simp [FileCall.seen, putOf, wrtascOut]
      rw [hseen, hbuff, wp_writeFp_nil]
      exact h.holds
    · rw [wp_writeFp_file h.mode hbuff rfl]
      cases hascii : isascii with
      | true =>
        subst hascii
        exact wp_wrtasc_stands h.holds hbuff hsolid
      | false =>
        subst hascii
        obtain ⟨hbytes, hsmall, hok⟩ := hsound hbuff rfl
        exact wp_wrtbin_stands h.holds hbuff hsolid hbytes hsmall hok
  | lseek offs sense =>
    have hseek : wp (lseek B k offs sense)
        (fun v w' => v = FileCall.expect isascii a (.lseek offs sense) ∧
          OpenFile false isascii k (Stands S file u isascii (FileCall.seen isascii a (.lseek offs sense))) w')
        (fun _ w' => FileCall.expect isascii a (.lseek offs sense) = -1 ∧
          OpenFile false isascii k (Stands S file u isascii (FileCall.seen isascii a (.lseek offs sense))) w') w := by
      have hend : sense = 2 → EndKnown S file isascii (w.fds k) w.os a.bytes.length := hsound
      refine h.wp_chkc (wp_mono (h.onCcb
        (Q := fun v fp os => v = FileCall.expect isascii a (.lseek offs sense) ∧
          Stands S file u isascii (FileCall.seen isascii a (.lseek offs sense)) fp os)
        (E := fun _ fp os => FileCall.expect isascii a (.lseek offs sense) = -1 ∧
          Stands S file u isascii (FileCall.seen isascii a (.lseek offs sense)) fp os)
        (keepsMode_lseekFp offs sense) (wp_lseekFp_stands offs sense h.mode h.holds hend)) ?_ ?_)
      · exact fun _ _ h => ⟨h.holds.1, h.lt, h.mode, h.holds.2⟩
      · exact fun _ _ h => ⟨h.holds.1, h.lt, h.mode, h.holds.2⟩
    exact ⟨wp_after (wp_mono hseek (fun _ _ h => h.2) (fun _ _ h => h.2)),
      returned_of_wp (wp_mono hseek (fun _ _ h => h.1) (fun _ _ h => h.1))⟩
  | read bytes => exact hsolid.elim
  | fstat => exact hsolid.elim

/-- What the program can observe of a sequence of calls. -/
def expectRun (isascii : Bool) : List FileCall → Seen → List ℤ
  | [], _ => []
  | c :: cs, a => c.expect isascii a :: expectRun isascii cs (c.seen isascii a)

/-- **A sequence of calls.** -/
theorem stands_runFile {cs : List FileCall} (h : OpenFile false isascii k (Stands S file u isascii a) w)
    (hsolid : AllSolid S.cap isascii cs a) (hsound : AllSound S file isascii k cs w a) :
    OpenFile false isascii k (Stands S file u isascii (seenRun isascii cs a)) (runFile B k cs w) ∧
      observeFile B k cs w = expectRun isascii cs a := by
  induction cs generalizing a w with
  | nil => exact ⟨h, rfl⟩
  | cons c cs ih =>
    obtain ⟨hc, hobserve⟩ := stands_after h hsolid.1 hsound.1
    obtain ⟨hcs, hrest⟩ := ih hc hsolid.2 hsound.2
    exact ⟨hcs, by rw [observeFile, expectRun, hobserve, hrest]⟩

/-! ### A read -/

/-- A read of `n` bytes at the byte `p` of the data `f` does not get behind the data. In an
ASCII file it ends within them, or there is an end of file character behind them, or they
end with the last sector. -/
def ReadOk (S : RecordStore B) (file : FileId) (isascii : Bool) (f : List UInt8) (p n : ℕ) (fp : Ccb) (os : σ) : Prop :=
  ∀ D, S.files os file = some D →
    if isascii = true then
      Done (rdascMove (f.drop p) n) n ∨ Carries (flushed D fp) (f ++ [EOFCHAR]) ∨
        f.length % 128 = 0 ∧ flushed D fp (f.length / 128) = none
    else Within D f p n

theorem wp_rdasc_shows {p : ℕ} (n : ℕ) (h : Shows S file u true f s.fp s.os) (ho : s.fp.offset = p) (hin : p ≤ f.length)
    (hsmall : f.length + 1 < 2 ^ 31) (hok : ReadOk S file true f p n s.fp s.os) :
    wp (rdasc B n) (fun _ s' => Shows S file u true f s'.fp s'.os) (fun _ _ => False) s := by
  obtain ⟨hhi, E, ⟨D, hon, hl, rfl, hc⟩, hf, hlabel⟩ := h
  have hcont : Content S file u (flushed D s.fp) True s.fp s.os := ⟨D, hon, hl, rfl, fun _ => hc rfl⟩
  have hconsumed := rdascMove_consumed_le (f.drop p) n
  rw [List.length_drop] at hconsumed
  -- whatever ends the read, it is an end within the data
  have hread : ∀ g : List UInt8, (rdascMove (g.drop p) n).2.1 ≤ f.length - p → ∀ s', TextRead S file u (flushed D s.fp) g p n s s' →
      Shows S file u true f s'.fp s'.os := by
    intro g hg s' h'
    refine ⟨?_, _, h'.content.imp fun D h => ⟨h.1, h.2.1, h.2.2.1, fun _ => h.2.2.2 trivial⟩, ?_⟩
    · have := h'.hiwater
      omega
    · have himage : Image S.cap true (flushed D s.fp) f s.fp.sector := ⟨hf, hlabel⟩
      exact himage.keepsLabel h'.label
  rcases hok D hon.files with hdone | hended | ⟨halign, hnone⟩
  · exact wp_mono (wp_rdasc_carries n hcont hf ho hin (by omega) (.inl hdone)) (fun _ s' h => hread f hconsumed s' h.2)
      (fun _ _ h => h)
  · have hdrop : (f ++ [EOFCHAR]).drop p = f.drop p ++ [EOFCHAR] := List.drop_append_of_le_length hin
    obtain ⟨hdone, -, hsame⟩ := rdascMove_ended (f.drop p) n
    rw [← hdrop] at hdone hsame
    have hlen : (f ++ [EOFCHAR]).length = f.length + 1 := List.length_append
    exact wp_mono (wp_rdasc_carries n hcont hended ho (by omega) (by omega) (.inl hdone))
      (fun _ s' h => hread _ (hsame ▸ hconsumed) s' h.2) (fun _ _ h => h)
  · exact wp_mono (wp_rdasc_carries n hcont hf ho hin (by omega) (.inr ⟨halign, hnone, fun hsec => hlabel _ hsec hnone⟩))
      (fun _ s' h => hread f hconsumed s' h.2) (fun _ _ h => h)

/-- `read` leaves the file as it is. -/
theorem wp_readFp_shows {isread : Bool} {p : ℕ} (n : ℕ) (hmode : s.fp.mode = fileMode isread isascii k)
    (h : Shows S file u isascii f s.fp s.os) (ho : s.fp.offset = p) (hin : p ≤ f.length) (hsmall : f.length + 1 < 2 ^ 31)
    (hok : ReadOk S file isascii f p n s.fp s.os) :
    wp (readFp B n) (fun _ s' => Shows S file u isascii f s'.fp s'.os) (fun _ s' => Shows S file u isascii f s'.fp s'.os) s := by
  cases heof : s.fp.flags.ATEOF with
  | true =>
    rw [wp_readFp_ateof heof]
    exact h
  | false =>
    rw [wp_readFp_file hmode heof]
    cases isascii with
    | true => exact wp_mono (wp_rdasc_shows n h ho hin hsmall hok) (fun _ _ h => h) (fun _ _ h => h.elim)
    | false =>
      obtain ⟨hhi, E, ⟨D, hon, hl, hE, -⟩, rfl, hcap⟩ := h
      have hcont : Content S file u (diskOf f) False s.fp s.os := ⟨D, hon, hl, hE, False.elim⟩
      have hshows : ∀ s' : Io σ, s'.fp.hiwater = f.length ∧ ContentAt S file u (diskOf f) False s' →
          Shows S file u false f s'.fp s'.os := by
        rintro s' ⟨hhi', -, D', hon', hl', hE', -⟩
        exact ⟨hhi', _, ⟨D', hon', hl', hE', fun h => by cases h⟩, rfl, hcap⟩
      exact wp_mono (wp_and (wp_rdbin_hiwater hon hl hE ho hhi hin (hok D hon.files))
        (keeps_rdbin n s ⟨by omega, hcont⟩)) (fun _ s' h => hshows s' h) (fun _ s' h => hshows s' h)

/-- **A read and a seek back** leave the file and the position as they are. -/
theorem stands_read {p n : ℕ} (h : OpenFile false isascii k (Stands S file u isascii a) w) (hin : p ≤ a.bytes.length)
    (hsmall : a.bytes.length + 1 < 2 ^ 31) (hok : ReadOk S file isascii a.bytes p n (w.fds k) w.os) :
    OpenFile false isascii k (Stands S file u isascii a) (runFile B k [.lseek p 0, .read n, .lseek a.pos 0] w) := by
  have h₁ : OpenFile false isascii k (fun fp os => Shows S file u isascii a.bytes fp os ∧ fp.offset = p ∧
      ReadOk S file isascii a.bytes p n fp os) (FileCall.after B k w (.lseek p 0)) := by
    refine wp_after (wp_mono (h.call (E := fun _ _ _ => False)
      (Q := fun _ fp os => Shows S file u isascii a.bytes fp os ∧ fp.offset = p ∧ ReadOk S file isascii a.bytes p n fp os)
      (keepsMode_lseekFp p 0) ?_) (fun _ _ h => h) (fun _ _ h => h.holds.elim))
    rw [wp_lseekFp_set (Int.natCast_nonneg p)]
    exact ⟨h.holds.toShows.of_eq rfl rfl rfl rfl rfl rfl, rfl, hok⟩
  obtain ⟨hshows, hoff, hok₁⟩ := h₁.holds
  have h₂ : OpenFile false isascii k (Shows S file u isascii a.bytes)
      (FileCall.after B k (FileCall.after B k w (.lseek p 0)) (.read n)) := by
    refine wp_after (h₁.call (Q := fun _ => Shows S file u isascii a.bytes)
      (E := fun _ => Shows S file u isascii a.bytes)
      (.bind (keepsMode_readFp n) fun _ => .bind .get fun _ => .pure _) ?_)
    rw [wp_bind]
    exact wp_readFp_shows n h₁.mode hshows hoff hin hsmall hok₁
  refine wp_after (wp_mono (h₂.call (Q := fun _ => Stands S file u isascii a) (E := fun _ _ _ => False)
    (keepsMode_lseekFp a.pos 0) ?_) (fun _ _ h => h) (fun _ _ h => h.holds.elim))
  rw [wp_lseekFp_start, seekTo_of_ge h.holds.start]
  exact ⟨h₂.holds.of_eq rfl rfl rfl rfl rfl rfl, rfl, h.holds.start⟩

/-! ### Closing -/

/-- What `close` may find in an ASCII file: no hole before the end of file character, and
room for it. -/
def Closable (cap : ℕ) (isascii : Bool) (a : Seen) : Prop :=
  isascii = true → a.pos ≤ a.bytes.length ∧ a.bytes.length < 128 * cap

/-- After seeking, `close` finds the end of the data. -/
def CloseSound (S : RecordStore B) (file : FileId) (isascii : Bool) (fd : ℤ) (w : World σ) (a : Seen) : Prop :=
  isascii = true → a.pos < a.bytes.length → EndKnown S file isascii (w.fds fd) w.os a.bytes.length

/-- The records that `close` leaves: those of the data, or of the data and an end of file
character, with anything behind it. -/
def Leaves (isascii : Bool) (f : List UInt8) (D : ℕ → Option Sector) : Prop :=
  if isascii = true then Carries D (f ++ [EOFCHAR]) else D = diskOf f

theorem wp_closeEof_stands (h : OpenFile false true k (Stands S file u true a) w) (hclose : Closable S.cap true a)
    (hsound : CloseSound S file true k w a) :
    wp (closeEof B k)
      (fun _ => OpenFile false true k (Shows S file u true (a.bytes ++ [EOFCHAR]))) (fun _ _ => False) w := by
  obtain ⟨hpos, hroom⟩ := hclose rfl
  have hfile : (w.fds k).flags.ISASCII = true ∧ (w.fds k).flags.ISREAD = false := ⟨h.flags.ascii, h.flags.read⟩
  have hseek : wp (whenever ((w.fds k).offset < (w.fds k).hiwater) (ignore (lseek B k 0 2)))
      (fun _ => OpenFile false true k (Stands S file u true ⟨a.bytes, a.bytes.length⟩)) (fun _ _ => False) w := by
    rw [wp_whenever, h.holds.offset, h.holds.hiwater]
    split_ifs with hlt
    · have hseen : FileCall.seen true a (.lseek 0 2) = ⟨a.bytes, a.bytes.length⟩ := by
        simp [FileCall.seen, seekTo_of_nonneg]
      rw [wp_ignore]
      refine wp_mono (h.call (Q := fun _ => Stands S file u true ⟨a.bytes, a.bytes.length⟩)
        (E := fun _ => Stands S file u true ⟨a.bytes, a.bytes.length⟩) (keepsMode_lseekFp 0 2) ?_) (fun _ _ h => h)
        (fun _ _ h => h)
      rw [← hseen]
      exact wp_mono (wp_lseekFp_stands 0 2 h.mode h.holds fun _ => hsound rfl hlt) (fun _ _ h => h.2) (fun _ _ h => h.2)
    · have hend : a.pos = a.bytes.length := by omega
      rw [← hend]
      exact h
  rw [closeEof, wp_bind, wp_get, wp_whenever, if_pos hfile, wp_bind]
  refine wp_mono hseek ?_ (fun _ _ h => h)
  intro _ w' h'
  have hsplice : splice a.bytes a.bytes.length [EOFCHAR] = a.bytes ++ [EOFCHAR] := splice_length_self _ _
  rw [wp_ignore]
  refine wp_mono (h'.wp_write (Q := fun _ => Shows S file u true (a.bytes ++ [EOFCHAR]))
    (E := fun _ _ _ => False) ?_) (fun _ _ h => h) (fun _ _ h => h.holds.elim)
  rw [wp_writeFp_file h'.mode (List.cons_ne_nil _ _) rfl, if_pos rfl, ← hsplice]
  refine wp_mono (wp_wrtasc_stands h'.holds (List.cons_ne_nil _ _) fun _ => ⟨Int.natCast_nonneg _, le_rfl, ?_⟩)
    (fun _ _ h => h.toShows) (fun _ _ h => h)
  have hlen : (putOf true [EOFCHAR]).length = 1 := rfl
  simp only [hlen]
  omega

/-- **Closing** leaves the file that the program sees. -/
theorem wp_close_stands (h : OpenFile false isascii k (Stands S file u isascii a) w) (hclose : Closable S.cap isascii a)
    (hsound : CloseSound S file isascii k w a) :
    wp (close B k) (fun ret w' => ret = 0 ∧ ∃ D, S.files w'.os file = some D ∧ Leaves isascii a.bytes D)
      (fun _ _ => False) w := by
  refine wp_mono (wp_close_file (R := fun os => ∃ D, S.files os file = some D ∧ Leaves isascii a.bytes D) h ?_)
    (fun _ _ h => ⟨h.1, h.2.1⟩) (fun _ _ h => h)
  cases isascii with
  | true =>
    rw [closeFile, wp_bind]
    refine wp_mono (wp_closeEof_stands h hclose hsound) ?_ (fun _ _ h => h)
    intro _ w' h'
    obtain ⟨-, E, ⟨D, hon, hl, rfl, -⟩, hf, -⟩ := h'.holds
    rw [wp_onCcb]
    refine wp_mono (wp_closeFcb_store hon hl) ?_ (fun _ _ h => h)
    rintro _ s' ⟨rfl, -, hfiles⟩
    exact ⟨rfl, _, hfiles, hf⟩
  | false =>
    obtain ⟨-, E, ⟨D, hon, hl, hE, -⟩, rfl, -⟩ := h.holds.toShows
    refine wp_mono (wp_closeFile_plain h (.inl rfl) hon hl) ?_ (fun _ _ h => h)
    rintro _ w' ⟨rfl, -, hfiles⟩
    exact ⟨rfl, _, hfiles, hE⟩

/-! ### Two runs -/

/-- Two files are the same; ASCII files, up to the first end of file character. -/
def SameFile (isascii : Bool) (D D' : ℕ → Option Sector) : Prop :=
  if isascii = true then ∃ g, EOFCHAR ∈ g ∧ Carries D g ∧ Carries D' g else D = D'

theorem Leaves.same {D D' : ℕ → Option Sector} (h : Leaves isascii f D) (h' : Leaves isascii f D') : SameFile isascii D D' := by
  unfold Leaves at h h'
  unfold SameFile
  split_ifs at h h' ⊢
  · exact ⟨_, by simp, h, h'⟩
  · rw [h, h']

/-- The file that `_creat` makes is empty. -/
theorem stands_created {fname : List UInt8} {xtype fd : ℤ} {w₀ w₁ : World σ} (hname : NotDevice fname)
    (hcreat : creat B fname xtype w₀ = .ok fd w₁) (hknown : S.users (namedFile (S.user w₀.os) fname).user) :
    ∃ k : ℕ, fd = k ∧ OpenFile false (decide (xtype = 0)) k
      (Stands S (namedFile (S.user w₀.os) fname) (S.user w₀.os) (decide (xtype = 0)) ⟨[], 0⟩) w₁ := by
  have hopen : wp (creat B fname xtype) _ _ w₀ := wp_creat_file (S := S) hname rfl hknown
  rw [wp_of_eq_ok hcreat] at hopen
  obtain ⟨-, k, rfl, hk⟩ := hopen
  obtain ⟨hcreated, hon⟩ := hk.holds
  have hcoh : Coherent (w₁.fds k) fun _ => none := fun _ _ _ r hr => by cases hr
  refine ⟨k, rfl, hk.lt, hk.mode, ⟨hcreated.hiwater, _, content_of_clean hon hcreated.clean fun _ => hcoh, ?_⟩,
    hcreated.offset, by decide⟩
  unfold Image
  split_ifs
  · refine ⟨fun _ _ _ hx => by simp at hx, fun j hj => ?_⟩
    have hsec := hcreated.sector
    omega
  · exact ⟨rfl, Nat.zero_le _⟩

/-- There is room for what the calls write. -/
theorem length_seenRun_le {cap : ℕ} {cs : List FileCall} (h : AllSolid cap isascii cs a) (ha : a.bytes.length ≤ 128 * cap) :
    (seenRun isascii cs a).bytes.length ≤ 128 * cap := by
  induction cs generalizing a with
  | nil => exact ha
  | cons c cs ih =>
    refine ih h.2 ?_
    have hc := h.1
    cases c with
    | write buff =>
      by_cases hbuff : buff = []
      · have hput : putOf isascii [] = [] := by cases isascii <;> rfl
        rw [hbuff]
        simpa only [FileCall.seen, hput, splice_nil] using ha
      · obtain ⟨h0, hin, hroom⟩ := hc hbuff
        have hlen := length_splice (show a.pos.toNat ≤ a.bytes.length by omega) (putOf isascii buff)
        simp only [FileCall.seen, hlen]
        omega
    | lseek offs sense =>
      unfold FileCall.seen
      dsimp only
      split_ifs <;> exact ha
    | read bytes => exact hc.elim
    | fstat => exact hc.elim

/-- Reading `n` bytes at `p`, and seeking back. -/
def readBack (fp : Ccb) (p n : ℕ) : List FileCall := [.lseek p 0, .read n, .lseek fp.offset 0]

/-- **Reading does not change a file**: a program writes and seeks on the file it has made;
with a read and a seek back somewhere in between, its writes land at the same places, its
seeks return the same, and `close` leaves the same file. -/
theorem read_frame (S : RecordStore B) {fname : List UInt8} {xtype fd : ℤ} {w₀ w₁ w w' : World σ} {isascii : Bool} {file : FileId}
    (hname : NotDevice fname) (hcreat : creat B fname xtype w₀ = .ok fd w₁)
    (hknown : S.users (namedFile (S.user w₀.os) fname).user) (hascii : isascii = decide (xtype = 0))
    (hfile : file = namedFile (S.user w₀.os) fname) {before after : List FileCall} {p n : ℕ} {a : Seen}
    (hw : w = runFile B fd before w₁) (ha : a = seenRun isascii before ⟨[], 0⟩)
    (hw' : w' = runFile B fd (readBack (w.fds fd) p n) w)
    (hsolid : AllSolid S.cap isascii before ⟨[], 0⟩ ∧ AllSolid S.cap isascii after a)
    (hclose : Closable S.cap isascii (seenRun isascii after a)) (hp : p ≤ a.bytes.length)
    (hbefore : AllSound S file isascii fd before w₁ ⟨[], 0⟩) (hread : ReadOk S file isascii a.bytes p n (w.fds fd) w.os)
    (hafter : ∀ v ∈ [w, w'], AllSound S file isascii fd after v a ∧
      CloseSound S file isascii fd (runFile B fd after v) (seenRun isascii after a)) :
    observeFile B fd after w' = observeFile B fd after w ∧
      ∃ D D' v v', close B fd (runFile B fd after w) = .ok 0 v ∧ close B fd (runFile B fd after w') = .ok 0 v' ∧
        S.files v.os file = some D ∧ S.files v'.os file = some D' ∧ SameFile isascii D D' := by
  subst hascii hfile
  have hcap := S.cap_lt
  obtain ⟨k, rfl, h₁⟩ := stands_created (S := S) hname hcreat hknown
  have h := (stands_runFile h₁ hsolid.1 hbefore).1
  rw [← hw, ← ha] at h
  have hroom : a.bytes.length ≤ 128 * S.cap := ha ▸ length_seenRun_le hsolid.1 (Nat.zero_le _)
  have h' := stands_read h hp (by omega) hread
  rw [readBack, h.holds.offset] at hw'
  rw [← hw'] at h'
  obtain ⟨hsound, hcsound⟩ := hafter w (by simp)
  obtain ⟨hsound', hcsound'⟩ := hafter w' (by simp)
  obtain ⟨hend, hobserve⟩ := stands_runFile h hsolid.2 hsound
  obtain ⟨hend', hobserve'⟩ := stands_runFile h' hsolid.2 hsound'
  obtain ⟨_, v, hv, rfl, D, hD, hleaves⟩ := exists_of_wp (wp_close_stands hend hclose hcsound)
  obtain ⟨_, v', hv', rfl, D', hD', hleaves'⟩ := exists_of_wp (wp_close_stands hend' hclose hcsound')
  exact ⟨hobserve'.trans hobserve.symm, D, D', v, v', hv, hv', hD, hD', hleaves.same hleaves'⟩

/-- A line of a text file, just written. -/
def lineWritten : World MemOs := runFile memOsif 0 [.write [0x61, 0x0a]] (createdA 0)

/-- A line is written, its first character read, and another line appended. -/
theorem read_frame_line :
    observeFile memOsif 0 [.lseek 0 2, .write [0x62]] (runFile memOsif 0 (readBack (lineWritten.fds 0) 0 1) lineWritten) =
        observeFile memOsif 0 [.lseek 0 2, .write [0x62]] lineWritten ∧
      ∃ D D' v v', close memOsif 0 (runFile memOsif 0 [.lseek 0 2, .write [0x62]] lineWritten) = .ok 0 v ∧
        close memOsif 0 (runFile memOsif 0 [.lseek 0 2, .write [0x62]]
          (runFile memOsif 0 (readBack (lineWritten.fds 0) 0 1) lineWritten)) = .ok 0 v' ∧
        memFiles v.os (namedFile 0 [0x41]) = some D ∧ memFiles v'.os (namedFile 0 [0x41]) = some D' ∧ SameFile true D D' := by
  refine read_frame memStore notDevice_A creat_createdA_ascii known_A rfl rfl
    (show lineWritten = runFile memOsif 0 [.write [0x61, 0x0a]] (createdA 0) from rfl) rfl rfl
    ⟨⟨fun _ => by decide, trivial⟩, trivial, fun _ => by decide, trivial⟩ (fun _ => by decide) (Nat.zero_le _)
    ⟨fun _ h => absurd h (by decide), trivial⟩ (fun _ _ => .inl (.inl rfl)) ?_
  have hdirty : ∀ v ∈ [lineWritten, runFile memOsif 0 (readBack (lineWritten.fds 0) 0 1) lineWritten],
      (v.fds 0).flags.DIRTY = true := by simpa using ⟨rfl, rfl⟩
  exact fun v hv => ⟨⟨fun _ => .inl (hdirty v hv), fun _ h => absurd h (by decide), trivial⟩, fun _ hlt => absurd hlt (by decide)⟩

/-- Ten bytes, just written. -/
def tenWritten : World MemOs := runFile memOsif 0 [.write (List.replicate 10 0x41)] (createdA 1)

/-- **A read moves the end**: after ten bytes were written, the end is at 10, and the next
byte lands there; after the first of them was read, the end is at 128. -/
theorem read_moves_end :
    AllSolid memCap false [.write (List.replicate 10 0x41), .lseek 0 2, .write [0x42]] ⟨[], 0⟩ ∧
      observeFile memOsif 0 [.lseek 0 2, .write [0x42]] tenWritten = [10, 10] ∧
      observeFile memOsif 0 [.lseek 0 2, .write [0x42]]
        (runFile memOsif 0 (readBack (tenWritten.fds 0) 0 1) tenWritten) = [128, 128] := by
  refine ⟨⟨fun _ => by decide, trivial, fun _ => by decide, trivial⟩, rfl, rfl⟩

end Cpm68k.Cpmlib
