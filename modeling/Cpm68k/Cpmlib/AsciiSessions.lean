import Cpm68k.Cpmlib.AsciiFile
import Cpm68k.Cpmlib.BinaryCopy

/-!
# Text files over several sessions

A program that creates a text file, writes to it and closes it, and in later sessions opens
it again to write at its end. `close` puts an end of file character behind the text, and the
next session finds the end of the text by it, and overwrites it.

## What is proved

* `wp_close_ended` — what `close` leaves on disk: the text, an end of file character, and
  anything behind it in the last sector.
* `wp_openEnd_appending` — opening for writing and seeking to the end gets to the end of
  the text.
* `append_back` — in whatever sessions and pieces it was written, and in whatever pieces it
  is read, the text comes back.
-/

namespace Cpm68k.Cpmlib

open Cpm68k.Library RecordStore

variable {σ : Type} {B : Osif σ} {S : RecordStore B} {file : FileId} {u : UInt16} {D E : ℕ → Option Sector}
  {f : List UInt8} {k : ℕ} {w : World σ}

/-! ### Writing at the end -/

/-- The channel is at the end of the text `f`, and the file has no sector behind it. -/
structure Appending (S : RecordStore B) (file : FileId) (u : UInt16) (f : List UInt8) (fp : Ccb) (os : σ) : Prop where
  offset : fp.offset = f.length
  hiwater : fp.hiwater = f.length
  content : ∃ E, Content S file u E True fp os ∧ Carries E f ∧ ∀ k, f.length < 128 * k → E k = none

/-- A write appends. -/
theorem wp_wrtasc_appending {s : Io σ} {data : List UInt8} (h : Appending S file u f s.fp s.os) (hdata : data ≠ [])
    (hcap : f.length + (wrtascOut 0 data).length ≤ 128 * S.cap) :
    wp (wrtasc B data) (fun _ s' => Appending S file u (f ++ wrtascOut 0 data) s'.fp s'.os) (fun _ _ => False) s := by
  obtain ⟨E, hcont, hf, hnone⟩ := h.content
  refine wp_mono (wp_wrtasc_carries hcont hf h.offset h.hiwater le_rfl hdata hcap) ?_ (fun _ _ h => h)
  rintro _ s' ⟨-, hoff, hhi, E', hcont', hf', -, hsame⟩
  rw [splice_length_self] at hf'
  have hlen : (f ++ wrtascOut 0 data).length = f.length + (wrtascOut 0 data).length := List.length_append
  refine ⟨by rw [hlen]; exact hoff, by rw [hhi, hlen]; omega, E', hcont', hf', fun j hj => ?_⟩
  rw [hsame j (by omega)]
  exact hnone j (by omega)

/-- What the chunks of a session put in the file. -/
def rawText (chunks : List (List UInt8)) : List UInt8 := chunks.flatMap (wrtascOut 0)

theorem wp_writeMany_appending (chunks : List (List UInt8)) (h : OpenFile false true k (Appending S file u f) w)
    (hcap : f.length + (rawText chunks).length ≤ 128 * S.cap) :
    wp (writeMany B k chunks) (fun _ => OpenFile false true k (Appending S file u (f ++ rawText chunks)))
      (fun _ _ => False) w := by
  induction chunks generalizing f w with
  | nil => simpa [writeMany, rawText] using h
  | cons c cs ih =>
    have hcons : rawText (c :: cs) = wrtascOut 0 c ++ rawText cs := List.flatMap_cons
    rw [hcons, List.length_append] at hcap
    rw [writeMany, wp_bind]
    refine wp_mono (h.wp_write (Q := fun _ => Appending S file u (f ++ wrtascOut 0 c)) (E := fun _ _ _ => False) ?_) ?_
      (fun _ _ h => h.holds)
    · by_cases hc : c = []
      · rw [hc, wp_writeFp_nil]
        simpa [wrtascOut] using h.holds
      · rw [wp_writeFp_file h.mode hc rfl, if_pos rfl]
        exact wp_wrtasc_appending h.holds hc (by omega)
    · intro _ w' h'
      have hrest := ih h' (by rw [List.length_append]; omega)
      rwa [List.append_assoc, ← hcons] at hrest

/-! ### Closing -/

/-- On disk: the text, an end of file character behind it, and nothing in later sectors. -/
structure Ended (f : List UInt8) (D : ℕ → Option Sector) : Prop where
  carries : Carries D (f ++ [EOFCHAR])
  size : IsSize D (f.length / 128 + 1)

theorem wp_closeEof_ended (h : OpenFile false true k (Appending S file u f) w) (hcap : f.length < 128 * S.cap) :
    wp (closeEof B k)
      (fun _ => OpenFile false true k fun fp os => ∃ E, Content S file u E True fp os ∧ Ended f E) (fun _ _ => False) w := by
  have ha := h.holds
  have hfile : (w.fds k).flags.ISASCII = true ∧ (w.fds k).flags.ISREAD = false := ⟨h.flags.ascii, h.flags.read⟩
  have hend : ¬ (w.fds k).offset < (w.fds k).hiwater := by rw [ha.offset, ha.hiwater]; exact lt_irrefl _
  rw [closeEof, wp_bind, wp_get, wp_whenever, if_pos hfile, wp_bind, wp_whenever, if_neg hend, wp_ignore]
  refine wp_mono (h.wp_write (Q := fun _ fp os => ∃ E, Content S file u E True fp os ∧ Ended f E)
    (E := fun _ _ _ => False) ?_) (fun _ _ h => h) (fun _ _ h => h.holds.elim)
  rw [wp_writeFp_file h.mode (List.cons_ne_nil _ _) rfl, if_pos rfl]
  obtain ⟨E, hcont, hf, hnone⟩ := ha.content
  refine wp_mono (wp_wrtasc_carries hcont hf ha.offset ha.hiwater le_rfl (List.cons_ne_nil _ _) hcap) ?_ (fun _ _ h => h)
  rintro _ s' ⟨-, -, -, E', hcont', hf', -, hsame⟩
  have hout : wrtascOut 0 [EOFCHAR] = [EOFCHAR] := rfl
  rw [hout] at hf' hsame
  rw [splice_length_self] at hf'
  refine ⟨E', hcont', hf', fun j hj => ?_, .inr (hf'.ne_none (by decide) ?_)⟩
  · rw [hsame j (by rw [List.length_singleton]; omega)]
    exact hnone j (by omega)
  · rw [List.length_append, List.length_singleton]
    omega

/-- Closing the file puts an end of file character behind the text. -/
theorem wp_close_ended (h : OpenFile false true k (Appending S file u f) w) (hcap : f.length < 128 * S.cap) :
    wp (close B k)
      (fun ret w' => ret = 0 ∧ (S.user w'.os = u ∧ ∃ D, S.files w'.os file = some D ∧ Ended f D) ∧
        ∃ j < 16, w'.chvec.getLsbD j = false)
      (fun _ _ => False) w := by
  refine wp_close_file (R := fun os => S.user os = u ∧ ∃ D, S.files os file = some D ∧ Ended f D) h ?_
  rw [closeFile, wp_bind]
  refine wp_mono (wp_closeEof_ended h hcap) ?_ (fun _ _ h => h)
  intro _ w' h'
  obtain ⟨E, ⟨D, hon, hl, rfl, -⟩, hended⟩ := h'.holds
  rw [wp_onCcb]
  refine wp_mono (wp_closeFcb_store hon hl) ?_ (fun _ _ h => h)
  rintro _ s' ⟨rfl, huser, hfiles⟩
  exact ⟨rfl, huser, _, hfiles, hended⟩

/-! ### Opening again -/

/-- The end of file character is found where the text ends. -/
theorem Ended.asciiEnd_eq (h : Ended f D) (hf : ∀ c ∈ f, c ≠ EOFCHAR) : asciiEnd D (f.length / 128 + 1) = f.length := by
  obtain ⟨r, hr⟩ := Option.ne_none_iff_exists'.mp (h.size.2.resolve_left (Nat.succ_ne_zero _))
  rw [Nat.add_sub_cancel] at hr
  have htake := h.carries.take_drop hr (p := 0)
  have hrest : (f ++ [EOFCHAR]).drop (128 * (f.length / 128) + 0) = f.drop (128 * (f.length / 128)) ++ [EOFCHAR] :=
    List.drop_append_of_le_length (by omega)
  have hfits : (f.drop (128 * (f.length / 128)) ++ [EOFCHAR]).take (128 - 0) = f.drop (128 * (f.length / 128)) ++ [EOFCHAR] :=
    List.take_of_length_le (by rw [List.length_append, List.length_drop, List.length_singleton]; omega)
  rw [hrest, hfits, List.drop_zero] at htake
  obtain ⟨rest, hbytes⟩ : ∃ rest, r.bytes = f.drop (128 * (f.length / 128)) ++ [EOFCHAR] ++ rest :=
    ⟨_, by rw [← htake]; exact (List.take_append_drop _ _).symm⟩
  have hscan : scanEof r.bytes = (f.drop (128 * (f.length / 128))).length := by
    rw [hbytes, List.append_assoc, scanEof, List.takeWhile_append_of_pos]
    · simp
    · intro c hc
      simpa using hf c (List.mem_of_mem_drop hc)
  rw [asciiEnd, hr, Option.getD_some, hscan, List.length_drop]
  omega

/-- Opening for writing, and seeking to the end. -/
def openEnd (B : Osif σ) (fname : List UInt8) : OsM σ ℤ := do
  let fd ← openChan B fname WRITE 0
  let _ ← lseek B fd 0 2
  pure fd

theorem wp_openEnd_appending {fname : List UInt8} (hname : NotDevice fname) (hlegal : Legal fname) (hu : S.user w.os = u)
    (hfile : S.files w.os (namedFile u fname) = some D) (hended : Ended f D) (hf : ∀ c ∈ f, c ≠ EOFCHAR)
    (hfree : ∃ j < 16, w.chvec.getLsbD j = false) :
    wp (openEnd B fname)
      (fun fd w' => ∃ k : ℕ, fd = k ∧ OpenFile false true k (Appending S (namedFile u fname) u f) w') (fun _ _ => False) w := by
  obtain ⟨j, hj, hbit⟩ := hfree
  rw [openEnd, wp_bind]
  refine wp_mono (wp_openChan_file hname hlegal hu hfile hended.size) ?_
    fun _ _ hfull => Bool.false_ne_true (hbit.symm.trans (hfull j hj))
  rintro _ w' ⟨k, rfl, h⟩
  have ho := h.holds
  rw [wp_bind]
  refine wp_mono (h.call (Q := fun _ => Appending S (namedFile u fname) u f) (E := fun _ _ _ => False)
    (keepsMode_lseekFp 0 2) ?_) (fun _ w'' h'' => ⟨k, rfl, h''⟩) (fun _ _ h => h.holds)
  have hend : diskEnd (w'.fds k).flags.ISASCII D (f.length / 128 + 1) = f.length := by
    rw [diskEnd, if_pos (h.flags.ascii.trans (by decide)), hended.asciiEnd_eq hf]
  refine wp_mono (wp_lseekFp_end_clean h.flags.notTty h.flags.notLpt ho.on ho.clean (fun _ => ho.coherent) hended.size) ?_
    (fun _ _ h => h)
  rintro _ _ ⟨-, fcb, os, sector, buffer, rfl, hon', hcoh', -⟩
  refine ⟨congrArg Nat.cast hend, congrArg Nat.cast hend, D, content_of_clean hon' ho.clean fun _ => hcoh' ho.coherent,
    hended.carries.of_append, fun j hj => hended.size.1 j (by omega)⟩

/-- A session that writes at the end of the file. -/
def appendSession (B : Osif σ) (fname : List UInt8) (chunks : List (List UInt8)) : OsM σ PUnit := do
  let fd ← openEnd B fname
  writeMany B fd chunks
  let _ ← close B fd

/-- Some sessions, one after the other. -/
def appendSessions (B : Osif σ) (fname : List UInt8) : List (List (List UInt8)) → OsM σ PUnit
  | [] => pure ⟨⟩
  | chunks :: rest => do
    appendSession B fname chunks
    appendSessions B fname rest

/-- The file is closed, and has the text `f`; and a channel is free. -/
structure ClosedText (S : RecordStore B) (file : FileId) (u : UInt16) (f : List UInt8) (w : World σ) : Prop where
  user : S.user w.os = u
  file : ∃ D, S.files w.os file = some D ∧ Ended f D
  free : ∃ j < 16, w.chvec.getLsbD j = false

/-- The chunks have no end of file character. -/
def Plain (chunks : List (List UInt8)) : Prop := ∀ c ∈ chunks, ∀ x ∈ c, x ≠ EOFCHAR

theorem eof_notMem_rawText {chunks : List (List UInt8)} (h : Plain chunks) : ∀ c ∈ rawText chunks, c ≠ EOFCHAR := by
  intro c hc
  obtain ⟨chunk, hchunk, hc⟩ := List.mem_flatMap.mp hc
  exact eof_notMem_wrtascOut (h chunk hchunk) 0 c hc

/-- **A session appends** what its chunks put in the file. -/
theorem wp_appendSession {fname : List UInt8} {chunks : List (List UInt8)} (hname : NotDevice fname) (hlegal : Legal fname)
    (h : ClosedText S (namedFile u fname) u f w) (hf : ∀ c ∈ f, c ≠ EOFCHAR)
    (hcap : f.length + (rawText chunks).length < 128 * S.cap) :
    wp (appendSession B fname chunks) (fun _ => ClosedText S (namedFile u fname) u (f ++ rawText chunks)) (fun _ _ => False) w := by
  obtain ⟨D, hD, hended⟩ := h.file
  rw [appendSession, wp_bind]
  refine wp_mono (wp_openEnd_appending hname hlegal h.user hD hended hf h.free) ?_ (fun _ _ h => h)
  rintro _ w₁ ⟨k, rfl, h₁⟩
  rw [wp_bind]
  refine wp_mono (wp_writeMany_appending chunks h₁ hcap.le) ?_ (fun _ _ h => h)
  intro _ w₂ h₂
  rw [wp_bind]
  refine wp_mono (wp_close_ended h₂ (by rw [List.length_append]; exact hcap)) ?_ (fun _ _ h => h)
  rintro _ w₃ ⟨-, ⟨huser, hfile⟩, hfree⟩
  exact ⟨huser, hfile, hfree⟩

theorem wp_appendSessions {fname : List UInt8} (sessions : List (List (List UInt8))) (hname : NotDevice fname)
    (hlegal : Legal fname) (h : ClosedText S (namedFile u fname) u f w) (hf : ∀ c ∈ f, c ≠ EOFCHAR)
    (hplain : ∀ chunks ∈ sessions, Plain chunks) (hcap : f.length + (rawText sessions.flatten).length < 128 * S.cap) :
    wp (appendSessions B fname sessions)
      (fun _ => ClosedText S (namedFile u fname) u (f ++ rawText sessions.flatten)) (fun _ _ => False) w := by
  induction sessions generalizing f w with
  | nil => simpa [appendSessions, rawText] using h
  | cons chunks rest ih =>
    obtain ⟨hchunks, hrest⟩ := List.forall_mem_cons.mp hplain
    have hcons : rawText (chunks :: rest).flatten = rawText chunks ++ rawText rest.flatten := by
      rw [List.flatten_cons, rawText, List.flatMap_append]
      rfl
    rw [hcons, List.length_append] at hcap
    rw [appendSessions, wp_bind]
    refine wp_mono (wp_appendSession hname hlegal h hf (by omega)) ?_ (fun _ _ h => h)
    intro _ w' h'
    have hsessions := ih h' (fun c hc => (List.mem_append.mp hc).elim (hf c) (eof_notMem_rawText hchunks c)) hrest
      (by rw [List.length_append]; omega)
    rwa [List.append_assoc, ← hcons] at hsessions

/-! ### Reading -/

/-- The channel reads the text `f`, and has come to byte `o`. -/
structure ReadingText (S : RecordStore B) (file : FileId) (u : UInt16) (E : ℕ → Option Sector) (f : List UInt8) (o : ℕ)
    (fp : Ccb) (os : σ) : Prop where
  content : Content S file u E True fp os
  offset : fp.offset = o
  inside : o ≤ f.length
  eof : fp.flags.ATEOF = true → text (f.drop o) = []

/-- One `read`: characters of the text, as many as are asked for, or as are left. -/
theorem wp_readFp_text {s : Io σ} {isread : Bool} (n : ℕ) {o : ℕ} (hmode : s.fp.mode = fileMode isread true k)
    (h : ReadingText S file u E f o s.fp s.os) (hE : Carries E (f ++ [EOFCHAR])) (hf : ∀ c ∈ f, c ≠ EOFCHAR)
    (hsmall : f.length + 1 < 2 ^ 31) :
    wp (readFp B n)
      (fun ret s' => ret = ((text (f.drop o)).take n).length ∧ s'.buff = s.buff ++ (text (f.drop o)).take n ∧
        ∃ o', text (f.drop o') = (text (f.drop o)).drop n ∧ ReadingText S file u E f o' s'.fp s'.os)
      (fun _ _ => False) s := by
  cases heof : s.fp.flags.ATEOF with
  | true =>
    have hnil := h.eof heof
    rw [wp_readFp_ateof heof, hnil]
    refine ⟨by simp, by simp, o, by simp [hnil], h⟩
  | false =>
    have hin := h.inside
    have hdrop : (f ++ [EOFCHAR]).drop o = f.drop o ++ [EOFCHAR] := List.drop_append_of_le_length hin
    have hf' : ∀ c ∈ f.drop o, c ≠ EOFCHAR := fun c hc => hf c (List.mem_of_mem_drop hc)
    obtain ⟨hdone, hstored, hconsumed⟩ := rdascMove_ended (f.drop o) n
    obtain ⟨htext, hrest, -⟩ := rdascMove_text (f.drop o) n hf'
    rw [List.drop_drop] at hrest
    rw [← hdrop] at hdone hstored hconsumed
    rw [htext] at hstored
    have hle := rdascMove_consumed_le (f.drop o) n
    rw [List.length_drop] at hle
    rw [wp_readFp_file hmode heof, if_pos rfl]
    refine wp_mono (wp_rdasc_carries n h.content hE h.offset (by rw [List.length_append]; omega)
      (by rw [List.length_append, List.length_singleton]; exact hsmall) (.inl hdone)) ?_ (fun _ _ h => h)
    rintro ret s' ⟨hret, h'⟩
    have hbuff := h'.buff
    have hoff := h'.offset
    have hat := h'.eof
    rw [hstored] at hret hbuff hat
    rw [hconsumed] at hoff
    refine ⟨hret, hbuff, _, hrest, h'.content, hoff, by omega, fun h => ?_⟩
    rw [hat, heof, Bool.false_or, decide_eq_true_eq, List.length_take] at h
    rw [hrest]
    exact List.drop_eq_nil_of_le (by omega)

theorem wp_readMany_text {isread : Bool} (ns : List ℕ) (hE : Carries E (f ++ [EOFCHAR]))
    (hf : ∀ c ∈ f, c ≠ EOFCHAR) (hsmall : f.length + 1 < 2 ^ 31)
    (h : OpenFile isread true k (ReadingText S file u E f 0) w) :
    wp (readMany B k ns) (fun rs _ => rs = pieces (text f) ns) (fun _ _ => False) w := by
  refine wp_mono (wp_readMany_pieces
    (P := fun m fp os => ∃ o, text (f.drop o) = (text f).drop m ∧ ReadingText S file u E f o fp os) (text f)
    (fun m n w h => ?_) ns 0 ⟨h.lt, h.mode, 0, rfl, h.holds⟩) (fun _ _ h => h.1) (fun _ _ h => h)
  obtain ⟨o, ho, hr⟩ := h.holds
  refine h.wp_read (E := fun _ _ _ => False) (wp_mono (wp_readFp_text n h.mode hr hE hf hsmall) ?_ (fun _ _ h => h))
  rintro _ s' ⟨rfl, hbuff, o', ho', hr'⟩
  rw [ho] at ho' hbuff ⊢
  rw [hbuff]
  exact ⟨rfl, o', ho'.trans (List.drop_drop ..), hr'⟩

/-- Opening a closed text, and reading it. -/
def openRead (B : Osif σ) (fname : List UInt8) (ns : List ℕ) : OsM σ (List (ℤ × List UInt8)) := do
  let fd ← openChan B fname READ 0
  readMany B fd ns

theorem wp_openRead_text {fname : List UInt8} (ns : List ℕ) (hname : NotDevice fname) (hlegal : Legal fname)
    (h : ClosedText S (namedFile u fname) u f w) (hf : ∀ c ∈ f, c ≠ EOFCHAR) (hsmall : f.length + 1 < 2 ^ 31) :
    wp (openRead B fname ns) (fun rs _ => rs = pieces (text f) ns) (fun _ _ => False) w := by
  obtain ⟨D, hD, hended⟩ := h.file
  obtain ⟨j, hj, hbit⟩ := h.free
  rw [openRead, wp_bind]
  refine wp_mono (wp_openChan_file hname hlegal h.user hD hended.size) ?_
    fun _ _ hfull => Bool.false_ne_true (hbit.symm.trans (hfull j hj))
  rintro _ w' ⟨k, rfl, h'⟩
  have ho := h'.holds
  have hreading : ReadingText S (namedFile u fname) u D f 0 (w'.fds k) w'.os := by
    refine ⟨content_of_clean ho.on ho.clean fun _ => ho.coherent, ho.offset, Nat.zero_le _, fun heof => ?_⟩
    rw [ho.noEof] at heof
    cases heof
  exact wp_readMany_text ns hended.carries hf hsmall ⟨h'.lt, h'.mode, hreading⟩

/-! ### The life of a text file -/

/-- The life of a file after it was created: its first session, some more, and reading it. -/
def lifeCycle (B : Osif σ) (fd : ℤ) (fname : List UInt8) (first : List (List UInt8)) (rest : List (List (List UInt8)))
    (ns : List ℕ) : OsM σ (List (ℤ × List UInt8)) := do
  writeMany B fd first
  let _ ← close B fd
  appendSessions B fname rest
  openRead B fname ns

theorem rawText_append (cs ds : List (List UInt8)) : rawText (cs ++ ds) = rawText cs ++ rawText ds := List.flatMap_append

theorem text_rawText {chunks : List (List UInt8)} (h : ∀ c ∈ chunks, ∀ x ∈ c, x ≠ carriageReturn) :
    text (rawText chunks) = chunks.flatten := by
  induction chunks with
  | nil => rfl
  | cons c cs ih =>
    obtain ⟨hc, hcs⟩ := List.forall_mem_cons.mp h
    have hcons : rawText (c :: cs) = wrtascOut 0 c ++ rawText cs := List.flatMap_cons
    rw [hcons, text_append, text_wrtascOut hc, ih hcs, List.flatten_cons]

/-- The text file that `_creat` makes is empty. -/
theorem appending_created {fname : List UInt8} {fd : ℤ} {w₀ w₁ : World σ} (hname : NotDevice fname)
    (hcreat : creat B fname 0 w₀ = .ok fd w₁) (hknown : S.users (namedFile (S.user w₀.os) fname).user) :
    Legal fname ∧ ∃ k : ℕ, fd = k ∧
      OpenFile false true k (Appending S (namedFile (S.user w₀.os) fname) (S.user w₀.os) []) w₁ := by
  have hopen : wp (creat B fname 0) _ _ w₀ := wp_creat_file (S := S) hname rfl hknown
  rw [wp_of_eq_ok hcreat] at hopen
  obtain ⟨hlegal, k, rfl, hk⟩ := hopen
  obtain ⟨hcreated, hon⟩ := hk.holds
  have hcoh : Coherent (w₁.fds k) fun _ => none := fun _ _ _ r hr => by cases hr
  exact ⟨hlegal, k, rfl, hk.lt, hk.mode, hcreated.offset, hcreated.hiwater, _,
    content_of_clean hon hcreated.clean fun _ => hcoh, fun _ _ _ hx => by simp at hx, fun _ _ => rfl⟩

/-- **A text file is read back as it was written**: whatever its sessions, their chunks and
the requests are, every `read` returns the number of the characters it stores, together
they store the chunks of all sessions from the start, as many characters as were asked for,
and a `read` that comes when everything has been read returns 0. -/
theorem append_back (S : RecordStore B) {fname : List UInt8} {fd : ℤ} {w₀ w₁ : World σ} (hname : NotDevice fname)
    (hcreat : creat B fname 0 w₀ = .ok fd w₁) (hknown : S.users (namedFile (S.user w₀.os) fname).user)
    {first : List (List UInt8)} {rest : List (List (List UInt8))}
    (hplain : ∀ chunks ∈ first :: rest, ∀ c ∈ chunks, ∀ x ∈ c, x ≠ carriageReturn ∧ x ≠ EOFCHAR)
    (hcap : (rawText (first :: rest).flatten).length < 128 * S.cap) (ns : List ℕ) :
    ∃ rs w₂, lifeCycle B fd fname first rest ns w₁ = .ok rs w₂ ∧
      (∀ r ∈ rs, r.1 = r.2.length) ∧ rs.flatMap Prod.snd = (first :: rest).flatten.flatten.take ns.sum ∧
      ∀ i < ns.length, (first :: rest).flatten.flatten.length ≤ (ns.take i).sum → rs[i]? = some (0, []) := by
  have hcap' : S.cap < 2 ^ 24 := S.cap_lt
  have hchunk : ∀ c ∈ (first :: rest).flatten, ∀ x ∈ c, x ≠ carriageReturn ∧ x ≠ EOFCHAR := by
    intro c hc
    obtain ⟨chunks, hchunks, hc⟩ := List.mem_flatten.mp hc
    exact hplain chunks hchunks c hc
  have htext : text (rawText (first :: rest).flatten) = (first :: rest).flatten.flatten :=
    text_rawText fun c hc x hx => (hchunk c hc x hx).1
  have hraw : ∀ c ∈ rawText (first :: rest).flatten, c ≠ EOFCHAR :=
    eof_notMem_rawText fun c hc x hx => (hchunk c hc x hx).2
  have hfirst : Plain first := fun c hc x hx => (hplain first List.mem_cons_self c hc x hx).2
  have hrest : ∀ chunks ∈ rest, Plain chunks :=
    fun chunks h c hc x hx => (hplain chunks (List.mem_cons_of_mem _ h) c hc x hx).2
  obtain ⟨hlegal, k, rfl, hk⟩ := appending_created (S := S) hname hcreat hknown
  rw [← htext]
  rw [List.flatten_cons, rawText_append] at hcap hraw ⊢
  have hlen : (rawText first ++ rawText rest.flatten).length = (rawText first).length + (rawText rest.flatten).length :=
    List.length_append
  refine exists_of_wp ?_
  rw [lifeCycle, wp_bind]
  refine wp_mono (wp_writeMany_appending first hk (by rw [List.length_nil]; omega)) ?_ (fun _ _ h => h)
  intro _ w₂ h₂
  rw [List.nil_append] at h₂
  rw [wp_bind]
  refine wp_mono (wp_close_ended h₂ (by omega)) ?_ (fun _ _ h => h)
  rintro _ w₃ ⟨-, ⟨huser₃, hfile₃⟩, hfree₃⟩
  rw [wp_bind]
  refine wp_mono (wp_appendSessions rest hname hlegal ⟨huser₃, hfile₃, hfree₃⟩ (eof_notMem_rawText hfirst) hrest (by omega)) ?_
    (fun _ _ h => h)
  intro _ w₄ h₄
  refine wp_mono (wp_openRead_text ns hname hlegal h₄ hraw (by omega)) ?_ (fun _ _ h => h)
  rintro _ _ rfl
  exact ⟨length_of_mem_pieces ns _, flatMap_pieces ns _, fun i hi => pieces_end ns _ hi⟩

/-- Two sessions with newlines, read 3 characters at a time. -/
theorem append_back_small :
    ∃ rs w₂, lifeCycle memOsif 0 [0x41] [[0x61, 0x0a], [0x62]] [[[0x0a, 0x63]]] [3, 3] (createdA 0) = .ok rs w₂ ∧
      (∀ r ∈ rs, r.1 = r.2.length) ∧ rs.flatMap Prod.snd = [0x61, 0x0a, 0x62, 0x0a, 0x63] ∧
      ∀ i < 2, 5 ≤ ([3, 3].take i).sum → rs[i]? = some (0, []) :=
  append_back memStore notDevice_A creat_createdA_ascii known_A (by decide +kernel) (by decide +kernel) [3, 3]

end Cpm68k.Cpmlib
