import Cpm68k.Cpmlib.AsciiFile
import Cpm68k.Cpmlib.LastWriter

/-!
# Splitting a write to an ASCII file

`_wrtasc` puts a carriage return before a newline, unless there is one already: the last
character that was put is kept in a local variable, and a new call knows nothing of it.

## The model

`PutState` is what `_wrtasc` looks at: the file as the channel has it, the buffer and its label,
the high water mark and the offset. `PutState.byte` puts one byte there; a call puts the bytes of
`wrtascOut`, one after the other (`PutAt`).

## What is proved

* `bytes_sector` — the bytes that go to one sector.
* `wp_wrtasc_bytes` — a call of `_wrtasc` puts its bytes one by one, however they lie in sectors.
* `wrtascOut_flatten`, `length_wrtascOut_flatten` — the bytes of one call and of several.
* `ascii_split_iff` — writing a text in pieces is the same as writing it at once, unless a piece
  ends between a carriage return and a newline (`CutsPair`).
-/

namespace Cpm68k.Cpmlib

open Cpm68k.Library RecordStore

variable {σ : Type} {B : Osif σ} {S : RecordStore B} {file : FileId} {u : UInt16} {E : ℕ → Option Sector} {s : Io σ}

/-! ### Byte by byte -/

/-- An ASCII file in which bytes are put. -/
structure PutState where
  /-- The records of the file, with the buffer written. -/
  recs : ℕ → Option Sector
  buffer : Sector
  /-- The sector in the buffer. -/
  label : ℤ
  hiwater : ℤ
  offset : ℕ

namespace PutState

/-- The buffer in which the next byte is put: it is read first when the sector lies below the high
water mark. -/
def loaded (f : PutState) : Sector :=
  if f.label = (f.offset / 128 : ℕ) then f.buffer
  else if (128 * (f.offset / 128) : ℕ) < f.hiwater then (f.recs (f.offset / 128)).getD f.buffer
  else f.buffer

theorem loaded_of_label {f : PutState} (h : f.label = (f.offset / 128 : ℕ)) : f.loaded = f.buffer := if_pos h

/-- The byte `c` is put at the offset. -/
def byte (f : PutState) (c : UInt8) : PutState where
  recs := Function.update f.recs (f.offset / 128) (some (f.loaded.move (f.offset % 128) [c]))
  buffer := f.loaded.move (f.offset % 128) [c]
  label := (f.offset / 128 : ℕ)
  hiwater := max f.hiwater (f.offset + 1 : ℕ)
  offset := f.offset + 1

/-- Bytes are put one after the other. -/
def bytes (f : PutState) (bs : List UInt8) : PutState := bs.foldl byte f

theorem bytes_append (f : PutState) (bs cs : List UInt8) : f.bytes (bs ++ cs) = (f.bytes bs).bytes cs := List.foldl_append

@[simp] theorem bytes_offset (f : PutState) (bs : List UInt8) : (f.bytes bs).offset = f.offset + bs.length := by
  induction bs generalizing f with
  | nil => rfl
  | cons c bs ih =>
    rw [bytes, List.foldl_cons]
    refine (ih (f.byte c)).trans ?_
    simp only [byte, List.length_cons]
    omega

/-- The bytes that go to one sector. -/
theorem bytes_sector {f : PutState} {bs : List UInt8} (hbs : bs ≠ []) (hfit : f.offset % 128 + bs.length ≤ 128) :
    f.bytes bs =
      { recs := Function.update f.recs (f.offset / 128) (some (f.loaded.move (f.offset % 128) bs))
        buffer := f.loaded.move (f.offset % 128) bs
        label := (f.offset / 128 : ℕ)
        hiwater := max f.hiwater (f.offset + bs.length : ℕ)
        offset := f.offset + bs.length } := by
  induction bs using List.reverseRecOn with
  | nil => exact absurd rfl hbs
  | append_singleton bs c ih =>
    rw [List.length_append, List.length_singleton] at hfit ⊢
    rw [bytes_append]
    by_cases hnil : bs = []
    · subst hnil
      rfl
    · have hpos := List.length_pos_iff.mpr hnil
      have hdiv : (f.offset + bs.length) / 128 = f.offset / 128 := by omega
      have hmod : (f.offset + bs.length) % 128 = f.offset % 128 + bs.length := by omega
      have hmove : (f.loaded.move (f.offset % 128) bs).move (f.offset % 128 + bs.length) [c] =
          f.loaded.move (f.offset % 128) (bs ++ [c]) := patch_append ..
      have hloaded : ∀ recs buffer hiwater,
          (⟨recs, buffer, (f.offset / 128 : ℕ), hiwater, f.offset + bs.length⟩ : PutState).loaded = buffer :=
        fun _ _ _ => loaded_of_label (by rw [hdiv])
      rw [ih hnil (by omega), bytes, List.foldl_cons, List.foldl_nil, byte, hloaded]
      simp only [hdiv, hmod, Function.update_idem, hmove, Nat.add_assoc, mk.injEq, true_and, and_true]
      omega

/-- Of the `n` bytes from the offset on, every sector that has to be read is there. -/
def Whole (f : PutState) (n : ℕ) : Prop :=
  ∀ j, f.offset / 128 ≤ j → 128 * j < f.offset + n → (128 * j : ℕ) < f.hiwater → f.recs j ≠ none

/-- Fewer bytes are put in fewer sectors. -/
theorem Whole.mono {f : PutState} {m n : ℕ} (h : f.Whole n) (hmn : m ≤ n) : f.Whole m :=
  fun j hj hlt hhi => h j hj (by omega) hhi

theorem Whole.byte {f : PutState} {c : UInt8} {n : ℕ} (h : f.Whole (n + 1)) : (f.byte c).Whole n := by
  intro j hj hlt hhi
  simp only [PutState.byte] at hj hlt hhi ⊢
  by_cases hk : j = f.offset / 128
  · rw [hk, Function.update_self]
    exact Option.some_ne_none _
  · rw [Function.update_of_ne hk]
    exact h j (by omega) (by omega) (by omega)

/-- When some of them have been put, this remains so for the others. -/
theorem Whole.bytes {f : PutState} {bs : List UInt8} {n : ℕ} (h : f.Whole (bs.length + n)) : (f.bytes bs).Whole n := by
  induction bs generalizing f with
  | nil =>
    rw [List.length_nil, Nat.zero_add] at h
    exact h
  | cons c bs ih =>
    rw [List.length_cons, Nat.add_right_comm] at h
    exact ih h.byte

end PutState

/-! ### `_wrtasc` -/

/-- The channel has the file. -/
structure PutAt (S : RecordStore B) (file : FileId) (u : UInt16) (f : PutState) (fp : Ccb) (os : σ) : Prop where
  content : Content S file u f.recs False fp os
  buffer : fp.buffer = f.buffer
  label : fp.sector = f.label
  hiwater : fp.hiwater = f.hiwater
  offset : fp.offset = f.offset

/-- The loop of `_wrtasc`. It raises the high water mark when it is through, which makes no difference
to a sector that it comes to. -/
theorem wp_wrtascLoop_bytes (written fuel : ℕ) {cc : UInt8} {data : List UInt8} {f : PutState}
    (hcont : Content S file u f.recs False s.fp s.os) (hbuf : s.fp.buffer = f.buffer) (hlabel : s.fp.sector = f.label)
    (ho : s.fp.offset = f.offset)
    (hhi : s.fp.hiwater = f.hiwater ∨ f.offset % 128 = 0 ∧ f.hiwater = max s.fp.hiwater f.offset) (hdata : data ≠ [])
    (hfuel : (wrtascOut cc data).length ≤ fuel) (hcap : f.offset + (wrtascOut cc data).length ≤ 128 * S.cap)
    (hwhole : f.Whole (wrtascOut cc data).length) :
    wp (wrtascLoop B written fuel cc data)
      (fun r s' => r = toLong written ∧ PutAt S file u (f.bytes (wrtascOut cc data)) s'.fp s'.os) (fun _ _ => False) s := by
  have hpos := List.length_pos_iff.mpr hdata
  have hout := length_le_wrtascOut data cc
  induction fuel generalizing cc data f s with
  | zero => omega
  | succ fuel ih =>
    have hk : s.fp.offset / 128 = (f.offset / 128 : ℕ) := by omega
    have hpos' : bufPos s.fp = f.offset % 128 := by
      unfold bufPos
      omega
    have hbelow : OFFSECT s.fp ≤ HIWSECT s.fp ↔ (128 * (f.offset / 128) : ℕ) < f.hiwater := by
      unfold OFFSECT HIWSECT
      omega
    have hloaded : sectorBuffer f.recs (f.offset / 128) s.fp = f.loaded := by
      rw [sectorBuffer, PutState.loaded, hlabel, hbuf]
      simp only [hbelow]
    refine wp_wrtascLoop_turn written fuel hcont hk (by omega) hdata (fun _ _ hlow hnone _ => ?_)
      (fun put cc' s' ht => ?_) fun put cc' left s' hleft ht => ?_
    · -- below the high water mark no sector is missing
      have hlow := hbelow.mp hlow
      exact hwhole _ le_rfl (by omega) hlow hnone
    · -- everything has been put
      obtain ⟨happ, hlength, hput, ⟨fcb, os, dirty, rfl⟩, D, hon, hl, hE, -⟩ := ht
      rw [hpos'] at hlength
      rw [wrtascOut, List.append_nil] at happ
      have hsector := PutState.bytes_sector (f := f) (List.length_pos_iff.mp hput) (by omega)
      rw [wp_bind, wp_raiseHiwater, wp_pure, ← happ, hsector]
      rw [hloaded, hpos'] at hon hl hE ⊢
      refine ⟨rfl, ⟨D, ⟨hon.user, hon.id, hon.files⟩, hl, hE, False.elim⟩, rfl, rfl, ?_, ?_⟩
      · simp only
        omega
      · simp only
        omega
    · -- the sector is full
      obtain ⟨happ, hput, hput₀, ⟨fcb, os, dirty, rfl⟩, D, hon, hl, hE, -⟩ := ht
      rw [hpos'] at hput
      rw [hloaded, hpos'] at hon hl hE ⊢
      have hlength := congrArg List.length happ
      rw [List.length_append] at hlength
      have hrest : 0 < (wrtascOut cc' left).length := by
        rw [List.length_pos_iff, Ne, wrtascOut_eq_nil]
        exact hleft
      have hsector := PutState.bytes_sector (f := f) (List.length_pos_iff.mp hput₀) (by omega)
      rw [← hlength] at hwhole
      have hwhole₂ := hwhole.bytes
      rw [← happ, PutState.bytes_append]
      refine ih (f := f.bytes put) ?_ ?_ ?_ ?_ ?_ hleft (by omega) ?_ hwhole₂ (List.length_pos_iff.mpr hleft)
        (length_le_wrtascOut _ _)
      · rw [hsector]
        exact ⟨D, hon, hl, hE, False.elim⟩
      · rw [hsector]
      · rw [hsector]
      · rw [hsector]
        simp only
        omega
      · rw [hsector]
        simp only
        omega
      · rw [PutState.bytes_offset]
        omega

/-- A call of `write` puts the bytes of its data. -/
theorem wp_write_bytes {k : ℕ} {w : World σ} {f : PutState} {data : List UInt8}
    (h : OpenFile false true k (PutAt S file u f) w) (hcap : f.offset + (wrtascOut 0 data).length ≤ 128 * S.cap)
    (hwhole : f.Whole (wrtascOut 0 data).length) :
    wp (write B k data)
      (fun r => OpenFile false true k (fun fp os => r = toLong data.length ∧ PutAt S file u (f.bytes (wrtascOut 0 data)) fp os))
      (fun _ _ => False) w := by
  obtain ⟨hcont, hbuf, hlabel, hhi, ho⟩ := h.holds
  refine wp_mono (h.wp_write (Q := fun r fp os => r = toLong data.length ∧ PutAt S file u (f.bytes (wrtascOut 0 data)) fp os)
    (E := fun _ _ _ => False) ?_) (fun _ _ h => h) (fun _ _ h => h.holds)
  by_cases hdata : data = []
  · rw [hdata, wp_writeFp_nil]
    exact ⟨(toLong_of_lt (show 0 < 2 ^ 31 by decide)).symm, h.holds⟩
  · rw [wp_writeFp_file h.mode hdata rfl, if_pos rfl]
    exact wp_wrtascLoop_bytes _ _ hcont hbuf hlabel ho (.inl hhi) hdata ((length_wrtascOut_le data 0).trans (Nat.le_succ _))
      hcap hwhole

/-- After it the channel has the file with these bytes. -/
theorem putAt_write {k : ℕ} {w : World σ} {f : PutState} {data : List UInt8}
    (h : OpenFile false true k (PutAt S file u f) w) (hcap : f.offset + (wrtascOut 0 data).length ≤ 128 * S.cap)
    (hwhole : f.Whole (wrtascOut 0 data).length) :
    OpenFile false true k (PutAt S file u (f.bytes (wrtascOut 0 data))) (after (write B k data) w) :=
  wp_after (wp_mono (wp_write_bytes h hcap hwhole) (fun _ _ h => ⟨h.lt, h.mode, h.holds.2⟩) (fun _ _ h => h.elim))

/-! ### Texts and their pieces -/

/-- The character that was put last. -/
def lastPut (cc : UInt8) (data : List UInt8) : UInt8 := data.getLast?.getD cc

/-- What is put for a text depends on its beginning through the last character of that. -/
theorem wrtascOut_append (cc : UInt8) (a b : List UInt8) :
    wrtascOut cc (a ++ b) = wrtascOut cc a ++ wrtascOut (lastPut cc a) b := by
  induction a generalizing cc with
  | nil => rfl
  | cons c a ih =>
    have hlast : lastPut cc (c :: a) = lastPut c a := by
      unfold lastPut
      rw [List.getLast?_cons, Option.getD_some]
    rw [hlast, List.cons_append, wrtascOut, wrtascOut, ih]
    split_ifs <;> rfl

/-- After a carriage return, a newline at the beginning is put as it is. -/
theorem wrtascOut_eq_of_head {cc : UInt8} {data : List UInt8} (h : ¬ (cc = carriageReturn ∧ data.head? = some newline)) :
    wrtascOut cc data = wrtascOut 0 data := by
  cases data with
  | nil => rfl
  | cons c data =>
    rw [wrtascOut, wrtascOut]
    by_cases hc : c = newline
    · have hcc : cc ≠ carriageReturn := fun hcc => h ⟨hcc, by rw [hc, List.head?_cons]⟩
      rw [if_pos ⟨hc, hcc⟩, if_pos ⟨hc, by decide⟩]
    · rw [if_neg fun h => hc h.1, if_neg fun h => hc h.1]

theorem length_wrtascOut_cr {data : List UInt8} (h : data.head? = some newline) :
    (wrtascOut carriageReturn data).length + 1 = (wrtascOut 0 data).length := by
  cases data with
  | nil => cases h
  | cons c data =>
    obtain rfl : c = newline := by simpa using h
    rw [wrtascOut, wrtascOut, if_neg fun h => h.2 rfl, if_pos ⟨rfl, by decide⟩]
    rfl

/-- A piece ends between a carriage return and a newline. -/
def CutsPair (cs : List (List UInt8)) : Prop :=
  ∃ as bs, cs = as ++ bs ∧ as.flatten.getLast? = some carriageReturn ∧ bs.flatten.head? = some newline

/-- It is the first piece, or one of the others. -/
theorem cutsPair_cons {c : List UInt8} {cs : List (List UInt8)} :
    CutsPair (c :: cs) ↔ c.getLast? = some carriageReturn ∧ cs.flatten.head? = some newline ∨ CutsPair cs := by
  constructor
  · rintro ⟨as, bs, hcs, hlast, hhead⟩
    cases as with
    | nil => cases hlast
    | cons a as =>
      rw [List.cons_append, List.cons.injEq] at hcs
      obtain ⟨rfl, rfl⟩ := hcs
      rw [List.flatten_cons, List.getLast?_append] at hlast
      cases has : as.flatten.getLast? with
      | none =>
        rw [has, Option.none_or] at hlast
        rw [List.flatten_append, List.getLast?_eq_none_iff.mp has, List.nil_append]
        exact .inl ⟨hlast, hhead⟩
      | some x =>
        rw [has, Option.some_or] at hlast
        exact .inr ⟨as, bs, rfl, has.trans hlast, hhead⟩
  · rintro (⟨hlast, hhead⟩ | ⟨as, bs, rfl, hlast, hhead⟩)
    · exact ⟨[c], cs, rfl, by simpa using hlast, hhead⟩
    · refine ⟨c :: as, bs, rfl, ?_, hhead⟩
      rw [List.flatten_cons, List.getLast?_append, hlast, Option.some_or]

/-- What is put for a text in one call. -/
theorem length_wrtascOut_flatten (cs : List (List UInt8)) :
    (wrtascOut 0 cs.flatten).length ≤ (cs.flatMap (wrtascOut 0)).length ∧
      (CutsPair cs → (wrtascOut 0 cs.flatten).length < (cs.flatMap (wrtascOut 0)).length) := by
  induction cs with
  | nil =>
    refine ⟨Nat.zero_le _, ?_⟩
    rintro ⟨as, bs, hcs, hlast, -⟩
    obtain ⟨rfl, rfl⟩ := List.append_eq_nil_iff.mp hcs.symm
    cases hlast
  | cons c cs ih =>
    obtain ⟨hle, hlt⟩ := ih
    rw [List.flatten_cons, List.flatMap_cons, wrtascOut_append, List.length_append, List.length_append, cutsPair_cons]
    by_cases hpair : lastPut 0 c = carriageReturn ∧ cs.flatten.head? = some newline
    · have hcr := length_wrtascOut_cr hpair.2
      rw [hpair.1]
      exact ⟨by omega, fun _ => by omega⟩
    · rw [wrtascOut_eq_of_head hpair]
      refine ⟨by omega, fun h => ?_⟩
      have hrest := h.resolve_left fun h => hpair ⟨by rw [lastPut, h.1]; rfl, h.2⟩
      have hlt := hlt hrest
      omega

/-- It is the same in pieces that cut no pair. -/
theorem wrtascOut_flatten {cs : List (List UInt8)} (h : ¬ CutsPair cs) :
    wrtascOut 0 cs.flatten = cs.flatMap (wrtascOut 0) := by
  induction cs with
  | nil => rfl
  | cons c cs ih =>
    rw [cutsPair_cons, not_or] at h
    obtain ⟨hfirst, hrest⟩ := h
    suffices hhead : ¬ (lastPut 0 c = carriageReturn ∧ cs.flatten.head? = some newline) by
      rw [List.flatten_cons, List.flatMap_cons, wrtascOut_append, wrtascOut_eq_of_head hhead, ih hrest]
    rintro ⟨hlast, hhead⟩
    apply hfirst
    unfold lastPut at hlast
    cases hc : c.getLast? with
    | none =>
      rw [hc, Option.getD_none] at hlast
      exact absurd hlast (by decide)
    | some x =>
      rw [hc, Option.getD_some] at hlast
      exact ⟨congrArg some hlast, hhead⟩

/-! ### Several calls -/

/-- Several calls of `write` put the bytes of all their pieces. -/
theorem putAt_writes {k : ℕ} {w : World σ} {f : PutState} (cs : List (List UInt8))
    (h : OpenFile false true k (PutAt S file u f) w)
    (hcap : f.offset + (cs.flatMap (wrtascOut 0)).length ≤ 128 * S.cap)
    (hwhole : f.Whole (cs.flatMap (wrtascOut 0)).length) :
    OpenFile false true k (PutAt S file u (f.bytes (cs.flatMap (wrtascOut 0)))) (runFile B k (cs.map .write) w) := by
  induction cs generalizing f w with
  | nil => exact h
  | cons c cs ih =>
    rw [List.flatMap_cons, List.length_append] at hcap hwhole
    have hfirst := putAt_write h (by omega) (hwhole.mono (Nat.le_add_right _ _))
    rw [List.flatMap_cons, PutState.bytes_append]
    exact ih hfirst (by rw [PutState.bytes_offset]; omega) hwhole.bytes

/-- On channel `k` two worlds have the same file, and are at the same place of it. -/
def SamePut (S : RecordStore B) (file : FileId) (k : ℕ) (w₁ w₂ : World σ) : Prop :=
  (S.files w₁.os file).map (flushed · (w₁.fds k)) = (S.files w₂.os file).map (flushed · (w₂.fds k)) ∧
    (w₁.fds k).hiwater = (w₂.fds k).hiwater ∧ (w₁.fds k).offset = (w₂.fds k).offset

theorem PutAt.recs {f : PutState} {fp : Ccb} {os : σ} (h : PutAt S file u f fp os) :
    (S.files os file).map (flushed · fp) = some f.recs := by
  obtain ⟨D, hon, -, hE, -⟩ := h.content
  rw [hon.files, Option.map_some, hE]

/-- **Writing a text in pieces** to an ASCII file is the same as writing it at once, if and only if no
piece ends between a carriage return and a newline: whatever is in the file and in the buffer, unless
there is no room for the pieces, or a sector is missing that has to be read first. -/
theorem ascii_split_iff {D : ℕ → Option Sector} {k o : ℕ} {w : World σ} (cs : List (List UInt8))
    (h : OpenFile false true k (fun fp os => S.On file u D fp os ∧ Labelled S.cap fp ∧ fp.offset = o) w)
    (hcap : o + (cs.flatMap (wrtascOut 0)).length ≤ 128 * S.cap)
    (hthere : ∀ j, o / 128 ≤ j → 128 * j < o + (cs.flatMap (wrtascOut 0)).length → (128 * j : ℕ) < (w.fds k).hiwater →
      flushed D (w.fds k) j ≠ none) :
    SamePut S file k (after (write B k cs.flatten) w) (runFile B k (cs.map .write) w) ↔ ¬ CutsPair cs := by
  obtain ⟨hon, hl, ho⟩ := h.holds
  obtain ⟨f, hf⟩ : ∃ f : PutState,
      f = ⟨flushed D (w.fds k), (w.fds k).buffer, (w.fds k).sector, (w.fds k).hiwater, o⟩ := ⟨_, rfl⟩
  have hat : OpenFile false true k (PutAt S file u f) w := by
    subst hf
    exact ⟨h.lt, h.mode, ⟨D, hon, hl, rfl, False.elim⟩, rfl, rfl, rfl, ho⟩
  have hoff : f.offset = o := by rw [hf]
  have hwhole : f.Whole (cs.flatMap (wrtascOut 0)).length := by
    subst hf
    exact hthere
  rw [← hoff] at hcap
  obtain ⟨hle, hlt⟩ := length_wrtascOut_flatten cs
  have hone := putAt_write hat (show f.offset + (wrtascOut 0 cs.flatten).length ≤ _ by omega) (hwhole.mono hle)
  have hmany := putAt_writes cs hat hcap hwhole
  have hone' := hone.holds
  have hmany' := hmany.holds
  constructor
  · rintro ⟨-, -, hsame⟩ hcut
    have hlt := hlt hcut
    rw [hone'.offset, hmany'.offset, PutState.bytes_offset, PutState.bytes_offset] at hsame
    omega
  · intro hcut
    rw [wrtascOut_flatten hcut] at hone'
    refine ⟨?_, ?_, ?_⟩
    · rw [hone'.recs, hmany'.recs]
    · rw [hone'.hiwater, hmany'.hiwater]
    · rw [hone'.offset, hmany'.offset]

theorem ascii_split_iff_line :
    SamePut memStore (namedFile 0 [0x41]) 0 (after (write memOsif 0 [0x61, 0x0d, 0x0a, 0x62]) (createdA 0))
        (runFile memOsif 0 [.write [0x61], .write [0x0d, 0x0a, 0x62]] (createdA 0)) ↔
      ¬ CutsPair [[0x61], [0x0d, 0x0a, 0x62]] := by
  refine ascii_split_iff (S := memStore) (k := 0) (D := fun _ => none) [[0x61], [0x0d, 0x0a, 0x62]]
    ⟨by decide, rfl, ⟨rfl, rfl, rfl⟩, fun hd => absurd hd (by decide), rfl⟩ (by decide +kernel) fun j _ _ hj => ?_
  have hzero : ((128 * j : ℕ) : ℤ) < 0 := hj
  omega

/-- **A line end cut in two** is stored with two carriage returns. -/
theorem ascii_split_fails :
    ¬ SamePut memStore (namedFile 0 [0x41]) 0 (after (write memOsif 0 [0x61, 0x0d, 0x0a]) (createdA 0))
      (runFile memOsif 0 [.write [0x61, 0x0d], .write [0x0a]] (createdA 0)) := by
  rintro ⟨-, -, hsame⟩
  revert hsame
  decide +kernel

end Cpm68k.Cpmlib
