import Cpm68k.Cpmlib.AsciiText
import Cpm68k.Cpmlib.Content
import Cpm68k.Library.Stream

/-!
# Reading and writing ASCII files

The steps of `_wrtasc` and `_rdasc` on the file as the channel has it. A sector that lies
above the high water mark is not read before it is written, and the buffer is not cleared:
behind the text there is whatever the buffer held before.

## What is proved

* `wp_wrtascLoop_turn` — one turn of the loop of `_wrtasc`: the sector of the offset is in the
  buffer, and is overwritten there.
* `wp_wrtasc_carries` — `_wrtasc` overwrites the text of the file.
* `wp_rdasc_bytes`, `wp_rdasc_carries` — `_rdasc` reads the text of the file.
-/

namespace Cpm68k.Cpmlib

open Cpm68k.Library RecordStore

variable {σ : Type} {B : Osif σ} {S : RecordStore B} {file : FileId} {u : UInt16} {E : ℕ → Option Sector} {s : Io σ}
  {k : ℕ}

/-! ### Turns of the loop of `_wrtasc` -/

/-- What is in the buffer when it gets the label of sector `k`: a sector above the high water mark is not read. -/
def sectorBuffer (E : ℕ → Option Sector) (k : ℕ) (fp : Ccb) : Sector :=
  if fp.sector = k then fp.buffer else if OFFSECT fp ≤ HIWSECT fp then (E k).getD fp.buffer else fp.buffer

/-- A sector that is below it is in the buffer. -/
theorem sectorBuffer_eq {r : Sector} (h : Content S file u E True s.fp s.os) (hr : E k = some r)
    (hor : OFFSECT s.fp ≤ HIWSECT s.fp ∨ s.fp.sector = k) : sectorBuffer E k s.fp = r := by
  unfold sectorBuffer
  split_ifs with hsec hbelow
  · exact h.buffer_eq hsec hr
  · rw [hr, Option.getD_some]
  · exact absurd hor (not_or.mpr ⟨hbelow, hsec⟩)

/-- The sector of the offset gets its label, with what is then in the buffer, unless it should be on disk
and is not. -/
theorem wp_wrtascSector_content {c : Prop} (h : Content S file u E c s.fp s.os) :
    wp (wrtascSector B k)
      (fun _ s' => (s.fp.sector ≠ k → OFFSECT s.fp ≤ HIWSECT s.fp → E k ≠ none) ∧
        (∃ fcb os dirty, s' = { s with
          fp :=
            { s.fp with
              fcb := fcb, flags := { s.fp.flags with DIRTY := dirty }, sector := k, buffer := sectorBuffer E k s.fp }
          os := os }) ∧
        ∃ D, S.On file u D s'.fp s'.os ∧ ∀ j, j ≠ k → D j = E j)
      (fun _ s' => s.fp.sector ≠ k ∧ OFFSECT s.fp ≤ HIWSECT s.fp ∧ E k = none ∧ s'.fp.offset = s.fp.offset ∧
        Content S file u E c s'.fp s'.os) s := by
  unfold sectorBuffer
  rw [wrtascSector, wp_bind, wp_get, wp_whenever]
  by_cases hsec : s.fp.sector = k
  · rw [if_neg (not_not.mpr hsec.symm), if_pos hsec]
    obtain ⟨D, hon, hl, rfl, -⟩ := h
    refine ⟨fun hne => absurd hsec hne, ⟨s.fp.fcb, s.os, s.fp.flags.DIRTY, by rw [← hsec]⟩, D, hon, fun j hj => ?_⟩
    cases hd : s.fp.flags.DIRTY with
    | false => rw [flushed_of_clean hd]
    | true => rw [flushed_of_dirty hd, hsec, Int.toNat_natCast, Function.update_of_ne hj]
  · rw [if_pos (Ne.symm hsec), if_neg hsec]
    by_cases hbelow : OFFSECT s.fp ≤ HIWSECT s.fp
    · have hprog : (do
          flush B
          whenever (OFFSECT s.fp ≤ HIWSECT s.fp) do
            let found ← readBuffer B k
            whenever (found = false) (throw Errno.EIO)
          setFp fun fp => { fp with sector := (k : ℤ) }) = (do
          flush B
          let found ← readBuffer B k
          whenever (found = false) (throw Errno.EIO)
          setFp fun fp => { fp with sector := (k : ℤ) } : IoM σ PUnit) := by
        simp only [whenever, if_pos hbelow, bind_assoc]
      rw [hprog, if_pos hbelow]
      refine wp_fetch h fun found s' hf => ?_
      obtain ⟨fcb, os, rfl⟩ := hf.same
      rw [wp_bind, wp_whenever, hf.found]
      split_ifs with hnone
      · have hnone : E k = none := Option.not_isSome_iff_eq_none.mp (by simp [hnone])
        exact ⟨hsec, hbelow, hnone, rfl, hf.absent hnone⟩
      · refine ⟨fun _ _ habsent => hnone (by rw [habsent]; rfl), ⟨fcb, os, false, rfl⟩, E,
          ⟨hf.on.user, hf.on.id, hf.on.files⟩, fun _ _ => rfl⟩
    · obtain ⟨D, hon, hl, rfl, -⟩ := h
      rw [wp_bind]
      refine wp_mono (wp_flush hon hl) ?_ (fun _ _ h => h.elim)
      rintro _ _ ⟨fcb, os, rfl, hon'⟩
      rw [wp_bind, wp_whenever, if_neg hbelow, wp_setFp, if_neg hbelow]
      exact ⟨fun _ hb => absurd hb hbelow, ⟨fcb, os, false, rfl⟩, _, ⟨hon'.user, hon'.id, hon'.files⟩, fun _ _ => rfl⟩

/-- Characters go to the buffer, and with it to the file. -/
theorem wp_wrtascPut {D : ℕ → Option Sector} (pos : ℕ) (put : List UInt8) (hon : S.On file u D s.fp s.os)
    (hD : ∀ j, j ≠ k → D j = E j) (hsec : s.fp.sector = k) (hk : k < S.cap) :
    wp (wrtascPut B k pos put)
      (fun done s' => done = true ∧ (∃ fcb os dirty, s' = { s with
          fp :=
            { s.fp with
              fcb := fcb, flags := { s.fp.flags with DIRTY := dirty }, buffer := s.fp.buffer.move pos put
              offset := s.fp.offset + put.length }
          os := os }) ∧
        Content S file u (Function.update E k (some (s.fp.buffer.move pos put))) True s'.fp s'.os)
      (fun _ _ => False) s := by
  have hupd : ∀ r, Function.update D k (some r) = Function.update E k (some r) := by
    intro r
    funext j
    by_cases hj : j = k
    · rw [hj, Function.update_self, Function.update_self]
    · rw [Function.update_of_ne hj, Function.update_of_ne hj, hD j hj]
  rw [wrtascPut, wp_bind, wp_setFp, wp_bind, wp_get, wp_ite]
  split_ifs
  · rw [wp_bind]
    refine wp_mono (wp_blkioWrite (k := k) [s.fp.buffer.move pos put] ⟨hon.user, hon.id, hon.files⟩
      (by rw [List.length_singleton]; omega)) ?_ (fun _ _ h => h)
    rintro _ _ ⟨rfl, fcb, os, rfl, hon'⟩
    rw [wp_pure]
    refine ⟨rfl, ⟨fcb, os, s.fp.flags.DIRTY, rfl⟩, _, hon', fun _ => ?_, ?_, fun _ => ?_⟩
    · simp only [hsec]
      omega
    · unfold flushed
      simp only [hsec, Int.toNat_natCast, putRun, Function.update_idem, hupd, ite_self]
    · refine fun _ j hj r hr => ?_
      obtain rfl : k = j := by
        simp only at hj
        omega
      simp only [putRun, Function.update_self] at hr
      exact Option.some.inj hr
  · rw [wp_bind, wp_setFp, wp_pure]
    refine ⟨rfl, ⟨s.fp.fcb, s.os, true, rfl⟩, D, ⟨hon.user, hon.id, hon.files⟩, fun _ => ?_, ?_, fun _ hd => ?_⟩
    · simp only [hsec]
      omega
    · rw [flushed_of_dirty rfl, hsec, Int.toNat_natCast, hupd]
    · cases hd

/-- A turn of the loop of `_wrtasc` in sector `k`: `put` goes to the buffer, and `left` is left to the next
turn, after the character `cc'`. -/
structure WrtascTurn (S : RecordStore B) (file : FileId) (u : UInt16) (E : ℕ → Option Sector) (k : ℕ) (cc : UInt8)
    (data put : List UInt8) (cc' : UInt8) (left : List UInt8) (s s' : Io σ) : Prop where
  append : put ++ wrtascOut cc' left = wrtascOut cc data
  length : put.length = min (128 - bufPos s.fp) (wrtascOut cc data).length
  pos : 0 < put.length
  same : ∃ fcb os dirty, s' = { s with
    fp :=
      { s.fp with
        fcb := fcb, flags := { s.fp.flags with DIRTY := dirty }, sector := k
        buffer := (sectorBuffer E k s.fp).move (bufPos s.fp) put, offset := s.fp.offset + put.length }
    os := os }
  content : Content S file u (Function.update E k (some ((sectorBuffer E k s.fp).move (bufPos s.fp) put))) True s'.fp s'.os

/-- The loop of `_wrtasc` takes a turn, unless a sector is missing, and ends when nothing is left. -/
theorem wp_wrtascLoop_turn {c : Prop} {Q : ℤ → Io σ → Prop} {Ex : Errno → Io σ → Prop} (written fuel : ℕ) {cc : UInt8}
    {data : List UInt8} (h : Content S file u E c s.fp s.os) (hk : s.fp.offset / 128 = k) (hcap : k < S.cap)
    (hdata : data ≠ [])
    (hfail : ∀ e s', OFFSECT s.fp ≤ HIWSECT s.fp → E k = none → Content S file u E c s'.fp s'.os → Ex e s')
    (hdone : ∀ put cc' s', WrtascTurn S file u E k cc data put cc' [] s s' →
      wp (do raiseHiwater; pure (toLong written)) Q Ex s')
    (hmore : ∀ put cc' left s', left ≠ [] → WrtascTurn S file u E k cc data put cc' left s s' →
      wp (wrtascLoop B written fuel cc' left) Q Ex s') :
    wp (wrtascLoop B written (fuel + 1) cc data) Q Ex s := by
  have hpos := List.length_pos_iff.mpr hdata
  have hout := length_le_wrtascOut data cc
  rw [wrtascLoop, wp_ite, if_pos hpos, wp_bind, wp_get]
  simp only [hk]
  rw [wp_bind]
  refine wp_mono (wp_wrtascSector_content h) ?_ (fun e s' h => hfail e s' h.2.1 h.2.2.1 h.2.2.2.2)
  rintro _ _ ⟨-, ⟨fcb, os, dirty, rfl⟩, D, hon, hD⟩
  have happ := wrtascMove_append (128 - bufPos s.fp) cc data
  have hput := length_wrtascMove (128 - bufPos s.fp) cc data
  obtain ⟨⟨put, cc', left⟩, hm⟩ : ∃ moved, wrtascMove (128 - bufPos s.fp) cc data = moved := ⟨_, rfl⟩
  rw [hm] at happ hput ⊢
  simp only at happ hput ⊢
  have hroom : 0 < 128 - bufPos s.fp := by
    unfold bufPos
    omega
  rw [wp_bind]
  refine wp_mono (wp_wrtascPut _ put hon hD rfl hcap) ?_ (fun _ _ h => h.elim)
  rintro _ s₂ ⟨rfl, ⟨fcb₂, os₂, dirty₂, rfl⟩, hcont₂⟩
  have hturn := WrtascTurn.mk happ hput (by omega) ⟨fcb₂, os₂, dirty₂, rfl⟩ hcont₂
  rw [wp_ite, if_neg (by decide), wp_ite]
  split_ifs with hleft
  · obtain rfl : left = [] := List.length_eq_zero_iff.mp hleft
    exact hdone _ _ _ hturn
  · exact hmore _ _ _ _ (fun h => hleft (List.length_eq_zero_iff.mpr h)) hturn

/-! ### `_wrtasc` -/

/-- After a write of `out` at the byte `o` of the text `f`, on a file with the records `E`. -/
structure Overwritten (S : RecordStore B) (file : FileId) (u : UInt16) (E : ℕ → Option Sector) (f : List UInt8) (h o : ℕ)
    (out : List UInt8) (s' : Io σ) : Prop where
  offset : s'.fp.offset = (o + out.length : ℕ)
  hiwater : s'.fp.hiwater = (max h (o + out.length) : ℕ)
  content : ∃ E', Content S file u E' True s'.fp s'.os ∧ Carries E' (splice f o out) ∧
    (∃ k : ℕ, s'.fp.sector = k ∧ E' k ≠ none) ∧ ∀ k, ¬ (o / 128 ≤ k ∧ 128 * k < o + out.length) → E' k = E k

/-- The loop of `_wrtasc`, below the size `h` at its start, at the byte `o`. -/
theorem wp_wrtascLoop_carries (written fuel : ℕ) {cc : UInt8} {data f : List UInt8} {h o : ℕ}
    (hcont : Content S file u E True s.fp s.os) (hf : Carries E f) (ho : s.fp.offset = o) (hh : s.fp.hiwater = h)
    (hlen : f.length = max h o) (hat : o % 128 = 0 ∨ o ≤ h) (hdata : data ≠ [])
    (hfuel : (wrtascOut cc data).length ≤ fuel) (hcap : o + (wrtascOut cc data).length ≤ 128 * S.cap) :
    wp (wrtascLoop B written fuel cc data)
      (fun n s' => n = toLong written ∧ Overwritten S file u E f h o (wrtascOut cc data) s') (fun _ _ => False) s := by
  have hpos := List.length_pos_iff.mpr hdata
  have hout := length_le_wrtascOut data cc
  induction fuel generalizing cc data f o s E with
  | zero => omega
  | succ fuel ih =>
    have hk : s.fp.offset / 128 = (o / 128 : ℕ) := by omega
    have hbuf : bufPos s.fp = o % 128 := by
      unfold bufPos
      omega
    have hdiv : 128 * (o / 128) + o % 128 = o := Nat.div_add_mod o 128
    -- the part of the text that lies in the sector was in the buffer
    have hcarries : ∀ put : List UInt8, put.length ≤ 128 - bufPos s.fp → Carries
        (Function.update E (o / 128) (some ((sectorBuffer E (o / 128) s.fp).move (bufPos s.fp) put))) (splice f o put) := by
      intro put hput
      have hsplice : Carries (Function.update E (o / 128) (some (patch (sectorBuffer E (o / 128) s.fp) (o % 128) put)))
          (splice f (128 * (o / 128) + o % 128) put) := by
        refine hf.update (by omega) (by omega) fun i x hx => ?_
        obtain ⟨hi, -⟩ := List.getElem?_eq_some_iff.mp hx
        obtain ⟨r, hr, hri⟩ := hf _ i x hx
        have hbelow : OFFSECT s.fp ≤ HIWSECT s.fp := by
          have := i.isLt
          unfold OFFSECT HIWSECT
          omega
        rw [sectorBuffer_eq hcont hr (.inl hbelow), hri]
      rw [hdiv] at hsplice
      rw [hbuf]
      exact hsplice
    refine wp_wrtascLoop_turn written fuel hcont hk (by omega) hdata (fun e s' hbelow hnone _ => ?_)
      (fun put cc' s' ht => ?_) fun put cc' left s' hleft ht => ?_
    · -- below the high water mark no sector is missing
      refine hf.ne_none (by decide) ?_ hnone
      unfold OFFSECT HIWSECT at hbelow
      omega
    · have happ := ht.append
      have hlength := ht.length
      have hput := ht.pos
      rw [wrtascOut, List.append_nil] at happ
      obtain ⟨fcb, os, dirty, rfl⟩ := ht.same
      rw [wp_bind, wp_raiseHiwater, wp_pure, ← happ]
      refine ⟨rfl, by simp only; omega, by simp only; omega, _, ht.content.of_eq rfl rfl rfl rfl rfl, hcarries put (by omega), ⟨_, rfl, ?_⟩,
        fun k hk' => ?_⟩
      · rw [Function.update_self]
        exact Option.some_ne_none _
      · exact Function.update_of_ne (fun h => hk' (by omega)) _ _
    · have happ := ht.append
      have hlength := congrArg List.length happ
      have hput := ht.length
      have hput₀ := ht.pos
      obtain ⟨fcb, os, dirty, rfl⟩ := ht.same
      have hrest : 0 < (wrtascOut cc' left).length := by
        rw [List.length_pos_iff, Ne, wrtascOut_eq_nil]
        exact hleft
      have hlen' := length_splice (show o ≤ f.length by omega) put
      rw [List.length_append] at hlength
      rw [hbuf] at hput
      refine wp_mono (ih ht.content (hcarries put (by omega)) (o := o + put.length) (by simp only; omega) hh (by omega) (.inl (by omega))
        hleft (by omega) (by omega) (List.length_pos_iff.mpr hleft) (length_le_wrtascOut _ _)) ?_ (fun _ _ h => h)
      rintro n s' ⟨hn, hoff', hhi', E', hcont', hcarries', hlabel', hsame'⟩
      rw [splice_splice (by omega), happ] at hcarries'
      refine ⟨hn, by omega, by omega, E', hcont', hcarries', hlabel', fun k hk' => ?_⟩
      rw [hsame' k (by omega), Function.update_of_ne (by omega)]

/-- `_wrtasc` overwrites the text at the offset. -/
theorem wp_wrtasc_carries {data f : List UInt8} {o : ℕ} (hcont : Content S file u E True s.fp s.os) (hf : Carries E f)
    (ho : s.fp.offset = o) (hh : s.fp.hiwater = f.length) (hin : o ≤ f.length) (hdata : data ≠ [])
    (hcap : o + (wrtascOut 0 data).length ≤ 128 * S.cap) :
    wp (wrtasc B data)
      (fun n s' => n = toLong data.length ∧ Overwritten S file u E f f.length o (wrtascOut 0 data) s') (fun _ _ => False) s :=
  wp_wrtascLoop_carries _ _ hcont hf ho hh (max_eq_left hin).symm (.inr hin) hdata
    ((length_wrtascOut_le data 0).trans (Nat.le_succ _)) hcap

/-! ### `_rdasc` -/

/-- A sector of the file gets into the buffer. -/
theorem wp_rdascSector_content {r : Sector} (h : Content S file u E True s.fp s.os) (hk : s.fp.offset / 128 = k)
    (hr : E k = some r) :
    wp (rdascSector B)
      (fun found s' => found = true ∧ (∃ fcb os dirty, s' = { s with
          fp := { s.fp with fcb := fcb, flags := { s.fp.flags with DIRTY := dirty }, sector := k, buffer := r }, os := os }) ∧
        Content S file u E True s'.fp s'.os)
      (fun _ _ => False) s := by
  rw [rdascSector, wp_bind, wp_get]
  simp only [hk, wp_ite]
  split_ifs with hsec
  · refine wp_fetch h fun found s' hf => ?_
    obtain ⟨fcb, os, rfl⟩ := hf.same
    have hpresent := hf.present (by rw [hr]; exact Option.some_ne_none r)
    rw [wp_ite, hf.found, hr, if_neg (by simp), wp_bind, wp_setFp, wp_pure]
    refine ⟨rfl, ⟨fcb, os, false, ?_⟩, hpresent.of_eq rfl rfl rfl rfl (by simp only [hr])⟩
    simp only [Option.getD_some]
  · have hsec : s.fp.sector = k := (not_not.mp hsec).symm
    refine ⟨rfl, ⟨s.fp.fcb, s.os, s.fp.flags.DIRTY, ?_⟩, h⟩
    rw [← hsec, ← h.buffer_eq hsec hr]

/-- A sector that is not there does not. -/
theorem wp_rdascSector_absent {c : Prop} (h : Content S file u E c s.fp s.os) (hk : s.fp.offset / 128 = k) (hnone : E k = none)
    (hsec : s.fp.sector ≠ k) :
    wp (rdascSector B)
      (fun found s' => found = false ∧ (∃ fcb os, s' = { s with
          fp := { s.fp with fcb := fcb, flags := { s.fp.flags with DIRTY := false, ATEOF := true } }, os := os }) ∧
        Content S file u E c s'.fp s'.os)
      (fun _ _ => False) s := by
  rw [rdascSector, wp_bind, wp_get]
  simp only [hk, if_pos hsec.symm]
  refine wp_fetch h fun found s' hf => ?_
  obtain ⟨fcb, os, rfl⟩ := hf.same
  have habsent := hf.absent hnone
  rw [wp_ite, hf.found, hnone, if_pos (by rfl), setAteof, wp_bind, wp_setFp, wp_pure]
  refine ⟨rfl, ⟨fcb, os, ?_⟩, habsent.of_eq rfl rfl rfl rfl (by simp only [hnone])⟩
  simp only [Option.getD_none]

/-- After a read of `n` bytes at the byte `o` of a file that goes on with `bs` from there. -/
structure BytesRead (S : RecordStore B) (file : FileId) (u : UInt16) (E : ℕ → Option Sector) (bs : List UInt8) (o n : ℕ)
    (s s' : Io σ) : Prop where
  buff : s'.buff = s.buff ++ (rdascMove bs n).1
  offset : s'.fp.offset = (o + (rdascMove bs n).2.1 : ℕ)
  eof : s'.fp.flags.ATEOF = (s.fp.flags.ATEOF || decide ((rdascMove bs n).1.length ≠ n))
  content : Content S file u E True s'.fp s'.os
  hiwater : s.fp.hiwater ≤ s'.fp.hiwater ∧ s'.fp.hiwater ≤ max s.fp.hiwater (o + (rdascMove bs n).2.1 : ℕ)
  label : KeepsLabel E s.fp.sector s'.fp.sector

/-- What was read in the sector, and then behind it. -/
theorem BytesRead.goOn {bs cs : List UInt8} {o n : ℕ} {s₁ s' : Io σ}
    (h : BytesRead S file u E (bs.drop cs.length) (o + cs.length) (n - (rdascMove cs n).1.length) s₁ s')
    (hgo : GoesOn bs cs n) (hbuff : s₁.buff = s.buff ++ (rdascMove cs n).1) (hhi : s₁.fp.hiwater = s.fp.hiwater)
    (heof : s₁.fp.flags.ATEOF = s.fp.flags.ATEOF) (hlabel : ∃ k : ℕ, s₁.fp.sector = k ∧ E k ≠ none) :
    BytesRead S file u E bs o n s s' := by
  have hstored := rdascMove_stored_le cs n
  have hmove := hgo.move
  simp only [rdascThen, hgo.consumed] at hmove
  constructor
  · rw [h.buff, hbuff, hmove, List.append_assoc]
  · rw [h.offset, hmove, Nat.add_assoc]
  · rw [h.eof, heof, hmove, List.length_append]
    congr 1
    exact decide_eq_decide.mpr (by omega)
  · exact h.content
  · rw [hmove, ← hhi, ← Nat.add_assoc]
    exact h.hiwater
  · exact .inr (h.label.elim (fun hsame => hsame ▸ hlabel) id)

theorem wp_rdascLoop_zero {xbytes fuel : ℕ} {Q : ℤ → Io σ → Prop} {Ex : Errno → Io σ → Prop} (hfuel : 0 < fuel) :
    wp (rdascLoop B xbytes fuel 0) Q Ex s =
      Q (toLong xbytes) { s with fp := { s.fp with hiwater := max s.fp.hiwater s.fp.offset } } := by
  obtain ⟨fuel, rfl⟩ := Nat.exists_eq_succ_of_ne_zero hfuel.ne'
  rw [rdascLoop, wp_ite, if_neg (lt_irrefl 0), wp_bind, wp_raiseHiwater, wp_pure]

/-- The sector of a byte has the bytes of the file from there on. -/
theorem take_sector {bs : List UInt8} {o : ℕ} {r : Sector} (hbs : Placed E o bs) (hr : E (o / 128) = some r) :
    (r.bytes.drop (o % 128)).take bs.length = bs.take (r.bytes.drop (o % 128)).length := by
  have hlen : (r.bytes.drop (o % 128)).length = 128 - o % 128 := by
    rw [List.length_drop, Sector.bytes, List.length_ofFn]
  have hfirst : Placed E o (bs.take (128 - o % 128)) := by
    rw [← List.take_append_drop (128 - o % 128) bs] at hbs
    exact (placed_append.mp hbs).1
  have hwithin := stream_within (D := E) (k := o / 128) (p := o % 128) (n := min (128 - o % 128) bs.length) (by omega)
  rw [Nat.div_add_mod, hr, ← List.length_take, stream_eq_iff_placed.mpr hfirst, List.length_take] at hwithin
  have hsector : bs.take (128 - o % 128) = (r.bytes.drop (o % 128)).take (min (128 - o % 128) bs.length) := hwithin
  rw [hlen, hsector, ← hlen, min_comm]
  exact List.take_eq_take_min

/-- The loop of `_rdasc` takes a turn in a sector that is there. -/
theorem wp_rdascLoop_turn {Q : ℤ → Io σ → Prop} {Ex : Errno → Io σ → Prop} (xbytes fuel : ℕ) {n : ℕ} {r : Sector}
    {moved : List UInt8 × ℕ × Bool} (h : Content S file u E True s.fp s.os) (hk : s.fp.offset / 128 = k) (hr : E k = some r)
    (hn : 0 < n) (hm : rdascMove (r.bytes.drop (bufPos s.fp)) n = moved)
    (hmore : ∀ fcb os dirty s', s' = { s with
        fp :=
          { s.fp with
            fcb := fcb, flags := { s.fp.flags with DIRTY := dirty }, sector := k, buffer := r
            offset := s.fp.offset + moved.2.1 }
        os := os, buff := s.buff ++ moved.1 } → Content S file u E True s'.fp s'.os →
      wp (if moved.2.2 = true then do
          setAteof
          raiseHiwater
          pure (toLong (xbytes - (n - moved.1.length)))
        else rdascLoop B xbytes fuel (n - moved.1.length)) Q Ex s') :
    wp (rdascLoop B xbytes (fuel + 1) n) Q Ex s := by
  rw [rdascLoop, wp_ite, if_pos hn, wp_bind]
  refine wp_mono (wp_rdascSector_content h hk hr) ?_ (fun _ _ h => h.elim)
  rintro _ _ ⟨rfl, ⟨fcb, os, dirty, rfl⟩, hcont₁⟩
  have hpos : ∀ fcb flags, bufPos { s.fp with fcb := fcb, flags := flags, sector := k, buffer := r } = bufPos s.fp :=
    fun _ _ => rfl
  rw [wp_ite, if_neg (by decide), wp_bind, wp_get]
  simp only [hpos, hm]
  rw [wp_bind, wp_store, wp_bind, wp_setFp]
  exact hmore fcb os dirty _ rfl (hcont₁.of_eq rfl rfl rfl rfl rfl)

/-- It ends after a turn in which the read came to its end. -/
theorem wp_rdascLoop_stops {xbytes fuel n o : ℕ} {bs : List UInt8} {moved : List UInt8 × ℕ × Bool} {s₁ : Io σ}
    (hm : rdascMove bs n = moved) (hdone : Done moved n) (hfuel : 0 < fuel) (hcont : Content S file u E True s₁.fp s₁.os)
    (hoff : s₁.fp.offset = (o + moved.2.1 : ℕ)) (hbuff : s₁.buff = s.buff ++ moved.1)
    (hhi : s₁.fp.hiwater = s.fp.hiwater) (heof : s₁.fp.flags.ATEOF = s.fp.flags.ATEOF)
    (hlabel : ∃ k : ℕ, s₁.fp.sector = k ∧ E k ≠ none) :
    wp (if moved.2.2 = true then do
        setAteof
        raiseHiwater
        pure (toLong (xbytes - (n - moved.1.length)))
      else rdascLoop B xbytes fuel (n - moved.1.length))
      (fun ret s' => ret = toLong (xbytes - (n - moved.1.length)) ∧ BytesRead S file u E bs o n s s') (fun _ _ => False) s₁ := by
  subst hm
  rw [wp_ite]
  split_ifs with hend
  · have hshort : (rdascMove bs n).1.length ≠ n := (rdascMove_stored_lt bs n hend).ne
    rw [setAteof, wp_bind, wp_setFp, wp_bind, wp_raiseHiwater, wp_pure]
    refine ⟨rfl, hbuff, hoff, ?_, hcont.of_eq rfl rfl rfl rfl rfl, ?_, .inr hlabel⟩
    · simp [hshort]
    · simp only [hhi, hoff]
      exact ⟨le_max_left _ _, le_rfl⟩
  · have hall : (rdascMove bs n).1.length = n := hdone.resolve_right hend
    rw [hall, Nat.sub_self, wp_rdascLoop_zero hfuel]
    refine ⟨by simp, hbuff, hoff, ?_, hcont.of_eq rfl rfl rfl rfl rfl, ?_, .inr hlabel⟩
    · simp [hall, heof]
    · simp only [hhi, hoff]
      exact ⟨le_max_left _ _, le_rfl⟩

/-- It ends where nothing is at the offset. -/
theorem wp_rdascLoop_absent (xbytes fuel : ℕ) {n o : ℕ} (h : Content S file u E True s.fp s.os) (ho : s.fp.offset = o)
    (hnone : E (o / 128) = none) (hsec : s.fp.sector ≠ (o / 128 : ℕ)) (hn : 0 < n) :
    wp (rdascLoop B xbytes (fuel + 1) n) (fun ret s' => ret = toLong (xbytes - n) ∧ BytesRead S file u E [] o n s s')
      (fun _ _ => False) s := by
  rw [rdascLoop, wp_ite, if_pos hn, wp_bind]
  refine wp_mono (wp_rdascSector_absent h (k := o / 128) (by omega) hnone hsec) ?_ (fun _ _ h => h)
  rintro _ _ ⟨rfl, ⟨fcb, os, rfl⟩, hcont₁⟩
  rw [wp_ite, if_pos rfl, wp_pure]
  refine ⟨rfl, ?_, ?_, ?_, hcont₁, ?_, .inl rfl⟩ <;> rw [rdascMove_nil]
  · simp
  · simp [ho]
  · simp [hn.ne]
  · simp

/-- The loop of `_rdasc`, when the read ends within the bytes `bs`, or before a sector that is not
there. -/
theorem wp_rdascLoop_bytes (xbytes fuel n : ℕ) {bs : List UInt8} {o : ℕ} (hcont : Content S file u E True s.fp s.os)
    (hbs : Placed E o bs) (ho : s.fp.offset = o)
    (hend : Done (rdascMove bs n) n ∨ E ((o + bs.length) / 128) = none ∧ s.fp.sector ≠ ((o + bs.length) / 128 : ℕ))
    (hfuel : (o + bs.length) / 128 + 2 ≤ fuel + o / 128) :
    wp (rdascLoop B xbytes fuel n)
      (fun ret s' => ret = toLong (xbytes - (n - (rdascMove bs n).1.length)) ∧ BytesRead S file u E bs o n s s')
      (fun _ _ => False) s := by
  induction fuel generalizing n o s bs with
  | zero =>
    have hle : o / 128 ≤ (o + bs.length) / 128 := Nat.div_le_div_right (Nat.le_add_right _ _)
    omega
  | succ fuel ih =>
    cases n with
    | zero =>
      rw [wp_rdascLoop_zero (Nat.succ_pos fuel)]
      simp only [rdascMove_zero]
      refine ⟨rfl, ?_, ?_, ?_, hcont.of_eq rfl rfl rfl rfl rfl, ?_, .inl rfl⟩ <;> simp [ho]
    | succ n =>
      have hk : s.fp.offset / 128 = (o / 128 : ℕ) := by omega
      cases hr : E (o / 128) with
      | some r =>
        have hpos : bufPos s.fp = o % 128 := by
          unfold bufPos
          omega
        have hsec : ∃ k : ℕ, ((o / 128 : ℕ) : ℤ) = k ∧ E k ≠ none := ⟨_, rfl, by rw [hr]; exact Option.some_ne_none r⟩
        have hsame := take_sector hbs hr
        obtain ⟨cs, hcs⟩ : ∃ cs, r.bytes.drop (o % 128) = cs := ⟨_, rfl⟩
        have hlen : cs.length = 128 - o % 128 := by
          rw [← hcs, List.length_drop, Sector.bytes, List.length_ofFn]
        have hlong : Done (rdascMove bs (n + 1)) (n + 1) ∨ cs.length ≤ bs.length := by
          refine hend.imp id fun h => ?_
          by_contra hshort
          rw [show (o + bs.length) / 128 = o / 128 by omega, hr] at h
          cases h.1
        rw [hcs] at hsame
        obtain ⟨⟨stored, consumed, eof⟩, hm⟩ : ∃ moved, rdascMove cs (n + 1) = moved := ⟨_, rfl⟩
        refine wp_rdascLoop_turn xbytes fuel hcont hk hr (Nat.succ_pos n) (by rw [hpos, hcs, hm]) fun fcb os dirty _ hs' hcont₁ => ?_
        subst hs'
        rcases stops_or_goesOn hsame hlong with hstop | hgo
        · have hmove := hstop.move
          have hdone := hstop.done
          rw [hm] at hmove
          rw [← hmove] at hdone ⊢
          exact wp_rdascLoop_stops hmove.symm hdone (by omega) hcont₁ (by simp only [ho, Nat.cast_add]) rfl rfl rfl hsec
        · have hconsumed := hgo.consumed
          have hle := hgo.length
          have heof : ¬ eof = true := fun h => hgo.done (by rw [hm]; exact .inr h)
          have hstored := rdascMove_stored_le cs (n + 1)
          have hmove := hgo.move
          have hnext := hbs.drop hle
          have hlast : o + cs.length + (bs.drop cs.length).length = o + bs.length := by
            rw [List.length_drop]
            omega
          simp only [rdascThen] at hmove
          rw [hm] at hconsumed hstored hmove
          simp only at hconsumed hstored hmove
          subst hconsumed
          have hcur : stored = (rdascMove cs (n + 1)).1 := by rw [hm]
          rw [wp_ite, if_neg heof]
          refine wp_mono (ih (n + 1 - stored.length) (hcont₁.of_eq rfl rfl rfl rfl rfl) hnext ?_ ?_ (by rw [hlast]; omega)) ?_
            (fun _ _ h => h)
          · simp only [ho, Nat.cast_add]
          · rw [hlast]
            refine hend.imp (fun h => ?_) fun h => ⟨h.1, ?_⟩
            · simp only [hmove, Done, List.length_append] at h ⊢
              exact h.imp (fun h => by omega) id
            · simp only
              omega
          · rintro ret s' ⟨hret, h'⟩
            subst hcur
            refine ⟨?_, h'.goOn hgo rfl rfl rfl hsec⟩
            rw [hret, hmove, List.length_append, Nat.sub_add_eq]
      | none =>
        have hnil : bs = [] := by
          cases bs with
          | nil => rfl
          | cons c bs =>
            have hfirst := hbs 0 (Nat.succ_pos _)
            rw [Nat.add_zero, item_eq_none.mpr hr] at hfirst
            cases hfirst
        subst hnil
        rw [rdascMove_nil, List.length_nil, Nat.add_zero] at hend
        obtain ⟨-, hsec⟩ := hend.resolve_left (by simp [Done])
        exact wp_rdascLoop_absent xbytes fuel hcont ho hr hsec (Nat.succ_pos n)

/-- `_rdasc` reads the bytes from the offset on. -/
theorem wp_rdasc_bytes (n : ℕ) {bs : List UInt8} {o : ℕ} (hcont : Content S file u E True s.fp s.os) (hbs : Placed E o bs)
    (ho : s.fp.offset = o) (hsmall : (o + bs.length) / 128 < o / 128 + 2 ^ 24)
    (hend : Done (rdascMove bs n) n ∨ E ((o + bs.length) / 128) = none ∧ s.fp.sector ≠ ((o + bs.length) / 128 : ℕ)) :
    wp (rdasc B n) (fun ret s' => ret = (rdascMove bs n).1.length ∧ BytesRead S file u E bs o n s s') (fun _ _ => False) s := by
  have hstored := rdascMove_stored_le bs n
  have hconsumed := rdascMove_stored_le_consumed bs n
  have hle := rdascMove_consumed_le bs n
  refine wp_mono (wp_rdascLoop_bytes n (2 ^ 24 + 1) n hcont hbs ho hend (by omega)) ?_ (fun _ _ h => h)
  rintro ret s' ⟨hret, h'⟩
  refine ⟨?_, h'⟩
  rw [hret, Nat.sub_sub_self hstored, toLong_of_lt (by omega)]

/-- After a read of `n` bytes at the byte `o` of the text `f`. -/
structure TextRead (S : RecordStore B) (file : FileId) (u : UInt16) (E : ℕ → Option Sector) (f : List UInt8) (o n : ℕ)
    (s s' : Io σ) : Prop where
  buff : s'.buff = s.buff ++ (rdascMove (f.drop o) n).1
  offset : s'.fp.offset = (o + (rdascMove (f.drop o) n).2.1 : ℕ)
  eof : s'.fp.flags.ATEOF = (s.fp.flags.ATEOF || decide ((rdascMove (f.drop o) n).1.length ≠ n))
  content : Content S file u E True s'.fp s'.os
  hiwater : s.fp.hiwater ≤ s'.fp.hiwater ∧ s'.fp.hiwater ≤ max s.fp.hiwater (o + (rdascMove (f.drop o) n).2.1 : ℕ)
  label : KeepsLabel E s.fp.sector s'.fp.sector

/-- `_rdasc` reads the text from the offset on, when the read ends within it, or before a
sector that is not there. -/
theorem wp_rdasc_carries (n : ℕ) {f : List UInt8} {o : ℕ} (hcont : Content S file u E True s.fp s.os) (hf : Carries E f)
    (ho : s.fp.offset = o) (hin : o ≤ f.length) (hsmall : f.length < 2 ^ 31)
    (hend : Done (rdascMove (f.drop o) n) n ∨
      f.length % 128 = 0 ∧ E (f.length / 128) = none ∧ s.fp.sector ≠ (f.length / 128 : ℕ)) :
    wp (rdasc B n)
      (fun ret s' => ret = (rdascMove (f.drop o) n).1.length ∧ TextRead S file u E f o n s s') (fun _ _ => False) s := by
  have hplaced : Placed E o (f.drop o) := by
    have hrest := hf.placed.drop hin
    rwa [Nat.zero_add] at hrest
  have hlast : o + (f.drop o).length = f.length := by
    rw [List.length_drop]
    omega
  refine wp_mono (wp_rdasc_bytes n hcont hplaced ho (by rw [hlast]; omega) ?_) ?_ (fun _ _ h => h)
  · rw [hlast]
    exact hend.imp id And.right
  · rintro ret s' ⟨hret, h⟩
    exact ⟨hret, h.buff, h.offset, h.eof, h.content, h.hiwater, h.label⟩

end Cpm68k.Cpmlib
