import Cpm68k.Cpmlib.AsciiFile
import Cpm68k.Cpmlib.BinaryCopy
import Cpm68k.Cpmlib.LastWriter

/-!
# What is read from an ASCII file

The file is the records on disk, overlaid by the buffer, and may have any sectors: the text
from an offset on ends at the first end of file character, or at the first sector that is
missing, whichever comes first.

## What is proved

* `rdascMove_fileText` — what `_rdasc` does with the bytes of a file, by their text.
* `rdascLoop_fuel` — the loop of `_rdasc` ends: every sector that it gets through is one of
  the file, and in a sector every byte moves the offset.
* `wp_rdasc_text`, `wp_rdascMany`, `wp_readMany_rest` — what one call delivers, and what
  several do.
* `ascii_read_law` — all of this for a channel that is open.
-/

namespace Cpm68k.Cpmlib

open Cpm68k.Library RecordStore

variable {σ : Type} {B : Osif σ} {S : RecordStore B} {file : FileId} {u : UInt16} {E : ℕ → Option Sector} {s : Io σ}
  {N o : ℕ}

/-! ### The text -/

/-- The text that some bytes of a file are: up to the end of file character, without carriage
returns. -/
def fileText (bs : List UInt8) : List UInt8 := text (bs.takeWhile (· ≠ EOFCHAR))

@[simp] theorem fileText_nil : fileText [] = [] := rfl

theorem fileText_eof (bs : List UInt8) : fileText (EOFCHAR :: bs) = [] := rfl

theorem fileText_cr (bs : List UInt8) : fileText (carriageReturn :: bs) = fileText bs := by
  unfold fileText
  rw [List.takeWhile_cons_of_pos (by decide), text_cr]

theorem fileText_char {c : UInt8} (bs : List UInt8) (heof : c ≠ EOFCHAR) (hcr : c ≠ carriageReturn) :
    fileText (c :: bs) = c :: fileText bs := by
  unfold fileText
  rw [List.takeWhile_cons_of_pos (by simpa using heof), text_char _ hcr]

/-- What is stored is the beginning of the text, and what is left over is the rest of it. -/
theorem rdascMove_fileText (bs : List UInt8) (n : ℕ) :
    (rdascMove bs n).1 = (fileText bs).take n ∧ fileText (bs.drop (rdascMove bs n).2.1) = (fileText bs).drop n := by
  induction bs, n using rdascMove_induction with
  | zero bs => simp
  | nil n => simp
  | eof bs n => simp [rdascMove_eof, fileText_eof]
  | cr bs n ih =>
    rw [rdascMove_cr, fileText_cr, List.drop_succ_cons]
    exact ih
  | char c bs n heof hcr ih =>
    rw [rdascMove_char bs n heof hcr, fileText_char bs heof hcr, List.take_succ_cons, List.drop_succ_cons,
      List.drop_succ_cons, ih.1]
    exact ⟨rfl, ih.2⟩

/-- The text of a file without sectors from number `N` on, from the byte `o` to its end. -/
def textFrom (E : ℕ → Option Sector) (N o : ℕ) : List UInt8 := fileText (stream E o (128 * N - o))

/-! ### The channel -/

/-- The file is `E`, the records on disk overlaid by the buffer when it is dirty; a buffer with the
label of a sector is that sector of it. -/
structure Current (S : RecordStore B) (file : FileId) (u : UInt16) (E : ℕ → Option Sector) (fp : Ccb) (os : σ) : Prop where
  content : Content S file u E True fp os
  buffer : ∀ k : ℕ, fp.sector = k → E k = some fp.buffer

/-- No sector has a number above the capacity. -/
theorem Current.bounded {fp : Ccb} {os : σ} (h : Current S file u E fp os) {k : ℕ} (hk : S.cap ≤ k) : E k = none := by
  obtain ⟨D, hon, hl, rfl, -⟩ := h.content
  have hD := S.bounded _ _ _ hon.files k hk
  cases hd : fp.flags.DIRTY with
  | false => rw [flushed_of_clean hd, hD]
  | true =>
    have hlabel := hl hd
    rw [flushed_of_dirty hd, Function.update_of_ne (by omega), hD]

theorem Current.labelled {fp : Ccb} {os : σ} (h : Current S file u E fp os) (k : ℕ) (hk : fp.sector = k) : E k ≠ none := by
  rw [h.buffer k hk]
  exact Option.some_ne_none _

/-- After reading, it is so again. -/
theorem Current.of_keepsLabel {s s' : Io σ} (h : Current S file u E s.fp s.os) (hcont : Content S file u E True s'.fp s'.os)
    (hlabel : KeepsLabel E s.fp.sector s'.fp.sector) : Current S file u E s'.fp s'.os := by
  refine ⟨hcont, fun k hk => ?_⟩
  have hsome : E k ≠ none := by
    cases hlabel with
    | inl hsame => exact h.labelled k (hsame ▸ hk)
    | inr hother =>
      obtain ⟨j, hj, hsome⟩ := hother
      obtain rfl : j = k := by omega
      exact hsome
  obtain ⟨r, hr⟩ := Option.ne_none_iff_exists'.mp hsome
  rw [hr, hcont.buffer_eq hk hr]

/-! ### The loop ends -/

/-- With enough turns the loop does what it does with more: it goes from sector to sector of the file,
each of which has a number below `N`. -/
theorem rdascLoop_fuel {xbytes fuel fuel' n : ℕ} (hcont : Content S file u E True s.fp s.os)
    (hN : ∀ k, N ≤ k → E k = none) (hlabel : ∀ k : ℕ, s.fp.sector = k → E k ≠ none) (ho : s.fp.offset = o)
    (hfuel : N - o / 128 + 2 ≤ fuel) (hfuel' : N - o / 128 + 2 ≤ fuel') :
    rdascLoop B xbytes fuel n s = rdascLoop B xbytes fuel' n s := by
  induction fuel generalizing fuel' n o s with
  | zero => omega
  | succ fuel ih =>
    obtain ⟨fuel', rfl⟩ := Nat.exists_eq_succ_of_ne_zero (show fuel' ≠ 0 by omega)
    have hk : s.fp.offset / 128 = (o / 128 : ℕ) := by omega
    rw [rdascLoop, rdascLoop]
    by_cases hn : n > 0
    · rw [if_pos hn, if_pos hn]
      apply bind_eq_of_wp
      cases hr : E (o / 128) with
      | none =>
        refine wp_mono (wp_rdascSector_absent hcont hk hr fun hsec => hlabel _ hsec hr) ?_ (fun _ _ h => h.elim)
        rintro _ s' ⟨rfl, -⟩
        rw [if_pos rfl, if_pos rfl]
      | some r =>
        have hlt : o / 128 < N := by
          by_contra hge
          rw [hN _ (by omega)] at hr
          cases hr
        refine wp_mono (wp_rdascSector_content hcont hk hr) ?_ (fun _ _ h => h.elim)
        rintro _ _ ⟨rfl, ⟨fcb, os, dirty, rfl⟩, hcont₁⟩
        have hpos : (s.fp.offset % 128).toNat = o % 128 := by omega
        obtain ⟨cs, hcs⟩ : ∃ cs, r.bytes.drop (o % 128) = cs := ⟨_, rfl⟩
        have hlen : cs.length = 128 - o % 128 := by
          rw [← hcs, List.length_drop, Sector.bytes, List.length_ofFn]
        rw [if_neg (by decide), if_neg (by decide)]
        apply bind_eq_of_wp
        rw [wp_get]
        simp only [bufPos, hpos, hcs]
        apply bind_eq_of_wp
        rw [wp_store]
        apply bind_eq_of_wp
        rw [wp_setFp]
        by_cases heof : (rdascMove cs n).2.2 = true
        · rw [if_pos heof, if_pos heof]
        · rw [if_neg heof, if_neg heof]
          by_cases hall : (rdascMove cs n).1.length = n
          · -- nothing more is asked for
            obtain ⟨fuel, rfl⟩ := Nat.exists_eq_succ_of_ne_zero (show fuel ≠ 0 by omega)
            obtain ⟨fuel', rfl⟩ := Nat.exists_eq_succ_of_ne_zero (show fuel' ≠ 0 by omega)
            rw [hall, Nat.sub_self, rdascLoop, rdascLoop, if_neg (lt_irrefl 0), if_neg (lt_irrefl 0)]
          · -- the offset comes to the next sector
            obtain ⟨hconsumed, -⟩ := (rdascMove_append cs [] n).2 fun hdone => hdone.elim hall heof
            refine ih (o := o + (128 - o % 128)) (hcont₁.of_eq rfl rfl rfl rfl rfl) (fun k hsec => ?_) ?_ (by omega) (by omega)
            · obtain rfl : o / 128 = k := by
                simp only at hsec
                omega
              rw [hr]
              exact Option.some_ne_none r
            · simp only [ho, hconsumed, hlen, Nat.cast_add]
    · rw [if_neg hn, if_neg hn]

/-- So it is for every number of turns that `_rdasc` may take. -/
theorem Current.rdasc_ends (h : Current S file u E s.fp s.os) (ho : s.fp.offset = o) (n : ℕ) {fuel : ℕ}
    (hfuel : 2 ^ 24 + 1 ≤ fuel) : rdascLoop B n fuel n s = rdasc B n s := by
  have hcap := S.cap_lt
  exact rdascLoop_fuel h.content (fun _ => h.bounded) h.labelled ho (by omega) (by omega)

/-! ### One call -/

/-- What a read of `n` bytes at the byte `o` of an ASCII file leaves. -/
structure TextTaken (S : RecordStore B) (file : FileId) (u : UInt16) (E : ℕ → Option Sector) (N o n : ℕ) (s : Io σ) (r : ℤ)
    (s' : Io σ) : Prop where
  count : r = (min n (textFrom E N o).length : ℕ)
  buff : s'.buff = s.buff ++ (textFrom E N o).take n
  eof : s'.fp.flags.ATEOF = (s.fp.flags.ATEOF || decide ((textFrom E N o).length < n))
  current : Current S file u E s'.fp s'.os
  next : ∃ o' : ℕ, s'.fp.offset = o' ∧ textFrom E N o' = (textFrom E N o).drop n

/-- **One call** of `_rdasc`. -/
theorem wp_rdasc_text (n : ℕ) (h : Current S file u E s.fp s.os) (hN : ∀ k, N ≤ k → E k = none) (ho : s.fp.offset = o) :
    wp (rdasc B n) (fun r s' => TextTaken S file u E N o n s r s') (fun _ _ => False) s := by
  obtain ⟨bs, hbs⟩ : ∃ bs, stream E o (128 * N - o) = bs := ⟨_, rfl⟩
  have hcap := S.cap_lt
  have hplaced : Placed E o bs := hbs ▸ placed_stream o _
  have hle : bs.length ≤ 128 * N - o := hbs ▸ length_stream_le o _
  have hnone : E ((o + bs.length) / 128) = none := by
    rcases hle.lt_or_eq with hlt | heq
    · subst hbs
      exact stream_short hlt
    · exact hN _ (by omega)
  -- the last byte is in a sector of the file
  have hsmall : (o + bs.length) / 128 < o / 128 + 2 ^ 24 := by
    rcases Nat.eq_zero_or_pos bs.length with hzero | hpos
    · omega
    · have hlast := hplaced (bs.length - 1) (by omega)
      have hin : (o + (bs.length - 1)) / 128 < S.cap := by
        by_contra hge
        rw [item_eq_none.mpr (h.bounded (Nat.le_of_not_lt hge))] at hlast
        cases hlast
      omega
  refine wp_mono (wp_rdasc_bytes n h.content hplaced ho hsmall (.inr ⟨hnone, fun hsec => h.labelled _ hsec hnone⟩)) ?_
    (fun _ _ h => h)
  rintro r s' ⟨hcount, h'⟩
  obtain ⟨hstored, hrest⟩ := rdascMove_fileText bs n
  have hconsumed := rdascMove_consumed_le bs n
  have htext : textFrom E N o = fileText bs := congrArg fileText hbs
  constructor
  · rw [hcount, hstored, List.length_take, htext]
  · rw [h'.buff, hstored, htext]
  · rw [h'.eof, hstored, List.length_take, htext]
    congr 1
    exact decide_eq_decide.mpr (by omega)
  · exact h.of_keepsLabel h'.content h'.label
  · refine ⟨_, h'.offset, ?_⟩
    have hdrop := stream_drop (D := E) (o := o) (n := 128 * N - o) (m := (rdascMove bs n).2.1) (by rw [hbs]; exact hconsumed)
    rw [hbs] at hdrop
    rw [htext, ← hrest, ← hdrop, textFrom]
    congr 2
    omega

/-! ### Several calls -/

/-- Calls of `_rdasc`, one after the other: what each returns. -/
def rdascMany (B : Osif σ) : List ℕ → IoM σ (List ℤ)
  | [] => pure []
  | n :: ns => do
    let r ← rdasc B n
    let rs ← rdascMany B ns
    pure (r :: rs)

/-- Several calls of `_rdasc`. -/
theorem wp_rdascMany (ns : List ℕ) (h : Current S file u E s.fp s.os) (hN : ∀ k, N ≤ k → E k = none) (ho : s.fp.offset = o) :
    wp (rdascMany B ns)
      (fun rs s' => rs = (pieces (textFrom E N o) ns).map Prod.fst ∧ s'.buff = s.buff ++ (textFrom E N o).take ns.sum ∧
        s'.fp.flags.ATEOF = (s.fp.flags.ATEOF || decide ((textFrom E N o).length < ns.sum)))
      (fun _ _ => False) s := by
  induction ns generalizing s o with
  | nil =>
    rw [rdascMany, wp_pure]
    simp [pieces]
  | cons n ns ih =>
    rw [rdascMany, wp_bind]
    refine wp_mono (wp_rdasc_text n h hN ho) ?_ (fun _ _ h => h)
    intro r s₁ h₁
    obtain ⟨o', ho', hnext⟩ := h₁.next
    rw [wp_bind]
    refine wp_mono (ih h₁.current ho') ?_ (fun _ _ h => h)
    rintro rs s' ⟨hrs, hbuff, heof⟩
    rw [hnext] at hrs hbuff heof
    rw [wp_pure]
    refine ⟨?_, ?_, ?_⟩
    · rw [hrs, h₁.count, pieces, List.map_cons, List.length_take]
    · rw [hbuff, h₁.buff, List.append_assoc, List.sum_cons, List.take_add]
    · rw [heof, h₁.eof, Bool.or_assoc, ← Bool.decide_or, List.sum_cons, List.length_drop]
      congr 1
      exact decide_eq_decide.mpr (by omega)

/-- The text `t` is still to be read on the channel. -/
structure Rest (S : RecordStore B) (file : FileId) (u : UInt16) (E : ℕ → Option Sector) (N : ℕ) (t : List UInt8) (fp : Ccb)
    (os : σ) : Prop where
  current : Current S file u E fp os
  offset : ∃ o : ℕ, fp.offset = o ∧ textFrom E N o = t
  eof : fp.flags.ATEOF = true → t = []

variable {isread : Bool} {k : ℕ} {t : List UInt8} {w : World σ}

/-- One `read` takes from the rest what it is asked for. -/
theorem wp_read_rest (n : ℕ) (h : OpenFile isread true k (Rest S file u E N t) w) (hN : ∀ j, N ≤ j → E j = none) :
    wp (read B k n)
      (fun r => OpenFile isread true k fun fp os => r = (((t.take n).length : ℤ), t.take n) ∧
        fp.flags.ATEOF = ((w.fds k).flags.ATEOF || decide (t.length < n)) ∧ Rest S file u E N (t.drop n) fp os)
      (fun _ => OpenFile isread true k fun _ _ => False) w := by
  obtain ⟨hcurrent, ⟨o, ho, rfl⟩, hat⟩ := h.holds
  refine h.wp_read (E := fun _ _ _ => False) ?_
  cases heof : (w.fds k).flags.ATEOF with
  | true =>
    have hnil := hat heof
    rw [wp_readFp_ateof heof, hnil]
    exact ⟨by simp, by simp [heof], hcurrent, ⟨o, ho, hnil.trans List.drop_nil.symm⟩, fun _ => List.drop_nil⟩
  | false =>
    rw [wp_readFp_file h.mode heof, if_pos rfl]
    refine wp_mono (wp_rdasc_text n hcurrent hN ho) ?_ (fun _ _ h => h)
    intro r s' h'
    have hat' := h'.eof
    rw [show (⟨w.fds k, w.os, []⟩ : Io σ).fp.flags.ATEOF = false from heof, Bool.false_or] at hat'
    refine ⟨?_, ?_, h'.current, h'.next, fun hend => ?_⟩
    · rw [h'.count, h'.buff, List.nil_append, List.length_take]
    · rw [hat', Bool.false_or]
    · rw [hat', decide_eq_true_eq] at hend
      exact List.drop_eq_nil_of_le hend.le

/-- Several calls of `read`. -/
theorem wp_readMany_rest (ns : List ℕ) (h : OpenFile isread true k (Rest S file u E N t) w) (hN : ∀ j, N ≤ j → E j = none) :
    wp (readMany B k ns)
      (fun rs w' => rs = pieces t ns ∧ (w'.fds k).flags.ATEOF = ((w.fds k).flags.ATEOF || decide (t.length < ns.sum)))
      (fun _ _ => False) w := by
  obtain ⟨eof, heof⟩ : ∃ eof, (w.fds k).flags.ATEOF = eof := ⟨_, rfl⟩
  refine wp_mono (wp_readMany_pieces
    (P := fun m fp os => fp.flags.ATEOF = (eof || decide (t.length < m)) ∧ Rest S file u E N (t.drop m) fp os) t
    (fun m n w h => ?_) ns 0 ⟨h.lt, h.mode, by simp [heof], h.holds⟩) (fun _ w' h' => ?_) (fun _ _ h => h)
  · obtain ⟨hm, hrest⟩ := h.holds
    refine wp_mono (wp_read_rest n ⟨h.lt, h.mode, hrest⟩ hN) (fun r w' h' => ?_) (fun _ _ h => h)
    obtain ⟨hr, heof', hrest'⟩ := h'.holds
    rw [List.drop_drop] at hrest'
    refine ⟨h'.lt, h'.mode, hr, ?_, hrest'⟩
    rw [heof', hm, Bool.or_assoc, ← Bool.decide_or, List.length_drop]
    congr 1
    exact decide_eq_decide.mpr (by omega)
  · obtain ⟨hrs, hend⟩ := h'
    rw [heof, hend.holds.1, Nat.zero_add]
    exact ⟨hrs, rfl⟩

/-- **Reading from an ASCII file.** The loop of `_rdasc` ends, a call delivers what there is of the
text, and calls one after the other deliver the text piece by piece, of `_rdasc` and of `read`
alike. -/
theorem ascii_read_law
    (h : OpenFile isread true k (fun fp os => Current S file u E fp os ∧ fp.offset = o) w) (hN : ∀ j, N ≤ j → E j = none)
    (buff : List UInt8) :
    (∀ n fuel, 2 ^ 24 + 1 ≤ fuel → rdascLoop B n fuel n ⟨w.fds k, w.os, buff⟩ = rdasc B n ⟨w.fds k, w.os, buff⟩) ∧
      (∀ n, ∃ r s', rdasc B n ⟨w.fds k, w.os, buff⟩ = .ok r s' ∧
        TextTaken S file u E N o n ⟨w.fds k, w.os, buff⟩ r s') ∧
      (∀ ns, ∃ s', rdascMany B ns ⟨w.fds k, w.os, buff⟩ = .ok ((pieces (textFrom E N o) ns).map Prod.fst) s' ∧
        s'.buff = buff ++ (textFrom E N o).take ns.sum) ∧
      ((w.fds k).flags.ATEOF = false → ∀ ns, ∃ w', readMany B k ns w = .ok (pieces (textFrom E N o) ns) w' ∧
        (w'.fds k).flags.ATEOF = decide ((textFrom E N o).length < ns.sum)) := by
  obtain ⟨hcurrent, ho⟩ := h.holds
  refine ⟨?_, ?_, ?_, ?_⟩
  · intro n fuel hfuel
    exact Current.rdasc_ends (s := ⟨w.fds k, w.os, buff⟩) hcurrent ho n hfuel
  · intro n
    exact exists_of_wp (wp_rdasc_text (s := ⟨w.fds k, w.os, buff⟩) n hcurrent hN ho)
  · intro ns
    obtain ⟨rs, s', hrun, rfl, hbuff, -⟩ :=
      exists_of_wp (wp_rdascMany (s := ⟨w.fds k, w.os, buff⟩) ns hcurrent hN ho)
    exact ⟨s', hrun, hbuff⟩
  · intro heof ns
    have hrest : OpenFile isread true k (Rest S file u E N (textFrom E N o)) w := by
      refine ⟨h.lt, h.mode, hcurrent, ⟨o, ho, rfl⟩, fun hend => ?_⟩
      rw [heof] at hend
      cases hend
    obtain ⟨rs, w', hrun, rfl, heof'⟩ := exists_of_wp (wp_readMany_rest ns hrest hN)
    rw [heof, Bool.false_or] at heof'
    exact ⟨w', hrun, heof'⟩

/-- A line, written and not yet on disk, and the offset back at its start. -/
def lineStored : World MemOs := runFile memOsif 0 [.write [0x61, 0x0a], .lseek 0 0] (createdA 0)

/-- The file on the channel: the buffer is its only sector. -/
def lineSectors : ℕ → Option Sector := Function.update (fun _ => none) 0 (some (lineStored.fds 0).buffer)

theorem ascii_read_line :
    (∀ n fuel, 2 ^ 24 + 1 ≤ fuel →
        rdascLoop memOsif n fuel n ⟨lineStored.fds 0, lineStored.os, []⟩ = rdasc memOsif n ⟨lineStored.fds 0, lineStored.os, []⟩) ∧
      (∀ n, ∃ r s', rdasc memOsif n ⟨lineStored.fds 0, lineStored.os, []⟩ = .ok r s' ∧
        TextTaken memStore (namedFile 0 [0x41]) 0 lineSectors 1 0 n ⟨lineStored.fds 0, lineStored.os, []⟩ r s') ∧
      (∀ ns, ∃ s', rdascMany memOsif ns ⟨lineStored.fds 0, lineStored.os, []⟩ =
          .ok ((pieces (textFrom lineSectors 1 0) ns).map Prod.fst) s' ∧
        s'.buff = [] ++ (textFrom lineSectors 1 0).take ns.sum) ∧
      ((lineStored.fds 0).flags.ATEOF = false → ∀ ns, ∃ w', readMany memOsif 0 ns lineStored =
          .ok (pieces (textFrom lineSectors 1 0) ns) w' ∧
        (w'.fds 0).flags.ATEOF = decide ((textFrom lineSectors 1 0).length < ns.sum)) := by
  have hopen : OpenFile false true 0
      (fun fp os => Current memStore (namedFile 0 [0x41]) 0 lineSectors fp os ∧ fp.offset = (0 : ℕ)) lineStored := by
    refine ⟨by decide, rfl, ⟨⟨fun _ => none, ⟨rfl, rfl, rfl⟩, ?_, ?_, ?_⟩, ?_⟩, rfl⟩
    · exact fun _ => ⟨le_rfl, by decide⟩
    · exact flushed_of_dirty rfl
    · exact fun _ hd => by cases hd
    · intro j hj
      have hsec : ((0 : ℕ) : ℤ) = j := hj
      obtain rfl : 0 = j := by exact_mod_cast hsec
      exact Function.update_self ..
  refine ascii_read_law hopen (fun j hj => ?_) []
  exact Function.update_of_ne (by omega) _ _

end Cpm68k.Cpmlib
