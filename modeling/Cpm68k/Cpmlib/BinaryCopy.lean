import Cpm68k.Cpmlib.BinaryRead
import Cpm68k.Cpmlib.Sequential

/-!
# Writing a binary file and reading it back

What a program gets that writes a binary file from the start to the end, closes it, and
reads it: in whatever pieces it is written and read, the bytes written, and zeros up to the
end of the last sector.

## What is proved

* `wp_rdbin_reading` — `_rdbin` on a file of whole sectors: as many bytes as are asked for,
  or as are left.
* `copy_back` — the copy, whatever its pieces.
-/

namespace Cpm68k.Cpmlib

open Cpm68k.Library RecordStore

variable {σ : Type} {B : Osif σ} {S : RecordStore B} {file : FileId} {u : UInt16} {s : Io σ}

/-! ### Reading -/

/-- The channel reads the bytes `g`, and has come to byte `o`. -/
structure Reading (S : RecordStore B) (file : FileId) (u : UInt16) (g : List UInt8) (o : ℕ) (fp : Ccb) (os : σ) :
    Prop where
  on : S.On file u (diskOf g) fp os
  offset : fp.offset = o
  inside : o ≤ g.length
  hiwater : fp.hiwater = g.length
  clean : fp.flags.DIRTY = false
  coherent : Coherent fp (diskOf g)
  eof : fp.flags.ATEOF = true → o = g.length

variable {g : List UInt8} {o : ℕ}

/-- The bytes of whole sectors are read as they are. -/
theorem stream_diskOf (hg : g.length % 128 = 0) (ho : o ≤ g.length) (n : ℕ) : stream (diskOf g) o n = (g.drop o).take n := by
  have hplaced : Placed (diskOf g) 0 g := (carries_blocks g).placed
  have hrest := hplaced.drop ho
  rw [Nat.zero_add] at hrest
  refine hrest.stream_eq (item_eq_none.mpr (if_neg ?_)) n
  rw [List.length_drop]
  omega

/-- **`_rdbin` reads what is asked for**, or what is left of the file. -/
theorem wp_rdbin_reading (n : ℕ) (h : Reading S file u g o s.fp s.os) (hg : g.length % 128 = 0) (hsmall : g.length < 2 ^ 31) :
    wp (rdbin B n)
      (fun ret s' => ret = (min n (g.length - o) : ℕ) ∧ s'.buff = s.buff ++ (g.drop o).take n ∧
        Reading S file u g (o + min n (g.length - o)) s'.fp s'.os)
      (fun _ _ => False) s := by
  have hin := h.inside
  have hhi := h.hiwater
  have hstream := stream_diskOf hg hin n
  have hlen : (stream (diskOf g) o n).length = min n (g.length - o) := by
    rw [hstream, List.length_take, List.length_drop]
  have hsome : o % 128 ≠ 0 → diskOf g (o / 128) ≠ none := fun hpos => by
    unfold diskOf blocks
    rw [if_pos (by omega)]
    exact Option.some_ne_none _
  refine wp_mono (wp_rdbin_coherent n h.on h.clean h.coherent h.offset hsome) (fun r s' h' => ?_) (fun _ _ h => h)
  obtain ⟨hread, hon, hclean, hcoh⟩ := h'
  have hoff' := hread.offset
  have heof' := hread.eof
  rw [hlen] at hoff' heof'
  refine ⟨?_, ?_, hon, hoff', by omega, ?_, hclean, hcoh, fun heof => ?_⟩
  · rw [hread.count, hlen, Nat.zero_add, toLong_of_lt (by omega)]
  · rw [hread.buff, hstream]
  · rw [hread.hiwater, hoff']
    omega
  · rw [heof', Bool.or_eq_true, decide_eq_true_eq] at heof
    cases heof with
    | inl hbefore =>
      have hend := h.eof hbefore
      omega
    | inr hshort => omega

/-! ### The programs -/

/-- Write chunks one after the other. -/
def writeMany (B : Osif σ) (fd : ℤ) : List (List UInt8) → OsM σ PUnit
  | [] => pure ⟨⟩
  | c :: cs => do
    let _ ← write B fd c
    writeMany B fd cs

/-- Read as many bytes as each request says: what each `read` returns and stores. -/
def readMany (B : Osif σ) (fd : ℤ) : List ℕ → OsM σ (List (ℤ × List UInt8))
  | [] => pure []
  | n :: ns => do
    let r ← read B fd n
    let rs ← readMany B fd ns
    pure (r :: rs)

/-- What the requests get when each takes as many bytes as it asks for, as long as there are any. -/
def pieces : List UInt8 → List ℕ → List (ℤ × List UInt8)
  | _, [] => []
  | g, n :: ns => ((g.take n).length, g.take n) :: pieces (g.drop n) ns

theorem length_of_mem_pieces (ns : List ℕ) (g : List UInt8) : ∀ r ∈ pieces g ns, r.1 = r.2.length := by
  induction ns generalizing g with
  | nil => exact fun _ h => absurd h List.not_mem_nil
  | cons n ns ih => exact List.forall_mem_cons.mpr ⟨rfl, ih _⟩

theorem flatMap_pieces (ns : List ℕ) (g : List UInt8) : (pieces g ns).flatMap Prod.snd = g.take ns.sum := by
  induction ns generalizing g with
  | nil => simp [pieces]
  | cons n ns ih => rw [pieces, List.flatMap_cons, ih, List.sum_cons, List.take_add]

/-- When everything has been taken, a request gets nothing. -/
theorem pieces_end (ns : List ℕ) (g : List UInt8) {i : ℕ} (hi : i < ns.length) (hend : g.length ≤ (ns.take i).sum) :
    (pieces g ns)[i]? = some (0, []) := by
  induction ns generalizing g i with
  | nil => exact absurd hi (Nat.not_lt_zero i)
  | cons n ns ih =>
    cases i with
    | zero =>
      obtain rfl : g = [] := List.length_eq_zero_iff.mp (by simpa using hend)
      simp [pieces]
    | succ i =>
      rw [pieces, List.getElem?_cons_succ]
      refine ih (g.drop n) (by simpa using hi) ?_
      rw [List.take_succ_cons, List.sum_cons] at hend
      rw [List.length_drop]
      omega

/-- Close the file and open it again to read it. -/
def reopenRead (B : Osif σ) (fd : ℤ) (fname : List UInt8) (xtype : ℤ) (ns : List ℕ) : OsM σ (List (ℤ × List UInt8)) := do
  let _ ← close B fd
  let fd ← openChan B fname READ xtype
  readMany B fd ns

/-- The bytes, and zeros up to the end of the last sector. -/
def padded (f : List UInt8) : List UInt8 := f ++ List.replicate ((128 - f.length % 128) % 128) 0

theorem length_padded (f : List UInt8) : (padded f).length = (f.length + 127) / 128 * 128 := by
  rw [padded, List.length_append, List.length_replicate]
  omega

theorem diskOf_padded (f : List UInt8) : diskOf (padded f) = diskOf f :=
  blocks_append_replicate _ fun j hj => by omega

theorem isSize_diskOf (f : List UInt8) : IsSize (diskOf f) ((f.length + 127) / 128) := by
  refine ⟨fun j hj => if_neg (by omega), ?_⟩
  by_cases h0 : f.length = 0
  · exact .inl (by omega)
  · right
    unfold diskOf blocks
    rw [if_pos (by omega)]
    exact Option.some_ne_none _

variable {isread isascii : Bool} {k : ℕ} {w : World σ}

/-- The file after writes only. -/
def Written (S : RecordStore B) (file : FileId) (u : UInt16) (f : List UInt8) (fp : Ccb) (os : σ) : Prop :=
  FlatOn S file u ⟨f, f.length⟩ fp os ∧ Sequential fp

theorem wp_writeMany {f : List UInt8} (chunks : List (List UInt8)) (h : OpenFile false false k (Written S file u f) w)
    (hchunks : ∀ c ∈ chunks, 0 < c.length ∧ c.length < 2 ^ 16) (hsmall : f.length + chunks.flatten.length < 2 ^ 23)
    (hcap : f.length + chunks.flatten.length ≤ 128 * S.cap) :
    wp (writeMany B k chunks) (fun _ => OpenFile false false k (Written S file u (f ++ chunks.flatten)))
      (fun _ _ => False) w := by
  induction chunks generalizing f w with
  | nil => simpa [writeMany] using h
  | cons c cs ih =>
    obtain ⟨⟨hpos, hfcap, D, hon, hflat⟩, hseq⟩ := h.holds
    simp only at hpos hfcap hflat
    obtain ⟨⟨hn, hbytes⟩, hcs⟩ := List.forall_mem_cons.mp hchunks
    rw [List.flatten_cons, List.length_append] at hsmall hcap
    have hne : c ≠ [] := List.length_pos_iff.mp hn
    have hwrite : wp (wrtbin B c) (fun _ s' => Written S file u (f ++ c) s'.fp s'.os) (fun _ _ => False)
        ⟨w.fds k, w.os, []⟩ := by
      refine wp_mono (wp_and (wp_wrtbin_flat hon hflat (hseq.writeOk D _) hne hbytes (by simp only [hpos]; omega)
        (by simp only [hpos]; omega) hfcap) (wp_wrtbin_sequential hseq hpos hne hbytes (by omega))) ?_
        (fun _ _ h => h.1)
      rintro _ s' ⟨⟨-, hoff, D', hon', hflat'⟩, hseq'⟩
      simp only [hpos, Int.toNat_natCast, splice_length_self] at hoff hflat'
      refine ⟨⟨by rw [hoff, List.length_append]; push_cast; rfl, ?_, D', hon', hflat'⟩, hseq'⟩
      simp only [List.length_append]
      omega
    rw [writeMany, wp_bind]
    refine wp_mono (h.wp_write (Q := fun _ => Written S file u (f ++ c)) (E := fun _ _ _ => False) ?_) ?_
      (fun _ _ h => h.holds)
    · rw [wp_writeFp_file h.mode hne rfl, if_neg Bool.false_ne_true]
      exact hwrite
    · intro _ w' h'
      have hrest := ih h' hcs (by rw [List.length_append]; omega) (by rw [List.length_append]; omega)
      rwa [List.append_assoc, ← List.flatten_cons] at hrest

/-- **Requests one after the other** get their pieces of `g`, if a single `read` gets its piece
whenever `P m` holds, where `m` bytes have been asked for, and leaves the next `P`. -/
theorem wp_readMany_pieces {P : ℕ → Ccb → σ → Prop} (g : List UInt8)
    (hread : ∀ m n w, OpenFile isread isascii k (P m) w →
      wp (read B k n)
        (fun r => OpenFile isread isascii k fun fp os =>
          r = ((((g.drop m).take n).length : ℤ), (g.drop m).take n) ∧ P (m + n) fp os)
        (fun _ => OpenFile isread isascii k fun _ _ => False) w)
    (ns : List ℕ) (m : ℕ) (h : OpenFile isread isascii k (P m) w) :
    wp (readMany B k ns) (fun rs w' => rs = pieces (g.drop m) ns ∧ OpenFile isread isascii k (P (m + ns.sum)) w')
      (fun _ _ => False) w := by
  induction ns generalizing m w with
  | nil => exact ⟨rfl, h⟩
  | cons n ns ih =>
    rw [readMany, wp_bind]
    refine wp_mono (hread m n w h) ?_ (fun _ _ h => h.holds)
    intro r w₁ h₁
    obtain ⟨rfl, hP⟩ := h₁.holds
    rw [wp_bind]
    refine wp_mono (ih (m + n) ⟨h₁.lt, h₁.mode, hP⟩) ?_ (fun _ _ h => h)
    rintro rs w' ⟨rfl, h'⟩
    rw [wp_pure, pieces, List.drop_drop, List.sum_cons, ← Nat.add_assoc]
    exact ⟨rfl, h'⟩

/-- One `read` of the file. -/
theorem wp_read_reading (n : ℕ) (hg : g.length % 128 = 0) (hsmall : g.length < 2 ^ 31)
    (h : OpenFile true false k (Reading S file u g o) w) :
    wp (read B k n)
      (fun r => OpenFile true false k fun fp os => r = ((((g.drop o).take n).length : ℤ), (g.drop o).take n) ∧
        Reading S file u g (o + min n (g.length - o)) fp os)
      (fun _ => OpenFile true false k fun _ _ => False) w := by
  have hr := h.holds
  refine h.wp_read (E := fun _ _ _ => False) ?_
  cases heof : (w.fds k).flags.ATEOF with
  | true =>
    obtain rfl := hr.eof heof
    rw [wp_readFp_ateof heof, Nat.sub_self, Nat.min_zero, Nat.add_zero]
    exact ⟨by simp, hr⟩
  | false =>
    rw [wp_readFp_file h.mode heof, if_neg Bool.false_ne_true]
    refine wp_mono (wp_rdbin_reading n hr hg hsmall) ?_ (fun _ _ h => h)
    rintro _ s' ⟨rfl, hbuff, h'⟩
    rw [hbuff, List.length_take, List.length_drop]
    exact ⟨rfl, h'⟩

theorem wp_readMany (ns : List ℕ) (hg : g.length % 128 = 0) (hsmall : g.length < 2 ^ 31)
    (h : OpenFile true false k (Reading S file u g 0) w) :
    wp (readMany B k ns) (fun rs _ => rs = pieces g ns) (fun _ _ => False) w := by
  refine wp_mono (wp_readMany_pieces (P := fun m fp os => ∃ o, g.drop o = g.drop m ∧ Reading S file u g o fp os) g
    (fun m n w h => ?_) ns 0 ⟨h.lt, h.mode, 0, rfl, h.holds⟩) (fun _ _ h => h.1) (fun _ _ h => h)
  obtain ⟨o, ho, hr⟩ := h.holds
  refine wp_mono (wp_read_reading n hg hsmall ⟨h.lt, h.mode, hr⟩) (fun r w' h' => ?_) (fun _ _ h => h)
  obtain ⟨hrs, hr'⟩ := h'.holds
  refine ⟨h'.lt, h'.mode, by rw [hrs, ho], o + min n (g.length - o), ?_, hr'⟩
  have hdrop : (g.drop o).drop n = g.drop (o + min n (g.length - o)) := by
    rw [List.drop_drop]
    rcases Nat.le_total n (g.length - o) with hle | hge
    · rw [min_eq_left hle]
    · rw [min_eq_right hge, List.drop_eq_nil_of_le (by omega), List.drop_eq_nil_of_le (by omega)]
  rw [← hdrop, ho, List.drop_drop]

/-- **A binary file is read back as it was written**, with zeros up to the end of the last
sector: whatever its pieces are, every `read` returns the number of the bytes it stores,
together they store the file from its start, as many bytes as were asked for, and a `read`
that comes when everything has been read returns 0. -/
theorem copy_back (S : RecordStore B) {fname : List UInt8} {fd : ℤ} {w₀ w₁ : World σ} (hname : NotDevice fname)
    (hcreat : creat B fname 1 w₀ = .ok fd w₁) (hknown : S.users (namedFile (S.user w₀.os) fname).user) {chunks : List (List UInt8)}
    (hchunks : ∀ c ∈ chunks, 0 < c.length ∧ c.length < 2 ^ 16) (hsmall : chunks.flatten.length < 2 ^ 23)
    (hcap : chunks.flatten.length ≤ 128 * S.cap) (ns : List ℕ) :
    ∃ rs w₂, (do
        writeMany B fd chunks
        reopenRead B fd fname 1 ns) w₁ = .ok rs w₂ ∧
      (∀ r ∈ rs, r.1 = r.2.length) ∧ rs.flatMap Prod.snd = (padded chunks.flatten).take ns.sum ∧
      ∀ i < ns.length, (padded chunks.flatten).length ≤ (ns.take i).sum → rs[i]? = some (0, []) := by
  obtain ⟨hlegal, k, rfl, hk⟩ := flatOn_created (S := S) hname hcreat hknown
  obtain ⟨hcreated, hflat⟩ := hk.holds
  have hseq : Sequential (w₁.fds k) := by
    have hoff := hcreated.offset
    have hsec := hcreated.sector
    refine ⟨fun hd => ?_, fun _ => by omega⟩
    rw [hcreated.clean] at hd
    cases hd
  have hcap' : S.cap < 2 ^ 24 := S.cap_lt
  have hlen := length_padded chunks.flatten
  refine exists_of_wp ?_
  rw [wp_bind]
  refine wp_mono (wp_writeMany chunks ⟨hk.lt, hk.mode, hflat, hseq⟩ hchunks (by simpa using hsmall) (by simpa using hcap))
    ?_ (fun _ _ h => h)
  intro _ w h
  rw [List.nil_append] at h
  rw [reopenRead, wp_bind]
  refine wp_mono (wp_close_flat ⟨h.lt, h.mode, h.holds.1⟩) ?_ (fun _ _ h => h)
  rintro _ w' ⟨-, ⟨huser, hfiles⟩, j, hj, hbit⟩
  simp only at hfiles
  rw [wp_bind]
  refine wp_mono (wp_openChan_file hname hlegal huser hfiles (isSize_diskOf chunks.flatten)) ?_
    fun _ _ hfull => Bool.false_ne_true (hbit.symm.trans (hfull j hj))
  rintro _ w'' ⟨k', rfl, h'⟩
  have ho := h'.holds
  have hreading : Reading S (namedFile (S.user w₀.os) fname) (S.user w₀.os) (padded chunks.flatten) 0 (w''.fds k') w''.os := by
    refine ⟨?_, ho.offset, Nat.zero_le _, ?_, ho.clean, ?_, fun heof => ?_⟩
    · rw [diskOf_padded]
      exact ho.on
    · rw [ho.hiwater, hlen, diskEnd, if_neg (by decide)]
      omega
    · rw [diskOf_padded]
      exact ho.coherent
    · rw [ho.noEof] at heof
      cases heof
  have hreads := wp_readMany (g := padded chunks.flatten) ns (by omega) (by omega) ⟨h'.lt, h'.mode, hreading⟩
  refine wp_mono hreads ?_ (fun _ _ h => h)
  rintro _ _ rfl
  exact ⟨length_of_mem_pieces ns _, flatMap_pieces ns _, fun i hi => pieces_end ns _ hi⟩

/-- Five bytes in two pieces, read 4 bytes at a time. -/
theorem copy_back_small :
    ∃ rs w₂, (do
        writeMany memOsif 0 [[1, 2, 3], [4, 5]]
        reopenRead memOsif 0 [0x41] 1 [4, 4]) (createdA 1) = .ok rs w₂ ∧
      (∀ r ∈ rs, r.1 = r.2.length) ∧ rs.flatMap Prod.snd = [1, 2, 3, 4, 5, 0, 0, 0] ∧
      ∀ i < 2, 128 ≤ ([4, 4].take i).sum → rs[i]? = some (0, []) :=
  copy_back memStore notDevice_A creat_createdA known_A (by decide) (by decide) (by decide) [4, 4]

end Cpm68k.Cpmlib
