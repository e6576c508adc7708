import Cpm68k.Cpmlib.BinaryRead
import Cpm68k.Cpmlib.Coherence

/-!
# A read in one call and byte by byte

A read of a binary file takes whole sectors from the disk as it is, past a dirty buffer
(`wholeView`). A read of one byte always goes through the buffer.

## What is proved

* `wp_rdbin_byte` — what a read of one byte delivers.
* `wp_readEach` — what the calls of one byte deliver.
* `split_reads_agree` — both are the same, unless the buffer is dirty for one of the whole
  sectors (`Unflushed`), or nothing is asked for and the sector is missing (`Missing`).
* `whole_read_misses_buffer` — one byte written, and a read of a sector from the beginning.
-/

namespace Cpm68k.Cpmlib

open Cpm68k.Library RecordStore

variable {σ : Type} {B : Osif σ} {S : RecordStore B} {file : FileId} {u : UInt16} {D E V : ℕ → Option Sector} {s : Io σ}

/-! ### Byte by byte -/

/-- What a read of one byte sees. -/
def byteView (D : ℕ → Option Sector) (fp : Ccb) : ℕ → Option Sector :=
  if fp.offset % 128 = 0 then flushed D fp else bufferView D fp

/-- Sector `k` is in the buffer, and the sectors of `V` behind it are on disk. -/
structure InBuffer (S : RecordStore B) (file : FileId) (u : UInt16) (V : ℕ → Option Sector) (k : ℕ) (fp : Ccb) (os : σ) :
    Prop where
  sector : fp.sector = k
  buffer : V k = some fp.buffer
  on : ∃ D, S.On file u D fp os ∧ Labelled S.cap fp ∧ ∀ j > k, D j = V j

/-- The channel stands at the byte `o`, and reads of one byte see the records `V` from there on. -/
structure Serves (S : RecordStore B) (file : FileId) (u : UInt16) (V : ℕ → Option Sector) (o : ℕ) (fp : Ccb) (os : σ) :
    Prop where
  offset : fp.offset = o
  noEof : fp.flags.ATEOF = false
  on : ∃ D, S.On file u D fp os ∧ Labelled S.cap fp ∧ ∀ j ≥ o / 128, byteView D fp j = V j

/-- With the sector of byte `o` in the buffer, the channel can go on behind it. -/
theorem InBuffer.serves {fp : Ccb} {os : σ} {o : ℕ} (h : InBuffer S file u V (o / 128) fp os) (hoff : fp.offset = (o + 1 : ℕ))
    (heof : fp.flags.ATEOF = false) : Serves S file u V (o + 1) fp os := by
  obtain ⟨hsec, hbuf, D, hon, hl, hV⟩ := h
  have hflushed : ∀ j > o / 128, flushed D fp j = V j := by
    intro j hj
    rw [flushed_of_ne hl (by omega)]
    exact hV j hj
  refine ⟨hoff, heof, D, hon, hl, fun j hj => ?_⟩
  unfold byteView bufferView
  by_cases halign : fp.offset % 128 = 0
  · rw [if_pos halign]
    exact hflushed j (by omega)
  · have hk : fp.offset / 128 = (o / 128 : ℕ) := by omega
    rw [if_neg halign, hk, if_pos hsec, Int.toNat_natCast]
    by_cases hj' : j = o / 128
    · rw [hj', Function.update_self, hbuf]
    · rw [Function.update_of_ne hj', hflushed j (by omega)]

/-- A read of one byte. -/
structure OneByte (S : RecordStore B) (file : FileId) (u : UInt16) (V : ℕ → Option Sector) (o : ℕ) (s : Io σ) (r : ℤ)
    (s' : Io σ) : Prop where
  found : ¬ Stuck V o
  count : r = (stream V o 1).length
  buff : s'.buff = s.buff ++ stream V o 1
  offset : s'.fp.offset = o + (stream V o 1).length
  next : item V o ≠ none → Serves S file u V (o + 1) s'.fp s'.os

theorem length_stream_one {o : ℕ} (h : item V o ≠ none) : (stream V o 1).length = 1 := by
  obtain ⟨x, hx⟩ := Option.ne_none_iff_exists'.mp h
  rw [stream_some hx]
  rfl

/-- No whole sector is in one byte. -/
theorem wp_rdbinSectors_one {Q : ℤ → Io σ → Prop} {Ex : Errno → Io σ → Prop} (k : ℤ) :
    wp (rdbinSectors B 1 1 k) Q Ex s =
      wp (rdbinTail B 1 1 k) Q Ex { s with fp := { s.fp with hiwater := max s.fp.hiwater s.fp.offset } } := by
  rw [rdbinSectors, if_neg (by decide)]
  simp

theorem wp_rdbin_byte {o : ℕ} (h : Serves S file u V o s.fp s.os) :
    wp (rdbin B 1) (fun r s' => OneByte S file u V o s r s') (fun e s' => Stuck V o ∧ e = Errno.EIO ∧ s'.fp.offset = o) s := by
  obtain ⟨ho, heof, D, hon, hl, hV⟩ := h
  have hk : s.fp.offset / 128 = (o / 128 : ℕ) := by omega
  unfold byteView at hV
  rw [rdbin, wp_bind, wp_get, wp_ite]
  simp only [hk]
  by_cases halign : s.fp.offset % 128 = 0
  · rw [if_pos halign] at hV
    have ho' : 128 * (o / 128) = o := by omega
    have hcont : Content S file u (flushed D s.fp) False s.fp s.os := ⟨D, hon, hl, rfl, False.elim⟩
    have hstream : stream (flushed D s.fp) o 1 = stream V o 1 := stream_congr fun j hj _ => hV j hj.1
    rw [if_neg (not_not.mpr halign), wp_rdbinSectors_one]
    refine wp_mono (wp_rdbinTail_stream le_rfl Nat.one_pos (by decide) (o / 128) (hcont.of_eq rfl rfl rfl rfl rfl)
      (by simp only; omega) (le_max_right _ _)) (fun r s' h => ?_) (fun _ _ h => h.elim)
    obtain ⟨htail, hfound⟩ := h
    have hr := htail.count
    have hbuff := htail.buff
    have hoff := htail.offset
    have heof' := htail.eof
    rw [ho', hstream] at hr hbuff hoff heof'
    have hle := length_stream_le (D := V) o 1
    refine ⟨fun hstuck => hstuck.1 (by omega), ?_, hbuff, ?_, fun hsome => ?_⟩
    · rw [hr, Nat.sub_self, Nat.zero_add, toLong_of_lt (by omega)]
    · rw [hoff, Nat.cast_add]
    · have hlen := length_stream_one hsome
      have hrec : ∃ rec, flushed D s.fp (o / 128) = some rec := by
        rw [hV _ le_rfl]
        exact Option.ne_none_iff_exists'.mp fun hnone => hsome (item_eq_none.mpr hnone)
      obtain ⟨rec, hrec⟩ := hrec
      obtain ⟨hclean, hsec, hbuf, hon'⟩ := hfound rec hrec
      have hin : InBuffer S file u V (o / 128) s'.fp s'.os := by
        refine ⟨hsec, ?_, _, hon', fun hd => absurd (hclean.symm.trans hd) Bool.false_ne_true, fun j hj => hV j hj.le⟩
        rw [← hV _ le_rfl, hrec, hbuf]
      refine hin.serves ?_ ?_
      · rw [hoff, hlen]
      · rw [heof', hlen]
        simpa using heof
  · rw [if_neg halign] at hV
    rw [if_pos halign, wp_bind]
    have hstream : stream (bufferView D s.fp) o 1 = stream V o 1 := stream_congr fun j hj _ => hV j hj.1
    have hmin : min 1 (128 - o % 128) = 1 := by omega
    refine wp_mono (wp_rdbinBuffer_stream 1 hon hl ho) (fun left s₁ h₁ => ?_) (fun e s' h => ?_)
    · obtain ⟨rfl, hbuff, hoff, heof₁, -, -, -, hsec, hbuf, D', hon', hl', -, hV'⟩ := h₁
      rw [hmin, hstream] at hbuff
      rw [hmin] at hoff ⊢
      rw [hV _ le_rfl] at hbuf
      have hsome : item V o ≠ none := fun hnone => by
        rw [item_eq_none.mp hnone] at hbuf
        cases hbuf
      have hlen := length_stream_one hsome
      rw [wp_ite, if_pos (Nat.sub_self 1), wp_bind, wp_raiseHiwater, wp_pure]
      have hin : InBuffer S file u V (o / 128) { s₁.fp with hiwater := max s₁.fp.hiwater s₁.fp.offset } s₁.os :=
        ⟨hsec, hbuf, D', ⟨hon'.user, hon'.id, hon'.files⟩, hl', fun j hj => (hV' j hj).trans (hV j hj.le)⟩
      refine ⟨fun hstuck => hsome (item_eq_none.mpr hstuck.2), ?_, hbuff, ?_, fun _ => ?_⟩
      · rw [hlen]
        rfl
      · rw [hlen]
        exact hoff
      · exact hin.serves hoff (heof₁.trans heof)
    · exact ⟨⟨by omega, (hV _ le_rfl).symm.trans h.2.1⟩, h.1, h.2.2.1.trans ho⟩

/-! ### Calls -/

/-- `n` reads of one byte, up to the first that returns 0: what they return in all, and what
they store. -/
def readEach (B : Osif σ) (fd : ℤ) : ℕ → OsM σ (ℤ × List UInt8)
  | 0 => pure (0, [])
  | n + 1 => do
    let (ret, bs) ← read B fd 1
    if ret = 0 then pure (0, [])
    else do
      let (total, rest) ← readEach B fd n
      pure (ret + total, bs ++ rest)

/-- What a program sees of reads on the channel: what they return and store, or the error number,
and the offset after them. -/
def seenOf (fd : ℤ) (m : OsM σ (ℤ × List UInt8)) (w : World σ) : Except Errno (ℤ × List UInt8) × ℤ :=
  match m w with
  | .ok r w' => (.ok r, (w'.fds fd).offset)
  | .error e w' => (.error e, (w'.fds fd).offset)

theorem seenOf_eq {fd : ℤ} {m : OsM σ (ℤ × List UInt8)} {w : World σ} {x : Except Errno (ℤ × List UInt8) × ℤ}
    (h : wp m (fun r w' => x = (.ok r, (w'.fds fd).offset)) (fun e w' => x = (.error e, (w'.fds fd).offset)) w) :
    seenOf fd m w = x := by
  unfold wp at h
  unfold seenOf
  cases hm : m w <;> rw [hm] at h <;> exact h.symm

/-- What is seen of a read of `n` bytes at `o` that sees the records `V`. -/
def seenAt (V : ℕ → Option Sector) (o n : ℕ) : Except Errno (ℤ × List UInt8) × ℤ :=
  if o % 128 ≠ 0 ∧ V (o / 128) = none then (.error Errno.EIO, o)
  else (.ok ((stream V o n).length, stream V o n), o + (stream V o n).length)

theorem seenAt_stuck {o n : ℕ} (h : Stuck V o) : seenAt V o n = (.error Errno.EIO, (o : ℤ)) := if_pos h

theorem seenAt_found {o n : ℕ} (h : ¬ Stuck V o) :
    seenAt V o n = (.ok ((stream V o n).length, stream V o n), (o : ℤ) + (stream V o n).length) := if_neg h

variable {isread : Bool} {k : ℕ} {w : World σ}

/-- The state of the channel between two calls. -/
def At (S : RecordStore B) (file : FileId) (u : UInt16) (D : ℕ → Option Sector) (o : ℕ) (fp : Ccb) (os : σ) : Prop :=
  S.On file u D fp os ∧ Labelled S.cap fp ∧ fp.offset = o

theorem seenOf_read {o n : ℕ} (h : OpenFile isread false k (At S file u D o) w) (heof : (w.fds k).flags.ATEOF = false)
    (hn : n < 2 ^ 31) : seenOf k (read B k n) w = seenAt (readView D (w.fds k) n) o n := by
  obtain ⟨hon, hl, ho⟩ := h.holds
  generalize hV : readView D (w.fds k) n = V
  have hread : wp (read B k n) (fun r => OpenFile isread false k fun fp _ => seenAt V o n = (.ok r, fp.offset))
      (fun e => OpenFile isread false k fun fp _ => seenAt V o n = (.error e, fp.offset)) w := by
    refine h.wp_read (Q := fun r fp _ => seenAt V o n = (.ok r, fp.offset))
      (E := fun e fp _ => seenAt V o n = (.error e, fp.offset)) ?_
    rw [wp_readFp_file h.mode heof, if_neg Bool.false_ne_true]
    refine wp_mono (wp_rdbin_stream n hon hl ho) (fun r s' h => ?_) (fun e s' h => ?_)
    · simp only [hV] at h
      obtain ⟨hfound, hread⟩ := h
      have hlen := length_stream_le (D := V) o n
      rw [seenAt_found hfound, hread.count, hread.buff, hread.offset, Nat.zero_add, toLong_of_lt (hlen.trans_lt hn), Nat.cast_add]
      rfl
    · simp only [hV] at h
      obtain ⟨hstuck, rfl, hoff, -⟩ := h
      rw [seenAt_stuck hstuck, hoff]
  exact seenOf_eq (wp_mono hread (fun _ _ h => h.holds) (fun _ _ h => h.holds))

/-- **What the calls of one byte deliver.** -/
theorem wp_readEach {o : ℕ} (n : ℕ) (h : OpenFile isread false k (Serves S file u V o) w) :
    wp (readEach B k n)
      (fun r w' => (0 < n → ¬ Stuck V o) ∧ r = (((stream V o n).length : ℤ), stream V o n) ∧
        (w'.fds k).offset = o + (stream V o n).length)
      (fun e w' => 0 < n ∧ Stuck V o ∧ e = Errno.EIO ∧ (w'.fds k).offset = o) w := by
  induction n generalizing o w with
  | zero =>
    refine ⟨fun h => absurd h (by decide), rfl, ?_⟩
    exact h.holds.offset.trans (add_zero _).symm
  | succ n ih =>
    have hread : wp (read B k 1)
        (fun r => OpenFile isread false k fun fp os =>
          ∃ s : Io σ, s.buff = [] ∧ OneByte S file u V o s r.1 ⟨fp, os, r.2⟩)
        (fun e => OpenFile isread false k fun fp _ => Stuck V o ∧ e = Errno.EIO ∧ fp.offset = o) w := by
      refine h.wp_read (Q := fun r fp os => ∃ s : Io σ, s.buff = [] ∧ OneByte S file u V o s r.1 ⟨fp, os, r.2⟩)
        (E := fun e fp _ => Stuck V o ∧ e = Errno.EIO ∧ fp.offset = o) ?_
      rw [wp_readFp_file h.mode h.holds.noEof, if_neg Bool.false_ne_true]
      exact wp_mono (wp_rdbin_byte h.holds) (fun r s' h => ⟨_, rfl, h⟩) (fun _ _ h => h)
    rw [readEach, wp_bind]
    refine wp_mono hread (fun r w₁ h₁ => ?_) (fun e w' h => ⟨Nat.succ_pos n, h.holds⟩)
    obtain ⟨ret, bs⟩ := r
    obtain ⟨hlt, hmode, s, hs, hone⟩ := h₁
    have hbs : bs = stream V o 1 := by
      have := hone.buff
      rwa [hs, List.nil_append] at this
    have hret : ret = (stream V o 1).length := hone.count
    simp only [wp_ite]
    cases hitem : item V o with
    | none =>
      have hoff := hone.offset
      rw [stream_none hitem 1] at hret hoff
      rw [if_pos (show ret = 0 from hret), stream_none hitem (n + 1)]
      exact ⟨fun _ => hone.found, rfl, hoff⟩
    | some x =>
      have hsome : item V o ≠ none := by
        rw [hitem]
        exact Option.some_ne_none x
      have hlen := length_stream_one hsome
      have hsplit := stream_add (D := V) o 1 n
      rw [Nat.add_comm, hlen, if_pos rfl] at hsplit
      rw [hlen] at hret
      rw [if_neg (by omega), hsplit, wp_bind]
      have hnext := ih (w := w₁) ⟨hlt, hmode, hone.next hsome⟩
      refine wp_mono hnext (fun r w' h => ?_) (fun e w' h => ?_)
      · obtain ⟨-, rfl, hoff⟩ := h
        refine ⟨fun _ => hone.found, ?_, ?_⟩
        · rw [hret, hbs, List.length_append, hlen]
          push_cast
          rfl
        · rw [hoff, List.length_append, hlen]
          push_cast
          omega
      · -- the sector of the next byte is that of this one
        obtain ⟨-, ⟨hpos, hnone⟩, -⟩ := h
        rw [show (o + 1) / 128 = o / 128 by omega] at hnone
        exact absurd (item_eq_none.mpr hnone) hsome

theorem seenOf_readEach {o n : ℕ} (h : OpenFile isread false k (At S file u D o) w) (heof : (w.fds k).flags.ATEOF = false)
    (hfound : n = 0 → ¬ Stuck (byteView D (w.fds k)) o) :
    seenOf k (readEach B k n) w = seenAt (byteView D (w.fds k)) o n := by
  obtain ⟨hon, hl, ho⟩ := h.holds
  have hserves : OpenFile isread false k (Serves S file u (byteView D (w.fds k)) o) w :=
    ⟨h.lt, h.mode, ho, heof, D, hon, hl, fun _ _ => rfl⟩
  refine seenOf_eq (wp_mono (wp_readEach n hserves) (fun r w' h => ?_) (fun e w' h => ?_))
  · obtain ⟨hpos, rfl, hoff⟩ := h
    rw [seenAt_found, hoff]
    rcases Nat.eq_zero_or_pos n with hn | hn
    · exact hfound hn
    · exact hpos hn
  · obtain ⟨-, hstuck, rfl, hoff⟩ := h
    rw [seenAt_stuck hstuck, hoff]

/-- No reads see the end of a file before they are asked for anything. -/
theorem seenOf_readEach_zero : seenOf k (readEach B k 0) w = (.ok (0, []), (w.fds k).offset) := rfl

/-! ### When both agree -/

/-- The buffer is dirty, for one of the whole sectors that a read of `n` bytes takes from the
disk, and the disk has something else there. -/
structure Unflushed (D : ℕ → Option Sector) (fp : Ccb) (n : ℕ) : Prop where
  dirty : fp.flags.DIRTY = true
  aligned : fp.offset % 128 = 0
  reached : Reached D fp.offset.toNat fp.sector.toNat
  whole : 128 * fp.sector.toNat + 128 ≤ fp.offset.toNat + n
  differs : D fp.sector.toNat ≠ some fp.buffer

/-- No bytes are asked for, off a boundary, and the sector of the offset is neither in the buffer
nor on disk. -/
structure Missing (D : ℕ → Option Sector) (fp : Ccb) (n : ℕ) : Prop where
  none : n = 0
  within : fp.offset % 128 ≠ 0
  unloaded : fp.sector ≠ fp.offset / 128
  absent : D (fp.offset / 128).toNat = Option.none

theorem stuck_bufferView_iff {fp : Ccb} {o : ℕ} (hl : Labelled S.cap fp) (ho : fp.offset = o) :
    Stuck (bufferView D fp) o ↔ Missing D fp 0 := by
  have hk : fp.offset / 128 = (o / 128 : ℕ) := by omega
  unfold Stuck bufferView
  rw [hk, Int.toNat_natCast]
  by_cases hsec : fp.sector = (o / 128 : ℕ)
  · rw [if_pos hsec, Function.update_self]
    exact iff_of_false (fun h => by cases h.2) fun h => h.unloaded (hsec.trans hk.symm)
  · rw [if_neg hsec, flushed_of_ne hl hsec]
    constructor
    · rintro ⟨hpos, hnone⟩
      refine ⟨rfl, by omega, fun h => hsec (h.trans hk), ?_⟩
      rw [hk, Int.toNat_natCast]
      exact hnone
    · rintro ⟨-, hpos, -, hnone⟩
      rw [hk, Int.toNat_natCast] at hnone
      exact ⟨by omega, hnone⟩

/-- From a boundary on, the disk and the file with the buffer written give the same bytes. -/
theorem stream_wholeView_iff {fp : Ccb} {o n : ℕ} (hl : Labelled S.cap fp) (ho : fp.offset = o) (halign : o % 128 = 0) :
    stream (wholeView D fp (o / 128) n) o n = stream (flushed D fp) o n ↔ ¬ Unflushed D fp n := by
  have ho' : 128 * (o / 128) = o := by omega
  have hdisk : ∀ j < o / 128 + n / 128, wholeView D fp (o / 128) n j = D j := fun j hj => if_pos hj
  constructor
  · rintro heq ⟨hdirty, -, hreached, hwhole, hdiffers⟩
    obtain ⟨j, hj⟩ : ∃ j, fp.sector.toNat = j := ⟨_, rfl⟩
    rw [ho, Int.toNat_natCast, hj] at hreached hwhole
    rw [hj] at hdiffers
    obtain ⟨hle, hsome⟩ := hreached
    obtain ⟨m, rfl⟩ := Nat.exists_eq_add_of_le hle
    refine @stream_ne _ 128 _ (wholeView D fp (o / 128) n) (flushed D fp) (o / 128) m n ?_
      (fun i hi => ?_) ?_ (by omega) (ho'.symm ▸ heq)
    · rw [ho']
      refine ⟨hle, fun i hi hlt => ?_⟩
      rw [hdisk i (by omega)]
      exact hsome i hi hlt
    · rw [hdisk i (by omega), flushed_of_ne hl (by omega)]
    · rw [hdisk _ (by omega), flushed_of_dirty hdirty, hj, Function.update_self]
      exact hdiffers
  · intro hno
    refine stream_congr fun j hreached hlt => ?_
    by_cases hj : j < o / 128 + n / 128
    · rw [hdisk j hj]
      by_cases hsec : fp.sector = j
      · cases hdirty : fp.flags.DIRTY with
        | false => rw [flushed_of_clean hdirty]
        | true =>
          rw [flushed_of_dirty hdirty, hsec, Int.toNat_natCast, Function.update_self]
          by_contra hne
          refine hno ⟨hdirty, by omega, ?_, by omega, ?_⟩
          · rw [ho, hsec, Int.toNat_natCast, Int.toNat_natCast]
            refine ⟨hreached.1, fun i hi hlt => ?_⟩
            rw [← hdisk i (by omega)]
            exact hreached.2 i hi hlt
          · rw [hsec, Int.toNat_natCast]
            exact hne
      · rw [flushed_of_ne hl hsec]
    · exact if_neg hj

/-- **One call and many agree** unless the buffer is unflushed, or the sector of the offset is
missing. -/
theorem seenOf_read_eq_iff {o n : ℕ} (h : OpenFile isread false k (At S file u D o) w)
    (heof : (w.fds k).flags.ATEOF = false) (hn : n < 2 ^ 31) :
    seenOf k (read B k n) w = seenOf k (readEach B k n) w ↔ ¬ Unflushed D (w.fds k) n ∧ ¬ Missing D (w.fds k) n := by
  obtain ⟨-, hl, ho⟩ := h.holds
  have hread := seenOf_read h heof hn
  have heach := seenOf_readEach (n := n) h heof
  unfold readView at hread
  unfold byteView at heach
  by_cases halign : o % 128 = 0
  · have halign' : (w.fds k).offset % 128 = 0 := by omega
    have hk : ((w.fds k).offset / 128).toNat = o / 128 := by omega
    have hfound : ∀ V : ℕ → Option Sector, ¬ Stuck V o := fun V hstuck => hstuck.1 halign
    rw [if_pos halign', hk] at hread
    rw [if_pos halign'] at heach
    rw [hread, heach fun _ => hfound _, seenAt_found (hfound _), seenAt_found (hfound _), ← stream_wholeView_iff hl ho halign]
    constructor
    · intro heq
      simp only [Prod.mk.injEq, Except.ok.injEq] at heq
      exact ⟨heq.1.2, fun hmissing => hmissing.within halign'⟩
    · rintro ⟨heq, -⟩
      rw [heq]
  · have halign' : ¬ (w.fds k).offset % 128 = 0 := by omega
    rw [if_neg halign'] at hread heach
    have hno : ¬ Unflushed D (w.fds k) n := fun hunflushed => halign' hunflushed.aligned
    have hstuck := stuck_bufferView_iff (D := D) hl ho
    rcases Nat.eq_zero_or_pos n with rfl | hpos
    · rw [hread, seenOf_readEach_zero, ho]
      by_cases hmissing : Missing D (w.fds k) 0
      · rw [seenAt_stuck (hstuck.mpr hmissing)]
        exact iff_of_false (fun heq => by cases congrArg Prod.fst heq) fun h => h.2 hmissing
      · rw [seenAt_found fun h => hmissing (hstuck.mp h), stream_zero]
        exact iff_of_true (by simp) ⟨hno, hmissing⟩
    · rw [hread, heach fun hzero => by omega]
      exact iff_of_true rfl ⟨hno, fun hmissing => by have := hmissing.none; omega⟩

/-- At the end of the file, no read returns anything. -/
theorem seenOf_read_eof {P : Ccb → σ → Prop} (h : OpenFile isread false k P w) (heof : (w.fds k).flags.ATEOF = true) (n : ℕ) :
    seenOf k (read B k n) w = seenOf k (readEach B k n) w := by
  have hread : ∀ n, wp (read B k n)
      (fun r => OpenFile isread false k fun fp _ => r = (0, []) ∧ fp.offset = (w.fds k).offset) (fun _ _ => False) w := by
    intro n
    refine wp_mono (h.wp_read (Q := fun r fp _ => r = (0, []) ∧ fp.offset = (w.fds k).offset) (E := fun _ _ _ => False) ?_)
      (fun _ _ h => h) (fun _ _ h => h.holds)
    rw [wp_readFp_ateof heof]
    exact ⟨rfl, rfl⟩
  have hone : seenOf k (read B k n) w = (.ok (0, []), (w.fds k).offset) :=
    seenOf_eq (wp_mono (hread n) (fun r w' h => by rw [h.holds.1, h.holds.2]) (fun _ _ h => h.elim))
  rw [hone]
  cases n with
  | zero => rfl
  | succ n =>
    symm
    apply seenOf_eq
    rw [readEach, wp_bind]
    refine wp_mono (hread 1) (fun r w' h => ?_) (fun _ _ h => h.elim)
    obtain ⟨rfl, hoff⟩ := h.holds
    simp only [if_true, wp_pure, hoff]

/-- **Splitting a read does not matter** in a state that a run reaches, if and only if the end of
the file was met, or the buffer is not dirty for one of the whole sectors, and bytes are asked for
or the sector of the offset is there. -/
theorem split_reads_agree (S : RecordStore B) {fname : List UInt8} (mode xtype : ℤ) {fd : ℤ} {w₀ w₁ : World σ}
    (hname : NotDevice fname) (hbinary : xtype ≠ 0)
    (hopen : creat B fname xtype w₀ = .ok fd w₁ ∨
      openChan B fname mode xtype w₀ = .ok fd w₁ ∧ S.files w₀.os (namedFile (S.user w₀.os) fname) ≠ none)
    (hknown : S.users (namedFile (S.user w₀.os) fname).user) {cs : List FileCall} (hin : AllCalls B (FileCall.Orderly S fd) fd cs w₁)
    {n : ℕ} (hn : n < 2 ^ 31) :
    let w := runFile B fd cs w₁
    seenOf fd (read B fd n) w = seenOf fd (readEach B fd n) w ↔
      (w.fds fd).flags.ATEOF = true ∨ ∀ D, S.files w.os (namedFile (S.user w₀.os) fname) = some D →
        ¬ Unflushed D (w.fds fd) n ∧ ¬ Missing D (w.fds fd) n := by
  obtain ⟨isread, k, rfl, hk⟩ := settled_opened (S := S) mode xtype hname hopen hknown
  rw [decide_eq_false hbinary] at hk
  obtain ⟨hoff, E, D₁, hon₁, hl₁, hE, -⟩ := hk.holds
  have hrun := between_runFile (c := False) ⟨hk.lt, hk.mode, hoff, E, D₁, hon₁, hl₁, hE, False.elim⟩
    (fun h => absurd h Bool.false_ne_true) hin False.elim
  intro w
  obtain ⟨hoff, E, D, hon, hl, -⟩ := hrun.holds
  obtain ⟨o, ho⟩ := Int.eq_ofNat_of_zero_le hoff
  cases heof : (w.fds k).flags.ATEOF with
  | true => exact iff_of_true (seenOf_read_eof hrun heof n) (.inl rfl)
  | false =>
    have hat : OpenFile isread false k (At S (namedFile (S.user w₀.os) fname) (S.user w₀.os) D o) w :=
      ⟨hrun.lt, hrun.mode, hon, hl, ho⟩
    rw [seenOf_read_eq_iff hat heof hn]
    constructor
    · intro hagree
      right
      intro D' hD'
      obtain rfl : D = D' := Option.some.inj (hon.files.symm.trans hD')
      exact hagree
    · intro hagree
      exact hagree.resolve_left Bool.false_ne_true D hon.files

/-- A read of two bytes from the buffer. -/
theorem split_reads_agree_buffer :
    seenOf 0 (read memOsif 0 2) (runFile memOsif 0 [.write [1, 2, 3], .lseek 1 0] (createdA 1)) =
      seenOf 0 (readEach memOsif 0 2) (runFile memOsif 0 [.write [1, 2, 3], .lseek 1 0] (createdA 1)) := by
  have hin : AllCalls memOsif (FileCall.Orderly memStore 0) 0 [.write [1, 2, 3], .lseek 1 0] (createdA 1) :=
    ⟨⟨⟨by decide, fun _ => by decide⟩, by decide⟩, ⟨trivial, by decide⟩, trivial⟩
  refine (split_reads_agree memStore WRITE 1 notDevice_A (by decide) (.inl creat_createdA) known_A hin (by decide)).mpr ?_
  exact .inr fun _ _ => ⟨fun h => absurd h.aligned (by decide), fun h => absurd h.none (by decide)⟩

/-- **A read of a sector passes by the buffer**: after a write of one byte and a seek back, it
finds nothing, and reads of one byte find the sector. -/
theorem whole_read_misses_buffer :
    AllCalls memOsif (FileCall.Orderly memStore 0) 0 [.write [1], .lseek 0 0] (createdA 1) ∧
      seenOf 0 (read memOsif 0 128) (runFile memOsif 0 [.write [1], .lseek 0 0] (createdA 1)) ≠
        seenOf 0 (readEach memOsif 0 128) (runFile memOsif 0 [.write [1], .lseek 0 0] (createdA 1)) := by
  refine ⟨⟨⟨⟨by decide, fun _ => by decide⟩, by decide⟩, ⟨trivial, by decide⟩, trivial⟩, fun heq => ?_⟩
  have hone : (seenOf 0 (read memOsif 0 128) (runFile memOsif 0 [.write [1], .lseek 0 0] (createdA 1))).2 = 0 := by
    decide +kernel
  have heach : (seenOf 0 (readEach memOsif 0 128) (runFile memOsif 0 [.write [1], .lseek 0 0] (createdA 1))).2 = 128 := by
    decide +kernel
  rw [heq, heach] at hone
  exact absurd hone (by decide)

end Cpm68k.Cpmlib
