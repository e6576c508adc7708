import Cpm68k.Cpmlib.Content
import Cpm68k.Library.Stream

/-!
# Reading a binary file

A read of a binary file takes the bytes of the sector of the offset from the buffer, whole
sectors from the disk, and the last sector from the buffer again, which is written first when
it is dirty.

## The model

A read delivers the `stream` of the records that it sees: those of the file with the buffer
written, but off a boundary the buffer itself if it has the label of the sector of the offset
(`bufferView`), and for whole sectors the disk as it is (`wholeView`).

## What is proved

* `wp_rdbin_stream` — what a read delivers, and what it leaves in the channel.
* `wp_rdbin_coherent` — with a buffer that is not dirty, it sees the file.
-/

namespace Cpm68k.Cpmlib

open Cpm68k.Library RecordStore

variable {σ : Type} {B : Osif σ} {S : RecordStore B} {file : FileId} {u : UInt16} {D E V : ℕ → Option Sector} {s : Io σ}
  {o : ℕ}

/-! ### What a read sees -/

/-- What the bytes from the offset on come from, off a boundary. -/
def bufferView (D : ℕ → Option Sector) (fp : Ccb) : ℕ → Option Sector :=
  if fp.sector = fp.offset / 128 then Function.update (flushed D fp) (fp.offset / 128).toNat (some fp.buffer)
  else flushed D fp

/-- What `n` bytes from the sector `k` on come from. -/
def wholeView (D : ℕ → Option Sector) (fp : Ccb) (k n : ℕ) : ℕ → Option Sector :=
  fun j => if j < k + n / 128 then D j else flushed D fp j

/-- What a read of `n` bytes sees. -/
def readView (D : ℕ → Option Sector) (fp : Ccb) (n : ℕ) : ℕ → Option Sector :=
  if fp.offset % 128 = 0 then wholeView D fp (fp.offset / 128).toNat n else bufferView D fp

/-- Only the sector of the buffer differs from the disk. -/
theorem flushed_of_ne {fp : Ccb} (hl : Labelled S.cap fp) {j : ℕ} (hj : fp.sector ≠ j) : flushed D fp j = D j := by
  cases hd : fp.flags.DIRTY with
  | false => rw [flushed_of_clean hd]
  | true =>
    have hnonneg := (hl hd).1
    rw [flushed_of_dirty hd, Function.update_of_ne (by omega)]

/-- What is not in the file is not on disk. -/
theorem disk_eq_none {fp : Ccb} {j : ℕ} (h : flushed D fp j = none) : D j = none := by
  cases hd : fp.flags.DIRTY with
  | false => rwa [flushed_of_clean hd] at h
  | true =>
    rw [flushed_of_dirty hd] at h
    by_cases hlabel : j = fp.sector.toNat
    · rw [hlabel, Function.update_self] at h
      cases h
    · rwa [Function.update_of_ne hlabel] at h

/-- What is not in the file is not seen, but for the buffer off a boundary. -/
theorem readView_eq_none {fp : Ccb} {j : ℕ} (n : ℕ) (ho : fp.offset = o) (hnone : flushed D fp j = none)
    (hsec : o % 128 ≠ 0 → fp.sector = (o / 128 : ℕ) → j ≠ o / 128) : readView D fp n j = none := by
  have hk : fp.offset / 128 = (o / 128 : ℕ) := by omega
  unfold readView
  split_ifs with halign
  · unfold wholeView
    split_ifs
    · exact disk_eq_none hnone
    · exact hnone
  · unfold bufferView
    rw [hk, Int.toNat_natCast]
    split_ifs with hbuf
    · rw [Function.update_of_ne (hsec (by omega) hbuf)]
      exact hnone
    · exact hnone

/-- With a buffer that is not dirty, it is the file. -/
theorem readView_of_coherent {fp : Ccb} (n : ℕ) (hclean : fp.flags.DIRTY = false) (hcoh : Coherent fp D) (ho : fp.offset = o)
    (hsome : o % 128 ≠ 0 → D (o / 128) ≠ none) : readView D fp n = D := by
  have hk : fp.offset / 128 = (o / 128 : ℕ) := by omega
  unfold readView
  split_ifs with halign
  · unfold wholeView
    rw [flushed_of_clean hclean]
    exact funext fun j => ite_self _
  · unfold bufferView
    rw [flushed_of_clean hclean, hk, Int.toNat_natCast]
    split_ifs with hsec
    · obtain ⟨r, hr⟩ := Option.ne_none_iff_exists'.mp (hsome (by omega))
      rw [hcoh hclean _ hsec r hr, ← hr, Function.update_eq_self]
    · rfl

/-- A part of one sector. -/
theorem stream_sector {k p n : ℕ} {r : Sector} (hr : V k = some r) (h : p + n ≤ 128) :
    stream V (128 * k + p) n = (r.bytes.drop p).take n := by
  rw [stream_within h, hr]
  rfl

/-! ### What it leaves -/

/-- What a read of `n` bytes at `o` leaves, which sees the records `V` of the file `E`, when `m` bytes
have been read before it in the same call. -/
structure StreamRead (E V : ℕ → Option Sector) (s : Io σ) (o m n : ℕ) (r : ℤ) (s' : Io σ) : Prop where
  count : r = toLong (m + (stream V o n).length)
  buff : s'.buff = s.buff ++ stream V o n
  offset : s'.fp.offset = (o + (stream V o n).length : ℕ)
  eof : s'.fp.flags.ATEOF = (s.fp.flags.ATEOF || decide ((stream V o n).length ≠ n))
  hiwater : s'.fp.hiwater = max s.fp.hiwater s'.fp.offset
  dirty : s'.fp.flags.DIRTY = true → s.fp.flags.DIRTY = true
  label : KeepsLabel E s.fp.sector s'.fp.sector

theorem StreamRead.congr {V' : ℕ → Option Sector} {m n : ℕ} {r : ℤ} {s' : Io σ} (h : StreamRead E V s o m n r s')
    (hV : stream V' o n = stream V o n) : StreamRead E V' s o m n r s' where
  count := hV ▸ h.count
  buff := hV ▸ h.buff
  offset := hV ▸ h.offset
  eof := hV ▸ h.eof
  hiwater := h.hiwater
  dirty := h.dirty
  label := h.label

/-- The sector of the byte `o` has been got into the buffer, and `m` bytes of it have been read. -/
structure PartRead (S : RecordStore B) (file : FileId) (u : UInt16) (E V : ℕ → Option Sector) (o m : ℕ) (s s' : Io σ) :
    Prop where
  buff : s'.buff = s.buff ++ stream V o m
  offset : s'.fp.offset = (o + m : ℕ)
  eof : s'.fp.flags.ATEOF = s.fp.flags.ATEOF
  hiwater : s'.fp.hiwater = s.fp.hiwater
  dirty : s'.fp.flags.DIRTY = true → s.fp.flags.DIRTY = true
  label : KeepsLabel E s.fp.sector s'.fp.sector
  sector : s'.fp.sector = (o / 128 : ℕ)
  buffer : V (o / 128) = some s'.fp.buffer
  on : ∃ D, S.On file u D s'.fp s'.os ∧ Labelled S.cap s'.fp ∧ flushed D s'.fp = E ∧ ∀ j > o / 128, D j = V j

/-- One part of a read after another, of which all bytes were there. -/
theorem StreamRead.after {s₁ s' : Io σ} {m a n : ℕ} {r : ℤ} (h : StreamRead E V s₁ (o + a) (m + a) n r s')
    (hall : (stream V o a).length = a) (hbuff : s₁.buff = s.buff ++ stream V o a)
    (heof : s₁.fp.flags.ATEOF = s.fp.flags.ATEOF) (hle : s.fp.hiwater ≤ s₁.fp.hiwater)
    (hhi : s₁.fp.hiwater ≤ max s.fp.hiwater (o + a : ℕ)) (hdirty : s₁.fp.flags.DIRTY = true → s.fp.flags.DIRTY = true)
    (hlabel : KeepsLabel E s.fp.sector s₁.fp.sector) : StreamRead E V s o m (a + n) r s' := by
  have hsplit := stream_add (D := V) o a n
  rw [if_pos hall] at hsplit
  have hlen : (stream V o (a + n)).length = a + (stream V (o + a) n).length := by
    rw [hsplit, List.length_append, hall]
  have hoff := h.offset
  constructor
  · rw [h.count, hlen, Nat.add_assoc]
  · rw [h.buff, hbuff, hsplit, List.append_assoc]
  · rw [h.offset, hlen, Nat.add_assoc]
  · rw [h.eof, heof, hlen]
    congr 1
    exact decide_eq_decide.mpr (by omega)
  · rw [h.hiwater]
    omega
  · exact fun hd => hdirty (h.dirty hd)
  · cases h.label with
    | inl hsame => rwa [hsame]
    | inr hother => exact .inr hother

/-! ### The parts of a read -/

/-- The last sector comes from the file with the buffer written. -/
theorem wp_rdbinTail_stream {xbytes n : ℕ} (hle : n ≤ xbytes) (hpos : 0 < n) (hlt : n < 128) (k : ℕ)
    (h : Content S file u E False s.fp s.os) (ho : s.fp.offset = (128 * k : ℕ)) (hhi : s.fp.offset ≤ s.fp.hiwater) :
    wp (rdbinTail B xbytes n k)
      (fun r s' => StreamRead E E s (128 * k) (xbytes - n) n r s' ∧
        ∀ rec, E k = some rec → s'.fp.flags.DIRTY = false ∧ s'.fp.sector = k ∧ s'.fp.buffer = rec ∧
          S.On file u E s'.fp s'.os)
      (fun _ _ => False) s := by
  have hbytes := stream_within (D := E) (k := k) (p := 0) (n := n) (by omega)
  rw [Nat.add_zero] at hbytes
  rw [rdbinTail]
  refine wp_fetch h fun found s' hf => ?_
  obtain ⟨fcb, os, rfl⟩ := hf.same
  have hon := hf.on
  rw [wp_ite, hf.found]
  cases hE : E k with
  | none =>
    rw [hE] at hbytes
    rw [Option.isSome_none, if_pos rfl, wp_bind, setAteof, wp_setFp, wp_pure]
    refine ⟨?_, fun _ hrec => by cases hrec⟩
    constructor
    · rw [hbytes]
      rfl
    · rw [hbytes]
      exact (List.append_nil _).symm
    · rw [hbytes]
      exact ho
    · rw [hbytes]
      simp [hpos.ne]
    · exact (max_eq_left hhi).symm
    · exact fun hd => by cases hd
    · exact .inl rfl
  | some rec =>
    rw [hE] at hbytes
    have hstream : stream E (128 * k) n = rec.bytes.take n := hbytes
    have hlen : (stream E (128 * k) n).length = n := by
      rw [hstream, List.length_take, Sector.bytes, List.length_ofFn]
      omega
    rw [Option.isSome_some, if_neg (by decide)]
    simp only [wp_bind, wp_setFp, wp_get, wp_store, wp_raiseHiwater, wp_pure, Option.getD_some]
    refine ⟨?_, fun rec' hrec => ⟨trivial, trivial, Option.some.inj hrec, ⟨hon.user, hon.id, hon.files⟩⟩⟩
    constructor
    · rw [hlen, Nat.sub_add_cancel hle]
    · rw [hstream]
    · rw [hlen]
      simp only
      omega
    · rw [hlen]
      simp
    · rfl
    · exact fun hd => by cases hd
    · exact .inr ⟨k, rfl, by rw [hE]; exact Option.some_ne_none rec⟩

/-- Whole sectors come from the disk, and the last sector from the file with the buffer written. -/
theorem wp_rdbinSectors_stream {xbytes n : ℕ} (hle : n ≤ xbytes) (k : ℕ) (hon : S.On file u D s.fp s.os)
    (hl : Labelled S.cap s.fp) (ho : s.fp.offset = (128 * k : ℕ)) :
    wp (rdbinSectors B xbytes n k)
      (fun r s' => StreamRead (flushed D s.fp) (wholeView D s.fp k n) s (128 * k) (xbytes - n) n r s') (fun _ _ => False)
      s := by
  obtain ⟨hcount, -, -⟩ := getRun_spec (D := D) (n / 128) k
  have hread : wp (if n / 128 > 0 then blkioRead B k (n / 128) else pure [])
      (fun records s' => records = getRun D k (n / 128) ∧ ∃ fcb os,
        s' = { s with fp := { s.fp with fcb := fcb }, os := os } ∧ S.On file u D s'.fp s'.os)
      (fun _ _ => False) s := by
    rw [wp_ite]
    split_ifs with hn
    · exact wp_blkioRead _ hon
    · rw [show n / 128 = 0 by omega]
      exact ⟨rfl, s.fp.fcb, s.os, rfl, hon⟩
  -- the whole sectors, and what comes after them
  have hwhole : stream (wholeView D s.fp k n) (128 * k) (128 * (n / 128)) = (getRun D k (n / 128)).flatMap Sector.bytes := by
    have hdisk : stream (wholeView D s.fp k n) (128 * k) (128 * (n / 128)) = stream D (128 * k) (128 * (n / 128)) :=
      stream_congr fun j _ hlt => if_pos (by omega)
    rw [hdisk]
    exact stream_blocks k (n / 128)
  have hrest : stream (wholeView D s.fp k n) (128 * (k + n / 128)) (n % 128) =
      stream (flushed D s.fp) (128 * (k + n / 128)) (n % 128) := by
    refine stream_congr fun j hj _ => if_neg ?_
    have hge := hj.1
    omega
  have hlen : ((getRun D k (n / 128)).flatMap Sector.bytes).length = 128 * (getRun D k (n / 128)).length := by
    simp only [List.length_flatMap, Sector.bytes, List.length_ofFn, List.map_const', List.sum_replicate_nat, Nat.mul_comm]
  rw [rdbinSectors, wp_bind]
  refine wp_mono hread (fun records s₁ h₁ => ?_) (fun _ _ h => h)
  obtain ⟨rfl, fcb, os, rfl, hon'⟩ := h₁
  simp only [wp_bind, wp_setFp, wp_store, wp_raiseHiwater, wp_ite]
  generalize getRun D k (n / 128) = records at hcount hlen hwhole ⊢
  generalize wholeView D s.fp k n = V at hwhole hrest ⊢
  by_cases hall : records.length = n / 128
  · have hmoved : n - records.length * 128 = n % 128 := by omega
    have hfull : (stream V (128 * k) (128 * (n / 128))).length = 128 * (n / 128) := by
      rw [hwhole, hlen, hall]
    rw [if_neg (not_not.mpr hall), hmoved]
    split_ifs with hdone
    · have hn : 128 * (n / 128) = n := by omega
      rw [hn] at hwhole hfull
      rw [wp_pure]
      constructor
      · rw [hfull, Nat.sub_add_cancel hle]
      · rw [hwhole]
      · rw [hfull]
        simp only
        omega
      · rw [hfull]
        simp
      · rfl
      · exact id
      · exact .inl rfl
    · have hnext : (k : ℤ) + records.length = (k + n / 128 : ℕ) := by omega
      have hcont : Content S file u (flushed D s.fp) False { s.fp with fcb := fcb } os :=
        ⟨D, ⟨hon'.user, hon'.id, hon'.files⟩, hl, rfl, False.elim⟩
      rw [hnext]
      refine wp_mono (wp_rdbinTail_stream (by omega) (by omega) (Nat.mod_lt n (by decide)) (k + n / 128)
        (hcont.of_eq rfl rfl rfl rfl rfl) ?_ ?_) (fun r s' h' => ?_) (fun _ _ h => h)
      · simp only
        omega
      · exact le_max_right _ _
      · have hstart : 128 * (k + n / 128) = 128 * k + 128 * (n / 128) := Nat.mul_add _ _ _
        have hbefore : xbytes - n % 128 = xbytes - n + 128 * (n / 128) := by omega
        have htail := h'.1.congr hrest
        rw [hstart, hbefore] at htail
        have hafter := htail.after (s := s) hfull (by rw [hwhole]) rfl (le_max_left _ _) (by simp only; omega) id (.inl rfl)
        rwa [Nat.div_add_mod] at hafter
  · have hshort : (stream V (128 * k) (128 * (n / 128))).length ≠ 128 * (n / 128) := by
      rw [hwhole, hlen]
      omega
    have hstream := stream_add (D := V) (128 * k) (128 * (n / 128)) (n % 128)
    rw [if_neg hshort, Nat.div_add_mod, List.append_nil, hwhole] at hstream
    rw [if_pos hall, setAteof, wp_setFp, wp_pure]
    constructor
    · rw [hstream, hlen]
      congr 1
      omega
    · rw [hstream]
    · rw [hstream, hlen]
      simp only
      omega
    · rw [hstream, hlen]
      have hne : 128 * records.length ≠ n := by omega
      simp [hne]
    · rfl
    · exact id
    · exact .inl rfl

/-- Off a boundary, the bytes come from the sector of the offset, which is got into the buffer. -/
theorem wp_rdbinBuffer_stream (n : ℕ) (hon : S.On file u D s.fp s.os) (hl : Labelled S.cap s.fp) (ho : s.fp.offset = o) :
    wp (rdbinBuffer B n)
      (fun left s' => left = n - min n (128 - o % 128) ∧
        PartRead S file u (flushed D s.fp) (bufferView D s.fp) o (min n (128 - o % 128)) s s')
      (fun e s' => e = Errno.EIO ∧ bufferView D s.fp (o / 128) = none ∧ s'.fp.offset = s.fp.offset ∧
        s'.fp.hiwater = s.fp.hiwater) s := by
  have hk : s.fp.offset / 128 = (o / 128 : ℕ) := by omega
  have hload : wp (whenever (s.fp.sector ≠ (o / 128 : ℕ)) do
        flush B
        let found ← readBuffer B (o / 128 : ℕ)
        whenever (found = false) (throw Errno.EIO)
        setFp fun fp => { fp with sector := (o / 128 : ℕ) })
      (fun _ s' => PartRead S file u (flushed D s.fp) (bufferView D s.fp) o 0 s s')
      (fun e s' => e = Errno.EIO ∧ bufferView D s.fp (o / 128) = none ∧ s'.fp.offset = s.fp.offset ∧
        s'.fp.hiwater = s.fp.hiwater) s := by
    unfold bufferView
    rw [wp_whenever, hk, Int.toNat_natCast]
    by_cases hsec : s.fp.sector = (o / 128 : ℕ)
    · rw [if_neg (not_not.mpr hsec), if_pos hsec]
      refine ⟨(List.append_nil _).symm, ho, rfl, rfl, id, .inl rfl, hsec, Function.update_self .., D, hon, hl, rfl,
        fun j hj => ?_⟩
      rw [Function.update_of_ne (by omega), flushed_of_ne hl (by omega)]
    · rw [if_pos hsec, if_neg hsec]
      have hcont : Content S file u (flushed D s.fp) False s.fp s.os := ⟨D, hon, hl, rfl, False.elim⟩
      refine wp_fetch hcont fun found s' hf => ?_
      obtain ⟨fcb, os, rfl⟩ := hf.same
      have hon' := hf.on
      rw [wp_bind, wp_whenever, hf.found]
      cases hE : flushed D s.fp (o / 128) with
      | none =>
        rw [Option.isSome_none, if_pos rfl]
        exact ⟨rfl, rfl, rfl, rfl⟩
      | some rec =>
        rw [Option.isSome_some, if_neg (by decide)]
        simp only [wp_setFp, Option.getD_some]
        have hsome : flushed D s.fp (o / 128) ≠ none := by
          rw [hE]
          exact Option.some_ne_none rec
        exact ⟨(List.append_nil _).symm, ho, rfl, rfl, fun hd => absurd hd Bool.false_ne_true, .inr ⟨_, rfl, hsome⟩, rfl, hE, _,
          ⟨hon'.user, hon'.id, hon'.files⟩, fun hd => absurd hd Bool.false_ne_true, flushed_of_clean rfl, fun _ _ => rfl⟩
  rw [rdbinBuffer, wp_bind, wp_get, wp_bind]
  simp only
  rw [hk]
  refine wp_mono hload (fun _ s₁ h₁ => ?_) (fun _ _ h => h)
  obtain ⟨hbuff, hoff, heof, hhi, hdirty, hlabel, hsec, hbuf, D', hon', hl', hE, hV⟩ := h₁
  have hpos : bufPos s₁.fp = o % 128 := by
    unfold bufPos
    omega
  have hlen : ((s₁.fp.buffer.bytes.drop (o % 128)).take n).length = min n (128 - o % 128) := by
    rw [List.length_take, List.length_drop, Sector.bytes, List.length_ofFn]
  have hstream := stream_sector (p := o % 128) (n := min n (128 - o % 128)) hbuf (by omega)
  have htake : (s₁.fp.buffer.bytes.drop (o % 128)).take n =
      (s₁.fp.buffer.bytes.drop (o % 128)).take (min n (128 - o % 128)) := by
    rw [← hlen, List.length_take]
    exact List.take_eq_take_min
  rw [Nat.div_add_mod] at hstream
  rw [stream_zero, List.append_nil] at hbuff
  simp only [wp_bind, wp_get, wp_store, wp_setFp, wp_pure, hpos, hlen]
  refine ⟨trivial, ?_, ?_, heof, hhi, hdirty, hlabel, hsec, hbuf, D', ⟨hon'.user, hon'.id, hon'.files⟩, hl', hE, hV⟩
  · rw [hstream, ← htake, hbuff]
  · rw [hoff, Nat.add_zero, Nat.cast_add]

/-! ### A read -/

/-- Off a boundary, the sector of the offset is not there. -/
def Stuck (V : ℕ → Option Sector) (o : ℕ) : Prop := o % 128 ≠ 0 ∧ V (o / 128) = none

/-- All bytes of the sector are there. -/
theorem PartRead.length {m : ℕ} {s' : Io σ} (h : PartRead S file u E V o m s s') (hm : o % 128 + m ≤ 128) :
    (stream V o m).length = m := by
  have hfirst := stream_sector h.buffer hm
  rw [Nat.div_add_mod] at hfirst
  rw [hfirst, List.length_take, List.length_drop, Sector.bytes, List.length_ofFn]
  omega

/-- **What a read delivers**, and what it leaves. -/
theorem wp_rdbin_stream (n : ℕ) (hon : S.On file u D s.fp s.os) (hl : Labelled S.cap s.fp) (ho : s.fp.offset = o) :
    wp (rdbin B n)
      (fun r s' => ¬ Stuck (readView D s.fp n) o ∧ StreamRead (flushed D s.fp) (readView D s.fp n) s o 0 n r s')
      (fun e s' => Stuck (readView D s.fp n) o ∧ e = Errno.EIO ∧ s'.fp.offset = o ∧ s'.fp.hiwater = s.fp.hiwater) s := by
  have hk : s.fp.offset / 128 = (o / 128 : ℕ) := by omega
  unfold readView
  rw [rdbin, wp_bind, wp_get, wp_ite]
  simp only [hk, Int.toNat_natCast]
  by_cases halign : s.fp.offset % 128 = 0
  · have ho' : 128 * (o / 128) = o := by omega
    have hsectors := wp_rdbinSectors_stream (le_refl n) (o / 128) hon hl (by omega)
    rw [if_neg (not_not.mpr halign), if_pos halign]
    rw [ho', Nat.sub_self] at hsectors
    exact wp_mono hsectors (fun r s' h => ⟨fun hstuck => hstuck.1 (by omega), h⟩) (fun _ _ h => h.elim)
  · rw [if_pos halign, if_neg halign, wp_bind]
    refine wp_mono (wp_rdbinBuffer_stream n hon hl ho) (fun left s₁ h₁ => ?_) (fun e s' h => ?_)
    · obtain ⟨rfl, hpart⟩ := h₁
      obtain ⟨m, hm⟩ : ∃ m, min n (128 - o % 128) = m := ⟨_, rfl⟩
      rw [hm] at hpart ⊢
      have hlen := hpart.length (by omega)
      obtain ⟨hbuff, hoff, heof, hhi, hdirty, hlabel, hsec, hbuf, D', hon', hl', hE, hV⟩ := hpart
      have hfound : ¬ Stuck (bufferView D s.fp) o := fun hstuck => by
        rw [hstuck.2] at hbuf
        cases hbuf
      rw [wp_ite]
      split_ifs with hdone
      · obtain rfl : m = n := by omega
        rw [wp_bind, wp_raiseHiwater, wp_pure]
        refine ⟨hfound, ?_⟩
        constructor
        · rw [hlen, Nat.zero_add]
        · exact hbuff
        · rw [hlen]
          exact hoff
        · rw [hlen, heof]
          simp
        · rw [hhi]
        · exact hdirty
        · exact hlabel
      · have hnext : ((o / 128 : ℕ) : ℤ) + 1 = (o / 128 + 1 : ℕ) := by omega
        have hstart : 128 * (o / 128 + 1) = o + m := by omega
        -- the sectors behind that of the offset are on disk as they are seen
        have hrest : stream (bufferView D s.fp) (o + m) (n - m) =
            stream (wholeView D' s₁.fp (o / 128 + 1) (n - m)) (o + m) (n - m) := by
          refine stream_congr fun j hj _ => ?_
          have hlt : j > o / 128 := by
            have hge := hj.1
            omega
          unfold wholeView
          split_ifs
          · exact (hV j hlt).symm
          · rw [flushed_of_ne hl' (by omega)]
            exact (hV j hlt).symm
        have hsectors := wp_rdbinSectors_stream (Nat.sub_le n m) (o / 128 + 1) hon' hl' (by omega)
        rw [hstart, hE, show n - (n - m) = 0 + m by omega] at hsectors
        rw [hnext]
        refine wp_mono hsectors (fun r s' h => ⟨hfound, ?_⟩) (fun _ _ h => h.elim)
        have hafter := (h.congr hrest).after hlen hbuff heof hhi.ge (hhi.le.trans (le_max_left _ _)) hdirty hlabel
        rwa [show m + (n - m) = n by omega] at hafter
    · exact ⟨⟨by omega, h.2.1⟩, h.1, h.2.2.1.trans ho, h.2.2.2⟩

/-- **With a buffer that is not dirty** and the sector of the offset on disk, a read delivers the file. -/
theorem wp_rdbin_coherent (n : ℕ) (hon : S.On file u D s.fp s.os) (hclean : s.fp.flags.DIRTY = false)
    (hcoh : Coherent s.fp D) (ho : s.fp.offset = o) (hsome : o % 128 ≠ 0 → D (o / 128) ≠ none) :
    wp (rdbin B n)
      (fun r s' => StreamRead D D s o 0 n r s' ∧ S.On file u D s'.fp s'.os ∧ s'.fp.flags.DIRTY = false ∧ Coherent s'.fp D)
      (fun _ _ => False) s := by
  have hl : Labelled S.cap s.fp := fun hd => absurd (hclean.symm.trans hd) Bool.false_ne_true
  have hcont : ContentAt S file u D True s := ⟨by omega, content_of_clean hon hclean fun _ => hcoh⟩
  have hread := wp_rdbin_stream n hon hl ho
  rw [readView_of_coherent n hclean hcoh ho hsome, flushed_of_clean hclean] at hread
  refine wp_mono (wp_and hread (keeps_rdbin n s hcont)) (fun r s' h => ?_) (fun _ _ h => hsome h.1.1.1 h.1.1.2)
  obtain ⟨⟨-, hstream⟩, -, D', hon', -, hE, hcoh'⟩ := h
  have hclean' : s'.fp.flags.DIRTY = false := by
    cases hd : s'.fp.flags.DIRTY with
    | false => rfl
    | true => exact absurd (hclean.symm.trans (hstream.dirty hd)) Bool.false_ne_true
  rw [flushed_of_clean hclean'] at hE
  subst hE
  exact ⟨hstream, hon', hclean', hcoh' trivial⟩

end Cpm68k.Cpmlib
