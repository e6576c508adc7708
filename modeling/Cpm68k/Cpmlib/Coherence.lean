import Cpm68k.Cpmlib.AsciiFile
import Cpm68k.Cpmlib.LastWriter

/-!
# The buffer and the disk

Five routines move sectors between the buffer of a channel and the disk, and two of them
also move sectors between the user and the disk. The buffer is what the disk has in its
sector, unless it is dirty (`Coherent`): a routine that finds its sector in the buffer does
not look at the disk.

## What is proved

* `coherent_of_run` — this holds between any two calls, if no write of whole sectors passes
  by a buffer with the label of the first of them (`Bypass`).
* `buffer_stale` — otherwise it does not: a file with one whole sector that was just
  written has a buffer of zeros with the label of that sector.
-/

namespace Cpm68k.Cpmlib

open Cpm68k.Library RecordStore

variable {σ : Type} {B : Osif σ} {S : RecordStore B} {file : FileId} {u : UInt16} {E D : ℕ → Option Sector} {c : Prop}
  {s : Io σ}

/-- The file has some content, with a coherent buffer if `c` holds. -/
def Held (S : RecordStore B) (file : FileId) (u : UInt16) (c : Prop) (fp : Ccb) (os : σ) : Prop :=
  ∃ E, Content S file u E c fp os

/-- The file has some content, with a coherent buffer. -/
def Coheres (S : RecordStore B) (file : FileId) (u : UInt16) (fp : Ccb) (os : σ) : Prop :=
  ∃ E, Content S file u E True fp os

/-- The disk has the records `D`, and no sector is in the buffer. -/
theorem held_unlabelled {fp : Ccb} {os : σ} (hon : S.On file u D fp os) (hclean : fp.flags.DIRTY = false)
    (hsec : fp.sector = -1) : Held S file u c fp os :=
  ⟨D, content_of_clean hon hclean fun _ _ j hj => absurd (hsec.symm.trans hj) (by omega)⟩

/-- A dirty buffer is coherent. -/
theorem held_dirty {fp : Ccb} {os : σ} (hon : S.On file u D fp os) (hdirty : fp.flags.DIRTY = true) {k : ℕ}
    (hsec : fp.sector = k) (hk : k < S.cap) : Held S file u c fp os := by
  refine ⟨_, D, hon, fun _ => by omega, rfl, fun _ hd => ?_⟩
  rw [hdirty] at hd
  cases hd

/-! ### `_wrtasc` -/

theorem wp_wrtascLoop_coheres (written fuel : ℕ) {cc : UInt8} {data : List UInt8} (h : Coheres S file u s.fp s.os)
    (hoff : 0 ≤ s.fp.offset) (hcap : s.fp.offset + (wrtascOut cc data).length ≤ 128 * S.cap) :
    wp (wrtascLoop B written fuel cc data) (fun _ s' => Coheres S file u s'.fp s'.os)
      (fun _ s' => Coheres S file u s'.fp s'.os) s := by
  induction fuel generalizing cc data s with
  | zero => exact h
  | succ fuel ih =>
    obtain ⟨E, hcont⟩ := h
    obtain ⟨k, hk⟩ : ∃ k : ℕ, s.fp.offset / 128 = k := ⟨(s.fp.offset / 128).toNat, by omega⟩
    by_cases hdata : data = []
    · rw [wrtascLoop, wp_ite, if_neg (by rw [hdata]; decide)]
      exact ⟨E, hcont⟩
    · have hpos := List.length_pos_iff.mpr hdata
      have hout := length_le_wrtascOut data cc
      refine wp_wrtascLoop_turn written fuel hcont hk (by omega) hdata (fun _ _ _ _ hcont' => ⟨E, hcont'⟩)
        (fun put cc' s' ht => ?_) fun put cc' left s' _ ht => ?_
      · rw [wp_bind, wp_raiseHiwater]
        exact ⟨_, ht.content.of_eq rfl rfl rfl rfl rfl⟩
      · have hlength := congrArg List.length ht.append
        rw [List.length_append] at hlength
        have hcont' := ht.content
        obtain ⟨fcb, os, dirty, rfl⟩ := ht.same
        refine ih ⟨_, hcont'⟩ ?_ ?_ <;> simp only <;> omega

/-! ### `_wrtbin` -/

/-- A write of `data` to the file with the content `E` transfers whole sectors from the offset
on, past the buffer that has the label of the first of them and differs from it; and afterwards
the buffer is neither dirty nor put to other use. -/
def Bypass (fp : Ccb) (E : ℕ → Option Sector) (data : List UInt8) : Prop :=
  let n := data.length
  let xsector : ℕ := (fp.offset / 128 % 2 ^ 16).toNat
  fp.offset % 128 = 0 ∧ 128 ≤ n ∧
    (fp.sector = xsector → fp.flags.DIRTY = false) ∧ (fp.sector ≠ xsector → Above fp ∨ E xsector ≠ none) ∧
    (n % 128 = 0 ∨ ¬ Above { fp with offset := fp.offset + 128 * (n / 128 : ℕ) } ∧
      E ((xsector + n / 128) % 2 ^ 16) = none) ∧
    cleanedBuffer fp E xsector ≠ sectorOf data 0

/-- The state after the buffer was cleaned for sector `k`. -/
structure Cleaned (S : RecordStore B) (file : FileId) (u : UInt16) (E : ℕ → Option Sector) (k : ℕ) (s s' : Io σ) : Prop where
  sector : s'.fp.sector = k
  offset : s'.fp.offset = s.fp.offset
  hiwater : s'.fp.hiwater = s.fp.hiwater
  buffer : s'.fp.buffer = cleanedBuffer s.fp E k
  clean : s'.fp.flags.DIRTY = false → s.fp.sector = k → s.fp.flags.DIRTY = false
  prepared : s.fp.sector ≠ k → Above s.fp ∨ E k ≠ none
  on : ∃ D, S.On file u D s'.fp s'.os ∧ (s'.fp.flags.DIRTY = false → D = E)

theorem wp_wrtbinClean_held {k : ℕ} (h : Content S file u E c s.fp s.os) :
    wp (wrtbinClean B k) (fun _ s' => Cleaned S file u E k s s') (fun _ s' => Held S file u c s'.fp s'.os) s := by
  obtain ⟨D, hon, hl, rfl, hc⟩ := h
  refine wp_mono (wp_wrtbinClean_on hon hl k) (fun _ s' hs' => ?_) fun _ s' hs' => ?_
  · split_ifs at hs' with hsec
    · subst hs'
      refine ⟨hsec, rfl, rfl, ?_, fun hd _ => hd, fun h => absurd hsec h, D, hon, fun hd => ?_⟩
      · rw [cleanedBuffer, if_pos hsec]
      · rw [flushed_of_clean hd]
    · obtain ⟨hprep, fcb, os, rfl, hon'⟩ := hs'
      refine ⟨rfl, rfl, rfl, ?_, fun _ h => absurd h hsec, fun _ => hprep, _, hon', fun _ => rfl⟩
      rw [cleanedBuffer, if_neg hsec]
  · -- what was dirty is on disk, and the buffer is as it was
    obtain ⟨-, fcb, os, rfl, hon'⟩ := hs'
    have hidem : flushed (flushed D s.fp) s.fp = flushed D s.fp := by
      unfold flushed
      split_ifs
      · rw [Function.update_idem]
      · rfl
    refine ⟨_, _, hon', hl, hidem, fun hp hd => ?_⟩
    rw [flushed_of_clean (show s.fp.flags.DIRTY = false from hd)]
    exact hc hp hd

/-- What the transfer to the buffer leaves: the write is over, or the buffer has no sector. -/
theorem wp_wrtbinBuffer_held {k : ℕ} {data : List UInt8} (hon : S.On file u D s.fp s.os) (hdata : data ≠ [])
    (hk : k < S.cap) :
    wp (wrtbinBuffer B k data)
      (fun xsector s' => s'.fp.offset = s.fp.offset + data.length ∧
        if bufPos s.fp + data.length = 128 then
          xsector = (k + 1) % 2 ^ 16 ∧ s'.fp.flags.DIRTY = false ∧ s'.fp.sector = -1 ∧ ∃ D, S.On file u D s'.fp s'.os
        else Held S file u c s'.fp s'.os)
      (fun _ _ => False) s := by
  refine wp_mono (wp_wrtbinBuffer_on hon hdata hk) (fun x s' hs' => ?_) (fun _ _ h => h)
  split_ifs at hs' ⊢ with hfull
  · obtain ⟨rfl, fcb, os, rfl, hon'⟩ := hs'
    exact ⟨rfl, rfl, rfl, rfl, _, hon'⟩
  · obtain ⟨rfl, rfl⟩ := hs'
    exact ⟨rfl, held_dirty (D := D) ⟨hon.user, hon.id, hon.files⟩ rfl rfl hk⟩

theorem wp_wrtbinTail_held {k : ℕ} {data : List UInt8} (hon : S.On file u D s.fp s.os) (hk : data ≠ [] → k < S.cap)
    (hold : data = [] ∨ ¬ Above s.fp ∧ D k = none → ∀ fcb os, S.On file u D { s.fp with fcb := fcb } os →
      Held S file u c { s.fp with fcb := fcb } os) :
    wp (wrtbinTail B k data) (fun _ s' => Held S file u c s'.fp s'.os) (fun _ s' => Held S file u c s'.fp s'.os) s := by
  refine wp_mono (wp_wrtbinTail_on hon) (fun _ s' hs' => ?_) fun _ s' hs' => ?_
  · split_ifs at hs' with hdata
    · subst hs'
      exact hold (.inl hdata) _ _ hon
    · obtain ⟨-, fcb, os, rfl, hon'⟩ := hs'
      exact held_dirty hon' rfl rfl (hk hdata)
  · obtain ⟨⟨-, hfail⟩, fcb, os, rfl, hon'⟩ := hs'
    exact hold (.inr hfail) fcb os hon'

/-- What does not go through the buffer first. The buffer stays what it was (`hold`) when
nothing is left after whole sectors, or when the last sector cannot be read. -/
theorem wp_wrtbinRest_held {k : ℕ} {rest : List UInt8} (hon : S.On file u D s.fp s.os) (hk : k < 2 ^ 16)
    (hbytes : rest.length < 2 ^ 16) (hcap : 128 * k + rest.length ≤ 128 * S.cap)
    (hold : ∀ {fp' os'}, (∃ fcb, fp' =
        { s.fp with fcb := fcb, offset := s.fp.offset + (128 * (rest.length / 128) : ℕ) }) →
      (rest.length % 128 = 0 ∨ ¬ Above fp' ∧ wholeRecords D k rest (tailSector k rest.length) = none) →
      S.On file u (wholeRecords D k rest) fp' os' → Held S file u c fp' os') :
    wp (wrtbinRest B k rest) (fun _ s' => Held S file u c s'.fp s'.os) (fun _ s' => Held S file u c s'.fp s'.os) s := by
  have hlen : (rest.drop (128 * (rest.length / 128))).length = rest.length % 128 := by
    rw [List.length_drop]
    omega
  refine wp_wrtbinRest_on hon hk hbytes hcap fun fcb os s₁ hs₁ hon₁ => ?_
  subst hs₁
  refine wp_wrtbinTail_held hon₁ (fun hne => ?_) fun hfail fcb' os' hon' => ?_
  · have := List.length_pos_iff.mpr hne
    unfold tailSector
    omega
  · refine hold ⟨fcb', rfl⟩ (hfail.imp (fun hnil => ?_) id) hon'
    rw [← hlen, hnil, List.length_nil]

theorem sectorsOf_head {data : List UInt8} {n : ℕ} (h : 0 < n) : (sectorsOf data n)[0]? = some (sectorOf data 0) := by
  rw [sectorsOf, List.getElem?_map, List.getElem?_range h]
  rfl

/-- **A write keeps the buffer coherent**, unless it passes by it. -/
theorem wp_wrtbin_held {data : List UInt8} (h : Content S file u E c s.fp s.os) (hoff : 0 ≤ s.fp.offset)
    (hdata : data ≠ []) (hbytes : data.length < 2 ^ 16) (hcap : s.fp.offset + data.length ≤ 128 * S.cap)
    (hbypass : c → ¬ Bypass s.fp E data) :
    wp (wrtbin B data) (fun _ s' => Held S file u c s'.fp s'.os) (fun _ s' => Held S file u c s'.fp s'.os) s := by
  have hn := List.length_pos_iff.mpr hdata
  obtain ⟨o, ho⟩ : ∃ o : ℕ, s.fp.offset = o := ⟨s.fp.offset.toNat, by omega⟩
  have hk : (s.fp.offset / 128 % 2 ^ 16).toNat = o / 128 % 2 ^ 16 := by omega
  refine wp_wrtbin_stages ho hdata (wp_wrtbinClean_held h) (P := fun s₃ => Held S file u c s₃.fp s₃.os)
    (fun hw s₁ h₁ => ?_) (fun nbs hnbs hw s₁ h₁ => ?_) fun s₃ h₃ => ?_
  · -- the buffer still has the label of the first of the sectors
    obtain ⟨D, hon, hD⟩ := h₁.on
    refine wp_wrtbinRest_held hon (by omega) hbytes (by omega) fun {fp' os'} hfp hrest hon' => ?_
    obtain ⟨fcb, rfl⟩ := hfp
    have hlen := length_sectorsOf data (data.length / 128)
    cases hd : s₁.fp.flags.DIRTY with
    | true => exact held_dirty hon' hd h₁.sector (by omega)
    | false =>
      obtain rfl : D = E := hD hd
      refine ⟨_, content_of_clean hon' hd fun hp _ j hj r hr => ?_⟩
      obtain rfl : o / 128 % 2 ^ 16 = j := by exact_mod_cast h₁.sector.symm.trans hj
      rw [wholeRecords, putRun_apply, if_pos ⟨le_rfl, by rw [hlen]; omega⟩, Nat.sub_self, sectorsOf_head (by omega)] at hr
      obtain rfl := Option.some.inj hr
      by_contra hne
      refine hbypass hp ?_
      simp only [Bypass, hk]
      refine ⟨by omega, hw.2, h₁.clean hd, h₁.prepared, hrest.imp id fun hfail => ⟨?_, ?_⟩, h₁.buffer ▸ hne⟩
      · intro habove
        refine hfail.1 ?_
        unfold Above OFFSECT HIWSECT at habove ⊢
        simp only [h₁.offset, h₁.hiwater] at habove ⊢
        exact_mod_cast habove
      · have hnone := hfail.2
        unfold wholeRecords tailSector at hnone
        rw [putRun_apply] at hnone
        split_ifs at hnone with hin
        · rw [List.getElem?_eq_getElem (by omega)] at hnone
          cases hnone
        · exact hnone
  · obtain ⟨D, hon, hD⟩ := h₁.on
    have htake : (data.take nbs).length = nbs := by
      rw [List.length_take]
      omega
    have hdrop : (data.drop nbs).length = data.length - nbs := List.length_drop
    have hbuf : bufPos s₁.fp = o % 128 := by
      unfold bufPos
      rw [h₁.offset]
      omega
    refine wp_mono (wp_wrtbinBuffer_held (c := c) hon (List.length_pos_iff.mp (by omega)) (by omega)) ?_ (fun _ _ h => h.elim)
    rintro xsector s₂ ⟨-, h₂⟩
    rw [htake, hbuf] at h₂
    split_ifs at h₂ with hfull
    · obtain ⟨rfl, hclean, hsec, D', hon'⟩ := h₂
      refine wp_wrtbinRest_held hon' (by omega) (by omega) (by omega) fun {fp' os'} hfp _ hon'' => ?_
      obtain ⟨fcb, rfl⟩ := hfp
      exact held_unlabelled hon'' hclean hsec
    · rw [List.drop_eq_nil_of_le (by omega)]
      exact h₂
  · obtain ⟨E₃, h₃⟩ := h₃
    exact ⟨E₃, h₃.of_eq rfl rfl rfl rfl rfl⟩

/-! ### Calls -/

/-- The call is no write, or a write of less than 65536 bytes that finds room on the disk;
and it leaves an offset that is not negative. -/
def FileCall.Orderly (S : RecordStore B) (fd : ℤ) (w : World σ) (c : FileCall) : Prop :=
  (match c with
    | .write buff => buff.length < 2 ^ 16 ∧ ((w.fds fd).flags.ISREAD = false →
        (w.fds fd).offset + (if (w.fds fd).flags.ISASCII = true then wrtascOut 0 buff else buff).length ≤ 128 * S.cap)
    | _ => True) ∧
  0 ≤ ((c.after B fd w).fds fd).offset

/-- The call does not write past the buffer of a binary file. -/
def FileCall.Buffered (S : RecordStore B) (file : FileId) (fd : ℤ) (w : World σ) : FileCall → Prop
  | .write buff => (w.fds fd).flags.ISREAD = false → (w.fds fd).flags.ISASCII = false →
      ∀ D, S.files w.os file = some D → ¬ Bypass (w.fds fd) (flushed D (w.fds fd)) buff
  | _ => True

/-- Something holds of every call of a sequence, in the state before it. -/
def AllCalls (B : Osif σ) (P : World σ → FileCall → Prop) (fd : ℤ) : List FileCall → World σ → Prop
  | [], _ => True
  | c :: cs, w => P w c ∧ AllCalls B P fd cs (c.after B fd w)

variable {isread isascii : Bool} {k : ℕ} {w : World σ}

/-- What holds of an open channel between two calls. -/
def Settled (S : RecordStore B) (file : FileId) (u : UInt16) (fp : Ccb) (os : σ) : Prop :=
  0 ≤ fp.offset ∧ Coheres S file u fp os

/-- What holds of it whether the buffer is coherent or not. -/
def Between (S : RecordStore B) (file : FileId) (u : UInt16) (c : Prop) (fp : Ccb) (os : σ) : Prop :=
  0 ≤ fp.offset ∧ Held S file u c fp os

theorem wp_readFp_held (bytes : ℕ) (hmode : s.fp.mode = fileMode isread isascii k) (h : Between S file u c s.fp s.os) :
    wp (readFp B bytes) (fun _ s' => Held S file u c s'.fp s'.os) (fun _ s' => Held S file u c s'.fp s'.os) s := by
  obtain ⟨hoff, E, hcont⟩ := h
  cases heof : s.fp.flags.ATEOF with
  | true =>
    rw [wp_readFp_ateof heof]
    exact ⟨E, hcont⟩
  | false =>
    rw [wp_readFp_file hmode heof, wp_ite]
    split_ifs
    · exact wp_mono (keeps_rdascLoop _ _ _ s ⟨hoff, hcont⟩) (fun _ _ h => ⟨E, h.2⟩) (fun _ _ h => ⟨E, h.2⟩)
    · exact wp_mono (keeps_rdbin _ s ⟨hoff, hcont⟩) (fun _ _ h => ⟨E, h.2⟩) (fun _ _ h => ⟨E, h.2⟩)

theorem wp_writeFp_held {data : List UInt8} (hmode : s.fp.mode = fileMode isread isascii k)
    (h : Between S file u c s.fp s.os) (hbytes : data.length < 2 ^ 16) (hc : isascii = true → c)
    (hcap : isread = false → s.fp.offset + (if isascii = true then wrtascOut 0 data else data).length ≤ 128 * S.cap)
    (hbypass : c → isread = false → isascii = false →
      ∀ D, S.files s.os file = some D → ¬ Bypass s.fp (flushed D s.fp) data) :
    wp (writeFp B data) (fun _ s' => Held S file u c s'.fp s'.os) (fun _ s' => Held S file u c s'.fp s'.os) s := by
  obtain ⟨hoff, E, hcont⟩ := h
  by_cases hdata : data = []
  · rw [hdata, wp_writeFp_nil]
    exact ⟨E, hcont⟩
  cases hread : isread with
  | true =>
    have hlen : data.length ≠ 0 := fun h => hdata (List.length_eq_zero_iff.mp h)
    have hr := (flags_of_mode hmode).read
    rw [writeFp, wp_bind, wp_get, wp_ite, if_neg hlen, wp_ite, if_pos (hr.trans hread)]
    exact ⟨E, hcont⟩
  | false =>
    rw [wp_writeFp_file hmode hdata hread, wp_ite]
    have hcap := hcap hread
    split_ifs at hcap ⊢ with hascii
    · obtain rfl : c = True := eq_true (hc hascii)
      exact wp_wrtascLoop_coheres _ _ ⟨E, hcont⟩ hoff hcap
    · obtain ⟨D, hon, hl, hE, hcoh⟩ := hcont
      exact wp_wrtbin_held ⟨D, hon, hl, rfl, hcoh⟩ hoff hdata hbytes hcap fun hp =>
        hbypass hp hread (by simpa using hascii) D hon.files

/-- **One call** keeps the buffer coherent, unless it writes past it. -/
theorem between_after (h : OpenFile isread isascii k (Between S file u c) w) (hc : isascii = true → c) {call : FileCall}
    (hin : call.Orderly S k w) (hbuf : c → call.Buffered S file k w) :
    OpenFile isread isascii k (Between S file u c) (call.after B k w) := by
  suffices hheld : OpenFile isread isascii k (Held S file u c) (call.after B k w) from
    ⟨hheld.lt, hheld.mode, hin.2, hheld.holds⟩
  have hascii : (w.fds k).flags.ISASCII = true → c := fun ha => hc (h.flags.ascii.symm.trans ha)
  obtain ⟨E, hcont⟩ := h.holds.2
  cases call with
  | read bytes =>
    exact wp_after (h.wp_read (Q := fun _ => Held S file u c) (E := fun _ => Held S file u c)
      (wp_readFp_held bytes h.mode h.holds))
  | write buff =>
    refine wp_after (h.wp_write (Q := fun _ => Held S file u c) (E := fun _ => Held S file u c) ?_)
    refine wp_writeFp_held h.mode h.holds hin.1.1 hc (fun hr => ?_) (fun hp hr ha => ?_)
    · have := hin.1.2 (h.flags.read.trans hr)
      rwa [h.flags.ascii] at this
    · exact hbuf hp (h.flags.read.trans hr) (h.flags.ascii.trans ha)
  | lseek offs sense =>
    refine wp_after (h.call (Q := fun _ => Held S file u c) (E := fun _ => Held S file u c)
      (keepsMode_lseekFp offs sense) ?_)
    exact wp_mono (wp_lseekFp_content offs sense h.flags.notTty h.flags.notLpt hascii hcont) (fun _ _ h => ⟨E, h⟩)
      (fun _ _ h => ⟨E, h⟩)
  | fstat =>
    refine wp_after (h.call (Q := fun _ => Held S file u c) (E := fun _ => Held S file u c)
      keepsMode_fstatFp ?_)
    exact wp_mono (wp_fstatFp_content h.flags.notTty h.flags.notLpt hascii hcont) (fun _ _ h => ⟨E, h.2⟩)
      (fun _ _ h => h.elim)

/-- A sequence of calls. -/
theorem between_runFile {cs : List FileCall} (h : OpenFile isread isascii k (Between S file u c) w) (hc : isascii = true → c)
    (hin : AllCalls B (FileCall.Orderly S k) k cs w) (hbuf : c → AllCalls B (FileCall.Buffered S file k) k cs w) :
    OpenFile isread isascii k (Between S file u c) (runFile B k cs w) := by
  induction cs generalizing w with
  | nil => exact h
  | cons call cs ih => exact ih (between_after h hc hin.1 fun hp => (hbuf hp).1) hin.2 fun hp => (hbuf hp).2

/-- A sequence of calls that do not write past the buffer. -/
theorem settled_runFile {cs : List FileCall} (h : OpenFile isread isascii k (Settled S file u) w)
    (hin : AllCalls B (FileCall.Orderly S k) k cs w) (hbuf : AllCalls B (FileCall.Buffered S file k) k cs w) :
    OpenFile isread isascii k (Settled S file u) (runFile B k cs w) :=
  between_runFile (c := True) h (fun _ => trivial) hin fun _ => hbuf

/-! ### Opening -/

theorem wp_openFcb_legal {fname : List UInt8} {bdosfunc : BdosFunc} :
    wp (openFcb B fname bdosfunc) (fun _ _ => Legal fname) (fun _ _ => True) s := by
  rw [openFcb, wp_bind, wp_get, wp_bind, wp_setFp, wp_bind, wp_whenever]
  by_cases hillegal : (parsefn fname s.fp.fcb).2 = false
  · rw [if_pos hillegal]
    trivial
  · rw [if_neg hillegal]
    exact wp_const ((legal_iff fname s.fp.fcb).mp (by simpa using hillegal))

/-- `_open` opens no file of an illegal name. -/
theorem wp_openChan_legal {fname : List UInt8} {mode xtype : ℤ} (hname : NotDevice fname) :
    wp (openChan B fname mode xtype) (fun _ _ => Legal fname) (fun _ _ => True) w := by
  refine wp_fresh (fun k hk => ?_) fun _ => trivial
  obtain ⟨htty, hlst⟩ := hname
  rw [attach, if_neg (by simp [htty]), if_neg (by simp [hlst]), wp_bind, wp_onCcb, wp_orFailure]
  refine wp_mono wp_openFcb_legal (fun rv s' hlegal => wp_const hlegal) fun _ _ _ => ?_
  rw [wp_ite, if_pos (by decide)]
  trivial

/-- The channel that `_creat` or `_open` returns. -/
theorem settled_opened {fname : List UInt8} (mode xtype : ℤ) {fd : ℤ} {w₀ w₁ : World σ} (hname : NotDevice fname)
    (hopen : creat B fname xtype w₀ = .ok fd w₁ ∨
      openChan B fname mode xtype w₀ = .ok fd w₁ ∧ S.files w₀.os (namedFile (S.user w₀.os) fname) ≠ none)
    (hknown : S.users (namedFile (S.user w₀.os) fname).user) :
    ∃ isread, ∃ k : ℕ, fd = k ∧
      OpenFile isread (decide (xtype = 0)) k (Settled S (namedFile (S.user w₀.os) fname) (S.user w₀.os)) w₁ := by
  rcases hopen with hcreat | ⟨hopen, hfile⟩
  · have h : wp (creat B fname xtype) _ _ w₀ := wp_creat_file (S := S) hname rfl hknown
    rw [wp_of_eq_ok hcreat] at h
    obtain ⟨-, k, rfl, hk⟩ := h
    obtain ⟨hcreated, hon⟩ := hk.holds
    exact ⟨_, k, rfl, hk.lt, hk.mode, hcreated.offset.ge, held_unlabelled hon hcreated.clean hcreated.sector⟩
  · obtain ⟨D, hD⟩ := Option.ne_none_iff_exists'.mp hfile
    obtain ⟨n, -, hn⟩ := exists_isSize (S.bounded _ _ _ hD)
    have hlegal : wp (openChan B fname mode xtype) _ _ w₀ := wp_openChan_legal hname
    rw [wp_of_eq_ok hopen] at hlegal
    have h : wp (openChan B fname mode xtype) _ _ w₀ := wp_openChan_file (S := S) hname hlegal rfl hD hn
    rw [wp_of_eq_ok hopen] at h
    obtain ⟨k, rfl, hk⟩ := h
    exact ⟨_, k, rfl, hk.lt, hk.mode, hk.holds.offset.ge, D, content_of_clean hk.holds.on hk.holds.clean fun _ => hk.holds.coherent⟩

/-- **The buffer is coherent** between any two calls, in a run whose writes do not pass by it. -/
theorem coherent_of_run (S : RecordStore B) {fname : List UInt8} (mode xtype : ℤ) {fd : ℤ} {w₀ w₁ : World σ}
    (hname : NotDevice fname)
    (hopen : creat B fname xtype w₀ = .ok fd w₁ ∨
      openChan B fname mode xtype w₀ = .ok fd w₁ ∧ S.files w₀.os (namedFile (S.user w₀.os) fname) ≠ none)
    (hknown : S.users (namedFile (S.user w₀.os) fname).user) {cs : List FileCall} (hin : AllCalls B (FileCall.Orderly S fd) fd cs w₁)
    (hbuf : AllCalls B (FileCall.Buffered S (namedFile (S.user w₀.os) fname) fd) fd cs w₁) :
    ∃ D, S.files (runFile B fd cs w₁).os (namedFile (S.user w₀.os) fname) = some D ∧
      Coherent ((runFile B fd cs w₁).fds fd) D := by
  obtain ⟨isread, k, rfl, hk⟩ := settled_opened (S := S) mode xtype hname hopen hknown
  obtain ⟨E, D, hon, -, -, hc⟩ := (settled_runFile hk hin hbuf).holds.2
  exact ⟨D, hon.files, hc trivial⟩

/-- Three bytes, and a read of a sector that does not exist, which writes them. -/
theorem coherent_of_run_flush :
    ∃ D, memStore.files (runFile memOsif 0 [.write [1, 2, 3], .lseek 200 0, .read 1] (createdA 1)).os (namedFile 0 [0x41]) = some D ∧
      Coherent ((runFile memOsif 0 [.write [1, 2, 3], .lseek 200 0, .read 1] (createdA 1)).fds 0) D :=
  coherent_of_run memStore WRITE 1 notDevice_A (.inl creat_createdA) known_A
    ⟨⟨⟨by decide, fun _ => by decide⟩, by decide⟩, ⟨trivial, by decide⟩, ⟨trivial, by decide⟩, trivial⟩
    ⟨fun _ _ _ _ h => absurd h.2.1 (by decide), trivial, trivial, trivial⟩

/-- A file of one sector, just written. -/
def oneSector : World MemOs := runFile memOsif 0 [.write (List.replicate 128 0x41)] (createdA 1)

/-- **The buffer is stale** after a write of one whole sector: it has the label of that
sector, is not dirty, and is zero. -/
theorem buffer_stale :
    AllCalls memOsif (FileCall.Orderly memStore 0) 0 [.write (List.replicate 128 0x41)] (createdA 1) ∧
      ¬ ∃ D, memFiles oneSector.os (namedFile 0 [0x41]) = some D ∧ Coherent (oneSector.fds 0) D := by
  refine ⟨⟨⟨⟨by decide +kernel, fun _ => by decide +kernel⟩, by decide +kernel⟩, trivial⟩, ?_⟩
  rintro ⟨D, hD, hcoh⟩
  have hdisk : ((memFiles oneSector.os (namedFile 0 [0x41])).bind fun D => (D 0).map fun r => r 0) = some 0x41 := by
    decide +kernel
  have hbuffer : (oneSector.fds 0).buffer 0 = 0 := by decide +kernel
  rw [hD, Option.bind_some, Option.map_eq_some_iff] at hdisk
  obtain ⟨r, hr, hr0⟩ := hdisk
  have hlabel : (oneSector.fds 0).flags.DIRTY = false ∧ (oneSector.fds 0).sector = (0 : ℕ) := by decide +kernel
  rw [hcoh hlabel.1 0 hlabel.2 r hr, hr0] at hbuffer
  exact absurd hbuffer (by decide)

end Cpm68k.Cpmlib
