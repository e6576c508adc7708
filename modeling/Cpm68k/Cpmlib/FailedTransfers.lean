import Cpm68k.Cpmlib.AsciiText
import Cpm68k.Cpmlib.SectorNumbers

/-!
# Failed transfers

When a record transfer fails, `read` and `write` return -1, or the count of what was moved
before. The next call goes on at the offset; so the offset must have grown by what was
reported, and by nothing else.

## The model

`withCodes B codes g` is a BDOS whose record transfers answer the codes that are chosen: that of
number `k` the code `codes k`. Its records are `g`. In all else it does as `B` does. The number
of transfers is counted in its state.

`Spends` says of a program how many transfers it makes, and that it ends with a value if and
only if all of them succeed.

## What is proved

* `wp_blkioRead_codes`, `wp_blkioWrite_codes` — how far a transfer of several records gets.
* `Spends.bind` — the transfers of one program after another.
* `spends_writeBuffer`, `spends_flush`, `spends_needBuffer` — the transfers of one sector.
-/

namespace Cpm68k.Cpmlib

open Cpm68k.Library

variable {σ : Type} {B : Osif σ} {codes : ℕ → UInt16} {g : ℤ → Sector}

/-- The conversion of a `LONG` to `size_t`. -/
def toSize (r : ℤ) : ℕ := (r % 2 ^ 32).toNat

theorem toSize_toLong {n : ℕ} (h : n < 2 ^ 32) : toSize (toLong n) = n := by
  unfold toSize toLong
  rw [Int.bmod_def]
  split_ifs <;> omega

/-! ### Transfers -/

/-- The BDOS `B`, except that its record transfers answer `codes`, and that its records
are `g`. -/
def withCodes (B : Osif σ) (codes : ℕ → UInt16) (g : ℤ → Sector) : Osif (σ × ℕ) where
  user n os := ((B.user n os.1).1, (B.user n os.1).2, os.2)
  file f fcb os := ((B.file f fcb os.1).1, (B.file f fcb os.1).2.1, (B.file f fcb os.1).2.2, os.2)
  bRead fcb os :=
    (if codes os.2 = 0 then .ok (g fcb.record) else .error (codes os.2), (B.bRead fcb os.1).2.1, (B.bRead fcb os.1).2.2, os.2 + 1)
  bWrite fcb record os :=
    (codes os.2, (B.bWrite fcb record os.1).2.1, (B.bWrite fcb record os.1).2.2, os.2 + 1)
  rename old new os := ((B.rename old new os.1).1, (B.rename old new os.1).2, os.2)
  conin os := ((B.conin os.1).1, (B.conin os.1).2, os.2)
  conout c os := (B.conout c os.1, os.2)
  conio c os := ((B.conio c os.1).1, (B.conio c os.1).2, os.2)
  writestr cp os := (B.writestr cp os.1, os.2)
  conbuf n os := ((B.conbuf n os.1).1, (B.conbuf n os.1).2, os.2)
  lstout c os := (B.lstout c os.1, os.2)
  exit os := (B.exit os.1, os.2)
  behind := B.behind

/-- The transfers from number `k` on, `m` of them, succeed. -/
def Answered (codes : ℕ → UInt16) (k m : ℕ) : Prop := ∀ j < m, codes (k + j) = 0

@[simp] theorem answered_zero (k : ℕ) : Answered codes k 0 := fun _ h => absurd h (Nat.not_lt_zero _)

theorem Answered.mono {k m n : ℕ} (h : Answered codes k m) (hle : n ≤ m) : Answered codes k n := fun j hj => h j (by omega)

theorem answered_one {k : ℕ} : Answered codes k 1 ↔ codes k = 0 := by
  constructor
  · intro h
    exact h 0 Nat.one_pos
  · intro h j hj
    obtain rfl : j = 0 := by omega
    exact h

theorem answered_add {k m n : ℕ} : Answered codes k (m + n) ↔ Answered codes k m ∧ Answered codes (k + m) n := by
  constructor
  · intro h
    refine ⟨fun j hj => h j (by omega), fun j hj => ?_⟩
    rw [Nat.add_assoc]
    exact h (m + j) (by omega)
  · rintro ⟨hm, hn⟩ j hj
    by_cases hjm : j < m
    · exact hm j hjm
    · have hrest := hn (j - m) (by omega)
      rwa [Nat.add_assoc, Nat.add_sub_cancel' (by omega)] at hrest

theorem chkuser_withCodes (newu : Int16) (os : σ × ℕ) :
    chkuser (withCodes B codes g) newu os = ((chkuser B newu os.1).1, (chkuser B newu os.1).2, os.2) := by
  unfold chkuser
  dsimp only [withCodes]
  split_ifs
  · rfl
  · rfl
  · rfl

theorem uchkuser_withCodes (newu prevu : Int16) (os : σ × ℕ) :
    uchkuser (withCodes B codes g) newu prevu os = (uchkuser B newu prevu os.1, os.2) := by
  unfold uchkuser
  dsimp only [withCodes]
  split_ifs
  · rfl
  · rfl
  · rfl

variable {s : Io (σ × ℕ)} {α : Type}

/-- The state after `k` transfers, and changes of the file control block and the BDOS. -/
def After (k : ℕ) (s s' : Io (σ × ℕ)) : Prop := ∃ fcb os, s' = ⟨{ s.fp with fcb := fcb }, (os, s.os.2 + k), s.buff⟩

theorem After.refl (s : Io (σ × ℕ)) : After 0 s s := ⟨s.fp.fcb, s.os.1, rfl⟩

theorem After.trans {k m : ℕ} {s₁ s₂ : Io (σ × ℕ)} (h₁ : After k s s₁) (h₂ : After m s₁ s₂) : After (k + m) s s₂ := by
  obtain ⟨fcb, os, rfl⟩ := h₁
  obtain ⟨fcb, os, rfl⟩ := h₂
  exact ⟨fcb, os, by rw [← Nat.add_assoc]⟩

/-- A loop of reads gets as far as its transfers succeed. -/
theorem wp_readLoop_codes (sector : ℤ) (count : ℕ) (s : Io (σ × ℕ)) :
    wp (readLoop (withCodes B codes g) sector count)
      (fun records s' => records.length ≤ count ∧ (records.length = count ↔ Answered codes s.os.2 count) ∧
        (∃ k, After k s s' ∧ (records.length = count → k = count)) ∧
        (count = 1 → Answered codes s.os.2 1 → records = [g sector]))
      (fun _ _ => False) s := by
  induction count generalizing sector s with
  | zero => exact ⟨le_rfl, by simp, ⟨0, After.refl s, fun _ => rfl⟩, fun h => absurd h (by decide)⟩
  | succ count ih =>
    rw [readLoop, wp_bind, wp_setFp, wp_bind, wp_osifRead]
    have hone : ∀ m, Answered codes s.os.2 (m + 1) ↔ codes s.os.2 = 0 ∧ Answered codes (s.os.2 + 1) m := fun m => by
      rw [Nat.add_comm m 1, answered_add, answered_one]
    by_cases hcode : codes s.os.2 = 0
    · simp only [withCodes, hcode, if_true, wp_bind]
      refine wp_mono (ih (sector + 1) _) (fun records s' h => ?_) (fun _ _ h => h)
      obtain ⟨hle, hall, ⟨k, hafter, hk⟩, hrecord⟩ := h
      rw [hone]
      refine ⟨by simpa using hle, ?_, ⟨1 + k, ?_, fun h => ?_⟩, fun hcount _ => ?_⟩
      · rw [List.length_cons, Nat.add_right_cancel_iff]
        exact hall.trans ⟨fun h => ⟨hcode, h⟩, fun h => h.2⟩
      · exact After.trans ⟨_, _, rfl⟩ hafter
      · rw [hk (by simpa using h), Nat.add_comm]
      · obtain rfl : count = 0 := by omega
        rw [List.length_eq_zero_iff.mp (Nat.le_zero.mp hle)]
    · simp only [withCodes, hcode, if_false, wp_pure]
      rw [hone]
      refine ⟨Nat.zero_le _, iff_of_false (by simp) fun h => hcode h.1, ⟨1, ⟨_, _, rfl⟩, fun h => ?_⟩, fun _ h => ?_⟩
      · exact absurd h (by simp)
      · exact absurd (answered_one.mp h) hcode

theorem wp_blkioRead_codes (sector : ℤ) (count : ℕ) (s : Io (σ × ℕ)) :
    wp (blkioRead (withCodes B codes g) sector count)
      (fun records s' => records.length ≤ count ∧ (records.length = count ↔ Answered codes s.os.2 count) ∧
        (∃ k, After k s s' ∧ (records.length = count → k = count)) ∧
        (count = 1 → Answered codes s.os.2 1 → records = [g sector]))
      (fun _ _ => False) s := by
  rw [blkioRead, wp_bind, wp_chkuserFp, wp_bind, chkuser_withCodes]
  refine wp_mono (wp_readLoop_codes sector count _) (fun records s' h => ?_) (fun _ _ h => h)
  obtain ⟨hle, hall, ⟨k, ⟨fcb, os, rfl⟩, hk⟩, hrecord⟩ := h
  rw [wp_bind, wp_uchkuserFp, uchkuser_withCodes]
  exact ⟨hle, hall, ⟨k, ⟨fcb, _, rfl⟩, hk⟩, hrecord⟩

/-- A loop of writes makes all its transfers, or stops at one that fails. -/
theorem wp_writeLoop_codes (sector : ℤ) (buffer : List Sector) (s : Io (σ × ℕ)) :
    wp (writeLoop (withCodes B codes g) sector buffer)
      (fun seccnt s' => seccnt = buffer.length ∧ Answered codes s.os.2 buffer.length ∧ After buffer.length s s' ∨
        seccnt ≠ buffer.length ∧ ¬ Answered codes s.os.2 buffer.length ∧ ∃ k, ¬ Answered codes s.os.2 k ∧ After k s s')
      (fun _ _ => False) s := by
  induction buffer generalizing sector s with
  | nil => exact .inl ⟨rfl, answered_zero _, After.refl s⟩
  | cons record buffer ih =>
    have hone : ∀ m, Answered codes s.os.2 (m + 1) ↔ codes s.os.2 = 0 ∧ Answered codes (s.os.2 + 1) m := fun m => by
      rw [Nat.add_comm m 1, answered_add, answered_one]
    rw [writeLoop, wp_bind, wp_setFp, wp_bind, wp_osifWrite, wp_ite, List.length_cons]
    split_ifs with hcode
    · exact .inr ⟨(Nat.succ_ne_zero _).symm, fun h => hcode ((hone _).mp h).1, 1, fun h => hcode (answered_one.mp h), _, _, rfl⟩
    · have hok : codes s.os.2 = 0 := not_not.mp hcode
      rw [wp_bind]
      refine wp_mono (ih (sector + 1) _) (fun seccnt s' h => ?_) (fun _ _ h => h)
      rcases h with ⟨hcount, hall, hafter⟩ | ⟨hcount, hno, k, hfail, hafter⟩
      · refine .inl ⟨congrArg (· + 1) hcount, (hone _).mpr ⟨hok, hall⟩, ?_⟩
        rw [Nat.add_comm buffer.length]
        exact After.trans ⟨_, _, rfl⟩ hafter
      · refine .inr ⟨fun h => hcount (Nat.succ.inj h), fun h => hno ((hone _).mp h).2, k + 1, fun h => hfail ((hone _).mp h).2, ?_⟩
        rw [Nat.add_comm k]
        exact After.trans ⟨_, _, rfl⟩ hafter

theorem wp_blkioWrite_codes (sector : ℤ) (buffer : List Sector) (s : Io (σ × ℕ)) :
    wp (blkioWrite (withCodes B codes g) sector buffer)
      (fun seccnt s' => seccnt = buffer.length ∧ Answered codes s.os.2 buffer.length ∧ After buffer.length s s' ∨
        seccnt ≠ buffer.length ∧ ¬ Answered codes s.os.2 buffer.length ∧ ∃ k, ¬ Answered codes s.os.2 k ∧ After k s s')
      (fun _ _ => False) s := by
  rw [blkioWrite, wp_bind, wp_chkuserFp, wp_bind, chkuser_withCodes]
  refine wp_mono (wp_writeLoop_codes sector buffer _) (fun seccnt s' h => ?_) (fun _ _ h => h)
  rw [wp_bind, wp_uchkuserFp, uchkuser_withCodes]
  rcases h with ⟨hcount, hall, fcb, os, rfl⟩ | ⟨hcount, hno, k, hfail, fcb, os, rfl⟩
  · exact .inl ⟨hcount, hall, fcb, _, rfl⟩
  · exact .inr ⟨hcount, hno, k, hfail, fcb, _, rfl⟩

/-! ### Programs that end when a transfer fails -/

/-- The program makes `n` transfers. It ends with a value if all of them succeed, and with an
exception otherwise. -/
def Spends (codes : ℕ → UInt16) (m : IoM (σ × ℕ) α) (n : ℕ) (Q : α → Io (σ × ℕ) → Prop) (E : Io (σ × ℕ) → Prop)
    (s : Io (σ × ℕ)) : Prop :=
  wp m (fun a s' => Answered codes s.os.2 n ∧ s'.os.2 = s.os.2 + n ∧ Q a s')
    (fun _ s' => ¬ Answered codes s.os.2 n ∧ E s') s

namespace Spends

variable {β : Type} {m : IoM (σ × ℕ) α} {f : α → IoM (σ × ℕ) β} {n k : ℕ} {Q : α → Io (σ × ℕ) → Prop}
  {R : β → Io (σ × ℕ) → Prop} {E E' : Io (σ × ℕ) → Prop}

/-- A step without transfers. -/
theorem step (h : wp m (fun a s' => s'.os = s.os ∧ Q a s') (fun _ _ => False) s) : Spends codes m 0 Q E s :=
  wp_mono h (fun a s' h => ⟨answered_zero _, by rw [h.1, Nat.add_zero], h.2⟩) (fun _ _ h => h.elim)

theorem mono (h : Spends codes m n Q E s) {Q' : α → Io (σ × ℕ) → Prop} (hQ : ∀ a s', Q a s' → Q' a s')
    (hE : ∀ s', ¬ Answered codes s.os.2 n → E s' → E' s') : Spends codes m n Q' E' s :=
  wp_mono h (fun a s' h => ⟨h.1, h.2.1, hQ a s' h.2.2⟩) (fun _ s' h => ⟨h.1, hE s' h.1 h.2⟩)

theorem bind (hm : Spends codes m n Q E s)
    (hf : ∀ a s', Answered codes s.os.2 n → s'.os.2 = s.os.2 + n → Q a s' → Spends codes (f a) k R E' s')
    (hE : ∀ s', ¬ Answered codes s.os.2 n → E s' → E' s') : Spends codes (m >>= f) (n + k) R E' s := by
  unfold Spends
  rw [wp_bind]
  refine wp_mono hm (fun a s' h => ?_) (fun _ s' h => ⟨fun hall => h.1 (answered_add.mp hall).1, hE s' h.1 h.2⟩)
  obtain ⟨hok, hos, hQ⟩ := h
  refine wp_mono (hf a s' hok hos hQ) (fun b s'' h => ?_) (fun _ s'' h => ?_)
  · rw [hos] at h
    exact ⟨answered_add.mpr ⟨hok, h.1⟩, by rw [h.2.1, Nat.add_assoc], h.2.2⟩
  · rw [hos] at h
    exact ⟨fun hall => h.1 (answered_add.mp hall).2, h.2⟩

end Spends

/-- The offset and the high water mark are as before. -/
def SameExtent (s s' : Io (σ × ℕ)) : Prop := s'.fp.offset = s.fp.offset ∧ s'.fp.hiwater = s.fp.hiwater

theorem spends_writeBuffer (sector : ℤ) (s : Io (σ × ℕ)) :
    Spends codes (writeBuffer (withCodes B codes g) sector) 1
      (fun _ s' => SameExtent s s' ∧ s'.fp.sector = s.fp.sector ∧ s'.fp.flags = s.fp.flags ∧ s'.buff = s.buff)
      (SameExtent s) s := by
  unfold Spends
  rw [writeBuffer, wp_bind, wp_get, wp_bind]
  refine wp_mono (wp_blkioWrite_codes sector [s.fp.buffer] s) (fun seccnt s' h => ?_) (fun _ _ h => h.elim)
  rw [wp_whenever]
  rcases h with ⟨rfl, hall, fcb, os, rfl⟩ | ⟨hcount, hno, k, -, fcb, os, rfl⟩
  · exact ⟨hall, rfl, ⟨rfl, rfl⟩, rfl, rfl, rfl⟩
  · rw [if_pos (show seccnt ≠ 1 from hcount)]
    exact ⟨hno, rfl, rfl⟩

/-- Reading a sector into the buffer. -/
theorem wp_readBuffer_codes (xsector : ℤ) (s : Io (σ × ℕ)) :
    wp (readBuffer (withCodes B codes g) xsector)
      (fun found s' => (found = true ↔ codes s.os.2 = 0) ∧ SameExtent s s' ∧ s'.fp.sector = s.fp.sector ∧
        s'.fp.flags = s.fp.flags ∧ s'.buff = s.buff ∧ (found = true → s'.fp.buffer = g xsector ∧ s'.os.2 = s.os.2 + 1))
      (fun _ _ => False) s := by
  rw [readBuffer, wp_bind]
  refine wp_mono (wp_blkioRead_codes xsector 1 s) (fun records s' h => ?_) (fun _ _ h => h)
  obtain ⟨hle, hall, ⟨k, ⟨fcb, os, rfl⟩, hk⟩, hrecord⟩ := h
  rw [← answered_one]
  by_cases hok : Answered codes s.os.2 1
  · obtain rfl := hrecord rfl hok
    obtain rfl := hk rfl
    exact ⟨iff_of_true rfl hok, ⟨rfl, rfl⟩, rfl, rfl, rfl, fun _ => ⟨rfl, rfl⟩⟩
  · have hnil : records = [] := by
      have hne : records.length ≠ 1 := fun h => hok (hall.mp h)
      exact List.length_eq_zero_iff.mp (by omega)
    subst hnil
    exact ⟨iff_of_false Bool.false_ne_true hok, ⟨rfl, rfl⟩, rfl, rfl, rfl, fun h => absurd h Bool.false_ne_true⟩

/-- A sector that has to be there is read into the buffer. -/
theorem spends_needBuffer (xsector : ℤ) (s : Io (σ × ℕ)) :
    Spends codes
      (do
        let found ← readBuffer (withCodes B codes g) xsector
        whenever (found = false) (throw Errno.EIO))
      1
      (fun _ s' => SameExtent s s' ∧ s'.fp.sector = s.fp.sector ∧ s'.fp.flags = s.fp.flags ∧ s'.buff = s.buff ∧
        s'.fp.buffer = g xsector)
      (SameExtent s) s := by
  unfold Spends
  rw [wp_bind, answered_one]
  refine wp_mono (wp_readBuffer_codes xsector s) (fun found s' h => ?_) (fun _ _ h => h.elim)
  obtain ⟨hfound, hext, hsec, hflags, hbuff, hok⟩ := h
  rw [wp_whenever]
  cases found with
  | false =>
    exact ⟨fun h => absurd (hfound.mpr h) Bool.false_ne_true, hext⟩
  | true =>
    obtain ⟨hbuffer, hos⟩ := hok rfl
    exact ⟨hfound.mp rfl, hos, hext, hsec, hflags, hbuff, hbuffer⟩

/-- The transfer of a dirty buffer. -/
def flushCount (fp : Ccb) : ℕ := if fp.flags.DIRTY = true then 1 else 0

theorem spends_flush (s : Io (σ × ℕ)) :
    Spends codes (flush (withCodes B codes g)) (flushCount s.fp)
      (fun _ s' => SameExtent s s' ∧ s'.fp.sector = s.fp.sector ∧ s'.fp.flags.DIRTY = false ∧ s'.buff = s.buff)
      (SameExtent s) s := by
  unfold Spends flushCount
  rw [flush, wp_bind, wp_get, wp_whenever]
  split_ifs with hd
  · rw [wp_bind]
    refine wp_mono (spends_writeBuffer s.fp.sector s) (fun _ s' h => ?_) (fun _ _ h => h)
    exact ⟨h.1, h.2.1, h.2.2.1, h.2.2.2.1, rfl, h.2.2.2.2.2⟩
  · exact ⟨answered_zero _, rfl, ⟨rfl, rfl⟩, rfl, Bool.eq_false_iff.mpr hd, rfl⟩

end Cpm68k.Cpmlib
