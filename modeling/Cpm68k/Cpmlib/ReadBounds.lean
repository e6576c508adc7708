import Cpm68k.Cpmlib.RandomFile
import Cpm68k.Cpmlib.TerminalRead

/-!
# How many bytes a read stores

A caller of `read` has room for the bytes it asks for, and takes what `read` returns for the
number of those that are there. Whatever the BDOS answers: sectors that cannot be read, a
dirty buffer that cannot be written, a line that is longer than the line that was asked for.

## The model

* `Stored m s` — `m` bytes have been stored at `*buff++`. The loops of `_rdbin` and `_rdasc`
  count down the bytes that are left, and `Stored (xbytes - bytes)` is what they keep.
* `Told n r s` — `read` returned `r`, and that is how many bytes it stored, of the `n` that the
  caller has room for.

## What is proved

* `wp_rdbin_told`, `wp_rdasc_told`, `wp_ttyin_told` — the three ways to read. A terminal in one
  of the raw modes stores a character also when none was asked for.
* `wp_readFp_told` — `read`, on an open channel.
-/

namespace Cpm68k.Cpmlib

open Cpm68k.Library

variable {σ : Type} {B : Osif σ} {m n bytes xbytes : ℕ} {s : Io σ}

/-- `m` bytes have been stored for the user. -/
def Stored (m : ℕ) (s : Io σ) : Prop := s.buff.length = m

/-- What `read` returned is how many bytes it has stored, and there is room for them. -/
def Told (n : ℕ) (r : ℤ) (s : Io σ) : Prop := r = s.buff.length ∧ s.buff.length ≤ n

/-- There was room for what has been stored. -/
def HasFit (n : ℕ) (s : Io σ) : Prop := s.buff.length ≤ n

theorem Stored.told (h : Stored m s) (hmn : m ≤ n) (hn : n < 2 ^ 31) : Told n (toLong m) s := by
  have hlen : s.buff.length = m := h
  refine ⟨?_, by omega⟩
  rw [toLong_of_lt (by omega), hlen]

theorem Stored.hasFit (h : Stored m s) (hmn : m ≤ n) : HasFit n s := by
  have hlen : s.buff.length = m := h
  exact hlen.trans_le hmn

theorem Stored.store (h : Stored m s) (bs : List UInt8) : Stored (m + bs.length) { s with buff := s.buff ++ bs } := by
  have hlen : s.buff.length = m := h
  rw [Stored, List.length_append, hlen]

/-! ### Transfers -/

theorem KeepsBuff.stored {α : Type} {p : IoM σ α} (h : KeepsBuff p) (m : ℕ) : Keeps (Stored m) p := by
  intro s hs
  have hkeep : ∀ s' : Io σ, s'.buff = s.buff → Stored m s' := fun s' h' => (congrArg List.length h').trans hs
  exact wp_mono (h s.buff s rfl) (fun _ => hkeep) (fun _ => hkeep)

/-- A step that stores nothing, and what follows. -/
theorem Stored.andThen {α β : Type} {p : IoM σ α} {f : α → IoM σ β} {Q : β → Io σ → Prop} (h : Stored m s) (hmn : m ≤ n)
    (hp : KeepsBuff p) (hf : ∀ a s', Stored m s' → wp (f a) Q (fun _ => HasFit n) s') :
    wp (p >>= f) Q (fun _ => HasFit n) s := by
  rw [wp_bind]
  exact wp_mono (hp.stored m s h) hf (fun _ _ h' => h'.hasFit hmn)

theorem keepsBuff_blkioRead (sector : ℤ) (count : ℕ) : KeepsBuff (blkioRead B sector count) :=
  keepsBuff_around (keepsBuff_readLoop _ _)

theorem keepsBuff_readBuffer (xsector : ℤ) : KeepsBuff (readBuffer B xsector) := by
  refine fun b => .bind (keepsBuff_blkioRead _ _ b) fun records => ?_
  split
  · exact .bind (keepsBuff_setFp _ b) fun _ => .pure _
  · exact .pure _

theorem keepsBuff_flush : KeepsBuff (flush B) := fun b =>
  .bind .get fun _ => .whenever (.bind (keepsBuff_writeBuffer _ b) fun _ => keepsBuff_setFp _ b)

/-- No more sectors are read than were asked for. -/
theorem wp_readLoop_length (sector : ℤ) (count : ℕ) :
    wp (readLoop B sector count) (fun records _ => records.length ≤ count) (fun _ _ => False) s := by
  induction count generalizing sector s with
  | zero => exact Nat.le_refl 0
  | succ count ih =>
    rw [readLoop, wp_bind, wp_setFp, wp_bind, wp_osifRead]
    split
    · exact Nat.zero_le _
    · rw [wp_bind]
      exact wp_mono (ih _) (fun _ _ h => Nat.succ_le_succ h) (fun _ _ h => h)

theorem wp_blkioRead_length (sector : ℤ) (count : ℕ) (h : Stored m s) :
    wp (blkioRead B sector count) (fun records s' => records.length ≤ count ∧ Stored m s') (fun _ _ => False) s := by
  have hlen : wp (blkioRead B sector count) (fun records _ => records.length ≤ count) (fun _ _ => False) s := by
    rw [blkioRead, wp_bind, wp_chkuserFp, wp_bind]
    exact wp_mono (wp_readLoop_length _ _) (fun _ _ h => h) (fun _ _ h => h)
  exact wp_mono (wp_and hlen ((keepsBuff_blkioRead _ _).stored m s h)) (fun _ _ h => h) (fun _ _ h => h.1)

theorem length_flatMap_bytes (records : List Sector) : (records.flatMap Sector.bytes).length = records.length * 128 := by
  induction records with
  | nil => rfl
  | cons record records ih =>
    rw [List.flatMap_cons, List.length_append, ih, List.length_cons, Sector.bytes, List.length_ofFn]
    omega

/-! ### `_rdbin` -/

theorem wp_rdbinBuffer_stored (h : Stored m s) :
    wp (rdbinBuffer B bytes) (fun left s' => left ≤ bytes ∧ Stored (m + (bytes - left)) s') (fun _ => Stored m) s := by
  have hget : Keeps (Stored m) (whenever (s.fp.sector ≠ s.fp.offset / 128) do
      flush B
      let found ← readBuffer B (s.fp.offset / 128)
      whenever (found = false) (throw Errno.EIO)
      setFp fun fp => { fp with sector := s.fp.offset / 128 }) :=
    .whenever <| .bind (keepsBuff_flush.stored m) fun _ => .bind ((keepsBuff_readBuffer _).stored m) fun _ =>
      .bind (.whenever (.throw _)) fun _ => (keepsBuff_setFp _).stored m
  rw [rdbinBuffer, wp_bind, wp_get, wp_bind]
  refine wp_mono (hget s h) (fun _ s' h' => ?_) (fun _ _ h => h)
  rw [wp_bind, wp_get, wp_bind, wp_store, wp_bind, wp_setFp, wp_pure]
  have hle : ((s'.fp.buffer.bytes.drop (bufPos s'.fp)).take bytes).length ≤ bytes := List.length_take_le _ _
  have hleft : bytes - (bytes - ((s'.fp.buffer.bytes.drop (bufPos s'.fp)).take bytes).length) =
      ((s'.fp.buffer.bytes.drop (bufPos s'.fp)).take bytes).length := by omega
  refine ⟨Nat.sub_le _ _, ?_⟩
  rw [hleft]
  exact h'.store _

theorem wp_rdbinTail_told {xsector : ℤ} (h : Stored (xbytes - bytes) s) (hbytes : bytes ≤ 128) (hle : bytes ≤ xbytes)
    (hx : xbytes < 2 ^ 31) : wp (rdbinTail B xbytes bytes xsector) (Told xbytes) (fun _ => HasFit xbytes) s := by
  rw [rdbinTail]
  refine h.andThen (Nat.sub_le _ _) keepsBuff_flush fun _ s₁ h₁ => ?_
  refine h₁.andThen (Nat.sub_le _ _) (keepsBuff_readBuffer _) fun found s₂ h₂ => ?_
  rw [wp_ite]
  split_ifs
  · exact h₂.told (Nat.sub_le _ _) hx
  · rw [wp_bind, wp_setFp, wp_bind, wp_get, wp_bind, wp_store, wp_bind, wp_raiseHiwater, wp_pure]
    have hall := h₂.store (s₂.fp.buffer.bytes.take bytes)
    have hlen : (s₂.fp.buffer.bytes.take bytes).length = bytes := by
      rw [List.length_take, Sector.bytes, List.length_ofFn, Nat.min_eq_left hbytes]
    rw [hlen, Nat.sub_add_cancel hle] at hall
    exact Stored.told hall (Nat.le_refl _) hx

theorem wp_rdbinSectors_told {xsector : ℤ} (h : Stored (xbytes - bytes) s) (hle : bytes ≤ xbytes) (hx : xbytes < 2 ^ 31) :
    wp (rdbinSectors B xbytes bytes xsector) (Told xbytes) (fun _ => HasFit xbytes) s := by
  have hread : wp (if bytes / 128 > 0 then blkioRead B xsector (bytes / 128) else pure [])
      (fun records s' => records.length ≤ bytes / 128 ∧ Stored (xbytes - bytes) s') (fun _ _ => False) s := by
    rw [wp_ite]
    split_ifs
    · exact wp_blkioRead_length _ _ h
    · exact ⟨Nat.zero_le _, h⟩
  rw [rdbinSectors, wp_bind]
  refine wp_mono hread (fun records s₁ h₁ => ?_) (fun _ _ h => h.elim)
  obtain ⟨hcount, hstored⟩ := h₁
  rw [wp_bind, wp_setFp, wp_bind, wp_store, wp_bind, wp_raiseHiwater, wp_ite, wp_ite]
  have hsplit := Nat.div_add_mod bytes 128
  have hmod := Nat.mod_lt bytes (show 0 < 128 by decide)
  have hall := hstored.store (records.flatMap Sector.bytes)
  rw [length_flatMap_bytes, show xbytes - bytes + records.length * 128 = xbytes - (bytes - records.length * 128) by omega] at hall
  split_ifs with hshort hnone
  · exact Stored.told hall (Nat.sub_le _ _) hx
  · rw [hnone, Nat.sub_zero] at hall
    exact Stored.told hall (Nat.le_refl _) hx
  · exact wp_rdbinTail_told hall (by omega) (by omega) hx

/-- `_rdbin` stores what it says. -/
theorem wp_rdbin_told (h : Stored 0 s) (hn : n < 2 ^ 31) : wp (rdbin B n) (Told n) (fun _ => HasFit n) s := by
  have h₀ : Stored (n - n) s := by rwa [Nat.sub_self]
  rw [rdbin, wp_bind, wp_get, wp_ite]
  split_ifs
  · rw [wp_bind]
    refine wp_mono (wp_rdbinBuffer_stored h) (fun left s₁ h₁ => ?_) (fun _ _ h => h.hasFit (Nat.zero_le _))
    obtain ⟨hle, hstored⟩ := h₁
    rw [Nat.zero_add] at hstored
    rw [wp_ite]
    split_ifs with hnone
    · subst hnone
      rw [wp_bind, wp_raiseHiwater, wp_pure]
      exact Stored.told hstored (Nat.le_refl _) hn
    · exact wp_rdbinSectors_told hstored hle hn
  · exact wp_rdbinSectors_told h₀ (Nat.le_refl _) hn

/-! ### `_rdasc` -/

theorem keepsBuff_rdascSector : KeepsBuff (rdascSector B) := fun b =>
  .bind .get fun _ => .ite (.bind (keepsBuff_flush b) fun _ => .bind (keepsBuff_readBuffer _ b) fun _ =>
    .ite (.bind (keepsBuff_setFp _ b) fun _ => .pure _) (.bind (keepsBuff_setFp _ b) fun _ => .pure _)) (.pure _)

theorem wp_rdascLoop_told (fuel : ℕ) (h : Stored (xbytes - bytes) s) (hle : bytes ≤ xbytes) (hx : xbytes < 2 ^ 31) :
    wp (rdascLoop B xbytes fuel bytes) (Told xbytes) (fun _ => HasFit xbytes) s := by
  -- by induction on the bound; `Stored (xbytes - bytes)` holds at the head of the loop
  induction fuel generalizing bytes s with
  | zero => exact h.told (Nat.sub_le _ _) hx
  | succ fuel ih =>
    rw [rdascLoop, wp_ite]
    split_ifs with hmore
    · refine h.andThen (Nat.sub_le _ _) keepsBuff_rdascSector fun found s₁ h₁ => ?_
      rw [wp_ite]
      split_ifs
      · exact h₁.told (Nat.sub_le _ _) hx
      · rw [wp_bind, wp_get, wp_bind, wp_store, wp_bind, wp_setFp, wp_ite]
        have hmoved := rdascMove_stored_le (s₁.fp.buffer.bytes.drop (bufPos s₁.fp)) bytes
        generalize rdascMove (s₁.fp.buffer.bytes.drop (bufPos s₁.fp)) bytes = moved at hmoved ⊢
        have hall := h₁.store moved.1
        rw [show xbytes - bytes + moved.1.length = xbytes - (bytes - moved.1.length) by omega] at hall
        split_ifs
        · exact Stored.told hall (Nat.sub_le _ _) hx
        · exact ih hall (by omega)
    · rw [wp_bind, wp_raiseHiwater, wp_pure]
      rw [Nat.eq_zero_of_not_pos hmore, Nat.sub_zero] at h
      exact Stored.told h (Nat.le_refl _) hx

/-- `_rdasc` stores what it says. -/
theorem wp_rdasc_told (h : Stored 0 s) (hn : n < 2 ^ 31) : wp (rdasc B n) (Told n) (fun _ => HasFit n) s :=
  wp_rdascLoop_told _ (by rwa [Nat.sub_self]) (Nat.le_refl _) hn

/-! ### `_ttyin` -/

/-- The loop of `_ttyin` counts down the characters that it moves. -/
theorem ttyinMove_counts (ttybuf : List UInt8) (bytes : ℕ) :
    (ttyinMove ttybuf bytes).1.length + (ttyinMove ttybuf bytes).2.1 = bytes := by
  induction ttybuf generalizing bytes with
  | nil => simp [ttyinMove]
  | cons p ttybuf ih =>
    cases bytes with
    | zero => rfl
    | succ bytes =>
      rw [ttyinMove]
      split_ifs
      · simp
      · have hrest := ih bytes
        simp only [List.length_cons]
        omega

theorem keepsBuff_echo (b : Bytes 8) (c : UInt8) : KeepsBuff (echo B b c) := fun _ => .whenever fun _ h => h

theorem keepsBuff_ttyinLine (nbs : ℕ) : KeepsBuff (ttyinLine B nbs) := fun _ =>
  .ite (.bind (fun _ h => h) fun _ => .pure _) fun _ h => h

/-- In the raw modes one character is stored. -/
theorem Stored.told_one (h : Stored 0 s) (hpos : 0 < n) (c : UInt8) : Told n 1 { s with buff := s.buff ++ [c] } := by
  have hlen : (s.buff ++ [c]).length = 1 := h.store [c]
  exact ⟨by rw [hlen, Nat.cast_one], by rwa [hlen]⟩

theorem wp_ttyinCbreak_told {b : Bytes 8} (h : Stored 0 s) (hpos : 0 < n) :
    wp (ttyinCbreak B b) (Told n) (fun _ => HasFit n) s := by
  rw [ttyinCbreak]
  refine h.andThen (Nat.zero_le n) (fun _ _ h => h) fun p s₁ h₁ => ?_
  refine h₁.andThen (Nat.zero_le n) (fun _ => .whenever (.throw _)) fun _ s₂ h₂ => ?_
  refine h₂.andThen (Nat.zero_le n) (fun b' => .ite (.bind (keepsBuff_echo _ _ b') fun _ => .pure _) (.pure _)) fun c s₃ h₃ => ?_
  refine h₃.andThen (Nat.zero_le n) (keepsBuff_echo _ _) fun _ s₄ h₄ => ?_
  rw [wp_bind, wp_store, wp_pure]
  exact h₄.told_one hpos c

/-- `_ttyin` stores what it says, in line mode, or when something is asked for. -/
theorem wp_ttyin_told (h : Stored 0 s) (hmode : LineMode s.fp ∨ 0 < n) : wp (ttyin B n) (Told n) (fun _ => HasFit n) s := by
  rw [ttyin, wp_bind, wp_get, wp_ite, wp_ite]
  split_ifs with hraw hcbreak
  · have hpos : 0 < n := hmode.resolve_left fun hline => by simp [(hline hraw.1).1] at hraw
    rw [wp_bind, ttyinraw, wp_askOs, wp_bind, wp_store, wp_pure]
    exact h.told_one hpos _
  · have hpos : 0 < n := hmode.resolve_left fun hline => by simp [(hline hcbreak.1).2] at hcbreak
    exact wp_ttyinCbreak_told h hpos
  · refine h.andThen (Nat.zero_le n) (keepsBuff_ttyinLine _) fun ttybuf s₁ h₁ => ?_
    refine h₁.andThen (Nat.zero_le n) (fun _ => .whenever fun _ h => h) fun _ s₂ h₂ => ?_
    have hcount := ttyinMove_counts ttybuf n
    generalize ttyinMove ttybuf n = moved at hcount ⊢
    have hall := h₂.store moved.1
    rw [Nat.zero_add] at hall
    have hlen : (s₂.buff ++ moved.1).length = moved.1.length := hall
    have hfit : (s₂.buff ++ moved.1).length ≤ n := hlen.trans_le (by omega)
    rw [wp_bind, wp_store, wp_ite, wp_ite]
    split_ifs with heof hroom
    · exact ⟨congrArg Nat.cast hlen.symm, hfit⟩
    · have hend := hall.store [newline]
      exact ⟨congrArg Nat.cast hend.symm, hend.trans_le (by rw [List.length_singleton]; omega)⟩
    · exact ⟨congrArg Nat.cast hlen.symm, hfit⟩

/-! ### The errors of `read` -/

section

variable {P : Errno → Prop} (heio : P Errno.EIO)

include heio

theorem Raises.rdbin (bytes : ℕ) : Raises P (rdbin B bytes) := by
  have htail : ∀ xbytes bytes xsector, Raises P (rdbinTail B xbytes bytes xsector) := fun _ _ _ =>
    .bind (Raises.flush heio) fun _ => .bind (Raises.readBuffer _) fun _ => .ite (.bind (.modify _) fun _ => .pure _)
      (.bind (.modify _) fun _ => .bind .get fun _ => .bind (.modify _) fun _ => .bind (.modify _) fun _ => .pure _)
  have hsectors : ∀ xbytes bytes xsector, Raises P (rdbinSectors B xbytes bytes xsector) := fun _ _ _ =>
    .bind (.ite (Raises.blkioRead _ _) (.pure _)) fun _ => .bind (.modify _) fun _ => .bind (.modify _) fun _ =>
      .bind (.modify _) fun _ => .ite (.bind (.modify _) fun _ => .pure _) (.ite (.pure _) (htail _ _ _))
  have hbuffer : Raises P (rdbinBuffer B bytes) :=
    .bind .get fun _ => .bind (.whenever (.bind (Raises.flush heio) fun _ => .bind (Raises.readBuffer _) fun _ =>
      .bind (.whenever (.throw heio)) fun _ => .modify _)) fun _ => .bind .get fun _ => .bind (.modify _) fun _ =>
      .bind (.modify _) fun _ => .pure _
  exact .bind .get fun _ => .ite (.bind hbuffer fun _ => .ite (.bind (.modify _) fun _ => .pure _) (hsectors _ _ _)) (hsectors _ _ _)

theorem Raises.rdascLoop (xbytes fuel bytes : ℕ) : Raises P (rdascLoop B xbytes fuel bytes) := by
  have hsector : Raises P (rdascSector B) :=
    .bind .get fun _ => .ite (.bind (Raises.flush heio) fun _ => .bind (Raises.readBuffer _) fun _ =>
      .ite (.bind (.modify _) fun _ => .pure _) (.bind (.modify _) fun _ => .pure _)) (.pure _)
  induction fuel generalizing bytes with
  | zero => exact .pure _
  | succ fuel ih =>
    refine .ite (.bind hsector fun _ => .ite (.pure _) (.bind .get fun _ => ?_)) (.bind (.modify _) fun _ => .pure _)
    refine .bind (.modify _) fun _ => .bind (.modify _) fun _ => .ite ?_ (ih _)
    exact .bind (.modify _) fun _ => .bind (.modify _) fun _ => .pure _

end

/-- In line mode `_ttyin` does not fail. -/
theorem wp_ttyin_total (hmode : LineMode s.fp) : wp (ttyin B n) (fun _ _ => True) (fun _ _ => False) s := by
  have hraw : ¬ (s.fp.flags.ISSPTTY = true ∧ sgHas s.fp.fcb.sgttyb RAW = true) := fun h => by simp [(hmode h.1).1] at h
  have hcbreak : ¬ (s.fp.flags.ISSPTTY = true ∧ sgHas s.fp.fcb.sgttyb CBREAK = true) := fun h => by simp [(hmode h.1).2] at h
  have hline : Raises (fun _ => False) (ttyinLine B (min n 0xff)) :=
    .ite (.bind (.of_ok fun _ => ⟨_, _, rfl⟩) fun _ => .pure _) (.of_ok fun _ => ⟨_, _, rfl⟩)
  rw [ttyin, wp_bind, wp_get, if_neg hraw, if_neg hcbreak]
  exact Raises.bind hline (fun _ => .bind (.whenever (.modify _)) fun _ => .bind (.modify _) fun _ =>
    .ite (.bind (.modify _) fun _ => .pure _) (.ite (.bind (.modify _) fun _ => .pure _) (.pure _))) s

/-! ### `read` -/

/-- The errors of a read: the list device is not read, or a sector cannot be read or written. -/
def IsReadError (e : Errno) : Prop := e = .EBADF ∨ e = Errno.EIO

theorem wp_readFp_errors (hmode : s.fp.flags.ISTTY = true → LineMode s.fp) :
    wp (readFp B n) (fun _ _ => True) (fun e _ => IsReadError e) s := by
  rw [readFp, wp_bind, wp_get, wp_ite, wp_ite, wp_ite, wp_ite]
  split_ifs with heof hlpt htty
  · exact trivial
  · exact .inl rfl
  · exact wp_mono (wp_ttyin_total (hmode htty)) (fun _ _ h => h) (fun _ _ h => h.elim)
  · exact Raises.rdascLoop (.inr rfl) _ _ _ s
  · exact Raises.rdbin (.inr rfl) _ s

/-- **`read` stores as many bytes as it says**, and no more than there is room for. -/
theorem wp_readFp_told (h : Stored 0 s) (hn : n < 2 ^ 31) (hmode : s.fp.flags.ISTTY = true → LineMode s.fp ∨ 0 < n) :
    wp (readFp B n) (Told n) (fun _ => HasFit n) s := by
  rw [readFp, wp_bind, wp_get, wp_ite, wp_ite, wp_ite, wp_ite]
  split_ifs with heof hlpt htty
  · exact ⟨congrArg Nat.cast h.symm, Nat.le_trans (Nat.le_of_eq h) (Nat.zero_le n)⟩
  · exact h.hasFit (Nat.zero_le n)
  · exact wp_ttyin_told h (hmode htty)
  · exact wp_rdasc_told h hn
  · exact wp_rdbin_told h hn

end Cpm68k.Cpmlib
