import Cpm68k.Cpmlib.AsciiFile
import Cpm68k.Cpmlib.LastWriter

/-!
# Overwriting an ASCII file

What a channel on an ASCII file holds is its logical file: the records on disk, overlaid by
the dirty buffer, up to the high water mark. `_wrtasc` overwrites it at the offset.

## What is proved

* `AsciiState.carries`, `Content.asciiState` — the assumptions on the channel say that all
  sectors of the logical file are there, and hold when they are.
* `wrtasc_overwrites` — `_wrtasc` overwrites the logical file, and the assumptions hold again.
-/

namespace Cpm68k.Cpmlib

open Cpm68k.Library RecordStore

variable {σ : Type} {B : Osif σ}

/-- The logical file: records on disk overlaid by the dirty buffer, up to the high water mark. -/
def logicalFile (D : ℕ → Option Sector) (fp : Ccb) : List UInt8 := unblocks 128 0 (flushed D fp) fp.hiwater.toNat

/-- A channel for writing ASCII text to a file that has the records `D`. -/
structure AsciiState (S : RecordStore B) (file : FileId) (u : UInt16) (D : ℕ → Option Sector) (fp : Ccb) (os : σ) :
    Prop where
  on : S.On file u D fp os
  labelled : Labelled S.cap fp
  clean : fp.flags.DIRTY = false → ∀ k : ℕ, fp.sector = k → D k = some fp.buffer
  present : ∀ k : ℕ, 128 * k < fp.hiwater → D k ≠ none ∨ fp.sector = k
  offset_nonneg : 0 ≤ fp.offset
  offset_le : fp.offset ≤ fp.hiwater

variable {S : RecordStore B} {file : FileId} {u : UInt16} {D : ℕ → Option Sector} {s : Io σ}

/-- The file on the channel has all its sectors. -/
theorem AsciiState.flushed_ne_none {fp : Ccb} {os : σ} (h : AsciiState S file u D fp os) {k : ℕ}
    (hk : 128 * k < fp.hiwater) : flushed D fp k ≠ none := by
  cases hd : fp.flags.DIRTY with
  | false =>
    rw [flushed_of_clean hd]
    rcases h.present k hk with hD | hsec
    · exact hD
    · rw [h.clean hd k hsec]
      exact Option.some_ne_none _
  | true =>
    rw [flushed_of_dirty hd]
    by_cases hsec : fp.sector.toNat = k
    · rw [hsec, Function.update_self]
      exact Option.some_ne_none _
    · rw [Function.update_of_ne (Ne.symm hsec)]
      exact (h.present k hk).resolve_right fun heq => hsec (by omega)

theorem AsciiState.content {fp : Ccb} {os : σ} (h : AsciiState S file u D fp os) :
    Content S file u (flushed D fp) True fp os := by
  refine ⟨D, h.on, h.labelled, rfl, fun _ hd k hk r hr => ?_⟩
  rw [h.clean hd k hk] at hr
  exact Option.some.inj hr

theorem AsciiState.carries {fp : Ccb} {os : σ} (h : AsciiState S file u D fp os) :
    Carries (flushed D fp) (logicalFile D fp) :=
  carries_unblocks fun _ hk => h.flushed_ne_none (by omega)

/-- The assumptions hold when the buffer is in order, its sector is there, and so is every
other sector of the text. -/
theorem Content.asciiState {E : ℕ → Option Sector} {f : List UInt8} {fp : Ccb} {os : σ}
    (h : Content S file u E True fp os) (hf : Carries E f) (hlabel : ∃ k : ℕ, fp.sector = k ∧ E k ≠ none)
    (hhi : fp.hiwater = f.length) (hoff : 0 ≤ fp.offset ∧ fp.offset ≤ fp.hiwater) :
    ∃ D, AsciiState S file u D fp os ∧ logicalFile D fp = f := by
  have hbuf := fun k (hsec : fp.sector = (k : ℕ)) r hr => h.buffer_eq (k := k) hsec (r := r) hr
  obtain ⟨D, hon, hl, rfl, -⟩ := h
  refine ⟨D, ⟨hon, hl, fun hd k hk => ?_, fun k hk => ?_, hoff.1, hoff.2⟩, ?_⟩
  · obtain ⟨j, hj, hne⟩ := hlabel
    obtain rfl : k = j := by omega
    obtain ⟨r, hr⟩ := Option.ne_none_iff_exists'.mp hne
    rw [hbuf k hk r hr, ← hr, flushed_of_clean hd]
  · have hne := hf.ne_none (by decide) (show 128 * k < f.length by omega)
    cases hd : fp.flags.DIRTY with
    | false =>
      rw [flushed_of_clean hd] at hne
      exact .inl hne
    | true =>
      rw [flushed_of_dirty hd] at hne
      by_cases hsec : k = fp.sector.toNat
      · have := (hl hd).1
        exact .inr (by omega)
      · rw [Function.update_of_ne hsec] at hne
        exact .inl hne
  · rw [logicalFile, hhi, Int.toNat_natCast, hf.unblocks_eq (by decide)]

theorem wrtasc_nil : wrtasc B [] s = .ok 0 s := by
  simp only [wrtasc, List.length_nil, wrtascLoop, lt_irrefl, if_false, toLong_of_lt (show 0 < 2 ^ 31 by decide)]
  rfl

/-- **`_wrtasc` overwrites the logical file** at the offset with what the data makes in a
file, whatever sector is in the buffer, and leaves the channel as it assumes it. -/
theorem wrtasc_overwrites {data : List UInt8} (h : AsciiState S file u D s.fp s.os)
    (hroom : s.fp.offset + (wrtascOut 0 data).length ≤ 128 * S.cap) :
    ∃ s' D', wrtasc B data s = .ok data.length s' ∧ AsciiState S file u D' s'.fp s'.os ∧
      logicalFile D' s'.fp = splice (logicalFile D s.fp) s.fp.offset.toNat (wrtascOut 0 data) ∧
      s'.fp.offset = s.fp.offset + (wrtascOut 0 data).length ∧
      s'.fp.hiwater = max s.fp.hiwater (s.fp.offset + (wrtascOut 0 data).length) := by
  have hoff := h.offset_nonneg
  have hle := h.offset_le
  by_cases hdata : data = []
  · subst hdata
    refine ⟨s, D, by rw [wrtasc_nil, List.length_nil, Nat.cast_zero], h, by rw [wrtascOut, splice_nil], ?_, ?_⟩
    · rw [wrtascOut, List.length_nil, Nat.cast_zero, Int.add_zero]
    · rw [wrtascOut, List.length_nil, Nat.cast_zero, Int.add_zero, max_eq_left hle]
  · have hlen : (logicalFile D s.fp).length = s.fp.hiwater.toNat := length_unblocks _
    obtain ⟨n, s', hrun, hn, hover⟩ := exists_of_wp (wp_wrtasc_carries (o := s.fp.offset.toNat) h.content h.carries
      (by omega) (by omega) (by omega) hdata (by omega))
    obtain ⟨E', hcont, hf, hlabel, -⟩ := hover.content
    have hoff' := hover.offset
    have hhi' := hover.hiwater
    have hsplice := length_splice (show s.fp.offset.toNat ≤ (logicalFile D s.fp).length by omega) (wrtascOut 0 data)
    obtain ⟨D', hstate, hfile⟩ := hcont.asciiState hf hlabel (by omega) (by omega)
    have hcap := S.cap_lt
    have hout := length_le_wrtascOut data 0
    refine ⟨s', D', ?_, hstate, hfile, by omega, by omega⟩
    rw [hrun, hn, toLong_of_lt (by omega)]

/-- What the library works on for the file just created. -/
def createdIo : Io MemOs := ⟨(createdA 0).fds 0, (createdA 0).os, []⟩

theorem asciiState_createdIo :
    AsciiState memStore (namedFile 0 [0x41]) 0 (fun _ => none) createdIo.fp createdIo.os where
  on := ⟨rfl, rfl, rfl⟩
  labelled h := absurd h (by decide)
  clean _ k h := absurd h (by
    show (-1 : ℤ) ≠ k
    omega)
  present k h := absurd h (by
    show ¬ (128 * (k : ℤ) < 0)
    omega)
  offset_nonneg := le_refl 0
  offset_le := le_refl 0

theorem wrtasc_overwrites_line :
    ∃ s' D', wrtasc memOsif [0x61, 0x0a] createdIo = .ok 2 s' ∧
      AsciiState memStore (namedFile 0 [0x41]) 0 D' s'.fp s'.os ∧ logicalFile D' s'.fp = [0x61, 0x0d, 0x0a] ∧
      s'.fp.offset = 3 ∧ s'.fp.hiwater = 3 :=
  wrtasc_overwrites asciiState_createdIo (by decide)

end Cpm68k.Cpmlib
