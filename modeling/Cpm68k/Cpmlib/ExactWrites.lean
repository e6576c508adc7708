import Cpm68k.Cpmlib.AsciiSplit
import Cpm68k.Cpmlib.DeviceOutput
import Cpm68k.Cpmlib.SplitReads

/-!
# Writes of every size

`_wrtbin` keeps sector numbers, counts of sectors and counts of bytes in 16 bits, and `_wrtchr`
counts the bytes of a request in 16 bits.

## The model

* `restSector` and `tailSector` are the sectors that `_wrtbin` comes to, as it counts them, and
  `LaidOut` says where a write leaves its bytes.
* `BinaryFits` says that these numbers are the right ones, and that the buffer is not left dirty
  when its sector is written on disk (`StaleBuffer`).
* `BinaryExact`, `AsciiExact` and `DeviceExact` say that a write does what it returns.

## What is proved

* `wp_wrtbin_laidOut` — where the bytes of a write of less than 65536 bytes go.
* `LaidOut.placed`, `exists_misplaced` — they are where they belong if the numbers fit, and
  otherwise not for all data.
* `write_exact_iff` — when writes are exact.
-/

namespace Cpm68k.Cpmlib

open Cpm68k.Library RecordStore

variable {σ : Type} {B : Osif σ} {S : RecordStore B} {file : FileId} {u : UInt16} {D E E' : ℕ → Option Sector} {s : Io σ}

/-! ### The stages of a write -/

theorem wp_wrtbinClean_others {x : ℕ} (h : Content S file u E False s.fp s.os) :
    wp (wrtbinClean B x)
      (fun _ s' => s'.fp.sector = x ∧ s'.fp.offset = s.fp.offset ∧
        (if s.fp.sector = x then s' = s else s'.fp.flags.DIRTY = false) ∧
        ∃ D, S.On file u D s'.fp s'.os ∧ ∀ j, j ≠ x → D j = E j)
      (fun _ _ => True) s := by
  obtain ⟨D, hon, hl, rfl, -⟩ := h
  refine wp_mono (wp_wrtbinClean_on hon hl x) (fun _ s' hs' => ?_) (fun _ _ _ => trivial)
  split_ifs at hs' ⊢ with hsec
  · subst hs'
    exact ⟨hsec, rfl, rfl, D, hon, fun j hj => (flushed_of_ne hl (by omega)).symm⟩
  · obtain ⟨-, fcb, os, rfl, hon'⟩ := hs'
    exact ⟨rfl, rfl, rfl, _, hon', fun _ _ => rfl⟩

theorem update_of_others {x : ℕ} (hD : ∀ j, j ≠ x → D j = E j) (r : Sector) :
    Function.update D x (some r) = Function.update E x (some r) := by
  funext j
  by_cases hj : j = x
  · rw [hj, Function.update_self, Function.update_self]
  · rw [Function.update_of_ne hj, Function.update_of_ne hj, hD j hj]

/-- Data that fits goes to sector `x`, whether it is in the buffer or on disk. -/
theorem wp_wrtbinBuffer_laid {x : ℕ} {data : List UInt8} (hon : S.On file u D s.fp s.os) (hD : ∀ j, j ≠ x → D j = E j)
    (hdata : data ≠ []) (hx : x < S.cap) :
    wp (wrtbinBuffer B x data)
      (fun x' s' => s'.fp.offset = s.fp.offset + data.length ∧
        Content S file u (Function.update E x (some (s.fp.buffer.move (bufPos s.fp) data))) False s'.fp s'.os ∧
        if bufPos s.fp + data.length = 128 then x' = (x + 1) % 2 ^ 16 ∧ s'.fp.flags.DIRTY = false else x' = x)
      (fun _ _ => False) s := by
  have hupdate := update_of_others hD (s.fp.buffer.move (bufPos s.fp) data)
  refine wp_mono (wp_wrtbinBuffer_on hon hdata hx) (fun x' s' hs' => ?_) (fun _ _ h => h)
  split_ifs at hs' ⊢ with hfull
  · obtain ⟨rfl, fcb, os, rfl, hon'⟩ := hs'
    exact ⟨rfl, content_of_clean (hupdate ▸ hon') rfl False.elim, rfl, rfl⟩
  · obtain ⟨rfl, rfl⟩ := hs'
    refine ⟨rfl, ⟨D, ⟨hon.user, hon.id, hon.files⟩, fun _ => ?_, ?_, False.elim⟩, rfl⟩
    · simp only
      omega
    · rw [flushed_of_dirty rfl, Int.toNat_natCast, hupdate]

/-- The rest goes to sector `x`. -/
theorem wp_wrtbinTail_laid {x : ℕ} {data : List UInt8} (hon : S.On file u D s.fp s.os) (hx : data ≠ [] → x < S.cap) :
    wp (wrtbinTail B x data)
      (fun _ s' => if data = [] then s' = s else s'.fp.offset = s.fp.offset + data.length ∧
        ∃ r : Sector, Content S file u (Function.update D x (some (r.move 0 data))) False s'.fp s'.os)
      (fun _ _ => True) s := by
  refine wp_mono (wp_wrtbinTail_on hon) (fun _ s' hs' => ?_) (fun _ _ _ => trivial)
  split_ifs at hs' ⊢ with hdata
  · exact hs'
  · obtain ⟨-, fcb, os, rfl, hon'⟩ := hs'
    refine ⟨rfl, _, D, hon', fun _ => ?_, flushed_of_dirty rfl, False.elim⟩
    have := hx hdata
    simp only
    omega

/-- The records after what does not go through the buffer first, if `r` is in the buffer when the
last bytes are put there. -/
def restRecords (D : ℕ → Option Sector) (fp : Ccb) (x : ℕ) (rest : List UInt8) (r : Sector) : ℕ → Option Sector :=
  if rest.length % 128 = 0 then flushed (wholeRecords D x rest) fp
  else Function.update (wholeRecords D x rest) (tailSector x rest.length)
    (some (r.move 0 (rest.drop (128 * (rest.length / 128)))))

theorem wp_wrtbinRest_records {x : ℕ} {rest : List UInt8} (hon : S.On file u D s.fp s.os) (hx : x < 2 ^ 16)
    (hbytes : rest.length < 2 ^ 16) (hcap : 128 * x + rest.length ≤ 128 * S.cap) (hl : Labelled S.cap s.fp) :
    wp (wrtbinRest B x rest)
      (fun _ s' => s'.fp.offset = s.fp.offset + rest.length ∧
        ∃ r : Sector, Content S file u (restRecords D s.fp x rest r) False s'.fp s'.os)
      (fun _ _ => True) s := by
  have hlen : (rest.drop (128 * (rest.length / 128))).length = rest.length % 128 := by
    rw [List.length_drop]
    omega
  refine wp_wrtbinRest_on hon hx hbytes hcap fun fcb os s₁ hs₁ hon₁ => ?_
  subst hs₁
  refine wp_mono (wp_wrtbinTail_laid hon₁ fun hne => ?_) (fun _ s' h => ?_) (fun _ _ h => h)
  · have := List.length_pos_iff.mpr hne
    unfold tailSector
    omega
  · unfold restRecords
    split_ifs at h ⊢ with hzero hnil hnil
    · subst h
      refine ⟨?_, s.fp.buffer, wholeRecords D x rest, hon₁, hl, rfl, False.elim⟩
      simp only
      omega
    · exact absurd (List.length_eq_zero_iff.mp (hlen.trans hzero)) hnil
    · exact absurd (by rw [← hlen, hnil, List.length_nil]) hzero
    · obtain ⟨hoff, r, hcont⟩ := h
      refine ⟨?_, r, hcont⟩
      rw [hoff, hlen]
      simp only
      omega

/-! ### Where the bytes go -/

theorem wholeRecords_others {x j : ℕ} {rest : List UInt8} (hj : ¬ (x ≤ j ∧ j < x + rest.length / 128)) :
    wholeRecords D x rest j = D j := by
  rw [wholeRecords, putRun_apply, length_sectorsOf, if_neg hj]

/-- The whole sectors are where the transfer put them. -/
theorem wholeRecords_placed {x : ℕ} (rest : List UInt8) :
    Placed (wholeRecords D x rest) (128 * x) (rest.take (128 * (rest.length / 128))) := by
  have hle : 128 * (rest.length / 128) ≤ (rest.take (128 * (rest.length / 128))).length := by
    rw [List.length_take]
    omega
  have hplaced := placed_putRun (b := 128) (D := D) (k := x) (d := 0) hle
  rw [List.take_take, min_self] at hplaced
  rw [wholeRecords, sectorsOf_take]
  exact hplaced

theorem restRecords_others {fp : Ccb} {x j : ℕ} {rest : List UInt8} {r : Sector} (hl : Labelled S.cap fp)
    (hj : ¬ (x ≤ j ∧ j < x + rest.length / 128)) (htail : j ≠ tailSector x rest.length)
    (hbuf : fp.flags.DIRTY = true → fp.sector ≠ j) : restRecords D fp x rest r j = D j := by
  unfold restRecords
  split_ifs
  · cases hd : fp.flags.DIRTY with
    | false => rw [flushed_of_clean hd, wholeRecords_others hj]
    | true => rw [flushed_of_ne hl (hbuf hd), wholeRecords_others hj]
  · rw [Function.update_of_ne htail, wholeRecords_others hj]

/-- The last bytes are in the sector that `_wrtbin` counts. -/
theorem restRecords_tail {fp : Ccb} {x : ℕ} {rest : List UInt8} {r : Sector} :
    Placed (restRecords D fp x rest r) (128 * tailSector x rest.length) (rest.drop (128 * (rest.length / 128))) := by
  have hlen : (rest.drop (128 * (rest.length / 128))).length = rest.length % 128 := by
    rw [List.length_drop]
    omega
  unfold restRecords
  split_ifs with hzero
  · rw [List.length_eq_zero_iff.mp (hlen.trans hzero)]
    exact placed_nil _
  · have hplaced := placed_patch (b := 128) (D := wholeRecords D x rest) (k := tailSector x rest.length) (p := 0) r
      (show 0 + (rest.drop (128 * (rest.length / 128))).length ≤ 128 by omega)
    rw [Nat.add_zero] at hplaced
    exact hplaced

/-- The whole sectors stay where they are, unless a dirty buffer is written over them. -/
theorem restRecords_whole {fp : Ccb} {x : ℕ} {rest : List UInt8} {r : Sector} (hx : x < 2 ^ 16) (hbytes : rest.length < 2 ^ 16)
    (hclean : rest.length % 128 = 0 → fp.flags.DIRTY = false) :
    Placed (restRecords D fp x rest r) (128 * x) (rest.take (128 * (rest.length / 128))) := by
  refine (wholeRecords_placed (D := D) rest).congr fun j hj hlt => ?_
  rw [List.length_take] at hlt
  unfold restRecords tailSector
  split_ifs with hzero
  · rw [flushed_of_clean (hclean hzero)]
  · rw [Function.update_of_ne (by omega)]

/-- The sector after the bytes that go through the buffer first, as `_wrtbin` counts it. -/
def restSector (o n : ℕ) : ℕ :=
  if o % 128 + wrtbinCount (o % 128) n = 128 then (o / 128 % 2 ^ 16 + 1) % 2 ^ 16 else o / 128 % 2 ^ 16

/-- The data that does not go through the buffer first. -/
def restOf (o : ℕ) (data : List UInt8) : List UInt8 := data.drop (wrtbinCount (o % 128) data.length)

/-- A dirty buffer stays dirty, and its sector is written on disk behind its back. -/
structure StaleBuffer (fp : Ccb) (o n : ℕ) : Prop where
  dirty : fp.flags.DIRTY = true
  sector : fp.sector = (o / 128 % 2 ^ 16 : ℕ)
  aligned : o % 128 = 0
  whole : 128 ≤ n
  exact : n % 128 = 0

/-- Where a write of `data` at `o` leaves its bytes. -/
structure LaidOut (E : ℕ → Option Sector) (fp : Ccb) (o : ℕ) (data : List UInt8) (E' : ℕ → Option Sector) : Prop where
  first : Placed E' (128 * (o / 128 % 2 ^ 16) + o % 128) (data.take (wrtbinCount (o % 128) data.length))
  whole : ¬ StaleBuffer fp o data.length →
    Placed E' (128 * restSector o data.length) ((restOf o data).take (128 * ((restOf o data).length / 128)))
  tail : Placed E' (128 * tailSector (restSector o data.length) (restOf o data).length)
    ((restOf o data).drop (128 * ((restOf o data).length / 128)))
  stale : StaleBuffer fp o data.length → E' (o / 128 % 2 ^ 16) = some fp.buffer
  others : ∀ j, j ≠ o / 128 % 2 ^ 16 →
    ¬ (restSector o data.length ≤ j ∧ j < restSector o data.length + (restOf o data).length / 128) →
    j ≠ tailSector (restSector o data.length) (restOf o data).length → E' j = E j

/-- A write that begins on a boundary, with a sector or more. -/
theorem laidOut_whole {fp fp₁ : Ccb} {o : ℕ} {data : List UInt8} {r : Sector} (hl : Labelled S.cap fp₁)
    (hcount : wrtbinCount (o % 128) data.length = 0) (hbytes : data.length < 2 ^ 16) (hlong : o % 128 = 0 ∧ 128 ≤ data.length)
    (hsec : fp₁.sector = (o / 128 % 2 ^ 16 : ℕ))
    (hsame : if fp.sector = (o / 128 % 2 ^ 16 : ℕ) then fp₁.flags.DIRTY = fp.flags.DIRTY ∧ fp₁.buffer = fp.buffer
      else fp₁.flags.DIRTY = false)
    (hD : ∀ j, j ≠ o / 128 % 2 ^ 16 → D j = E j) :
    LaidOut E fp o data (restRecords D fp₁ (o / 128 % 2 ^ 16) data r) := by
  have hrest : restOf o data = data := by rw [restOf, hcount, List.drop_zero]
  have hsector : restSector o data.length = o / 128 % 2 ^ 16 := by
    rw [restSector, hcount, if_neg (by omega)]
  have hx : o / 128 % 2 ^ 16 < 2 ^ 16 := Nat.mod_lt _ (by decide)
  constructor
  · rw [hcount, List.take_zero]
    exact placed_nil _
  · intro hstale
    rw [hrest, hsector]
    refine restRecords_whole hx hbytes fun hexact => ?_
    split_ifs at hsame with hlabel
    · rw [hsame.1, Bool.eq_false_iff]
      exact fun hd => hstale ⟨hd, hlabel, hlong.1, hlong.2, hexact⟩
    · exact hsame
  · rw [hrest, hsector]
    exact restRecords_tail
  · intro hstale
    rw [if_pos hstale.sector] at hsame
    have hd : fp₁.flags.DIRTY = true := hsame.1.trans hstale.dirty
    rw [restRecords, if_pos hstale.exact, flushed_of_dirty hd, hsec, Int.toNat_natCast, Function.update_self, hsame.2]
  · intro j hj hrun htail
    rw [hrest, hsector] at hrun htail
    rw [restRecords_others hl hrun htail fun _ => by omega]
    exact hD j hj

/-- A write that begins with bytes in the buffer. -/
theorem laidOut_buffered {fp fp₂ : Ccb} {o : ℕ} {data : List UInt8} {buffer r : Sector} (hl : Labelled S.cap fp₂)
    (hcount : 0 < wrtbinCount (o % 128) data.length) (hbytes : data.length < 2 ^ 16)
    (hD : flushed D fp₂ =
      Function.update E (o / 128 % 2 ^ 16)
        (some (buffer.move (o % 128) (data.take (wrtbinCount (o % 128) data.length)))))
    (hclean : o % 128 + wrtbinCount (o % 128) data.length = 128 → fp₂.flags.DIRTY = false) :
    LaidOut E fp o data (restRecords D fp₂ (restSector o data.length) (restOf o data) r) := by
  have heq := wrtbinCount_eq (o := o) (hcount.trans_le (wrtbinCount_le _ _))
  have hlen : (restOf o data).length = data.length - wrtbinCount (o % 128) data.length := List.length_drop
  have hx : o / 128 % 2 ^ 16 < 2 ^ 16 := Nat.mod_lt _ (by decide)
  have hnostale : ¬ StaleBuffer fp o data.length := by
    intro h
    rw [heq, if_pos ⟨h.aligned, h.whole⟩] at hcount
    exact absurd hcount (by decide)
  have hfirst : Placed (flushed D fp₂) (128 * (o / 128 % 2 ^ 16) + o % 128)
      (data.take (wrtbinCount (o % 128) data.length)) := by
    rw [hD]
    refine placed_patch buffer ?_
    rw [List.length_take]
    split_ifs at heq <;> omega
  by_cases hfull : o % 128 + wrtbinCount (o % 128) data.length = 128
  · -- the buffer has been written
    have hd := hclean hfull
    rw [flushed_of_clean hd] at hD hfirst
    have hsector : restSector o data.length = (o / 128 % 2 ^ 16 + 1) % 2 ^ 16 := if_pos hfull
    have hkeep : ∀ j, ¬ (restSector o data.length ≤ j ∧ j < restSector o data.length + (restOf o data).length / 128) →
        j ≠ tailSector (restSector o data.length) (restOf o data).length →
        restRecords D fp₂ (restSector o data.length) (restOf o data) r j = D j :=
      fun j hrun htail => restRecords_others hl hrun htail fun hd' => absurd (hd.symm.trans hd') Bool.false_ne_true
    constructor
    · refine hfirst.congr fun j hj hlt => ?_
      rw [List.length_take] at hlt
      have hjx : j = o / 128 % 2 ^ 16 := by omega
      refine hkeep j ?_ ?_ <;> rw [hsector]
      · omega
      · unfold tailSector
        omega
    · intro _
      exact restRecords_whole (by omega) (by omega) fun _ => hd
    · exact restRecords_tail
    · exact fun hstale => absurd hstale hnostale
    · intro j hj hrun htail
      rw [hkeep j hrun htail, hD, Function.update_of_ne hj]
  · -- all the data is in the buffer
    have hall : wrtbinCount (o % 128) data.length = data.length := by
      split_ifs at heq <;> omega
    have hnil : restOf o data = [] := by rw [restOf, hall, List.drop_length]
    have hsame : ∀ x, restRecords D fp₂ x [] r = flushed D fp₂ := by
      intro x
      rw [restRecords, if_pos (show ([] : List UInt8).length % 128 = 0 from rfl)]
      rfl
    rw [hnil, hsame]
    constructor
    · exact hfirst
    · rw [hnil]
      exact fun _ => placed_nil _
    · rw [hnil]
      exact placed_nil _
    · exact fun hstale => absurd hstale hnostale
    · intro j hj _ _
      rw [hD, Function.update_of_ne hj]

/-- **Where the bytes of a write go**, when it is for less than 65536 of them. -/
theorem wp_wrtbin_laidOut {data : List UInt8} {o : ℕ} (hon : S.On file u D s.fp s.os) (hl : Labelled S.cap s.fp)
    (ho : s.fp.offset = o) (hn : 0 < data.length) (hbytes : data.length < 2 ^ 16) (hcap : o + data.length ≤ 128 * S.cap) :
    wp (wrtbin B data)
      (fun r s' => r = data.length ∧ s'.fp.offset = s.fp.offset + data.length ∧
        ∃ E', Content S file u E' False s'.fp s'.os ∧ LaidOut (flushed D s.fp) s.fp o data E')
      (fun _ _ => True) s := by
  have hcont : Content S file u (flushed D s.fp) False s.fp s.os := ⟨D, hon, hl, rfl, False.elim⟩
  have hpos : ∀ s₁ : Io σ, s₁.fp.offset = s.fp.offset → bufPos s₁.fp = o % 128 := by
    intro s₁ hoff₁
    unfold bufPos
    omega
  have heq := wrtbinCount_eq (o := o) hn
  have hlen : (restOf o data).length = data.length - wrtbinCount (o % 128) data.length := List.length_drop
  have hrestcap : 128 * restSector o data.length + (restOf o data).length ≤ 128 * S.cap := by
    unfold restSector
    split_ifs at heq ⊢ <;> omega
  have hx' : restSector o data.length < 2 ^ 16 := by
    unfold restSector
    split_ifs <;> omega
  refine wp_wrtbin_stages ho (List.length_pos_iff.mp hn) (wp_wrtbinClean_others hcont)
    (P := fun s₃ => s₃.fp.offset = s.fp.offset + data.length ∧
      ∃ E', Content S file u E' False s₃.fp s₃.os ∧ LaidOut (flushed D s.fp) s.fp o data E')
    (fun hw s₁ h₁ => ?_) (fun nbs hnbs hw s₁ h₁ => ?_) fun s₃ h₃ => ?_
  · -- whole sectors first
    obtain ⟨hsec₁, hoff₁, hsame₁, D₁, hon₁, hD₁⟩ := h₁
    rw [if_pos hw] at heq
    have hlabel : Labelled S.cap s₁.fp := fun _ => by omega
    have hclean : if s.fp.sector = (o / 128 % 2 ^ 16 : ℕ) then
        s₁.fp.flags.DIRTY = s.fp.flags.DIRTY ∧ s₁.fp.buffer = s.fp.buffer else s₁.fp.flags.DIRTY = false := by
      split_ifs at hsame₁ ⊢ with hlabel
      · rw [hsame₁]
        exact ⟨rfl, rfl⟩
      · exact hsame₁
    refine wp_mono (wp_wrtbinRest_records hon₁ (Nat.mod_lt _ (by decide)) hbytes (by omega) hlabel) (fun _ s₃ h₃ => ?_)
      (fun _ _ h => h)
    obtain ⟨hoff₃, r, hcont₃⟩ := h₃
    exact ⟨by omega, _, hcont₃, laidOut_whole hlabel heq hbytes hw hsec₁ hclean hD₁⟩
  · -- the buffer first
    obtain ⟨hsec₁, hoff₁, -, D₁, hon₁, hD₁⟩ := h₁
    rw [if_neg hw, ← hnbs] at heq
    have hcount : (data.take nbs).length = nbs := by
      rw [List.length_take]
      omega
    refine wp_mono (wp_wrtbinBuffer_laid hon₁ hD₁ (List.length_pos_iff.mp (by omega)) (by omega)) (fun x' s₂ h₂ => ?_)
      (fun _ _ h => h.elim)
    obtain ⟨hoff₂, ⟨D₂, hon₂, hl₂, hD₂, -⟩, hafter⟩ := h₂
    rw [hpos s₁ hoff₁, hcount, ← heq] at hafter
    rw [hpos s₁ hoff₁, ← heq] at hD₂
    have hsector : x' = restSector o data.length := by
      unfold restSector
      split_ifs at hafter ⊢
      · exact hafter.1
      · exact hafter
    rw [hsector, show data.drop nbs = restOf o data by rw [restOf, heq]]
    refine wp_mono (wp_wrtbinRest_records hon₂ hx' (by omega) hrestcap hl₂) (fun _ s₃ h₃ => ?_) (fun _ _ h => h)
    obtain ⟨hoff₃, r, hcont₃⟩ := h₃
    refine ⟨by omega, _, hcont₃, laidOut_buffered hl₂ (by omega) hbytes hD₂ fun hfull => ?_⟩
    rw [if_pos hfull] at hafter
    exact hafter.2
  · obtain ⟨hoff₃, E', hcont₃, hlaid⟩ := h₃
    exact ⟨by rw [Nat.mod_eq_of_lt hbytes], hoff₃, E', hcont₃.of_eq rfl rfl rfl rfl rfl, hlaid⟩

/-- What a call of `_wrtbin` returns. -/
theorem wp_wrtbin_count (data : List UInt8) :
    wp (wrtbin B data) (fun r _ => r = (data.length % 2 ^ 16 : ℕ)) (fun _ _ => True) s := by
  rw [wrtbin, wp_bind, wp_get, wp_bind]
  refine wp_mono (wp_const trivial) (fun _ s₁ _ => ?_) (fun _ _ h => h)
  rw [wp_bind]
  refine wp_mono (wp_const trivial) (fun x s₂ _ => ?_) (fun _ _ h => h)
  rw [wp_bind]
  refine wp_mono (wp_const trivial) (fun _ s₃ _ => ?_) (fun _ _ h => h)
  rw [wp_bind, wp_raiseHiwater, wp_pure]

/-! ### Writes that fit -/

/-- The numbers of a write of `n` bytes at `o` fit in 16 bits, as far as they are used, and the
buffer is not left stale. -/
structure BinaryFits (fp : Ccb) (o n : ℕ) : Prop where
  bytes : n < 2 ^ 16
  first : o / 128 < 2 ^ 16
  next : o % 128 ≠ 0 → 128 < o % 128 + n → o / 128 + 1 < 2 ^ 16
  last : (o + n) % 128 ≠ 0 → (o + n) / 128 < 2 ^ 16
  fresh : ¬ StaleBuffer fp o n

theorem length_restOf (o : ℕ) (data : List UInt8) :
    (restOf o data).length = data.length - wrtbinCount (o % 128) data.length := List.length_drop

/-- Then the bytes are where they belong. -/
theorem LaidOut.placed {fp : Ccb} {o : ℕ} {data : List UInt8} (h : LaidOut E fp o data E') (hn : 0 < data.length)
    (hfit : BinaryFits fp o data.length) : Placed E' o data := by
  obtain ⟨hbytes, hfirst, hnext, hlast, hfresh⟩ := hfit
  have heq := wrtbinCount_eq (o := o) hn
  have hle := wrtbinCount_le (o % 128) data.length
  have hlen := length_restOf o data
  have hstart : 128 * (o / 128 % 2 ^ 16) + o % 128 = o := by omega
  have hrest : restOf o data ≠ [] → 128 * restSector o data.length = o + wrtbinCount (o % 128) data.length := by
    intro hne
    have := List.length_pos_iff.mpr hne
    unfold restSector
    split_ifs at heq ⊢ <;> omega
  have htail : (restOf o data).drop (128 * ((restOf o data).length / 128)) ≠ [] →
      128 * tailSector (restSector o data.length) (restOf o data).length =
        o + wrtbinCount (o % 128) data.length + 128 * ((restOf o data).length / 128) := by
    intro hne
    have hpos := List.length_pos_iff.mpr hne
    rw [List.length_drop] at hpos
    have hrest := hrest (List.length_pos_iff.mp (by omega))
    unfold tailSector
    split_ifs at heq <;> omega
  rw [← List.take_append_drop (wrtbinCount (o % 128) data.length) data, placed_append]
  constructor
  · have hplaced := h.first
    rwa [hstart] at hplaced
  · rw [List.length_take, min_eq_left hle]
    show Placed E' _ (restOf o data)
    by_cases hnil : restOf o data = []
    · rw [hnil]
      exact placed_nil _
    have hwhole := h.whole hfresh
    rw [hrest hnil] at hwhole
    rw [← List.take_append_drop (128 * ((restOf o data).length / 128)) (restOf o data), placed_append]
    refine ⟨hwhole, ?_⟩
    rw [List.length_take, min_eq_left (Nat.mul_div_le _ _)]
    by_cases hend : (restOf o data).drop (128 * ((restOf o data).length / 128)) = []
    · rw [hend]
      exact placed_nil _
    · have hplaced := h.tail
      rwa [htail hend] at hplaced

/-- Otherwise there is a byte whose place does not depend on the data. -/
theorem exists_lost {fp : Ccb} {o n : ℕ} (hn : 0 < n) (hbytes : n < 2 ^ 16) (hno : ¬ BinaryFits fp o n) :
    ∃ i < n, ∃ v : Option Sector, ∀ (data : List UInt8) (E' : ℕ → Option Sector), data.length = n → LaidOut E fp o data E' →
      E' ((o + i) / 128) = v := by
  -- a sector that none of the transfers comes to
  have huntouched : ∀ i < n, (o + i) / 128 ≠ o / 128 % 2 ^ 16 → 2 ^ 16 ≤ (o + i) / 128 →
      restSector o n + (n - wrtbinCount (o % 128) n) / 128 ≤ (o + i) / 128 →
      ∃ i < n, ∃ v : Option Sector, ∀ (data : List UInt8) (E' : ℕ → Option Sector), data.length = n → LaidOut E fp o data E' →
        E' ((o + i) / 128) = v := by
    intro i hi hne hbig hrun
    refine ⟨i, hi, E ((o + i) / 128), fun data E' hlen h => h.others _ hne ?_ ?_⟩
    · rw [length_restOf, hlen]
      omega
    · unfold tailSector
      omega
  have heq := wrtbinCount_eq (o := o) hn
  have hle := wrtbinCount_le (o % 128) n
  by_cases hfirst : o / 128 < 2 ^ 16
  · by_cases hnext : o % 128 ≠ 0 → 128 < o % 128 + n → o / 128 + 1 < 2 ^ 16
    · by_cases hlast : (o + n) % 128 ≠ 0 → (o + n) / 128 < 2 ^ 16
      · -- the buffer is written over the first sector
        have hstale : StaleBuffer fp o n := by
          by_contra hfresh
          exact hno ⟨hbytes, hfirst, hnext, hlast, hfresh⟩
        refine ⟨0, hn, some fp.buffer, fun data E' hlen h => ?_⟩
        have hbuf := h.stale (hlen ▸ hstale)
        rwa [Nat.mod_eq_of_lt hfirst] at hbuf
      · -- the last bytes are behind the last sector that can be counted
        rw [Classical.not_imp, not_lt] at hlast
        refine huntouched (n - 1) (by omega) (by omega) (by omega) ?_
        unfold restSector
        split_ifs at heq ⊢ <;> omega
    · -- the sector after the first is
      rw [Classical.not_imp, Classical.not_imp, not_lt] at hnext
      refine huntouched (128 - o % 128) (by omega) (by omega) (by omega) ?_
      unfold restSector
      split_ifs at heq ⊢ <;> omega
  · -- the first sector is
    refine huntouched 0 hn (by omega) (by omega) ?_
    unfold restSector
    split_ifs at heq ⊢ <;> omega

/-- Some bytes are then misplaced. -/
theorem exists_misplaced {fp : Ccb} {o n : ℕ} (hn : 0 < n) (hbytes : n < 2 ^ 16) (hno : ¬ BinaryFits fp o n) :
    ∃ data : List UInt8, data.length = n ∧ ∀ E', LaidOut E fp o data E' → ¬ Placed E' o data := by
  obtain ⟨i, hi, v, hv⟩ := exists_lost (E := E) hn hbytes hno
  obtain ⟨c, hc⟩ : ∃ c : UInt8, v.map (fun r => r (Fin.ofNat 128 (o + i))) ≠ some c := by
    by_cases hzero : v.map (fun r => r (Fin.ofNat 128 (o + i))) = some 0
    · refine ⟨1, ?_⟩
      rw [hzero]
      decide
    · exact ⟨0, hzero⟩
  refine ⟨List.replicate n c, List.length_replicate, fun E' hlaid hplaced => hc ?_⟩
  have hitem := hplaced i (by rwa [List.length_replicate])
  rw [item, hv _ _ List.length_replicate hlaid, List.getElem_replicate] at hitem
  exact hitem

/-! ### Exact writes -/

/-- How many bytes `_wrtbin` moves to the beginning of the buffer, of `n` that do not go through
the buffer first. -/
def tailMoved (n : ℕ) : ℕ := if n ≥ 128 then n - n / 128 % 2 ^ 16 * 128 % 2 ^ 16 else n

/-- Where the bytes end that a call of `_wrtbin` moves to the buffer. -/
def bufferEnd (o n : ℕ) : ℕ :=
  max (o % 128 + wrtbinCount (o % 128) n) (tailMoved (n - wrtbinCount (o % 128) n))

theorem bufferEnd_le {o n : ℕ} (hbytes : n < 2 ^ 16) : bufferEnd o n ≤ 128 := by
  have hcount : o % 128 + wrtbinCount (o % 128) n ≤ 128 := by
    unfold wrtbinCount
    dsimp only
    split_ifs <;> omega
  refine max_le hcount ?_
  unfold tailMoved
  split_ifs <;> omega

/-- A write of `data` at offset `o` of a binary file says how many bytes it was given, if it
succeeds, puts all of them where they belong, and stays in the buffer. -/
def BinaryExact (S : RecordStore B) (file : FileId) (u : UInt16) (k o : ℕ) (w : World σ) (data : List UInt8) : Prop :=
  ∀ r w', write B k data w = .ok r w' → 0 ≤ r →
    r = data.length ∧ (w'.fds k).offset = o + data.length ∧
      (∃ E', Content S file u E' False (w'.fds k) w'.os ∧ Placed E' o data) ∧ bufferEnd o data.length ≤ 128

/-- A write of `data` to an ASCII file. -/
def AsciiExact (S : RecordStore B) (file : FileId) (u : UInt16) (k : ℕ) (f : PutState) (w : World σ) (data : List UInt8) :
    Prop :=
  ∀ r w', write B k data w = .ok r w' → 0 ≤ r →
    r = data.length ∧ PutAt S file u (f.bytes (wrtascOut 0 data)) (w'.fds k) w'.os

/-- Channel `k` has the records `D` on disk, and is at `o`. -/
def AtOffset (S : RecordStore B) (file : FileId) (u : UInt16) (D : ℕ → Option Sector) (o : ℕ) (fp : Ccb) (os : σ) : Prop :=
  S.On file u D fp os ∧ Labelled S.cap fp ∧ fp.offset = o

section Binary

variable {k o n : ℕ} {w : World σ}

theorem wp_write_binary {data : List UInt8} (h : OpenFile false false k (AtOffset S file u D o) w) (hdata : data ≠ [])
    {Q : ℤ → Ccb → σ → Prop} (hm : wp (wrtbin B data) (fun r s' => Q r s'.fp s'.os) (fun _ _ => True) ⟨w.fds k, w.os, []⟩) :
    wp (write B k data) (fun r => OpenFile false false k (Q r)) (fun _ _ => True) w := by
  refine wp_mono (h.wp_write (Q := Q) (E := fun _ _ _ => True) ?_) (fun _ _ h => h)
    (fun _ _ _ => trivial)
  rw [wp_writeFp_file h.mode hdata rfl, if_neg Bool.false_ne_true]
  exact hm

theorem wp_write_laidOut {data : List UInt8} (h : OpenFile false false k (AtOffset S file u D o) w) (hdata : data ≠ [])
    (hbytes : data.length < 2 ^ 16) (hcap : o + data.length ≤ 128 * S.cap) :
    wp (write B k data)
      (fun r w' => r = data.length ∧ (w'.fds k).offset = o + data.length ∧
        ∃ E', Content S file u E' False (w'.fds k) w'.os ∧ LaidOut (flushed D (w.fds k)) (w.fds k) o data E')
      (fun _ _ => True) w := by
  obtain ⟨hon, hl, ho⟩ := h.holds
  refine wp_mono (wp_write_binary (Q := fun r fp os => r = data.length ∧ fp.offset = o + data.length ∧
    ∃ E', Content S file u E' False fp os ∧ LaidOut (flushed D (w.fds k)) (w.fds k) o data E') h hdata ?_)
    (fun _ _ h => h.holds) (fun _ _ h => h)
  rw [← ho]
  exact wp_wrtbin_laidOut (s := ⟨w.fds k, w.os, []⟩) hon hl ho (List.length_pos_iff.mpr hdata) hbytes hcap

/-- The records of a channel. -/
theorem Content.unique {fp : Ccb} {os : σ} {c c' : Prop} (h : Content S file u E c fp os) (h' : Content S file u E' c' fp os) :
    E = E' := by
  obtain ⟨D, hon, -, rfl, -⟩ := h
  obtain ⟨D', hon', -, rfl, -⟩ := h'
  rw [Option.some.inj (hon.files.symm.trans hon'.files)]

/-- A write is exact when its numbers fit. -/
theorem binaryExact_of_fits {data : List UInt8} (h : OpenFile false false k (AtOffset S file u D o) w)
    (hcap : o + data.length ≤ 128 * S.cap) (hfit : data = [] ∨ BinaryFits (w.fds k) o data.length) :
    BinaryExact S file u k o w data := by
  intro r w' hwrite _
  by_cases hdata : data = []
  · subst hdata
    have hzero : wp (write B k []) (fun r => OpenFile false false k fun fp os => r = 0 ∧ AtOffset S file u D o fp os)
        (fun _ _ => False) w := by
      refine wp_mono (h.wp_write (Q := fun r fp os => r = 0 ∧ AtOffset S file u D o fp os)
        (E := fun _ _ _ => False) ?_) (fun _ _ h => h) (fun _ _ h => h.holds)
      rw [wp_writeFp_nil]
      exact ⟨rfl, h.holds⟩
    rw [wp_of_eq_ok hwrite] at hzero
    obtain ⟨hr, hon', hl', ho'⟩ := hzero.holds
    exact ⟨hr, ho', ⟨_, ⟨D, hon', hl', rfl, False.elim⟩, placed_nil _⟩, bufferEnd_le (by decide)⟩
  · have hfit := hfit.resolve_left hdata
    have hn := List.length_pos_iff.mpr hdata
    have hlaid := wp_write_laidOut h hdata hfit.bytes hcap
    rw [wp_of_eq_ok hwrite] at hlaid
    obtain ⟨hr, hoff, E', hcont, hlaid⟩ := hlaid
    exact ⟨hr, hoff, ⟨E', hcont, hlaid.placed hn hfit⟩, bufferEnd_le hfit.bytes⟩

/-- **Writes to a binary file are exact** if and only if their numbers fit. -/
theorem binaryExact_iff (h : OpenFile false false k (AtOffset S file u D o) w) (hcap : o + n ≤ 128 * S.cap)
    (hok : ∀ data : List UInt8, data.length = n → ∃ r w', write B k data w = .ok r w') :
    (∀ data : List UInt8, data.length = n → BinaryExact S file u k o w data) ↔ n = 0 ∨ BinaryFits (w.fds k) o n := by
  constructor
  · intro hexact
    by_contra hno
    rw [not_or] at hno
    obtain ⟨hzero, hno⟩ := hno
    have hn : 0 < n := by omega
    have hne : ∀ data : List UInt8, data.length = n → data ≠ [] := fun data hlen =>
      List.length_pos_iff.mp (by omega)
    by_cases hbytes : n < 2 ^ 16
    · obtain ⟨data, hlen, hmisplaced⟩ := exists_misplaced (E := flushed D (w.fds k)) hn hbytes hno
      obtain ⟨r, w', hwrite⟩ := hok data hlen
      subst hlen
      have hlaid := wp_write_laidOut h (hne data rfl) hbytes hcap
      rw [wp_of_eq_ok hwrite] at hlaid
      obtain ⟨hr, -, E', hcont, hlaid⟩ := hlaid
      obtain ⟨-, -, ⟨E'', hcont', hplaced⟩, -⟩ := hexact data rfl r w' hwrite (by omega)
      rw [hcont'.unique hcont] at hplaced
      exact hmisplaced E' hlaid hplaced
    · -- the count that is returned has 16 bits
      have hlen : (List.replicate n (0 : UInt8)).length = n := List.length_replicate
      obtain ⟨r, w', hwrite⟩ := hok _ hlen
      have hcount := wp_write_binary (Q := fun r _ _ => r = ((List.replicate n (0 : UInt8)).length % 2 ^ 16 : ℕ)) h (hne _ hlen)
        (wp_wrtbin_count _)
      rw [wp_of_eq_ok hwrite, hlen] at hcount
      have hr := hcount.holds
      have hret := (hexact _ hlen r w' hwrite (by omega)).1
      rw [hlen] at hret
      omega
  · intro hfit data hlen
    subst hlen
    exact binaryExact_of_fits h hcap (hfit.imp_left List.length_eq_zero_iff.mp)

end Binary

/-- **Writes to an ASCII file are exact.** -/
theorem asciiExact {k : ℕ} {w : World σ} {f : PutState} {data : List UInt8}
    (h : OpenFile false true k (PutAt S file u f) w) (hcap : f.offset + (wrtascOut 0 data).length ≤ 128 * S.cap)
    (hwhole : f.Whole (wrtascOut 0 data).length) (hn : data.length < 2 ^ 31) : AsciiExact S file u k f w data := by
  intro r w' hwrite _
  have hbytes := wp_write_bytes h hcap hwhole
  rw [wp_of_eq_ok hwrite] at hbytes
  obtain ⟨hr, hput⟩ := hbytes.holds
  exact ⟨hr.trans (toLong_of_lt hn), hput⟩

/-- **When writes are exact.** On the console and the list device: when the request has less than
65536 bytes, and, on the console, no piece of it takes all the room. On an ASCII file: always. On a
binary file: when the numbers of the write fit. -/
theorem write_exact_iff :
    (∀ (d : Device) (k : ℕ) (w : World (σ × Output)) (data : List UInt8), k < 16 → OnDevice d (w.fds k) →
      data.length < 2 ^ 31 →
      (DeviceExact B d k w data ↔ data.length < 2 ^ 16 ∧ (d = .console → fillsPiece 127 data = false))) ∧
    (∀ (S : RecordStore B) (file : FileId) (u : UInt16) (k : ℕ) (w : World σ) (f : PutState) (data : List UInt8),
      OpenFile false true k (PutAt S file u f) w → f.offset + (wrtascOut 0 data).length ≤ 128 * S.cap →
      f.Whole (wrtascOut 0 data).length → data.length < 2 ^ 31 → AsciiExact S file u k f w data) ∧
    ∀ (S : RecordStore B) (file : FileId) (u : UInt16) (D : ℕ → Option Sector) (k o n : ℕ) (w : World σ),
      OpenFile false false k (AtOffset S file u D o) w → o + n ≤ 128 * S.cap →
      (n = 0 ∨ BinaryFits (w.fds k) o n → ∀ data : List UInt8, data.length = n → BinaryExact S file u k o w data) ∧
      ((∀ data : List UInt8, data.length = n → ∃ r w', write B k data w = .ok r w') →
        ((∀ data : List UInt8, data.length = n → BinaryExact S file u k o w data) ↔ n = 0 ∨ BinaryFits (w.fds k) o n)) := by
  refine ⟨fun d k w data hk hdev hn => deviceExact_iff hk hdev hn,
    fun S file u k w f data h hcap hwhole hn => asciiExact h hcap hwhole hn,
    fun S file u D k o n w h hcap => ⟨fun hfit data hlen => ?_, fun hok => binaryExact_iff h hcap hok⟩⟩
  subst hlen
  exact binaryExact_of_fits h hcap (hfit.imp_left List.length_eq_zero_iff.mp)

/-- The list device, as channel 0. -/
def printerOpen : World (MemOs × Output) := after (openb (withOutput memOsif) lname WRITE) (coldWorld (emptyDisk, fun _ => []))

theorem onDevice_printerOpen : OnDevice .printer (printerOpen.fds 0) where
  opened := rfl
  writable := rfl
  device := ⟨rfl, fun _ => rfl⟩
  noTabs h := absurd h (by decide)

/-- Three lines, of which one is empty. -/
def threeLines : List UInt8 := [0x61, 0x62, 0x0a, 0x0a, 0x63, 0x24, 0x0a]

/-- A file with 100 bytes, which are in the buffer. -/
def hundredWritten : World MemOs := runFile memOsif 0 [.write (List.replicate 100 0x41)] (createdA 1)

theorem atOffset_hundredWritten :
    OpenFile false false 0 (AtOffset memStore (namedFile 0 [0x41]) 0 (fun _ => none) 100) hundredWritten :=
  ⟨by decide, rfl, ⟨rfl, rfl, rfl⟩, fun _ => by decide, rfl⟩

theorem flatOn_hundredWritten :
    OpenFile false false 0 (FlatOn memStore (namedFile 0 [0x41]) 0 (flatRun [.write (List.replicate 100 0x41)] ⟨[], 0⟩))
      hundredWritten := by
  obtain ⟨-, k, hk, hcreated⟩ := flatOn_created (S := memStore) notDevice_A creat_createdA known_A
  obtain rfl : k = 0 := by exact_mod_cast hk.symm
  have hempty : OpenFile false false 0 (FlatOn memStore (namedFile 0 [0x41]) 0 ⟨[], 0⟩) (createdA 1) :=
    ⟨hcreated.lt, hcreated.mode, hcreated.holds.2⟩
  exact flatOn_runFile hempty (by decide +kernel) ⟨fun _ _ h => absurd h (by decide), trivial⟩

/-- A write of less than 65536 bytes succeeds where the buffer is current and there is room. -/
theorem exists_write_of_flat {a : FlatState} {k : ℕ} {w : World σ} (h : OpenFile false false k (FlatOn S file u a) w)
    {data : List UInt8} (hdata : data ≠ []) (hbytes : data.length < 2 ^ 16) (hsmall : a.pos + data.length < 2 ^ 23)
    (hcap : a.pos + data.length ≤ 128 * S.cap) (hok : ∀ D, WriteOk (w.fds k) D data.length) :
    ∃ r w', write B k data w = .ok r w' := by
  obtain ⟨hpos, hfcap, D, hon, hflat⟩ := h.holds
  have hwrite : wp (wrtbin B data) (fun _ _ => True) (fun _ _ => False) ⟨w.fds k, w.os, []⟩ :=
    wp_mono (wp_wrtbin_flat hon hflat (hok D) hdata hbytes (by simp only [hpos]; omega) (by simp only [hpos]; omega) hfcap)
      (fun _ _ _ => trivial) fun _ _ h => h
  have hcall : wp (write B k data) (fun _ _ => True) (fun _ _ => False) w := by
    refine wp_mono (h.wp_write (Q := fun _ _ _ => True) (E := fun _ _ _ => False) ?_) (fun _ _ _ => trivial) fun _ _ h => h.holds
    rw [wp_writeFp_file h.mode hdata rfl, if_neg Bool.false_ne_true]
    exact hwrite
  obtain ⟨r, w', hok, -⟩ := exists_of_wp hcall
  exact ⟨r, w', hok⟩

/-- Three lines to the console and to an ASCII file; 300 bytes from the middle of a sector on, to a
binary file. -/
theorem write_exact_iff_lines :
    (DeviceExact willingOsif .console 0 consoleOpen threeLines ↔
      threeLines.length < 2 ^ 16 ∧ (Device.console = .console → fillsPiece 127 threeLines = false)) ∧
    AsciiExact memStore (namedFile 0 [0x41]) 0 0 ⟨fun _ => none, ((createdA 0).fds 0).buffer, -1, 0, 0⟩ (createdA 0) threeLines ∧
    ((∀ data : List UInt8, data.length = 300 → BinaryExact memStore (namedFile 0 [0x41]) 0 0 100 hundredWritten data) ↔
      300 = 0 ∨ BinaryFits (hundredWritten.fds 0) 100 300) := by
  obtain ⟨hdevice, -, -⟩ := @write_exact_iff Unit willingOsif
  obtain ⟨-, hascii, hbinary⟩ := @write_exact_iff MemOs memOsif
  refine ⟨hdevice _ 0 _ _ (by decide) onDevice_consoleOpen (by decide),
    hascii memStore _ _ 0 _ _ _ ⟨by decide, rfl, ?_, rfl, rfl, rfl, rfl⟩ (by decide +kernel) (fun j _ _ hj => ?_) (by decide),
    (hbinary memStore _ _ _ 0 100 300 _ atOffset_hundredWritten (by decide)).2 fun data hlen => ?_⟩
  · exact ⟨fun _ => none, ⟨rfl, rfl, rfl⟩, fun h => absurd h (by decide), rfl, False.elim⟩
  · have hzero : ((128 * j : ℕ) : ℤ) < 0 := hj
    omega
  · refine exists_write_of_flat flatOn_hundredWritten (List.length_pos_iff.mp (by omega)) (by omega) ?_ ?_ fun D _ => ?_
    · rw [hlen]
      decide +kernel
    · rw [hlen]
      decide +kernel
    · exact .inl rfl

/-- **A write of 65536 bytes to the list device** says that it wrote them, and the device gets nothing. -/
theorem write_exact_fails : ¬ DeviceExact memOsif .printer 0 printerOpen (List.replicate 65536 0x41) := by
  intro h
  have hlen : (List.replicate 65536 (0x41 : UInt8)).length = 65536 := List.length_replicate
  have hshort := ((deviceExact_iff (k := 0) (by decide) onDevice_printerOpen (by rw [hlen]; decide)).mp h).1
  omega

end Cpm68k.Cpmlib
