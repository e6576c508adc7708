import Cpm68k.Tools.ElfRelocs

/-!
# What `write_cpm` writes

The load file is a header, the text, padding, the data, and the relocation table. All of it goes
through `write_out`, which checks that everything was stored, but for the zero bytes, which go
through `zerofill`: that asks whether an unsigned number is negative.

## What is proved

* `issues_write_cpm` — the requests that `write_cpm` makes of the stream.
* `write_failure_noticed_iff` — a run that ends without an error has stored everything, unless
  there is room for all that is checked, and a zero byte gets lost.
* `zero_byte_lost` — a zero byte of the padding is lost, and no error is reported.
-/

namespace Cpm68k.Tools.Elf2Cpm68k

open Cpm68k.Library

variable {inp : Input} {room : ℕ → ℕ}

/-! ### Requests -/

/-- The requests of `zerofill`. -/
def fill (count : ℕ) : List (Request UInt8) := List.replicate count ⟨false, [0]⟩

/-- The requests of `copy_bytes`. -/
def copyRequests (inp : Input) : ℕ → ℕ → ℕ → List (Request UInt8)
  | 0, _, _ => []
  | fuel + 1, offset, count =>
    if count > 0 then
      let resid := if count < COPY_BUF then count else COPY_BUF
      ⟨true, slice inp.file offset (offset + resid)⟩ :: copyRequests inp fuel (offset + resid) (count - resid)
    else []

/-- The requests of the loop of `write_cpm_relocs`. -/
def relocRequests : List ℕ → ℕ → List (Request UInt8)
  | [], _ => []
  | rel :: rel_data, current_vma =>
    fill (sub32 (relAddr rel) current_vma) ++
      (⟨true, bigEndian 2 5⟩ :: ⟨true, bigEndian 2 (relType rel)⟩ :: relocRequests rel_data (add32 (relAddr rel) 4))

/-- Where the loop of `write_cpm_relocs` ends. -/
def relocEnd : List ℕ → ℕ → ℕ
  | [], current_vma => current_vma
  | rel :: rel_data, _ => relocEnd rel_data (add32 (relAddr rel) 4)

/-- The requests of `write_cpm_relocs`. -/
def tableRequests (ef : ElfFile) : List (Request UInt8) :=
  relocRequests ef.rel_data 0 ++ fill (sub32 (add32 ef.data_vmaddr ef.data_filesize) (relocEnd ef.rel_data 0))

/-- The requests of `write_cpm`. -/
def cpmRequests (inp : Input) (ef : ElfFile) : List (Request UInt8) :=
  ⟨true, cpmHeader ef⟩ :: (copyRequests inp ef.text_filesize ef.text_offset ef.text_filesize ++
    (fill (textPad ef) ++ (copyRequests inp ef.data_filesize ef.data_offset ef.data_filesize ++ tableRequests ef)))

theorem issues_zerofill (what : String) (count : ℕ) : Issues room (zerofill room what count) (fill count) () := by
  induction count with
  | zero => exact .pure ()
  | succ count ih =>
    refine issues_unchecked [0] fun stored => ?_
    rw [if_neg (Nat.not_lt_zero stored)]
    exact ih

theorem issues_write_out (what : String) (buffer : List UInt8) :
    Issues room (write_out room what buffer) [⟨true, buffer⟩] () := issues_checked buffer _

theorem issues_relocLoop (rel_data : List ℕ) (current_vma : ℕ) :
    Issues room (relocLoop room rel_data current_vma) (relocRequests rel_data current_vma) (relocEnd rel_data current_vma) := by
  induction rel_data generalizing current_vma with
  | nil => exact .pure current_vma
  | cons rel rel_data ih =>
    exact (issues_zerofill _ _).bind ((issues_write_out _ _).bind ((issues_write_out _ _).bind (ih _)))

/-- **What `write_cpm_relocs` writes.** -/
theorem issues_write_cpm_relocs (ef : ElfFile) : Issues room (write_cpm_relocs room ef) (tableRequests ef) () :=
  (issues_relocLoop _ _).bind (issues_zerofill _ _)

/-! ### The parts of the ELF file -/

/-- The file has the bytes, if there are any. -/
def HasBytes (inp : Input) (offset count : ℕ) : Prop := count = 0 ∨ offset + count ≤ inp.file.length

instance (offset count : ℕ) : Decidable (HasBytes inp offset count) := inferInstanceAs (Decidable (_ ∨ _))

/-- Every run of the program ends with an error. -/
def Raises {β : Type} (m : Writer String UInt8 β) : Prop := ∀ log : List (Call UInt8), ∃ e, m log = .error e

theorem Raises.bind {β γ : Type} {m : Writer String UInt8 β} {f : β → Writer String UInt8 γ} (h : Raises m) : Raises (m >>= f) := by
  intro log
  obtain ⟨e, he⟩ := h log
  refine ⟨e, ?_⟩
  show (m log >>= fun r => f r.1 r.2) = _
  rw [he]
  rfl

theorem Raises.after {β γ : Type} {m : Writer String UInt8 β} {f : β → Writer String UInt8 γ} (h : ∀ b, Raises (f b)) :
    Raises (m >>= f) := by
  intro log
  show ∃ e, (m log >>= fun r => f r.1 r.2) = .error e
  cases hm : m log with
  | error e => exact ⟨e, rfl⟩
  | ok r => exact h r.1 r.2

theorem length_slice_file (offset count : ℕ) :
    (slice inp.file offset (offset + count)).length = min (offset + count) inp.file.length - offset := by
  rw [slice, List.length_drop, List.length_take]

theorem length_slice_of_hasBytes {offset count : ℕ} (h : HasBytes inp offset count) :
    (slice inp.file offset (offset + count)).length = count := by
  rw [length_slice_file]
  unfold HasBytes at h
  omega

theorem issues_read_at {β : Type} {what : String} {offset count : ℕ} {f : List UInt8 → Writer String UInt8 β}
    {rs : List (Request UInt8)} {b : β} (h : HasBytes inp offset count)
    (hf : Issues room (f (slice inp.file offset (offset + count))) rs b) :
    Issues room ((liftM (read_at inp what offset count) : Writer String UInt8 (List UInt8)) >>= f) rs b := by
  have hread : read_at inp what offset count = .ok (slice inp.file offset (offset + count)) :=
    if_neg (not_not.mpr (length_slice_of_hasBytes h))
  rw [hread]
  exact hf

theorem raises_read_at {β : Type} {what : String} {offset count : ℕ} {f : List UInt8 → Writer String UInt8 β}
    (h : ¬ HasBytes inp offset count) : Raises ((liftM (read_at inp what offset count) : Writer String UInt8 (List UInt8)) >>= f) := by
  have hread : read_at inp what offset count = .error ("reading " ++ what) := by
    have hlen := @length_slice_file inp offset count
    unfold HasBytes at h
    exact if_pos (by omega)
  intro log
  rw [hread]
  exact ⟨_, rfl⟩

theorem issues_copyLoop (what : String) (fuel : ℕ) {offset count : ℕ} (h : HasBytes inp offset count) :
    Issues room (copyLoop inp room what fuel offset count) (copyRequests inp fuel offset count) () := by
  induction fuel generalizing offset count with
  | zero => exact .pure ()
  | succ fuel ih =>
    rw [copyLoop, copyRequests]
    by_cases hcount : count > 0
    · rw [if_pos hcount, if_pos hcount]
      have hle : (if count < COPY_BUF then count else COPY_BUF) ≤ count := by
        split_ifs <;> omega
      generalize (if count < COPY_BUF then count else COPY_BUF) = resid at hle
      unfold HasBytes at h ih
      refine issues_read_at (by unfold HasBytes; omega) ?_
      exact (issues_write_out _ _).bind (ih (by omega))
    · rw [if_neg hcount, if_neg hcount]
      exact .pure ()

/-- When the file does not have the bytes, copying them fails. -/
theorem raises_copyLoop (what : String) (fuel : ℕ) {offset count : ℕ} (hfuel : count ≤ fuel) (h : ¬ HasBytes inp offset count) :
    Raises (copyLoop inp room what fuel offset count) := by
  induction fuel generalizing offset count with
  | zero => exact absurd (.inl (Nat.le_zero.mp hfuel)) h
  | succ fuel ih =>
    have hpos : 0 < count := Nat.pos_of_ne_zero fun hzero => h (.inl hzero)
    rw [copyLoop, if_pos hpos]
    have hle : 0 < (if count < COPY_BUF then count else COPY_BUF) ∧ (if count < COPY_BUF then count else COPY_BUF) ≤ count := by
      unfold COPY_BUF
      split_ifs <;> omega
    generalize (if count < COPY_BUF then count else COPY_BUF) = resid at hle
    by_cases hhas : HasBytes inp offset resid
    · refine .after fun _ => .after fun _ => ih (by omega) ?_
      unfold HasBytes at h hhas ⊢
      omega
    · exact raises_read_at hhas

/-! ### `write_cpm` -/

/-- The file has the text and the data. -/
def HasSegments (inp : Input) (ef : ElfFile) : Prop :=
  HasBytes inp ef.text_offset ef.text_filesize ∧ HasBytes inp ef.data_offset ef.data_filesize

theorem issues_writePadding (ef : ElfFile) : Issues room (writePadding room ef) (fill (textPad ef)) () := by
  rw [writePadding]
  split_ifs with hpad
  · exact issues_zerofill _ _
  · rw [show textPad ef = 0 by omega]
    exact .pure ()

/-- **What `write_cpm` writes.** -/
theorem issues_write_cpm {ef : ElfFile} (h : HasSegments inp ef) :
    Issues room (write_cpm inp room ef) (cpmRequests inp ef) () :=
  (issues_write_out _ _).bind ((issues_copyLoop _ _ h.1).bind ((issues_writePadding ef).bind
    ((issues_copyLoop _ _ h.2).bind (issues_write_cpm_relocs ef))))

theorem raises_write_cpm {ef : ElfFile} (h : ¬ HasSegments inp ef) : Raises (write_cpm inp room ef) := by
  refine .after fun _ => ?_
  rcases not_and_or.mp h with htext | hdata
  · exact (raises_copyLoop _ _ le_rfl htext).bind
  · exact .after fun _ => .after fun _ => (raises_copyLoop _ _ le_rfl hdata).bind

/-- **A run that ends without an error has stored everything**, if and only if there is not room
for everything that is checked, or there is room for every zero byte too. -/
theorem write_failure_noticed_iff (inp : Input) (ef : ElfFile) (room : ℕ → ℕ) :
    (∀ log, write_cpm inp room ef [] = .ok ((), log) → ∀ call ∈ log, call.stored = call.given.length) ↔
      (HasSegments inp ef → Fits room (fun r => r.checked = true) 0 (cpmRequests inp ef) →
        Fits room (fun r => r.checked = false) 0 (cpmRequests inp ef)) := by
  by_cases hhas : HasSegments inp ef
  · have hstored := (@issues_write_cpm inp room ef hhas).stored_iff
    constructor
    · intro h _
      exact hstored.mp fun _ log hrun => h log hrun
    · intro h log hrun
      exact hstored.mpr (h hhas) () log hrun
  · refine iff_of_true (fun log hrun => ?_) fun hhas' => absurd hhas' hhas
    obtain ⟨e, he⟩ := @raises_write_cpm inp room ef hhas []
    rw [he] at hrun
    cases hrun

/-- **A zero byte is lost**: the third call, for the padding of the text, stores nothing, and
`write_cpm` ends without an error. -/
theorem zero_byte_lost : ∃ ef log, load_elf (smallElf 2 4 0 0 [] []) = .ok ef ∧
    write_cpm (smallElf 2 4 0 0 [] []) (fun k => if k = 2 then 0 else 1024) ef [] = .ok ((), log) ∧
    ∃ call ∈ log, call.stored ≠ call.given.length := by
  obtain ⟨hs, ef, -, hef, htest⟩ := exists_of_accepts (show accepts (smallElf 2 4 0 0 [] []) (fun _ ef =>
    match write_cpm (smallElf 2 4 0 0 [] []) (fun k => if k = 2 then 0 else 1024) ef [] with
    | .ok (_, log) => log.any fun call => decide (call.stored ≠ call.given.length)
    | .error _ => false) = true by decide +kernel)
  split at htest
  · next u log hrun =>
    obtain ⟨call, hcall, hlost⟩ := List.any_eq_true.mp htest
    exact ⟨ef, log, hef, hrun, call, hcall, of_decide_eq_true hlost⟩
  · cases htest

end Cpm68k.Tools.Elf2Cpm68k
