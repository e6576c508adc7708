import Cpm68k.Cpmlib.ChannelAlloc

/-!
# Output to the console and the list device

`_wrtchr` cuts what it is given into pieces that fit its local buffer, and puts a return before
every newline.

## The model

* `withOutput B` is the BDOS `B` with a record of the characters that the console and the list
  device are given.
* `wrtchrPieces` are the pieces that the loop of `_wrtchr` passes on. A piece of `n` characters
  is in `cp[1]`, …, `cp[n]`, and `_ttyout` stores a `$` in `cp[n + 1]` (`lastIndex`).

## What is proved

* `wp_wrtchrLoop_output` — the device is given the pieces, one after the other.
* `flatten_requestPieces_iff`, `exists_fullPiece_iff` — the pieces make the text if and only if it
  has less than 65536 bytes, and one of them takes all the room there is if and only if
  `fillsPiece` says so.
* `deviceExact_iff` — when a write gives the device all of the text, within the buffer.
* `wp_write_text` — a text of less than 65536 bytes is given to the device with a return before
  every newline, and is otherwise unchanged.
-/

namespace Cpm68k.Cpmlib

open Cpm68k.Library

variable {σ : Type} {B : Osif σ}

/-! ### The devices -/

/-- The devices that take characters. -/
inductive Device
  | console | printer
deriving DecidableEq

/-- What the devices have been given. -/
abbrev Output := Device → List UInt8

/-- A device is given some characters. -/
def Output.put (o : Output) (d : Device) (bs : List UInt8) : Output := Function.update o d (o d ++ bs)

theorem Output.put_put (o : Output) (d : Device) (bs cs : List UInt8) : (o.put d bs).put d cs = o.put d (bs ++ cs) := by
  unfold Output.put
  rw [Function.update_idem, Function.update_self, List.append_assoc]

theorem Output.put_nil (o : Output) (d : Device) : o.put d [] = o := by
  unfold Output.put
  rw [List.append_nil, Function.update_eq_self]

theorem Output.put_inj {o : Output} {d : Device} {bs cs : List UInt8} (h : o.put d bs = o.put d cs) : bs = cs := by
  have hd := congrFun h d
  unfold Output.put at hd
  rwa [Function.update_self, Function.update_self, List.append_cancel_left_eq] at hd

/-- The BDOS, with a record of what the devices have been given. -/
def withOutput (B : Osif σ) : Osif (σ × Output) where
  user n os := ((B.user n os.1).1, (B.user n os.1).2, os.2)
  file g fcb os := ((B.file g fcb os.1).1, (B.file g fcb os.1).2.1, (B.file g fcb os.1).2.2, os.2)
  bRead fcb os := ((B.bRead fcb os.1).1, (B.bRead fcb os.1).2.1, (B.bRead fcb os.1).2.2, os.2)
  bWrite fcb record os :=
    ((B.bWrite fcb record os.1).1, (B.bWrite fcb record os.1).2.1, (B.bWrite fcb record os.1).2.2, os.2)
  rename old new os := ((B.rename old new os.1).1, (B.rename old new os.1).2, os.2)
  conin os := ((B.conin os.1).1, (B.conin os.1).2, os.2)
  conout c os := (B.conout c os.1, os.2.put .console [c])
  conio c os := ((B.conio c os.1).1, (B.conio c os.1).2, if c = 0xff then os.2 else os.2.put .console [c])
  writestr cp os := (B.writestr cp os.1, os.2.put .console cp)
  conbuf n os := ((B.conbuf n os.1).1, (B.conbuf n os.1).2, os.2)
  lstout c os := (B.lstout c os.1, os.2.put .printer [c])
  exit os := (B.exit os.1, os.2)
  behind := B.behind

/-- The function that `_wrtchr` calls for a piece. -/
def fnoutOf (B : Osif σ) : Device → List UInt8 → IoM σ PUnit
  | .console => ttyout B
  | .printer => lstout B

/-- The highest place of the local buffer that is used for a piece. -/
def lastIndex : Device → List UInt8 → ℕ
  | .console, cp => cp.length + 1
  | .printer, cp => cp.length

/-- `_ttyout` gives the console what came before, and the characters of the piece. -/
theorem ttyoutLoop_output (buf cp : List UInt8) (os : σ × Output) :
    (ttyoutLoop (withOutput B) cp buf os).2 = os.2.put .console (cp ++ buf) := by
  induction buf generalizing cp os with
  | nil =>
    rw [ttyoutLoop, List.append_nil]
    split_ifs with hcp
    · rfl
    · rw [not_not.mp hcp, Output.put_nil]
  | cons c buf ih =>
    rw [ttyoutLoop]
    split_ifs with hc hcp
    · rw [ih]
      show ((os.2.put .console cp).put .console [dollar]).put .console ([] ++ buf) = _
      rw [Output.put_put, Output.put_put, hc, List.nil_append, List.singleton_append]
    · rw [ih]
      show (os.2.put .console [dollar]).put .console ([] ++ buf) = _
      rw [Output.put_put, hc, not_not.mp hcp, List.nil_append, List.singleton_append, List.nil_append]
    · rw [ih, List.append_assoc, List.singleton_append]

/-- `_lstout` gives the list device the characters of the piece. -/
theorem lstout_output (cp : List UInt8) (os : σ × Output) :
    (cp.foldl (fun os c => (withOutput B).lstout c os) os).2 = os.2.put .printer cp := by
  induction cp generalizing os with
  | nil => exact (Output.put_nil _ _).symm
  | cons c cp ih =>
    rw [List.foldl_cons, ih]
    show (os.2.put .printer [c]).put .printer cp = _
    rw [Output.put_put, List.singleton_append]

theorem wp_fnoutOf_output (d : Device) (cp : List UInt8) (s : Io (σ × Output)) :
    wp (fnoutOf (withOutput B) d cp) (fun _ s' => s'.os.2 = s.os.2.put d cp) (fun _ _ => False) s := by
  cases d with
  | console => exact ttyoutLoop_output cp [] s.os
  | printer => exact lstout_output cp s.os

/-! ### Pieces -/

/-- The pieces that the loop of `_wrtchr` passes on. -/
def wrtchrPieces (buf : ℕ → UInt8) (doXTabs : Bool) : ℕ → ℕ → ℕ → Int16 → List (List UInt8)
  | 0, _, _, _ => []
  | fuel + 1, nbs, i, col =>
    if nbs ≠ 0 then
      let piece := wrtchrPiece buf doXTabs SECSIZ 1 nbs i col
      piece.1 :: wrtchrPieces buf doXTabs fuel piece.2.1 piece.2.2.1 piece.2.2.2
    else []

/-- **The device is given the pieces.** -/
theorem wp_wrtchrLoop_output (d : Device) (buf : ℕ → UInt8) (doXTabs : Bool) (fuel nbs i : ℕ) (col : Int16)
    (s : Io (σ × Output)) :
    wp (wrtchrLoop (fnoutOf (withOutput B) d) buf doXTabs fuel nbs i col)
      (fun _ s' => s'.os.2 = s.os.2.put d (wrtchrPieces buf doXTabs fuel nbs i col).flatten) (fun _ _ => False) s := by
  induction fuel generalizing nbs i col s with
  | zero => exact (Output.put_nil _ _).symm
  | succ fuel ih =>
    rw [wrtchrLoop, wrtchrPieces, wp_whenever]
    split_ifs with hnbs
    · rw [wp_bind]
      refine wp_mono (wp_fnoutOf_output d _ s) (fun _ s₁ h₁ => ?_) (fun _ _ h => h)
      refine wp_mono (ih _ _ _ s₁) (fun _ s' h => ?_) (fun _ _ h => h)
      rw [h, h₁, Output.put_put, List.flatten_cons]
    · exact (Output.put_nil _ _).symm

/-- How many characters a character takes. -/
def width (c : UInt8) : ℕ := if c = newline then 2 else 1

theorem width_pos (c : UInt8) : 0 < width c := by
  unfold width
  split_ifs <;> decide

theorem width_le (c : UInt8) : width c ≤ 2 := by
  unfold width
  split_ifs <;> decide

/-- What a device is given for a text. -/
def deviceText (data : List UInt8) : List UInt8 :=
  data.flatMap fun c => if c = newline then [carriageReturn, newline] else [c]

theorem deviceText_append (data rest : List UInt8) : deviceText (data ++ rest) = deviceText data ++ deviceText rest :=
  List.flatMap_append ..

theorem length_deviceText_cons (c : UInt8) (data : List UInt8) :
    (deviceText (c :: data)).length = width c + (deviceText data).length := by
  unfold deviceText width
  rw [List.flatMap_cons, List.length_append]
  split_ifs <;> rfl

/-- The beginning of a text that fits in a number of characters, and the rest. -/
def takeFit : ℕ → List UInt8 → List UInt8 × List UInt8
  | _, [] => ([], [])
  | room, c :: data =>
    if width c ≤ room then (c :: (takeFit (room - width c) data).1, (takeFit (room - width c) data).2)
    else ([], c :: data)

theorem takeFit_append (room : ℕ) (data : List UInt8) : (takeFit room data).1 ++ (takeFit room data).2 = data := by
  induction data generalizing room with
  | nil => rfl
  | cons c data ih =>
    rw [takeFit]
    split_ifs
    · rw [List.cons_append, ih]
    · rfl

theorem length_takeFit_le (room : ℕ) (data : List UInt8) : (deviceText (takeFit room data).1).length ≤ room := by
  induction data generalizing room with
  | nil => exact Nat.zero_le _
  | cons c data ih =>
    rw [takeFit]
    split_ifs with hfit
    · rw [length_deviceText_cons]
      have := ih (room - width c)
      omega
    · exact Nat.zero_le _

/-- One piece. -/
theorem wrtchrPiece_eq {buf : ℕ → UInt8} (fuel ii i : ℕ) (col : Int16) (data : List UInt8)
    (hbuf : ∀ j (hj : j < data.length), buf (i + j) = data[j]) (hfuel : 128 ≤ fuel + ii) :
    ∃ col', wrtchrPiece buf false fuel ii data.length i col =
      (deviceText (takeFit (128 - ii) data).1, (takeFit (128 - ii) data).2.length, i + (takeFit (128 - ii) data).1.length, col') := by
  induction fuel generalizing ii i col data with
  | zero =>
    refine ⟨col, ?_⟩
    rw [show 128 - ii = 0 by omega]
    cases data with
    | nil => rfl
    | cons c data =>
      have := width_pos c
      rw [takeFit, if_neg (by omega)]
      rfl
  | succ fuel ih =>
    cases data with
    | nil => exact ⟨col, by simp [wrtchrPiece, takeFit, deviceText]⟩
    | cons c data =>
      have hc : buf i = c := hbuf 0 (Nat.succ_pos _)
      have hrest : ∀ j (hj : j < data.length), buf (i + 1 + j) = data[j] := by
        intro j hj
        have := hbuf (j + 1) (by rw [List.length_cons]; omega)
        rwa [List.getElem_cons_succ, show i + (j + 1) = i + 1 + j by omega] at this
      have hnbs : (c :: data).length ≠ 0 := by simp
      have hleft : (c :: data).length - 1 = data.length := rfl
      rw [wrtchrPiece, takeFit, hc, show SECSIZ = 128 from rfl]
      by_cases hroom : ii < 128
      · rw [if_pos ⟨hroom, hnbs⟩]
        by_cases hnewline : c = newline
        · have hwidth : width c = 2 := if_pos hnewline
          rw [if_pos hnewline, hwidth]
          by_cases hfull : ii + 1 ≥ 128
          · rw [if_pos hfull, if_neg (by omega)]
            exact ⟨-1, rfl⟩
          · obtain ⟨col', hpiece⟩ := ih (ii + 2) (i + 1) 0 data hrest (by omega)
            rw [show 128 - (ii + 2) = 128 - ii - 2 by omega] at hpiece
            rw [if_neg hfull, if_pos (by omega), hleft, hpiece]
            refine ⟨col', ?_⟩
            simp only [deviceText, List.flatMap_cons, if_pos hnewline, List.length_cons]
            rw [show i + 1 + (takeFit (128 - ii - 2) data).1.length = i + ((takeFit (128 - ii - 2) data).1.length + 1) by omega]
            rfl
        · have hwidth : width c = 1 := if_neg hnewline
          obtain ⟨col', hpiece⟩ := ih (ii + 1) (i + 1) (col + 1) data hrest (by omega)
          rw [show 128 - (ii + 1) = 128 - ii - 1 by omega] at hpiece
          rw [if_neg hnewline, if_neg (by simp), hwidth, if_pos (by omega), hleft, hpiece]
          refine ⟨col', ?_⟩
          simp only [deviceText, List.flatMap_cons, if_neg hnewline, List.length_cons]
          rw [show i + 1 + (takeFit (128 - ii - 1) data).1.length = i + ((takeFit (128 - ii - 1) data).1.length + 1) by omega]
          rfl
      · have hpos := width_pos c
        rw [if_neg fun h => hroom h.1, if_neg (by omega)]
        exact ⟨col, rfl⟩

theorem length_takeFit_lt {room : ℕ} {data : List UInt8} (hdata : data ≠ []) (hroom : 2 ≤ room) :
    (takeFit room data).2.length < data.length := by
  cases data with
  | nil => exact absurd rfl hdata
  | cons c data =>
    have hfit : width c ≤ room := (width_le c).trans hroom
    have hlen := congrArg List.length (takeFit_append (room - width c) data)
    rw [List.length_append] at hlen
    rw [takeFit, if_pos hfit, List.length_cons]
    simp only
    omega

/-- A text cut into pieces that fit in 127 characters. -/
def cut : ℕ → List UInt8 → List (List UInt8)
  | 0, _ => []
  | fuel + 1, data => if data = [] then [] else (takeFit 127 data).1 :: cut fuel (takeFit 127 data).2

/-- What `_wrtchr` passes on is the text cut into pieces. -/
theorem wrtchrPieces_eq {buf : ℕ → UInt8} (fuel i : ℕ) (col : Int16) (data : List UInt8)
    (hbuf : ∀ j (hj : j < data.length), buf (i + j) = data[j]) :
    wrtchrPieces buf false fuel data.length i col = (cut fuel data).map deviceText := by
  induction fuel generalizing i col data with
  | zero => rfl
  | succ fuel ih =>
    rw [wrtchrPieces, cut]
    by_cases hdata : data = []
    · rw [if_pos hdata, if_neg (by rw [hdata]; decide)]
      rfl
    · obtain ⟨col', hpiece⟩ := wrtchrPiece_eq SECSIZ 1 i col data hbuf (by decide)
      have hlen : data.length ≠ 0 := fun h => hdata (List.length_eq_zero_iff.mp h)
      rw [if_neg hdata, if_pos hlen, hpiece, List.map_cons]
      refine congrArg (List.cons (deviceText (takeFit 127 data).1)) (ih _ _ _ fun j hj => ?_)
      have happ := takeFit_append (128 - 1) data
      have hlen' := congrArg List.length happ
      rw [List.length_append] at hlen'
      have hget := hbuf ((takeFit (128 - 1) data).1.length + j) (by omega)
      rw [← Nat.add_assoc] at hget
      rw [hget]
      have heq : ((takeFit (128 - 1) data).1 ++ (takeFit (128 - 1) data).2)[(takeFit (128 - 1) data).1.length + j]? =
          (takeFit (128 - 1) data).2[j]? := by
        rw [List.getElem?_append_right (by omega), Nat.add_sub_cancel_left]
      rw [happ, List.getElem?_eq_getElem (by omega), List.getElem?_eq_getElem hj] at heq
      exact Option.some.inj heq

theorem flatten_cut (fuel : ℕ) (data : List UInt8) (h : data.length ≤ fuel) :
    ((cut fuel data).map deviceText).flatten = deviceText data := by
  induction fuel generalizing data with
  | zero =>
    obtain rfl : data = [] := List.length_eq_zero_iff.mp (by omega)
    rfl
  | succ fuel ih =>
    rw [cut]
    split_ifs with hdata
    · rw [hdata]
      rfl
    · have hlt := length_takeFit_lt hdata (show 2 ≤ 127 by decide)
      rw [List.map_cons, List.flatten_cons, ih _ (by omega), ← deviceText_append, takeFit_append]

theorem length_le_of_mem_cut {fuel : ℕ} {data t : List UInt8} (h : t ∈ cut fuel data) : (deviceText t).length ≤ 127 := by
  induction fuel generalizing data with
  | zero => cases h
  | succ fuel ih =>
    rw [cut] at h
    split_ifs at h with hdata
    · cases h
    · rcases List.mem_cons.mp h with rfl | h
      · exact length_takeFit_le 127 data
      · exact ih h

/-- Written in lines of 127 characters, of which so many are left in the first, the text fills one
of them. A newline takes two characters, and is not divided. -/
def fillsPiece : ℕ → List UInt8 → Bool
  | _, [] => false
  | room, c :: data =>
    if width c = room then true
    else if width c < room then fillsPiece (room - width c) data
    else fillsPiece (127 - width c) data

theorem fillsPiece_iff (data : List UInt8) {room : ℕ} (hroom : 0 < room) :
    fillsPiece room data = true ↔
      (deviceText (takeFit room data).1).length = room ∨ fillsPiece 127 (takeFit room data).2 = true := by
  induction data generalizing room with
  | nil =>
    simp only [takeFit, fillsPiece, deviceText, List.flatMap_nil, List.length_nil]
    exact iff_of_false (by decide) (by simp; omega)
  | cons c data ih =>
    have hpos := width_pos c
    have hle := width_le c
    rw [fillsPiece, takeFit]
    rcases Nat.lt_trichotomy (width c) room with hlt | heq | hgt
    · rw [if_neg (by omega), if_pos hlt, if_pos (by omega), ih (by omega), length_deviceText_cons]
      exact or_congr (by omega) Iff.rfl
    · have hnone : (deviceText (takeFit (room - width c) data).1).length = 0 := by
        have := length_takeFit_le (room - width c) data
        omega
      rw [if_pos heq, if_pos (by omega), length_deviceText_cons, hnone]
      exact iff_of_true rfl (.inl (by omega))
    · rw [if_neg (by omega), if_neg (by omega), if_neg (by omega), fillsPiece, if_neg (by omega), if_pos (by omega)]
      simp only [deviceText, List.flatMap_nil, List.length_nil]
      exact ⟨.inr, fun h => h.resolve_left (by omega)⟩

/-- One of the pieces takes all the room there is. -/
theorem exists_fullPiece_iff (fuel : ℕ) (data : List UInt8) (h : data.length ≤ fuel) :
    (∃ t ∈ cut fuel data, (deviceText t).length = 127) ↔ fillsPiece 127 data = true := by
  induction fuel generalizing data with
  | zero =>
    obtain rfl : data = [] := List.length_eq_zero_iff.mp (by omega)
    simp [cut, fillsPiece]
  | succ fuel ih =>
    rw [cut]
    split_ifs with hdata
    · subst hdata
      simp [fillsPiece]
    · have hlt := length_takeFit_lt hdata (show 2 ≤ 127 by decide)
      rw [fillsPiece_iff data (by decide), ← ih _ (by omega)]
      simp only [List.mem_cons, exists_eq_or_imp]

/-! ### Writes -/

/-- The channel is on the device, can be written, and does not expand tabs. -/
structure OnDevice (d : Device) (fp : Ccb) : Prop where
  opened : fp.flags.OPENED = true
  writable : fp.flags.ISREAD = false
  device : fp.flags.ISTTY = decide (d = .console) ∧ (d = .printer → fp.flags.ISLPT = true)
  noTabs : fp.flags.ISSPTTY = true → sgHas fp.fcb.sgttyb XTABS = false

/-- The pieces of a request. -/
def requestPieces (B : Osif σ) (data : List UInt8) : List (List UInt8) :=
  wrtchrPieces (textAt B data) false (2 ^ 32) (data.length % 2 ^ 16) 0 0

/-- A write of `data` to the device says how many bytes it was given, if it succeeds, and gives
the device all of them, within the local buffer. -/
def DeviceExact (B : Osif σ) (d : Device) (fd : ℤ) (w : World (σ × Output)) (data : List UInt8) : Prop :=
  ∀ r w', write (withOutput B) fd data w = .ok r w' → 0 ≤ r →
    r = data.length ∧ w'.os.2 = w.os.2.put d (deviceText data) ∧ ∀ cp ∈ requestPieces B data, lastIndex d cp < 128

theorem OnDevice.writeFits {d : Device} {fp : Ccb} (h : OnDevice d fp) (data : List UInt8) : WriteFits fp data := by
  refine writeFits_of_device ?_
  cases d with
  | console => exact .inl h.device.1
  | printer => exact .inr (h.device.2 rfl)

/-- `write` on a channel on the device. -/
theorem wp_write_onDevice {τ : Type} {B : Osif τ} {d : Device} {k : ℕ} {w : World τ} {data : List UInt8}
    {Q : ℤ → World τ → Prop} {E : Errno → World τ → Prop} (hk : k < 16) (hdev : OnDevice d (w.fds k)) :
    wp (write B k data) Q E w =
      wp (writeFp B data) (fun r s => Q r { w with fds := Function.update w.fds k s.fp, os := s.os })
        (fun e s => E e { w with fds := Function.update w.fds k s.fp, os := s.os }) ⟨w.fds k, w.os, []⟩ :=
  wp_write_fits (by exact_mod_cast hk) hdev.opened (hdev.writeFits data)

/-- What a write to a device does. -/
theorem wp_write_device {d : Device} {k : ℕ} {w : World (σ × Output)} {data : List UInt8} (hk : k < 16)
    (hdev : OnDevice d (w.fds k)) (hdata : data ≠ []) :
    wp (write (withOutput B) k data)
      (fun r w' => r = toLong data.length ∧ w'.os.2 = w.os.2.put d (requestPieces B data).flatten) (fun _ _ => False) w := by
  obtain ⟨htty, hlpt⟩ := hdev.device
  have hlen : data.length ≠ 0 := fun h => hdata (List.length_eq_zero_iff.mp h)
  have hnotabs : ((w.fds k).flags.ISSPTTY && sgHas (w.fds k).fcb.sgttyb XTABS) = false := by
    cases hsp : (w.fds k).flags.ISSPTTY with
    | false => rfl
    | true => exact hdev.noTabs hsp
  have hloop : ∀ s : Io (σ × Output), s.os.2 = w.os.2 → wp (do
      wrtchrLoop (fnoutOf (withOutput B) d) (textAt B data) false (2 ^ 32) (data.length % 2 ^ 16) 0 0
      pure (toLong data.length))
      (fun r s' => r = toLong data.length ∧ s'.os.2 = w.os.2.put d (requestPieces B data).flatten) (fun _ _ => False) s := by
    intro s hs
    rw [wp_bind, ← hs]
    exact wp_mono (wp_wrtchrLoop_output d _ _ _ _ _ _ s) (fun _ _ h => ⟨rfl, h⟩) (fun _ _ h => h)
  rw [wp_write_onDevice hk hdev, writeFp, wp_bind, wp_get, wp_ite, if_neg hlen, wp_ite, if_neg (by simp [hdev.writable]), wp_ite]
  cases d with
  | console =>
    have htty' : (w.fds k).flags.ISTTY = true := htty
    rw [if_pos (.inl htty'), wrtchr, wp_bind, wp_get]
    simp only [hnotabs, htty', if_true]
    exact hloop _ rfl
  | printer =>
    have htty' : (w.fds k).flags.ISTTY = false := htty
    rw [if_pos (.inr (.inl (hlpt rfl))), wrtchr, wp_bind, wp_get]
    simp only [hnotabs, htty', hlpt rfl, if_true, Bool.false_eq_true, if_false]
    exact hloop _ rfl

/-- The pieces are those of as many bytes as the 16-bit count says. -/
theorem requestPieces_eq (data : List UInt8) :
    requestPieces B data = (cut (2 ^ 32) (data.take (data.length % 2 ^ 16))).map deviceText := by
  have hlen : (data.take (data.length % 2 ^ 16)).length = data.length % 2 ^ 16 := by
    rw [List.length_take, min_eq_left (Nat.mod_le _ _)]
  have hpieces := @wrtchrPieces_eq (textAt B data) (2 ^ 32) 0 0 (data.take (data.length % 2 ^ 16)) fun j hj => by
    rw [List.length_take] at hj
    rw [textAt, Nat.zero_add, List.getElem_take, List.getD_eq_getElem?_getD, List.getElem?_eq_getElem (by omega),
      Option.getD_some]
  rw [hlen] at hpieces
  exact hpieces

theorem deviceText_ne_nil {data : List UInt8} (h : data ≠ []) : deviceText data ≠ [] := by
  cases data with
  | nil => exact absurd rfl h
  | cons c data =>
    intro hnil
    have hpos := width_pos c
    have hlen := congrArg List.length hnil
    rw [length_deviceText_cons, List.length_nil] at hlen
    omega

/-- All the text is given to the device if and only if its length fits in 16 bits. -/
theorem flatten_requestPieces_iff {data : List UInt8} (hn : data.length < 2 ^ 31) :
    (requestPieces B data).flatten = deviceText data ↔ data.length < 2 ^ 16 := by
  rw [requestPieces_eq, flatten_cut _ _ (by rw [List.length_take]; omega)]
  constructor
  · intro heq
    by_contra hlong
    have hsplit := deviceText_append (data.take (data.length % 2 ^ 16)) (data.drop (data.length % 2 ^ 16))
    rw [List.take_append_drop, heq, List.self_eq_append_right] at hsplit
    refine deviceText_ne_nil ?_ hsplit
    rw [Ne, List.drop_eq_nil_iff]
    omega
  · intro hshort
    rw [Nat.mod_eq_of_lt hshort, List.take_length]

theorem lastIndex_requestPieces_iff (d : Device) {data : List UInt8} (hshort : data.length < 2 ^ 16) :
    (∀ cp ∈ requestPieces B data, lastIndex d cp < 128) ↔ (d = .console → fillsPiece 127 data = false) := by
  rw [requestPieces_eq, Nat.mod_eq_of_lt hshort, List.take_length]
  simp only [List.mem_map, forall_exists_index, and_imp, forall_apply_eq_imp_iff₂]
  cases d with
  | printer => exact iff_of_true (fun t ht => Nat.lt_succ_of_le (length_le_of_mem_cut ht)) fun h => by cases h
  | console =>
    have hfull := exists_fullPiece_iff (2 ^ 32) data (by omega)
    rw [← Bool.not_eq_true, ← hfull]
    constructor
    · rintro hall - ⟨t, ht, hlen⟩
      have hlast : (deviceText t).length + 1 < 128 := hall t ht
      omega
    · intro hno t ht
      have hle := length_le_of_mem_cut ht
      show (deviceText t).length + 1 < 128
      by_contra hlast
      exact hno rfl ⟨t, ht, by omega⟩

/-- **A write to a device is exact** if and only if it is for less than 65536 bytes, and, on the
console, no piece takes all the room. -/
theorem deviceExact_iff {d : Device} {k : ℕ} {w : World (σ × Output)} {data : List UInt8} (hk : k < 16)
    (hdev : OnDevice d (w.fds k)) (hn : data.length < 2 ^ 31) :
    DeviceExact B d k w data ↔ data.length < 2 ^ 16 ∧ (d = .console → fillsPiece 127 data = false) := by
  by_cases hdata : data = []
  · subst hdata
    refine iff_of_true (fun r w' hwrite _ => ?_) ⟨by decide, fun _ => rfl⟩
    have hzero : wp (write (withOutput B) k []) (fun r w' => r = 0 ∧ w'.os.2 = w.os.2) (fun _ _ => False) w := by
      rw [wp_write_onDevice hk hdev, wp_writeFp_nil]
      exact ⟨rfl, rfl⟩
    rw [wp_of_eq_ok hwrite] at hzero
    exact ⟨hzero.1, hzero.2.trans (Output.put_nil _ _).symm, fun cp hcp => by cases hcp⟩
  · obtain ⟨r, w', hwrite, hr, hout⟩ := exists_of_wp (wp_write_device (B := B) hk hdev hdata)
    have hret : r = data.length := hr.trans (toLong_of_lt hn)
    constructor
    · intro hexact
      obtain ⟨-, hput, hlast⟩ := hexact r w' hwrite (by omega)
      have hshort := (flatten_requestPieces_iff hn).mp (Output.put_inj (hout.symm.trans hput))
      exact ⟨hshort, (lastIndex_requestPieces_iff d hshort).mp hlast⟩
    · rintro ⟨hshort, hfill⟩ r₂ w₂ hwrite₂ -
      injection hwrite.symm.trans hwrite₂ with hr₂ hw₂
      rw [← hr₂, ← hw₂]
      refine ⟨hret, ?_, (lastIndex_requestPieces_iff d hshort).mpr hfill⟩
      rw [hout, (flatten_requestPieces_iff hn).mpr hshort]

/-- **Device output is the translated text**, wherever the pieces end. -/
theorem wp_write_text {d : Device} {k : ℕ} {w : World (σ × Output)} {data : List UInt8} (hk : k < 16)
    (hdev : OnDevice d (w.fds k)) (hshort : data.length < 65536) :
    wp (write (withOutput B) k data) (fun r w' => r = data.length ∧ w'.os.2 = w.os.2.put d (deviceText data))
      (fun _ _ => False) w := by
  by_cases hdata : data = []
  · subst hdata
    rw [wp_write_onDevice hk hdev, wp_writeFp_nil]
    exact ⟨rfl, (Output.put_nil _ _).symm⟩
  · refine wp_mono (wp_write_device hk hdev hdata) (fun r w' ⟨hr, hout⟩ => ⟨?_, ?_⟩) (fun _ _ h => h)
    · rw [hr, toLong_of_lt (by omega)]
    · rw [hout, (flatten_requestPieces_iff (by omega)).mpr hshort]

/-- The console, as channel 0. -/
def consoleOpen : World (Unit × Output) := after (openb (withOutput willingOsif) tname WRITE) (coldWorld ((), fun _ => []))

theorem onDevice_consoleOpen : OnDevice .console (consoleOpen.fds 0) where
  opened := rfl
  writable := rfl
  device := ⟨rfl, fun h => by cases h⟩
  noTabs h := absurd h (by decide)

/-- `a$`, newline, `$$b`. -/
theorem wp_write_text_dollars :
    wp (write (withOutput willingOsif) 0 [0x61, 0x24, 0x0a, 0x24, 0x24, 0x62])
      (fun r w' => r = 6 ∧ w'.os.2 = consoleOpen.os.2.put .console [0x61, 0x24, 0x0d, 0x0a, 0x24, 0x24, 0x62])
      (fun _ _ => False) consoleOpen :=
  wp_write_text (d := .console) (k := 0) (by decide) onDevice_consoleOpen (by decide)

end Cpm68k.Cpmlib
