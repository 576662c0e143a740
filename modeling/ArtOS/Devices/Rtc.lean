import ArtOS.Devices.Terminal
import Mathlib.Order.Monotone.Defs
import Mathlib.Tactic.IntervalCases

/-! `read_rtc`, and the clock that it reads: two equal passes within a minute have seen one instant, if each
register was read while the update flag was clear. The flag is only looked at before a pass. The conversion
from a clock of 12 hours adds 12 to the hour at noon as well, and leaves the one at midnight. -/
namespace ArtOS

/-- What day it is, so many days from the start of the clock. -/
structure Calendar where
  days : Nat → Nat
  months : Nat → Nat
  years : Nat → Nat
  days_le : ∀ n, days n ≤ 31
  months_le : ∀ n, months n ≤ 12
  years_lt : ∀ n, years n < 10000

structure DateTime where
  seconds : Nat
  minutes : Nat
  hours : Nat
  days : Nat
  months : Nat
  years : Nat

/-- The date after so many seconds. -/
def Calendar.dateTime (c : Calendar) (t : Nat) : DateTime where
  seconds := t % 60
  minutes := t / 60 % 60
  hours := t / 3600 % 24
  days := c.days (t / 86400)
  months := c.months (t / 86400)
  years := c.years (t / 86400)

abbrev centuryReg : Nat := 0x32

abbrev currentYear : Nat := 2018

/-! The two settings of register B. -/

abbrev IsBcd (registerB : BitVec 8) : Prop := registerB &&& 0x04 = 0

abbrev Is12Hour (registerB : BitVec 8) : Prop := registerB &&& 0x02 = 0

def toBcd (v : Nat) : BitVec 8 := BitVec.ofNat 8 (v / 10 * 16 + v % 10)

def encode (registerB : BitVec 8) (v : Nat) : BitVec 8 :=
  if IsBcd registerB then toBcd v else BitVec.ofNat 8 v

/-- A clock of 12 hours shows 12 for noon and midnight, and has a bit for the second half of the day. -/
def encodeHours (registerB : BitVec 8) (h : Nat) : BitVec 8 :=
  if Is12Hour registerB then
    encode registerB (if h % 12 = 0 then 12 else h % 12) ||| (if h < 12 then 0 else 0x80)
  else encode registerB h

/-- A history of the clock. A register is read at a moment, and between two of them the clock may advance,
whatever the update flag shows. While the flag is set, the registers of the date show anything. -/
structure Rtc where
  clock : Nat → Nat
  mono : Monotone clock
  updating : Nat → Bool
  shown : Nat → Nat → BitVec 8
  registerB : BitVec 8
  calendar : Calendar

/-- What the registers of the date show. -/
def DateTime.register (registerB : BitVec 8) (d : DateTime) : Nat → BitVec 8
  | 0x00 => encode registerB d.seconds
  | 0x02 => encode registerB d.minutes
  | 0x04 => encodeHours registerB d.hours
  | 0x07 => encode registerB d.days
  | 0x08 => encode registerB d.months
  | 0x09 => encode registerB (d.years % 100)
  | 0x32 => encode registerB (d.years / 100)
  | _ => 0

/-- The registers of a pass. -/
structure RtcRegisters where
  seconds : BitVec 8
  minutes : BitVec 8
  hours : BitVec 8
  days : BitVec 8
  months : BitVec 8
  years : BitVec 8
  century : BitVec 8
  deriving DecidableEq

/-- What `read_rtc` leaves, and what it prints. -/
structure RtcResult where
  seconds : BitVec 8
  minutes : BitVec 8
  hours : BitVec 8
  days : BitVec 8
  months : BitVec 8
  years : Nat
  printed : List (BitVec 8)

def fromBcd (v : BitVec 8) : BitVec 8 := (v &&& 0x0F) + v / 16 * 10

/-- The hours keep the bit for the second half of the day. -/
def bcdHours (v : BitVec 8) : BitVec 8 := ((v &&& 0x0F) + (v &&& 0x70) / 16 * 10) ||| (v &&& 0x80)

def hours24 (registerB v : BitVec 8) : BitVec 8 :=
  if Is12Hour registerB ∧ v &&& 0x80 ≠ 0 then ((v &&& 0x7F) + 12) % 24 else v

/-- `read_rtc` behind its loop. -/
def RtcRegisters.convert (registerB : BitVec 8) (x : RtcRegisters) : RtcResult :=
  let x := if IsBcd registerB then
      { seconds := fromBcd x.seconds
        minutes := fromBcd x.minutes
        hours := bcdHours x.hours
        days := fromBcd x.days
        months := fromBcd x.months
        years := fromBcd x.years
        century := if centuryReg ≠ 0 then fromBcd x.century else x.century }
    else x
  let years :=
    if centuryReg ≠ 0 then x.years.toNat + x.century.toNat * 100
    else
      let years := x.years.toNat + currentYear / 100 * 100
      if years < currentYear then years + 100 else years
  { seconds := x.seconds
    minutes := x.minutes
    hours := hours24 registerB x.hours
    days := x.days
    months := x.months
    years := years
    printed := if years < 2017 then ascii "ArtOS was made in 2017, are you the time traveller?" else [] }

namespace Rtc

variable (r : Rtc)

def date (m : Nat) : DateTime := r.calendar.dateTime (r.clock m)

/-- `rtc_register` at a moment. -/
def register (m reg : Nat) : BitVec 8 :=
  match reg with
  | 0x0A => if r.updating m then 0x80 else 0
  | 0x0B => r.registerB
  | _ => if r.updating m then r.shown m reg else (r.date m).register r.registerB reg

def progressFlagUpdates (m : Nat) : BitVec 8 := r.register m 0x0A &&& 0x80

/-- The loop that waits for the end of an update, from this moment on. -/
def waitUpdate : Nat → Nat → Option Nat
  | 0, _ => none
  | fuel + 1, m => if r.progressFlagUpdates m ≠ 0 then waitUpdate fuel (m + 1) else some (m + 1)

/-- The reads of a pass that starts at this moment. -/
def readPass (m : Nat) : RtcRegisters where
  seconds := r.register m 0x00
  minutes := r.register (m + 1) 0x02
  hours := r.register (m + 2) 0x04
  days := r.register (m + 3) 0x07
  months := r.register (m + 4) 0x08
  years := r.register (m + 5) 0x09
  century := if centuryReg ≠ 0 then r.register (m + 6) centuryReg else 0

/-- The loop. It gives the moments at which the last two passes have started. -/
def rtcLoop : Nat → Nat → RtcRegisters → Option (Nat × Nat × RtcRegisters)
  | 0, _, _ => none
  | fuel + 1, a, last =>
      (r.waitUpdate fuel (a + 7)).bind fun b =>
        if last ≠ r.readPass b then rtcLoop fuel b (r.readPass b) else some (a, b, r.readPass b)

def readRtc (fuel : Nat) : Option (Nat × Nat × RtcResult) :=
  (r.waitUpdate fuel 0).bind fun a =>
    (r.rtcLoop fuel a (r.readPass a)).map fun y => (y.1, y.2.1, y.2.2.convert (r.register (y.2.1 + 7) 0x0B))

/-- Two passes that follow each other: the first one has not ended the loop. -/
inductive Consecutive : Nat → Nat → Prop
  | first {fuel fuel' a b : Nat} (hFirst : r.waitUpdate fuel 0 = some a)
      (hNext : r.waitUpdate fuel' (a + 7) = some b) : Consecutive a b
  | next {fuel a b c : Nat} (h : Consecutive a b) (hOther : r.readPass a ≠ r.readPass b)
      (hNext : r.waitUpdate fuel (b + 7) = some c) : Consecutive b c

/-- The register that a pass reads at its `i`th moment. -/
def passRegister : Nat → Nat
  | 0 => 0x00
  | 1 => 0x02
  | 2 => 0x04
  | 3 => 0x07
  | 4 => 0x08
  | 5 => 0x09
  | _ => centuryReg

/-- Each register is read in one of the two passes while the update flag is clear, and then shows what it
shows for the date of this moment. -/
def Settled (a b m : Nat) : Prop :=
  ∀ i ≤ 6, ∃ p, (p = a ∨ p = b) ∧ r.updating (p + i) = false ∧
    (r.date (p + i)).register r.registerB (passRegister i) = (r.date m).register r.registerB (passRegister i)

end Rtc

/-- The registers in the order in which a pass reads them. -/
def RtcRegisters.get (x : RtcRegisters) : Nat → BitVec 8
  | 0 => x.seconds
  | 1 => x.minutes
  | 2 => x.hours
  | 3 => x.days
  | 4 => x.months
  | 5 => x.years
  | _ => x.century

/-- The variables show this date. -/
structure RtcResult.Shows (v : RtcResult) (d : DateTime) : Prop where
  seconds : v.seconds.toNat = d.seconds
  minutes : v.minutes.toNat = d.minutes
  hours : v.hours.toNat = d.hours
  days : v.days.toNat = d.days
  months : v.months.toNat = d.months
  years : v.years = d.years

/-- The registers that show a date. -/
def DateTime.registers (registerB : BitVec 8) (d : DateTime) : RtcRegisters where
  seconds := encode registerB d.seconds
  minutes := encode registerB d.minutes
  hours := encodeHours registerB d.hours
  days := encode registerB d.days
  months := encode registerB d.months
  years := encode registerB (d.years % 100)
  century := encode registerB (d.years / 100)

/-- The hour that the conversion gives. -/
def convertedHours (registerB : BitVec 8) (h : Nat) : Nat :=
  if Is12Hour registerB then if h = 0 then 12 else if h = 12 then 0 else h else h

variable {registerB : BitVec 8} {v h : Nat}

/-- The conversion of a field other than the hours. -/
def decode (registerB v : BitVec 8) : BitVec 8 := if IsBcd registerB then fromBcd v else v

theorem fromBcd_toBcd : ∀ v < 100, fromBcd (toBcd v) = BitVec.ofNat 8 v := by decide

/-- The conversion of a field undoes its encoding. -/
theorem decode_encode (registerB : BitVec 8) (hv : v < 100) : (decode registerB (encode registerB v)).toNat = v := by
  have hByte : (BitVec.ofNat 8 v).toNat = v := Nat.mod_eq_of_lt (by omega)
  rw [decode, encode]
  split
  · rw [fromBcd_toBcd v hv, hByte]
  · exact hByte

/-- Two values with the same register are the same. -/
theorem encode_injective {w : Nat} (registerB : BitVec 8) (hv : v < 100) (hw : w < 100)
    (h : encode registerB v = encode registerB w) : v = w := by
  rw [← decode_encode registerB hv, h, decode_encode registerB hw]

/-! The hours, for each of the settings. -/

theorem bcdHours_toBcd : ∀ h < 24, bcdHours (toBcd h) = BitVec.ofNat 8 h := by decide

/-- The register of a clock of 12 hours, once its digits are converted. -/
def halfDay (h : Nat) : BitVec 8 := BitVec.ofNat 8 (if h % 12 = 0 then 12 else h % 12) ||| (if h < 12 then 0 else 0x80)

theorem bcdHours_half : ∀ h < 24,
    bcdHours (toBcd (if h % 12 = 0 then 12 else h % 12) ||| (if h < 12 then 0 else 0x80)) = halfDay h := by decide

theorem hours24_half : ∀ h < 24,
    (if halfDay h &&& 0x80 ≠ 0 then ((halfDay h &&& 0x7F) + 12) % 24 else halfDay h) =
      BitVec.ofNat 8 (if h = 0 then 12 else if h = 12 then 0 else h) := by decide

theorem hours_whole (hh : h < 24) :
    (if IsBcd registerB then bcdHours (encode registerB h) else encode registerB h) = BitVec.ofNat 8 h := by
  rw [encode]
  split
  · exact bcdHours_toBcd h hh
  · rfl

theorem hours_byte (hh : h < 24) :
    (if IsBcd registerB then bcdHours (encodeHours registerB h) else encodeHours registerB h) =
      if Is12Hour registerB then halfDay h else BitVec.ofNat 8 h := by
  rw [encodeHours]
  by_cases h12 : Is12Hour registerB
  · rw [if_pos h12, if_pos h12, encode]
    split
    · exact bcdHours_half h hh
    · rfl
  · rw [if_neg h12, if_neg h12]
    exact hours_whole hh

/-- The conversion of the hours. -/
theorem decode_encodeHours (registerB : BitVec 8) (hh : h < 24) :
    (hours24 registerB (if IsBcd registerB then bcdHours (encodeHours registerB h) else encodeHours registerB h)).toNat =
      convertedHours registerB h := by
  rw [hours_byte hh, hours24, convertedHours]
  by_cases h12 : Is12Hour registerB
  · rw [if_pos h12, if_pos h12, if_congr (and_iff_right h12) rfl rfl, hours24_half h hh]
    apply Nat.mod_eq_of_lt
    split
    · decide
    · split
      · decide
      · omega
  · rw [if_neg h12, if_neg h12, if_neg fun hPm => h12 hPm.1]
    exact Nat.mod_eq_of_lt (by omega)

theorem convertedHours_eq_iff (hh : h < 24) : convertedHours registerB h = h ↔ ¬ Is12Hour registerB ∨ h % 12 ≠ 0 := by
  rw [convertedHours]
  split
  next h12 =>
    rw [or_iff_right (not_not_intro h12)]
    split
    · omega
    · split
      · omega
      · omega
  next h24 => exact iff_of_true rfl (Or.inl h24)

/-- The conversion, field by field. -/
theorem convert_eq (x : RtcRegisters) : x.convert registerB =
    { seconds := decode registerB x.seconds
      minutes := decode registerB x.minutes
      hours := hours24 registerB (if IsBcd registerB then bcdHours x.hours else x.hours)
      days := decode registerB x.days
      months := decode registerB x.months
      years := (decode registerB x.years).toNat + (decode registerB x.century).toNat * 100
      printed := if (decode registerB x.years).toNat + (decode registerB x.century).toNat * 100 < 2017 then
        ascii "ArtOS was made in 2017, are you the time traveller?" else [] } := by
  rw [RtcRegisters.convert]
  simp only [decode]
  split <;> rfl

/-- The date is shown, but for the hour. -/
theorem convert_registers {d : DateTime} (hSeconds : d.seconds < 60) (hMinutes : d.minutes < 60) (hHours : d.hours < 24)
    (hDays : d.days ≤ 31) (hMonths : d.months ≤ 12) (hYears : d.years < 10000) :
    ((d.registers registerB).convert registerB).Shows { d with hours := convertedHours registerB d.hours } := by
  have hYear : d.years % 100 + d.years / 100 * 100 = d.years := by omega
  have hField : ∀ v < 100, (decode registerB (encode registerB v)).toNat = v := fun v hv => decode_encode registerB hv
  rw [convert_eq]
  refine ⟨hField _ (by omega), hField _ (by omega), decode_encodeHours registerB hHours, hField _ (by omega),
    hField _ (by omega), ?_⟩
  show (decode registerB (encode registerB (d.years % 100))).toNat +
    (decode registerB (encode registerB (d.years / 100))).toNat * 100 = d.years
  rw [hField _ (by omega), hField _ (by omega), hYear]

namespace Rtc

variable {r : Rtc} {fuel m a b i j : Nat} {x y : RtcRegisters}

theorem registers_ext (h : ∀ i ≤ 6, x.get i = y.get i) : x = y := by
  obtain ⟨_, _, _, _, _, _, _⟩ := x
  obtain ⟨_, _, _, _, _, _, _⟩ := y
  rw [RtcRegisters.mk.injEq]
  exact ⟨h 0 (by decide), h 1 (by decide), h 2 (by decide), h 3 (by decide), h 4 (by decide),
    h 5 (by decide), h 6 (by decide)⟩

/-- What a pass reads at its `i`th moment. -/
theorem get_readPass (hi : i ≤ 6) : (r.readPass m).get i =
    if r.updating (m + i) then r.shown (m + i) (passRegister i)
    else (r.date (m + i)).register r.registerB (passRegister i) := by
  rw [readPass, if_pos (by decide)]
  interval_cases i <;> rfl

theorem get_registers {d : DateTime} (hi : i ≤ 6) :
    (d.registers registerB).get i = d.register registerB (passRegister i) := by
  interval_cases i <;> rfl

theorem lt_of_waitUpdate (h : r.waitUpdate fuel m = some b) : m < b := by
  induction fuel generalizing m with
  | zero => cases h
  | succ fuel ih =>
      rw [waitUpdate] at h
      split at h
      · exact Nat.lt_of_succ_lt (ih h)
      · exact Option.some.inj h ▸ Nat.lt_succ_self m

theorem Consecutive.lt (h : r.Consecutive a b) : a + 7 < b := by
  cases h with
  | first _ hNext => exact lt_of_waitUpdate hNext
  | next _ _ hNext => exact lt_of_waitUpdate hNext

/-- The loop ends behind two passes with the same registers. -/
theorem rtcLoop_eq (h : r.rtcLoop fuel m (r.readPass m) = some (a, b, x))
    (hNext : ∀ fuel c, r.waitUpdate fuel (m + 7) = some c → r.Consecutive m c) :
    r.Consecutive a b ∧ r.readPass a = r.readPass b ∧ x = r.readPass b := by
  induction fuel generalizing m with
  | zero => cases h
  | succ fuel ih =>
      rw [rtcLoop] at h
      obtain ⟨c, hWait, h⟩ := Option.bind_eq_some_iff.mp h
      have hHere := hNext fuel c hWait
      split at h
      next hOther => exact ih h fun fuel' d hd => .next hHere hOther hd
      next hSame =>
        cases h
        exact ⟨hHere, not_not.mp hSame, rfl⟩

/-- What a run leaves are the registers of its last two passes. -/
theorem readRtc_eq {v : RtcResult} (h : r.readRtc fuel = some (a, b, v)) :
    r.Consecutive a b ∧ r.readPass a = r.readPass b ∧ v = (r.readPass b).convert r.registerB := by
  obtain ⟨m, hFirst, h⟩ := Option.bind_eq_some_iff.mp h
  obtain ⟨⟨a', b', x⟩, hLoop, h⟩ := Option.map_eq_some_iff.mp h
  cases h
  obtain ⟨hPasses, hSame, rfl⟩ := rtcLoop_eq hLoop fun _ _ hNext => .first hFirst hNext
  exact ⟨hPasses, hSame, rfl⟩

theorem date_lt (m : Nat) : (r.date m).seconds < 60 ∧ (r.date m).minutes < 60 ∧ (r.date m).hours < 24 :=
  ⟨Nat.mod_lt _ (by decide), Nat.mod_lt _ (by decide), Nat.mod_lt _ (by decide)⟩

theorem date_le (m : Nat) : (r.date m).days ≤ 31 ∧ (r.date m).months ≤ 12 ∧ (r.date m).years < 10000 :=
  ⟨r.calendar.days_le _, r.calendar.months_le _, r.calendar.years_lt _⟩

/-! Two equal passes within a minute have seen one instant. -/

/-- The same seconds within a minute. -/
theorem clock_eq (hSame : r.clock a % 60 = r.clock b % 60) (hLe : r.clock a ≤ r.clock b)
    (hLess : r.clock b < r.clock a + 60) : r.clock b = r.clock a := by
  omega

/-- If the update flag is clear at each read of the first pass, and when the second one reads the seconds, the
two passes are settled on the date at which the first one starts. -/
theorem settled_of_clear (h : r.Consecutive a b) (hShort : r.clock (b + 6) < r.clock a + 60)
    (hSame : r.readPass a = r.readPass b) (hFirst : ∀ i ≤ 6, r.updating (a + i) = false)
    (hSecond : r.updating b = false) : r.Settled a b a := by
  have hLt := h.lt
  have hSeconds : r.clock a % 60 = r.clock b % 60 := by
    have hStart : r.updating (a + 0) = false := hFirst 0 (by decide)
    have hNext : r.updating (b + 0) = false := hSecond
    have hRegister := congrArg (fun x => x.get 0) hSame
    simp only [get_readPass (Nat.zero_le 6), hStart, hNext] at hRegister
    exact encode_injective r.registerB (by omega) (by omega) hRegister
  have hEnd : r.clock b ≤ r.clock (b + 6) := r.mono (by omega)
  have hStop : r.clock b = r.clock a := clock_eq hSeconds (r.mono (by omega)) (by omega)
  intro i hi
  refine ⟨a, Or.inl rfl, hFirst i hi, ?_⟩
  have hLow : r.clock a ≤ r.clock (a + i) := r.mono (by omega)
  have hHigh : r.clock (a + i) ≤ r.clock b := r.mono (by omega)
  have hDate : r.date (a + i) = r.date a := congrArg r.calendar.dateTime (by omega)
  rw [hDate]

/-- Settled passes leave the date, but for the hour. -/
theorem Settled.shows {v : RtcResult} (hSettled : r.Settled a b m) (h : r.readRtc fuel = some (a, b, v)) :
    v.Shows { r.date m with hours := convertedHours r.registerB (r.date m).hours } := by
  obtain ⟨_, hSame, rfl⟩ := readRtc_eq h
  have hRegisters : r.readPass b = (r.date m).registers r.registerB := by
    apply registers_ext
    intro i hi
    obtain ⟨p, hp, hClear, hValue⟩ := hSettled i hi
    have hPass : r.readPass p = r.readPass b := by
      rcases hp with rfl | rfl
      · exact hSame
      · rfl
    rw [← hPass, get_readPass hi, hClear, get_registers hi]
    exact hValue
  obtain ⟨hSeconds, hMinutes, hHours⟩ := date_lt (r := r) m
  obtain ⟨hDays, hMonths, hYears⟩ := date_le (r := r) m
  rw [hRegisters]
  exact convert_registers hSeconds hMinutes hHours hDays hMonths hYears

/-! The same history with other values shown while the update flag is set. -/

/-- The history in which these values are shown. -/
def withShown (r : Rtc) (shown : Nat → Nat → BitVec 8) : Rtc := { r with shown := shown }

variable {shown : Nat → Nat → BitVec 8}

theorem waitUpdate_withShown : (r.withShown shown).waitUpdate fuel m = r.waitUpdate fuel m := by
  induction fuel generalizing m with
  | zero => rfl
  | succ fuel ih =>
      rw [waitUpdate, waitUpdate, ih]
      rfl

/-- The other values do not concern the passes before the last two, and leave these two alike but unlike the
pass before: then the loop ends behind the same passes. -/
theorem rtcLoop_withShown (h : r.rtcLoop fuel m (r.readPass m) = some (a, b, x)) :
    (m = a ∨ m + 7 < a) ∧ ∃ last : RtcRegisters, ∀ shown,
      (∀ c, c + 7 < a → (r.withShown shown).readPass c = r.readPass c) →
      (m ≠ a → last ≠ (r.withShown shown).readPass a) →
      (r.withShown shown).readPass a = (r.withShown shown).readPass b →
      (r.withShown shown).rtcLoop fuel m ((r.withShown shown).readPass m) =
        some (a, b, (r.withShown shown).readPass b) := by
  induction fuel generalizing m with
  | zero => cases h
  | succ fuel ih =>
      rw [rtcLoop] at h
      obtain ⟨c, hWait, h⟩ := Option.bind_eq_some_iff.mp h
      have hLater := lt_of_waitUpdate hWait
      split at h
      next hOther =>
        obtain ⟨hReach, last, hLast⟩ := ih h
        have hBefore : m + 7 < a := by omega
        refine ⟨Or.inr hBefore, if c = a then r.readPass m else last, fun shown hEarly hNe hSame => ?_⟩
        rw [rtcLoop, waitUpdate_withShown, hWait, Option.bind_some]
        by_cases hEnd : c = a
        · subst hEnd
          rw [if_pos rfl] at hNe
          rw [hEarly m hBefore, if_pos (hNe (by omega))]
          exact hLast shown hEarly (fun hOff => absurd rfl hOff) hSame
        · rw [if_neg hEnd] at hNe
          have hMiddle : c + 7 < a := hReach.resolve_left hEnd
          rw [hEarly m hBefore, hEarly c hMiddle, if_pos hOther, ← hEarly c hMiddle]
          exact hLast shown hEarly (fun _ => hNe (by omega)) hSame
      next hSame =>
        cases h
        refine ⟨Or.inl rfl, r.readPass a, fun shown _ _ hTwin => ?_⟩
        rw [rtcLoop, waitUpdate_withShown, hWait, Option.bind_some, if_neg (not_not_intro hTwin)]

/-- A run ends behind the same passes as long as they are alike, and unlike a certain one. -/
theorem readRtc_withShown {v : RtcResult} (h : r.readRtc fuel = some (a, b, v)) :
    ∃ last : RtcRegisters, ∀ shown,
      (∀ c, c + 7 < a → (r.withShown shown).readPass c = r.readPass c) →
      last ≠ (r.withShown shown).readPass a →
      (r.withShown shown).readPass a = (r.withShown shown).readPass b →
      (r.withShown shown).readRtc fuel =
        some (a, b, ((r.withShown shown).readPass b).convert r.registerB) := by
  obtain ⟨m, hFirst, h⟩ := Option.bind_eq_some_iff.mp h
  obtain ⟨⟨a', b', x⟩, hLoop, h⟩ := Option.map_eq_some_iff.mp h
  cases h
  obtain ⟨_, last, hLast⟩ := rtcLoop_withShown hLoop
  refine ⟨last, fun shown hEarly hNe hSame => ?_⟩
  rw [readRtc, waitUpdate_withShown, hFirst, Option.bind_some, hLast shown hEarly (fun _ => hNe) hSame]
  rfl

/-- One register is replaced in both passes. -/
def replaced (r : Rtc) (a b j : Nat) (junk : BitVec 8) (m reg : Nat) : BitVec 8 :=
  if (m = a + j ∨ m = b + j) ∧ reg = passRegister j then junk else r.shown m reg

theorem get_replaced {junk : BitVec 8} (hLt : a + 7 < b) (hi : i ≤ 6) (hj : j ≤ 6)
    (hFirst : r.updating (a + j) = true) (hSecond : r.updating (b + j) = true) (hm : m = a ∨ m = b) :
    ((r.withShown (r.replaced a b j junk)).readPass m).get i =
      if i = j then junk else (r.readPass m).get i := by
  have hFlag : r.updating (m + j) = true := by
    rcases hm with rfl | rfl
    · exact hFirst
    · exact hSecond
  have hFlags : (r.withShown (r.replaced a b j junk)).updating = r.updating := rfl
  have hShown : (r.withShown (r.replaced a b j junk)).shown = r.replaced a b j junk := rfl
  rw [get_readPass hi, get_readPass hi, hFlags, hShown]
  by_cases hij : i = j
  · subst hij
    rw [if_pos hFlag, if_pos rfl, replaced, if_pos ⟨by omega, rfl⟩]
  · have hKept : r.replaced a b j junk (m + i) (passRegister i) = r.shown (m + i) (passRegister i) :=
      if_neg fun hBoth => hij (by omega)
    rw [if_neg hij, hKept]
    rfl

/-- Before the last two passes nothing is replaced. -/
theorem readPass_replaced {junk : BitVec 8} {c : Nat} (hLt : a + 7 < b) (hc : c + 7 < a) :
    (r.withShown (r.replaced a b j junk)).readPass c = r.readPass c := by
  apply registers_ext
  intro i hi
  have hFlags : (r.withShown (r.replaced a b j junk)).updating = r.updating := rfl
  have hKept : (r.withShown (r.replaced a b j junk)).shown (c + i) (passRegister i) =
      r.shown (c + i) (passRegister i) := if_neg fun hBoth => by omega
  rw [get_readPass hi, get_readPass hi, hFlags, hKept]
  rfl

/-- One of two values is another one. -/
theorem exists_other {c d : BitVec 8} (hcd : c ≠ d) (last : BitVec 8) : ∃ junk ≠ last, junk = c ∨ junk = d := by
  by_cases hc : c = last
  · exact ⟨d, fun hd => hcd (hc.trans hd.symm), Or.inr rfl⟩
  · exact ⟨c, hc, Or.inl rfl⟩

theorem decode_junk (registerB : BitVec 8) {junk : BitVec 8} (h : junk = 0x70 ∨ junk = 0x71) :
    70 ≤ (decode registerB junk).toNat := by
  rw [decode]
  rcases h with rfl | rfl
  all_goals split <;> decide

theorem hours_junk (registerB : BitVec 8) {junk : BitVec 8} (h : junk = 0x70 ∨ junk = 0x71) :
    70 ≤ (hours24 registerB (if IsBcd registerB then bcdHours junk else junk)).toNat := by
  have hMorning : (if IsBcd registerB then bcdHours junk else junk) &&& 0x80 = 0 ∧
      70 ≤ (if IsBcd registerB then bcdHours junk else junk).toNat := by
    rcases h with rfl | rfl
    all_goals split <;> decide
  rw [hours24, if_neg fun hBoth => hBoth.2 hMorning.1]
  exact hMorning.2

theorem century_junk (registerB : BitVec 8) {junk : BitVec 8} (h : junk = 0xF0 ∨ junk = 0xF1) :
    100 ≤ (decode registerB junk).toNat := by
  rw [decode]
  rcases h with rfl | rfl
  all_goals split <;> decide

/-- There are two years at most within a minute, and four values to choose from. -/
theorem exists_year (hShort : r.clock (b + 6) < r.clock a + 60) (last : BitVec 8) (century : Nat) :
    ∃ junk ≠ last, ∀ m, a ≤ m → m ≤ b + 6 →
      (decode r.registerB junk).toNat + century * 100 ≠ (r.date m).years := by
  have hDays : ∀ m, a ≤ m → m ≤ b + 6 → (r.date m).years = r.calendar.years (r.clock a / 86400) ∨
      (r.date m).years = r.calendar.years (r.clock a / 86400 + 1) := by
    intro m hLow hHigh
    have hFrom := r.mono hLow
    have hTo := r.mono hHigh
    have hDay : r.clock m / 86400 = r.clock a / 86400 ∨ r.clock m / 86400 = r.clock a / 86400 + 1 := by omega
    exact hDay.imp (congrArg r.calendar.years) (congrArg r.calendar.years)
  have hDigit : ∀ k < 4, (decode r.registerB (BitVec.ofNat 8 k)).toNat = k := by
    intro k hk
    rw [decode]
    split
    · revert k
      decide
    · exact Nat.mod_eq_of_lt (by omega)
  by_contra hNone
  push Not at hNone
  have hUsed : ∀ k < 4, last.toNat = k ∨ k + century * 100 = r.calendar.years (r.clock a / 86400) ∨
      k + century * 100 = r.calendar.years (r.clock a / 86400 + 1) := by
    intro k hk
    by_cases hLast : BitVec.ofNat 8 k = last
    · rw [← hLast]
      exact Or.inl (Nat.mod_eq_of_lt (by omega))
    · obtain ⟨m, hLow, hHigh, hYear⟩ := hNone _ hLast
      rw [hDigit k hk] at hYear
      exact Or.inr ((hDays m hLow hHigh).imp hYear.trans hYear.trans)
  have h0 := hUsed 0 (by decide)
  have h1 := hUsed 1 (by decide)
  have h2 := hUsed 2 (by decide)
  have h3 := hUsed 3 (by decide)
  omega

/-- Seconds, minutes, hours, days and months beyond 69 are those of no date. -/
theorem not_shows_junk {junk : BitVec 8} (hj : j ≤ 4) (hJunk : junk = 0x70 ∨ junk = 0x71) (hx : x.get j = junk) :
    ¬ (x.convert registerB).Shows (r.date m) := by
  intro hShows
  have hLarge := decode_junk registerB hJunk
  have hLate := hours_junk registerB hJunk
  obtain ⟨hSeconds, hMinutes, hHours⟩ := date_lt (r := r) m
  obtain ⟨hDays, hMonths, _⟩ := date_le (r := r) m
  rw [convert_eq] at hShows
  obtain ⟨hSecond, hMinute, hHour, hDay, hMonth, _⟩ := hShows
  dsimp only at hSecond hMinute hHour hDay hMonth
  interval_cases j
  · rw [show x.seconds = junk from hx] at hSecond
    omega
  · rw [show x.minutes = junk from hx] at hMinute
    omega
  · rw [show x.hours = junk from hx] at hHour
    omega
  · rw [show x.days = junk from hx] at hDay
    omega
  · rw [show x.months = junk from hx] at hMonth
    omega

/-- A value that no date of these passes shows: there is one that differs from a given one, whatever the
other registers show. -/
theorem exists_junk (hShort : r.clock (b + 6) < r.clock a + 60) (hj : j ≤ 6) (last : BitVec 8) (x : RtcRegisters) :
    ∃ junk ≠ last, ∀ y : RtcRegisters, (∀ i ≤ 6, y.get i = if i = j then junk else x.get i) →
      ∀ m, a ≤ m → m ≤ b + 6 → ¬ (y.convert r.registerB).Shows (r.date m) := by
  by_cases hYear : j = 5
  · subst hYear
    obtain ⟨junk, hNe, hJunk⟩ := exists_year hShort last (decode r.registerB x.century).toNat
    refine ⟨junk, hNe, fun y hy m hLow hHigh hShows => hJunk m hLow hHigh ?_⟩
    have hYears : y.years = junk := hy 5 hj
    have hCentury : y.century = x.century := hy 6 le_rfl
    rw [← hShows.years, convert_eq, hYears, hCentury]
  · by_cases hCentury : j = 6
    · subst hCentury
      obtain ⟨junk, hNe, hJunk⟩ := exists_other (show (0xF0 : BitVec 8) ≠ 0xF1 by decide) last
      refine ⟨junk, hNe, fun y hy m _ _ hShows => ?_⟩
      have hLarge := century_junk r.registerB hJunk
      have hValue : y.century = junk := hy 6 hj
      have hYears := hShows.years
      rw [convert_eq, hValue] at hYears
      have hLess := (date_le (r := r) m).2.2
      dsimp only at hYears
      omega
    · obtain ⟨junk, hNe, hJunk⟩ := exists_other (show (0x70 : BitVec 8) ≠ 0x71 by decide) last
      refine ⟨junk, hNe, fun y hy m _ _ => not_shows_junk (j := j) (by omega) hJunk ?_⟩
      exact (hy j hj).trans (if_pos rfl)

/-- A register that is read twice while the update flag is set may show anything. -/
theorem exists_wrong {v : RtcResult} (h : r.readRtc fuel = some (a, b, v))
    (hShort : r.clock (b + 6) < r.clock a + 60) (hj : j ≤ 6) (hFirst : r.updating (a + j) = true)
    (hSecond : r.updating (b + j) = true) :
    ∃ shown w, (r.withShown shown).readRtc fuel = some (a, b, w) ∧
      ∀ m, a ≤ m → m ≤ b + 6 → ¬ w.Shows (r.date m) := by
  obtain ⟨hPasses, hSame, _⟩ := readRtc_eq h
  have hLt := hPasses.lt
  obtain ⟨last, hLast⟩ := readRtc_withShown h
  obtain ⟨junk, hNe, hJunk⟩ := exists_junk hShort hj (last.get j) (r.readPass b)
  have hGet : ∀ m, (m = a ∨ m = b) → ∀ i ≤ 6,
      ((r.withShown (r.replaced a b j junk)).readPass m).get i = if i = j then junk else (r.readPass m).get i :=
    fun m hm i hi => get_replaced hLt hi hj hFirst hSecond hm
  refine ⟨r.replaced a b j junk, _, hLast _ (fun c hc => readPass_replaced hLt hc) ?_ ?_,
    hJunk _ (hGet b (Or.inr rfl))⟩
  · rintro rfl
    refine hNe ?_
    rw [hGet a (Or.inl rfl) j hj, if_pos rfl]
  · apply registers_ext
    intro i hi
    rw [hGet a (Or.inl rfl) i hi, hGet b (Or.inr rfl) i hi, hSame]

/-- Within a minute, the hours that the conversion takes for one another do not follow each other. -/
theorem hours_of_converted {p : Nat} (hShort : r.clock (b + 6) < r.clock a + 60) (hp : a ≤ p ∧ p ≤ b + 6)
    (hm : a ≤ m ∧ m ≤ b + 6) (h : convertedHours r.registerB (r.date p).hours = (r.date m).hours) :
    (r.date p).hours = (r.date m).hours ∧ (¬ Is12Hour r.registerB ∨ (r.date m).hours % 12 ≠ 0) := by
  suffices hSame : convertedHours r.registerB (r.date p).hours = (r.date p).hours by
    rw [hSame] at h
    rw [← h]
    exact ⟨rfl, (convertedHours_eq_iff (date_lt p).2.2).mp hSame⟩
  have hFrom := r.mono hp.1
  have hTo := r.mono hp.2
  have hFrom' := r.mono hm.1
  have hTo' := r.mono hm.2
  have hNear : (r.clock p / 3600 = r.clock m / 3600 ∨ r.clock p / 3600 = r.clock m / 3600 + 1) ∨
      r.clock p / 3600 + 1 = r.clock m / 3600 := by omega
  change convertedHours r.registerB (r.clock p / 3600 % 24) = r.clock m / 3600 % 24 at h
  change convertedHours r.registerB (r.clock p / 3600 % 24) = r.clock p / 3600 % 24
  rw [convertedHours] at h ⊢
  split_ifs at h ⊢ <;> omega

/-- The registers were all read while the update flag was clear, and the date that they give is the one at an
instant of the two passes: then they are settled on it, and its hour is converted right. -/
theorem settled_of_shows (hShort : r.clock (b + 6) < r.clock a + 60) (hLt : a + 7 < b)
    (hSame : r.readPass a = r.readPass b) (hLow : a ≤ m) (hHigh : m ≤ b + 6)
    (hShows : ((r.readPass b).convert r.registerB).Shows (r.date m))
    (hClear : ∀ i ≤ 6, r.updating (a + i) = false ∨ r.updating (b + i) = false) :
    r.Settled a b m ∧ (¬ Is12Hour r.registerB ∨ (r.date m).hours % 12 ≠ 0) := by
  -- where each register was read
  have hRead : ∀ i ≤ 6, ∃ p, (p = a ∨ p = b) ∧ r.updating (p + i) = false ∧
      (r.readPass b).get i = (r.date (p + i)).register r.registerB (passRegister i) := by
    intro i hi
    rcases hClear i hi with hFirst | hSecond
    · refine ⟨a, Or.inl rfl, hFirst, ?_⟩
      rw [← hSame, get_readPass hi, hFirst]
      rfl
    · refine ⟨b, Or.inr rfl, hSecond, ?_⟩
      rw [get_readPass hi, hSecond]
      rfl
  have hField : ∀ {v w : Nat} {x : BitVec 8}, v < 100 → x = encode r.registerB v →
      (decode r.registerB x).toNat = w → v = w := by
    rintro v w _ hv rfl h
    exact (decode_encode r.registerB hv).symm.trans h
  have hLate := fun k => date_lt (r := r) k
  have hDate := fun k => date_le (r := r) k
  rw [convert_eq] at hShows
  obtain ⟨hSeconds, hMinutes, hHours, hDays, hMonths, hYears⟩ := hShows
  dsimp only at hSeconds hMinutes hHours hDays hMonths hYears
  obtain ⟨p₂, hp₂, hClear₂, hHour : (r.readPass b).hours = encodeHours r.registerB (r.date (p₂ + 2)).hours⟩ :=
    hRead 2 (by decide)
  rw [hHour, decode_encodeHours r.registerB (hLate _).2.2] at hHours
  obtain ⟨hHours, hHalf⟩ := hours_of_converted hShort (p := p₂ + 2) (by omega) ⟨hLow, hHigh⟩ hHours
  obtain ⟨p₅, hp₅, hClear₅, hYear : (r.readPass b).years = encode r.registerB ((r.date (p₅ + 5)).years % 100)⟩ :=
    hRead 5 (by decide)
  obtain ⟨p₆, hp₆, hClear₆, hCentury : (r.readPass b).century = encode r.registerB ((r.date (p₆ + 6)).years / 100)⟩ :=
    hRead 6 (by decide)
  have hTop := (hDate (p₆ + 6)).2.2
  rw [hYear, hCentury, decode_encode r.registerB (Nat.mod_lt _ (by decide)),
    decode_encode r.registerB (by omega)] at hYears
  refine ⟨fun i hi => ?_, hHalf⟩
  interval_cases i
  · obtain ⟨p, hp, hFlag, hValue⟩ := hRead 0 hi
    have hEq := hField ((hLate (p + 0)).1.trans (by decide)) hValue hSeconds
    exact ⟨p, hp, hFlag, congrArg (encode r.registerB) hEq⟩
  · obtain ⟨p, hp, hFlag, hValue⟩ := hRead 1 hi
    have hEq := hField ((hLate (p + 1)).2.1.trans (by decide)) hValue hMinutes
    exact ⟨p, hp, hFlag, congrArg (encode r.registerB) hEq⟩
  · exact ⟨p₂, hp₂, hClear₂, congrArg (encodeHours r.registerB) hHours⟩
  · obtain ⟨p, hp, hFlag, hValue⟩ := hRead 3 hi
    have hEq := hField ((hDate (p + 3)).1.trans_lt (by decide)) hValue hDays
    exact ⟨p, hp, hFlag, congrArg (encode r.registerB) hEq⟩
  · obtain ⟨p, hp, hFlag, hValue⟩ := hRead 4 hi
    have hEq := hField ((hDate (p + 4)).2.1.trans_lt (by decide)) hValue hMonths
    exact ⟨p, hp, hFlag, congrArg (encode r.registerB) hEq⟩
  · exact ⟨p₅, hp₅, hClear₅, congrArg (encode r.registerB) (by omega)⟩
  · exact ⟨p₆, hp₆, hClear₆, congrArg (encode r.registerB) (by omega)⟩

/-- When a run of `read_rtc` leaves the date of one instant of its last two passes, whatever the registers show
while the update flag is set: they are settled on such an instant, and the clock is one of 24 hours, or it is
neither the hour after noon nor that after midnight. So they are settled if the flag is clear whenever the
first pass reads a register, and when the second one reads the seconds. -/
theorem read_rtc_iff (r : Rtc) (fuel a b : Nat) (v : RtcResult) (h : r.readRtc fuel = some (a, b, v))
    (hShort : r.clock (b + 6) < r.clock a + 60) :
    ((∀ shown fuel w, (r.withShown shown).readRtc fuel = some (a, b, w) →
        ∃ m, a ≤ m ∧ m ≤ b + 6 ∧ w.Shows (r.date m)) ↔
      ∃ m, a ≤ m ∧ m ≤ b + 6 ∧ r.Settled a b m ∧ (¬ Is12Hour r.registerB ∨ (r.date m).hours % 12 ≠ 0)) ∧
    ((∀ i ≤ 6, r.updating (a + i) = false) → r.updating b = false → r.Settled a b a) := by
  obtain ⟨hPasses, hSame, hResult⟩ := readRtc_eq h
  have hLt := hPasses.lt
  refine ⟨⟨fun hAll => ?_, ?_⟩, settled_of_clear hPasses hShort hSame⟩
  · have hClear : ∀ i ≤ 6, r.updating (a + i) = false ∨ r.updating (b + i) = false := by
      intro i hi
      by_contra hBoth
      rw [not_or, Bool.not_eq_false, Bool.not_eq_false] at hBoth
      obtain ⟨shown, w, hRun, hWrong⟩ := exists_wrong h hShort hi hBoth.1 hBoth.2
      obtain ⟨m, hLow, hHigh, hShows⟩ := hAll shown fuel w hRun
      exact hWrong m hLow hHigh hShows
    obtain ⟨m, hLow, hHigh, hShows⟩ := hAll r.shown fuel v h
    rw [hResult] at hShows
    exact ⟨m, hLow, hHigh, settled_of_shows hShort hLt hSame hLow hHigh hShows hClear⟩
  · rintro ⟨m, hLow, hHigh, hSettled, hHour⟩ shown fuel' w hRun
    have hTwin : (r.withShown shown).Settled a b m := hSettled
    have hShows := hTwin.shows hRun
    refine ⟨m, hLow, hHigh, ?_⟩
    have hEq : convertedHours r.registerB (r.date m).hours = (r.date m).hours :=
      (convertedHours_eq_iff (date_lt m).2.2).mpr hHour
    change w.Shows { r.date m with hours := convertedHours r.registerB (r.date m).hours } at hShows
    rwa [hEq] at hShows

/-- A clock of 12 hours that stands for as long as it is read. -/
def quietRtc (t : Nat) : Rtc where
  clock := fun _ => t
  mono := fun _ _ _ => le_rfl
  updating := fun _ => false
  shown := fun _ _ => 0
  registerB := 0
  calendar := ⟨fun _ => 1, fun _ => 1, fun _ => 2018, fun _ => by decide, fun _ => by decide, fun _ => by decide⟩

/-- An hour after noon. -/
theorem read_rtc_iff_one :
    ∃ m, 1 ≤ m ∧ m ≤ 9 + 6 ∧ RtcResult.Shows ⟨0, 0, 13, 1, 1, 2018, []⟩ ((quietRtc 46800).date m) := by
  have hRun : (quietRtc 46800).readRtc 3 = some (1, 9, ⟨0, 0, 13, 1, 1, 2018, []⟩) := rfl
  obtain ⟨hIff, hClear⟩ := read_rtc_iff (quietRtc 46800) 3 1 9 _ hRun (Nat.lt_add_of_pos_right (by decide))
  have hSettled := hClear (fun _ _ => rfl) rfl
  exact hIff.mpr ⟨1, le_rfl, by decide, hSettled, Or.inr (by decide)⟩ (quietRtc 46800).shown 3 _ hRun

/-- A clock of 24 hours whose update flag is set whenever `read_rtc` does not look at it. -/
def busyRtc : Rtc where
  clock := fun m => m / 8
  mono := fun _ _ h => Nat.div_le_div_right h
  updating := fun m => m % 8 ≠ 0
  shown := fun _ _ => 0x70
  registerB := 0x02
  calendar := ⟨fun _ => 1, fun _ => 1, fun _ => 2018, fun _ => by decide, fun _ => by decide, fun _ => by decide⟩

/-- Noon is shown as midnight, and 70 hours are shown if both passes fall into an update. -/
theorem not_read_rtc :
    ((quietRtc 43200).readRtc 3 = some (1, 9, ⟨0, 0, 0, 1, 1, 2018, []⟩) ∧
      ¬ ∃ m, 1 ≤ m ∧ m ≤ 9 + 6 ∧ RtcResult.Shows ⟨0, 0, 0, 1, 1, 2018, []⟩ ((quietRtc 43200).date m)) ∧
    busyRtc.readRtc 3 = some (1, 9, ⟨70, 70, 70, 70, 70, 7070, []⟩) ∧
      ¬ ∃ m, 1 ≤ m ∧ m ≤ 9 + 6 ∧ RtcResult.Shows ⟨70, 70, 70, 70, 70, 7070, []⟩ (busyRtc.date m) := by
  refine ⟨⟨rfl, ?_⟩, rfl, ?_⟩
  · rintro ⟨m, -, -, hShows⟩
    have hNoon : ((quietRtc 43200).date m).hours = 12 := by
      show 43200 / 3600 % 24 = 12
      decide
    exact absurd (hShows.hours.trans hNoon) (by decide)
  · rintro ⟨m, -, -, hShows⟩
    have hLess := (date_lt (r := busyRtc) m).2.2
    rw [← hShows.hours] at hLess
    exact absurd hLess (by decide)

end Rtc
end ArtOS
