import ArtOS.Devices.IoApic
import ArtOS.Devices.Pic
import ArtOS.Tasks.Preemption

/-! How `apic_calibration` hands the interrupts over: it programs the local APIC, masks the PIC and
routes the pins of the I/O APIC. Which vectors can arrive from then on, and what this means for the
tasks. -/
namespace ArtOS

/-- The registers of the local APIC by their offsets. -/
abbrev Lapic := BitVec 32 → BitVec 32

namespace Lapic

abbrev tpr : BitVec 32 := 0x0080
abbrev svr : BitVec 32 := 0x00F0
/-- The entry for corrected machine checks, which the kernel has no name for. -/
abbrev lvtCmci : BitVec 32 := 0x02F0
abbrev lvtT : BitVec 32 := 0x0320
abbrev lvtTsr : BitVec 32 := 0x0330
abbrev lvtPmc : BitVec 32 := 0x0340
abbrev lint0 : BitVec 32 := 0x0350
abbrev lint1 : BitVec 32 := 0x0360
abbrev lvtEr : BitVec 32 := 0x0370
abbrev icr : BitVec 32 := 0x0380
abbrev dcr : BitVec 32 := 0x03E0

def lapicWrite (l : Lapic) (addr value : BitVec 32) : Lapic := Function.update l addr value

/-- The timer at vector 123, each increment of the bus clock counted. -/
def connectTimer (l : Lapic) (count : BitVec 32) : Lapic :=
  ((l.lapicWrite dcr 0xB).lapicWrite lvtT 0x2007B).lapicWrite icr count

/-- `lapic_reset`; `initial` is the variable `icr`. -/
def lapicReset (maxLvt : Nat) (initial : BitVec 32) (l : Lapic) : Lapic :=
  let l := l.lapicWrite svr 0x17F
  let l := l.lapicWrite tpr 0x00
  let l := if initial ≠ 0 then l.connectTimer initial else l.lapicWrite lvtT 0x10000
  let l := if 4 ≤ maxLvt then l.lapicWrite lvtTsr 0x10000 else l
  let l := if 5 ≤ maxLvt then l.lapicWrite lvtPmc 0x10000 else l
  let l := l.lapicWrite lint0 0x7C
  let l := l.lapicWrite lint1 0x7D
  l.lapicWrite lvtEr 0x7E

/-- The entries of the vector table that the APIC has. -/
def lvts (maxLvt : Nat) : List (BitVec 32) :=
  [lvtT, lint0, lint1, lvtEr] ++ (if 4 ≤ maxLvt then [lvtPmc] else []) ++
    (if 5 ≤ maxLvt then [lvtTsr] else []) ++ (if 6 ≤ maxLvt then [lvtCmci] else [])

/-- The entries that `lapic_reset` may leave as they are, are masked: a performance counter with only five
entries, and that for machine checks. -/
structure Quiet (maxLvt : Nat) (l : Lapic) : Prop where
  counter : maxLvt = 4 → (l lvtPmc).getLsbD 16 = true
  checks : 6 ≤ maxLvt → (l lvtCmci).getLsbD 16 = true

/-- The vector of an entry that is not masked; the timer has to count. -/
def Unmasked (maxLvt : Nat) (l : Lapic) (v : BitVec 8) : Prop :=
  ∃ entry ∈ lvts maxLvt, (l entry).getLsbD 16 = false ∧ (l entry).extractLsb' 8 3 = 0 ∧
    (l entry).setWidth 8 = v ∧ (entry = lvtT → l icr ≠ 0)

/-- An enabled APIC sends these vectors, and that of the spurious interrupt. -/
def Sends (maxLvt : Nat) (l : Lapic) (v : BitVec 8) : Prop :=
  (l svr).getLsbD 8 = true ∧ ((l svr).setWidth 8 = v ∨ l.Unmasked maxLvt v)

variable {maxLvt : Nat} {initial count value : BitVec 32} {l : Lapic} {v : BitVec 8} {r addr : BitVec 32}

theorem lapicWrite_apply : l.lapicWrite addr value r = if r = addr then value else l r := Function.update_apply ..

/-- What the registers are behind `lapic_reset`. -/
theorem lapicReset_apply (maxLvt : Nat) (initial : BitVec 32) (l : Lapic) (r : BitVec 32) :
    l.lapicReset maxLvt initial r =
      if r = lvtEr then 0x7E else if r = lint1 then 0x7D else if r = lint0 then 0x7C
      else if r = lvtPmc ∧ 5 ≤ maxLvt then 0x10000 else if r = lvtTsr ∧ 4 ≤ maxLvt then 0x10000
      else if r = icr ∧ initial ≠ 0 then initial
      else if r = lvtT then if initial ≠ 0 then 0x2007B else 0x10000
      else if r = dcr ∧ initial ≠ 0 then 0xB else if r = tpr then 0 else if r = svr then 0x17F else l r := by
  by_cases hTimer : initial = 0 <;> by_cases hTsr : 4 ≤ maxLvt <;> by_cases hPmc : 5 ≤ maxLvt <;>
    simp only [lapicReset, connectTimer, hTimer, hTsr, hPmc, ne_eq, not_true_eq_false, not_false_eq_true,
      if_true, if_false, and_true, and_false, lapicWrite_apply]

/-- The entries that the kernel has no use for. -/
theorem lapicReset_masked (initial : BitVec 32) (h : Quiet maxLvt l) :
    (4 ≤ maxLvt → (l.lapicReset maxLvt initial lvtPmc).getLsbD 16 = true) ∧
      (5 ≤ maxLvt → (l.lapicReset maxLvt initial lvtTsr).getLsbD 16 = true) ∧
      (6 ≤ maxLvt → (l.lapicReset maxLvt initial lvtCmci).getLsbD 16 = true) := by
  rw [lapicReset_apply, lapicReset_apply, lapicReset_apply]
  refine ⟨fun hFour => ?_, fun hFive => ?_, fun hSix => ?_⟩
  · by_cases hFive : 5 ≤ maxLvt
    · simp [hFive]
    · simpa [hFive] using h.counter (by omega)
  · have hFour : 4 ≤ maxLvt := by omega
    simp [hFour]
  · simpa using h.checks hSix

/-- The entries that a local APIC may lack stay masked. -/
theorem lapicReset_open {entry : BitVec 32} (initial : BitVec 32) (h : Quiet maxLvt l)
    (hEntry : entry ∈ lvts maxLvt) (hOpen : (l.lapicReset maxLvt initial entry).getLsbD 16 = false) :
    entry = lvtT ∨ entry = lint0 ∨ entry = lint1 ∨ entry = lvtEr := by
  obtain ⟨hPmc, hTsr, hCmci⟩ := lapicReset_masked initial h
  have hOut (reg : BitVec 32) (n : Nat) (hHas : entry ∈ if n ≤ maxLvt then [reg] else [])
      (hMasked : n ≤ maxLvt → (l.lapicReset maxLvt initial reg).getLsbD 16 = true) : False := by
    split at hHas
    next hThere =>
      obtain rfl := List.mem_singleton.mp hHas
      exact absurd (hOpen.symm.trans (hMasked hThere)) (by decide)
    next => exact absurd hHas List.not_mem_nil
  simp only [lvts, List.mem_append, List.mem_cons, List.not_mem_nil, or_false] at hEntry
  rcases hEntry with ((hFirst | hEntry) | hEntry) | hEntry
  · exact hFirst
  · exact (hOut lvtPmc 4 hEntry hPmc).elim
  · exact (hOut lvtTsr 5 hEntry hTsr).elim
  · exact (hOut lvtCmci 6 hEntry hCmci).elim

theorem unmasked_lapicReset (h : Quiet maxLvt l) :
    (l.lapicReset maxLvt initial).Unmasked maxLvt v ↔
      v = 123 ∧ initial ≠ 0 ∨ v = 124 ∨ v = 125 ∨ v = 126 := by
  have hTimer : l.lapicReset maxLvt initial lvtT = if initial ≠ 0 then 0x2007B else 0x10000 := by
    rw [lapicReset_apply]
    simp
  have hCount (hInitial : initial ≠ 0) : l.lapicReset maxLvt initial icr = initial := by
    rw [lapicReset_apply]
    simpa using fun h => absurd h hInitial
  have hLint0 : l.lapicReset maxLvt initial lint0 = 0x7C := by
    rw [lapicReset_apply]
    simp
  have hLint1 : l.lapicReset maxLvt initial lint1 = 0x7D := by
    rw [lapicReset_apply]
    simp
  have hError : l.lapicReset maxLvt initial lvtEr = 0x7E := by
    rw [lapicReset_apply]
    simp
  constructor
  · rintro ⟨entry, hEntry, hOpen, -, rfl, -⟩
    rcases lapicReset_open initial h hEntry hOpen with rfl | rfl | rfl | rfl
    · by_cases hInitial : initial = 0
      · rw [hTimer, if_neg (not_not.mpr hInitial)] at hOpen
        exact absurd hOpen (by decide)
      · rw [hTimer, if_pos hInitial]
        exact Or.inl ⟨by decide, hInitial⟩
    · rw [hLint0]
      exact Or.inr (Or.inl (by decide))
    · rw [hLint1]
      exact Or.inr (Or.inr (Or.inl (by decide)))
    · rw [hError]
      exact Or.inr (Or.inr (Or.inr (by decide)))
  · have hFirst : ∀ entry ∈ [lvtT, lint0, lint1, lvtEr], entry ∈ lvts maxLvt := fun entry h => by
      simp only [lvts, List.append_assoc]
      exact List.mem_append_left _ h
    rintro (⟨rfl, hInitial⟩ | rfl | rfl | rfl)
    · refine ⟨lvtT, hFirst _ (by decide), ?_⟩
      rw [hTimer, if_pos hInitial, hCount hInitial]
      exact ⟨by decide, by decide, by decide, fun _ => hInitial⟩
    · refine ⟨lint0, hFirst _ (by decide), ?_⟩
      rw [hLint0]
      exact ⟨by decide, by decide, by decide, fun h => absurd h (by decide)⟩
    · refine ⟨lint1, hFirst _ (by decide), ?_⟩
      rw [hLint1]
      exact ⟨by decide, by decide, by decide, fun h => absurd h (by decide)⟩
    · refine ⟨lvtEr, hFirst _ (by decide), ?_⟩
      rw [hError]
      exact ⟨by decide, by decide, by decide, fun h => absurd h (by decide)⟩

/-- The vectors that the local APIC sends from then on. -/
theorem sends_lapicReset (h : Quiet maxLvt l) :
    (l.lapicReset maxLvt initial).Sends maxLvt v ↔
      v = 123 ∧ initial ≠ 0 ∨ v = 124 ∨ v = 125 ∨ v = 126 ∨ v = 127 := by
  have hSvr : l.lapicReset maxLvt initial svr = 0x17F := by
    rw [lapicReset_apply]
    simp
  have hSpurious : (0x17F : BitVec 32).setWidth 8 = v ↔ v = 127 := eq_comm
  rw [Sends, hSvr, hSpurious, unmasked_lapicReset h, or_comm, or_assoc, or_assoc, or_assoc]
  exact and_iff_right (by decide)

end Lapic

structure Controllers where
  pics : Pics
  lapic : Lapic
  ioapic : IoApic

namespace Controllers

open Apic IoApic Lapic

/-- `apic_calibration` with its result. The timer has counted down to `ccr` in three ticks of the
clock. -/
def apicCalibration (hw : ApicHardware) (mem : Nat → BitVec 8) (routes : Nat → IoApicRoute) (s : Apic)
    (ccr : BitVec 32) (c : Controllers) : Option (Controllers × Int) :=
  if s.lapic = 0 then some (c, -enxio)
  else
    let lapic := c.lapic.connectTimer 0xFFFFFFFF
    let lapic := lapic.lapicReset hw.lvtEntries ((0xFFFFFFFF - ccr) / 3)
    let pics := (c.pics.outportb 0xA1 0xFF).outportb 0x21 0xFF
    (routeIrqs mem routes s c.ioapic).map fun ioapic => (⟨pics, lapic, ioapic⟩, 0)

/-- The vectors that can reach the processor. -/
def Arrives (hw : ApicHardware) (c : Controllers) (v : BitVec 8) : Prop :=
  (∃ pics, c.pics.acknowledge = some (v, pics)) ∨ c.lapic.Sends hw.lvtEntries v ∨
    ∃ p e, c.ioapic.HasPin p ∧ c.ioapic.request p = some e ∧ e.vector = v

/-- The vectors that can reach it at some time, whatever the devices and the exceptions do to the
PIC. -/
def MayArrive (hw : ApicHardware) (c : Controllers) (v : BitVec 8) : Prop :=
  ∃ during : List Pics.Meanwhile, (∀ m ∈ during, m.Allowed) ∧
    ({ c with pics := during.foldl Pics.meanwhile c.pics } : Controllers).Arrives hw v

end Controllers

namespace Pics

variable {p : Pics}

/-- Both controllers mask everything. -/
def Masked (p : Pics) : Prop := p.master.imr = 0xFF ∧ p.slave.imr = 0xFF

theorem Settled.masked (h : p.Settled) :
    ((p.outportb 0xA1 0xFF).outportb 0x21 0xFF).Settled ∧ ((p.outportb 0xA1 0xFF).outportb 0x21 0xFF).Masked := by
  refine ⟨h.mask 0xFF 0xFF, ?_⟩
  simp only [Masked, outportb, Pic.data, h.master_expected, h.slave_expected, and_self]

theorem Masked.meanwhile (h : p.Masked) (m : Meanwhile) : (p.meanwhile m).Masked := by
  cases m with
  | request n =>
      rw [Pics.meanwhile, request]
      split
      · exact h
      · exact h
  | exception intNo =>
      have hFault : p.faultHandler.Masked := h
      rw [Pics.meanwhile]
      split
      · rw [endOfInterrupt_eq]
        split
        · exact h
        · exact h
      · exact hFault

/-- Nothing gets through any more. -/
theorem Masked.silent (hMasked : p.Masked) (h : p.Settled) : p.acknowledge = none := by
  rcases h.acknowledge_cases with ⟨hNone, -⟩ | ⟨n, hUrgent, -⟩
  · exact hNone
  · have hEnabled := hUrgent.waiting.2.1
    have hOnes : ∀ i < 8, (0xFF : BitVec 8).getLsbD i = true := by decide
    have hLine := hUrgent.line_lt
    rw [Enabled, hMasked.1, hMasked.2] at hEnabled
    split at hEnabled
    · rename_i hLow
      exact absurd ((hOnes n hLow).symm.trans hEnabled) (by decide)
    · exact absurd ((hOnes 2 (by decide)).symm.trans hEnabled.2) (by decide)

theorem Masked.during (hMasked : p.Masked) (h : p.Settled) {during : List Meanwhile}
    (hDuring : ∀ m ∈ during, m.Allowed) : (during.foldl Pics.meanwhile p).acknowledge = none := by
  induction during generalizing p with
  | nil => exact hMasked.silent h
  | cons m during ih =>
      exact ih (hMasked.meanwhile m) (h.meanwhile (hDuring m List.mem_cons_self))
        fun m hm => hDuring m (List.mem_cons_of_mem _ hm)

end Pics

namespace Controllers

open Apic IoApic Lapic

variable {hw : ApicHardware} {mem : Nat → BitVec 8} {apicMp : Nat} {c : Controllers} {v : BitVec 8}

/-- The interrupt `i` has a pin that `apic_calibration` leaves open. -/
def Open (redirect : Nat → BitVec 8) (d : IoApic) (i : Nat) : Prop :=
  ∃ p, d.HasPin p ∧ p ≠ target redirect 2 ∧ Owns redirect d.maxEntry i p

/-- The pins, if all of them have been masked before. -/
theorem request_iff {redirect : Nat → BitVec 8} {d : IoApic} {id : BitVec 8} {routes : Nat → IoApicRoute}
    (hMasked : ∀ p, d.HasPin p → d.request p = none) :
    (∃ p e, (d.calibrate redirect id routes).HasPin p ∧
        (d.calibrate redirect id routes).request p = some e ∧ e.vector = v) ↔
      ∃ i, Open redirect d i ∧ v = 0x20 + BitVec.ofNat 8 i := by
  constructor
  · rintro ⟨p, e, hp, hRequest, rfl⟩
    rw [HasPin, maxEntry_calibrate] at hp
    obtain ⟨hSilent, hOwned, hOther⟩ := request_calibrate redirect id routes hp
    have hTimer : p ≠ target redirect 2 := fun he => by
      rw [hSilent he] at hRequest
      cases hRequest
    by_cases hOwns : ∃ i, Owns redirect d.maxEntry i p
    · obtain ⟨i, hi⟩ := hOwns
      obtain rfl := Option.some.inj ((hOwned hTimer i hi).symm.trans hRequest)
      exact ⟨i, ⟨p, hp, hTimer, hi⟩, rfl⟩
    · rw [hOther hTimer (not_exists.mp hOwns), hMasked p hp] at hRequest
      cases hRequest
  · rintro ⟨i, ⟨p, hp, hTimer, hi⟩, rfl⟩
    refine ⟨p, _, ?_, (request_calibrate redirect id routes hp).2.1 hTimer i hi, rfl⟩
    rwa [HasPin, maxEntry_calibrate]

/-- The device interrupts after the probe and the calibration. -/
theorem routeIrqs_arrives (hBounds : AccessesInBounds hw mem apicMp) (hOn : Enabled hw mem apicMp)
    (routes : Nat → IoApicRoute) {d : IoApic} (hMasked : ∀ p, d.HasPin p → d.request p = none) :
    ∃ d', routeIrqs mem routes (apicProbe hw mem apicMp initial).1 d = some d' ∧
      ∀ v, (∃ p e, d'.HasPin p ∧ d'.request p = some e ∧ e.vector = v) ↔
        (∃ a ∈ tableEntries mem apicMp, entryType mem a = 2) ∧
          ∃ i, Open (redirectedPins mem apicMp) d i ∧ v = 0x20 + BitVec.ofNat 8 i := by
  by_cases hEntry : ∃ a ∈ tableEntries mem apicMp, entryType mem a = 2
  · obtain ⟨id, -, hRoute⟩ := routeIrqs_probed hBounds hOn hEntry routes d
    exact ⟨_, hRoute, fun v => (request_iff hMasked).trans (and_iff_right hEntry).symm⟩
  · obtain ⟨l, n, hState, -⟩ := apicProbe_eq hw mem apicMp
    refine ⟨d, ?_, fun v => iff_of_false ?_ fun h => hEntry h.1⟩
    · rw [routeIrqs, hState]
      exact if_neg (mt probed_ioapic.mp hEntry)
    · rintro ⟨p, e, hp, hRequest, -⟩
      rw [hMasked p hp] at hRequest
      cases hRequest

/-- The vectors that are left. -/
theorem mayArrive_calibrated (hBounds : AccessesInBounds hw mem apicMp) (hOn : Enabled hw mem apicMp)
    {left : List Nat} (hPics : Pics.Reachable (c.pics, left)) (hQuiet : c.lapic.Quiet hw.lvtEntries)
    (hPins : ∀ p, c.ioapic.HasPin p → c.ioapic.request p = none) (routes : Nat → IoApicRoute) (ccr : BitVec 32) :
    ∃ c', c.apicCalibration hw mem routes (apicProbe hw mem apicMp initial).1 ccr = some (c', 0) ∧
      ∀ v, c'.MayArrive hw v ↔
        (v = 123 ∧ (0xFFFFFFFF - ccr) / 3 ≠ 0 ∨ v = 124 ∨ v = 125 ∨ v = 126 ∨ v = 127) ∨
          (∃ a ∈ tableEntries mem apicMp, entryType mem a = 2) ∧
            ∃ i, Open (redirectedPins mem apicMp) c.ioapic i ∧ v = 0x20 + BitVec.ofNat 8 i := by
  obtain ⟨l, n, hState, hLapic⟩ := apicProbe_eq hw mem apicMp
  obtain ⟨d', hRoute, hArrives⟩ := routeIrqs_arrives hBounds hOn routes hPins
  have hFound : (apicProbe hw mem apicMp initial).1.lapic ≠ 0 := by
    rw [hState]
    exact hLapic.mpr hOn
  obtain ⟨hSettled, hMasked⟩ := hPics.left.settled.masked
  have hReset : (c.lapic.connectTimer 0xFFFFFFFF).Quiet hw.lvtEntries :=
    ⟨by simpa [connectTimer, lapicWrite_apply] using hQuiet.counter,
      by simpa [connectTimer, lapicWrite_apply] using hQuiet.checks⟩
  refine ⟨_, by rw [apicCalibration, if_neg hFound, hRoute, Option.map_some], fun v => ?_⟩
  constructor
  · rintro ⟨during, hDuring, ⟨pics, hPic⟩ | hSends | hPin⟩
    · exact absurd ((hMasked.during hSettled hDuring).symm.trans hPic) (by simp)
    · exact Or.inl ((sends_lapicReset hReset).mp hSends)
    · exact Or.inr ((hArrives v).mp hPin)
  · rintro (hSends | hPin)
    · exact ⟨[], by simp, Or.inr (Or.inl ((sends_lapicReset hReset).mpr hSends))⟩
    · exact ⟨[], by simp, Or.inr (Or.inr ((hArrives v).mpr hPin))⟩

/-- Where the table leads the timer to the pin of interrupt 2, it is turned off with it. -/
theorem not_open_timer {redirect : Nat → BitVec 8} {d : IoApic} (h : target redirect 0 = target redirect 2) :
    ¬ Open redirect d 0 := by
  rintro ⟨p, -, hTimer, -, -, hPin, -⟩
  exact hTimer (hPin.symm.trans h)

theorem open_of_timer {redirect : Nat → BitVec 8} {d : IoApic} {i : Nat} (h : Open redirect d i)
    (hVector : (0x20 + BitVec.ofNat 8 i).toNat = 32) : Open redirect d 0 := by
  have hSmall : i ≤ 24 := by
    obtain ⟨p, -, -, hOwns⟩ := h
    exact hOwns.2.1
  have hZero : i = 0 := by
    simp at hVector
    omega
  exact hZero ▸ h

def exampleControllers : Controllers where
  pics := Pics.irqRemap ⟨⟨7, 1, 255, 8, 0, .ready⟩, ⟨0, 0, 0, 0x70, 0, .ready⟩⟩
  lapic := fun _ => 0x10000
  ioapic := resetIoApic

/-- While a task runs, a second one of its priority is created, and the timer ticks. -/
def equalEvents : List Event :=
  Machine.exampleEvents.take 2 ++
    [.create 0x5000 9 5 ⟨16384, 0⟩, .interrupt 123 (fun _ => 1) fun _ => 2]

theorem equalEvents_states (n : Nat) (hn : n = 2 ∨ n = 3) :
    (Machine.run Machine.exampleLinked (equalEvents.take n) Machine.exampleMachine).map (fun m =>
      (m.kernel.currentStatus, decide (∀ t, m.kernel.task.status t = .ready →
        m.kernel.task.prio t ≤ m.kernel.task.prio m.current))) = some (.running, true) := by
  rcases hn with rfl | rfl
  · decide
  · decide

theorem equalEvents_ends :
    (Machine.run Machine.exampleLinked equalEvents Machine.exampleMachine).isSome ∧
      (Machine.run Machine.exampleLinked (equalEvents.take 1) Machine.exampleMachine).isSome := by decide

end Controllers
end ArtOS
