import ArtOS.Cpu.Interrupts
import ArtOS.Devices.ApicBounds

/-! The redirection table of the I/O APIC: `ioapic_inton`, `ioapic_intoff` and the loop of
`apic_calibration` over the pins. The device is the documented 82093AA, with as many pins as its
version register says. -/
namespace ArtOS

/-- `ioapic_route_t`, with the destination in its physical form. -/
structure IoApicRoute where
  vector : BitVec 8
  deliveryMode : BitVec 3
  destMode : BitVec 1
  deliveryStatus : BitVec 1
  polarity : BitVec 1
  irr : BitVec 1
  trigger : BitVec 1
  mask : BitVec 1
  reserved2 : BitVec 15
  destReserved1 : BitVec 24
  physicalDest : BitVec 4
  destReserved2 : BitVec 4
  deriving DecidableEq, Repr

namespace IoApicRoute

/-- `lower.whole`. -/
def lower (r : IoApicRoute) : BitVec 32 :=
  r.reserved2 ++ r.mask ++ r.trigger ++ r.irr ++ r.polarity ++ r.deliveryStatus ++ r.destMode ++
    r.deliveryMode ++ r.vector

/-- `dest.upper`. -/
def upper (r : IoApicRoute) : BitVec 32 := r.destReserved2 ++ r.physicalDest ++ r.destReserved1

/-- The assignments in both functions. What is not assigned is what has been on the stack. -/
def assign (r : IoApicRoute) (mask : BitVec 1) (irq apicid : BitVec 8) : IoApicRoute :=
  { r with
    destMode := 0
    physicalDest := apicid.setWidth 4
    deliveryMode := 0
    polarity := 0
    trigger := 0
    vector := 0x20 + irq
    mask := mask }

end IoApicRoute

/-- An entry of the redirection table as the device reads it. -/
structure Redirection where
  vector : BitVec 8
  deliveryMode : BitVec 3
  destMode : BitVec 1
  polarity : BitVec 1
  trigger : BitVec 1
  mask : BitVec 1
  dest : BitVec 8
  deriving DecidableEq, Repr

/-- The register select and the registers behind it. -/
structure IoApic where
  reg : BitVec 8
  regs : BitVec 8 → BitVec 32

namespace IoApic

abbrev regVer : BitVec 32 := 0x0001
abbrev regTable : BitVec 32 := 0x0010

/-- The highest entry of the table, from the version register. -/
def maxEntry (d : IoApic) : Nat := ((d.regs 1).extractLsb' 16 8).toNat

def lowReg (p : BitVec 7) : BitVec 8 := 0x10 + p.setWidth 8 * 2

def highReg (p : BitVec 7) : BitVec 8 := lowReg p + 1

/-- The table has an entry for the pin. -/
def HasPin (d : IoApic) (p : BitVec 7) : Prop := p.toNat ≤ d.maxEntry ∧ p.toNat < 120

instance (d : IoApic) (p : BitVec 7) : Decidable (d.HasPin p) := inferInstanceAs (Decidable (_ ∧ _))

/-- The bits of a register that a write changes. -/
def writable (d : IoApic) (r : BitVec 8) : BitVec 32 :=
  if r = 0 then 0x0F000000
  else if 0x10 ≤ r.toNat ∧ r.toNat < 0x10 + 2 * (d.maxEntry + 1) then
    if r.getLsbD 0 then 0xFF000000 else 0x0001AFFF
  else 0

/-- `ioapic_read`, whose effect is the selection. -/
def ioapicRead (d : IoApic) (reg : BitVec 32) : BitVec 32 × IoApic :=
  let d := { d with reg := reg.setWidth 8 }
  (d.regs d.reg, d)

def ioapicWrite (d : IoApic) (reg value : BitVec 32) : IoApic :=
  let d := { d with reg := reg.setWidth 8 }
  let kept := d.regs d.reg &&& ~~~d.writable d.reg
  { d with regs := Function.update d.regs d.reg (kept ||| value &&& d.writable d.reg) }

def maxRedirectionEntry (d : IoApic) : BitVec 32 × IoApic :=
  let (version, d) := d.ioapicRead regVer
  (version >>> 16 &&& 0xFF, d)

/-- The pin of an interrupt: the array is for those of the ISA bus. -/
def ioapicOff (irqRedirect : Nat → BitVec 8) (irq : BitVec 8) : BitVec 32 :=
  if irq.toNat < 16 then (irqRedirect irq.toNat).setWidth 32 * 2 else irq.setWidth 32 * 2

def ioapicInton (irqRedirect : Nat → BitVec 8) (route : IoApicRoute) (irq apicid : BitVec 8)
    (d : IoApic) : IoApic × Int :=
  if 24 < irq.toNat then (d, -einval)
  else
    let off := ioapicOff irqRedirect irq
    let route := route.assign 0 irq apicid
    let d := d.ioapicWrite (regTable + off) route.lower
    let d := d.ioapicWrite (regTable + 1 + off) route.upper
    let d := (d.ioapicRead (regTable + 1 + off)).2
    ((d.ioapicRead (regTable + off)).2, 0)

def ioapicIntoff (irqRedirect : Nat → BitVec 8) (route : IoApicRoute) (irq apicid : BitVec 8)
    (d : IoApic) : IoApic × Int :=
  if 24 < irq.toNat then (d, -einval)
  else
    let off := ioapicOff irqRedirect irq
    let route := route.assign 1 irq apicid
    let d := d.ioapicWrite (regTable + off) route.lower
    (d.ioapicWrite (regTable + 1 + off) route.upper, 0)

/-- The interrupts that the loop of `apic_calibration` turns on. -/
def turnedOn (max : Nat) : List Nat := (List.range (max + 1)).filter (· ≠ 2)

/-- What `apic_calibration` does with the I/O APIC; a call finds `routes` on its stack. -/
def calibrate (irqRedirect : Nat → BitVec 8) (apicid : BitVec 8) (routes : Nat → IoApicRoute)
    (d : IoApic) : IoApic :=
  let (max, d) := d.maxRedirectionEntry
  let d := (turnedOn max.toNat).foldl
    (fun d i => (ioapicInton irqRedirect (routes i) (BitVec.ofNat 8 i) apicid d).1) d
  (ioapicIntoff irqRedirect (routes 2) 2 apicid d).1

/-- The two registers of an entry as the device reads them. -/
def fields (low high : BitVec 32) : Redirection where
  vector := low.extractLsb' 0 8
  deliveryMode := low.extractLsb' 8 3
  destMode := low.extractLsb' 11 1
  polarity := low.extractLsb' 13 1
  trigger := low.extractLsb' 15 1
  mask := low.extractLsb' 16 1
  dest := high.extractLsb' 24 8

/-- The entry of a pin. -/
def read (d : IoApic) (p : BitVec 7) : Redirection := fields (d.regs (lowReg p)) (d.regs (highReg p))

/-- The pin that an interrupt is routed to. The register select has eight bits. -/
def target (irqRedirect : Nat → BitVec 8) (irq : BitVec 8) : BitVec 7 :=
  (if irq.toNat < 16 then irqRedirect irq.toNat else irq).setWidth 7

/-- What the entry of the pin becomes. -/
def redirection (route : IoApicRoute) (mask : BitVec 1) (irq apicid : BitVec 8) : Redirection where
  vector := 0x20 + irq
  deliveryMode := 0
  destMode := 0
  polarity := 0
  trigger := 0
  mask := mask
  dest := route.destReserved2 ++ apicid.setWidth 4

variable {irqRedirect : Nat → BitVec 8} {route : IoApicRoute} {routes : Nat → IoApicRoute}
variable {d d' : IoApic} {irq apicid : BitVec 8} {p q : BitVec 7} {value : BitVec 32} {r : BitVec 8}

theorem toNat_lowReg (p : BitVec 7) : (lowReg p).toNat = (16 + 2 * p.toNat) % 256 := by
  simp [lowReg]
  omega

theorem toNat_highReg (p : BitVec 7) : (highReg p).toNat = (17 + 2 * p.toNat) % 256 := by
  rw [highReg, BitVec.toNat_add, toNat_lowReg]
  simp
  omega

theorem lowReg_inj : lowReg p = lowReg q ↔ p = q := by
  refine ⟨fun h => BitVec.eq_of_toNat_eq ?_, congrArg _⟩
  have hNat := congrArg BitVec.toNat h
  rw [toNat_lowReg, toNat_lowReg] at hNat
  omega

theorem highReg_inj : highReg p = highReg q ↔ p = q := by
  refine ⟨fun h => BitVec.eq_of_toNat_eq ?_, congrArg _⟩
  have hNat := congrArg BitVec.toNat h
  rw [toNat_highReg, toNat_highReg] at hNat
  omega

theorem lowReg_ne_highReg (p q : BitVec 7) : lowReg p ≠ highReg q := by
  intro h
  have hNat := congrArg BitVec.toNat h
  rw [toNat_lowReg, toNat_highReg] at hNat
  omega

/-- The registers that the two functions select. -/
theorem selected (irqRedirect : Nat → BitVec 8) (irq : BitVec 8) :
    (regTable + ioapicOff irqRedirect irq).setWidth 8 = lowReg (target irqRedirect irq) ∧
      (regTable + 1 + ioapicOff irqRedirect irq).setWidth 8 = highReg (target irqRedirect irq) := by
  have hBoth (x : BitVec 8) : (regTable + x.setWidth 32 * 2).setWidth 8 = lowReg (x.setWidth 7) ∧
      (regTable + 1 + x.setWidth 32 * 2).setWidth 8 = highReg (x.setWidth 7) := by
    constructor <;> apply BitVec.eq_of_toNat_eq
    · rw [toNat_lowReg]
      simp [BitVec.toNat_setWidth, BitVec.toNat_add, BitVec.toNat_mul]
      omega
    · rw [toNat_highReg]
      simp [BitVec.toNat_setWidth, BitVec.toNat_add, BitVec.toNat_mul]
      omega
  rw [ioapicOff, target]
  split
  · exact hBoth _
  · exact hBoth _

/-- What a write does not change is not in an entry. -/
theorem fields_kept (a b low high : BitVec 32) :
    fields (a &&& ~~~0x0001AFFF ||| low &&& 0x0001AFFF) (b &&& ~~~0xFF000000 ||| high &&& 0xFF000000) =
      fields low high := by
  have hKept (k n : Nat) (m x y : BitVec 32) (hMask : m.extractLsb' k n = BitVec.allOnes n) :
      (x &&& ~~~m ||| y &&& m).extractLsb' k n = y.extractLsb' k n := by
    rw [BitVec.extractLsb'_or, BitVec.extractLsb'_and, BitVec.extractLsb'_and, hMask]
    apply BitVec.eq_of_getLsbD_eq
    intro i hi
    have hBit := congrArg (BitVec.getLsbD · i) hMask
    simp only [BitVec.getLsbD_extractLsb', BitVec.getLsbD_allOnes, decide_eq_true hi, Bool.true_and] at hBit
    simp [hi, hBit]
  simp (disch := decide) only [fields, hKept]

/-- What the two functions write is what the device reads. -/
theorem fields_assign (route : IoApicRoute) (mask : BitVec 1) (irq apicid : BitVec 8) :
    fields (route.assign mask irq apicid).lower (route.assign mask irq apicid).upper =
      redirection route mask irq apicid := by
  simp only [fields, redirection, IoApicRoute.lower, IoApicRoute.upper, IoApicRoute.assign,
    Redirection.mk.injEq]
  simp (disch := decide) only [BitVec.extractLsb'_append_eq_of_le,
    BitVec.extractLsb'_append_eq_of_add_le]
  simp

section Write

variable {reg reg' low high : BitVec 32}

theorem ioapicWrite_regs (d : IoApic) (reg value : BitVec 32) (r : BitVec 8) :
    (d.ioapicWrite reg value).regs r =
      if r = reg.setWidth 8 then d.regs r &&& ~~~d.writable r ||| value &&& d.writable r else d.regs r := by
  rw [ioapicWrite]
  dsimp only
  rw [Function.update_apply]
  split
  · rename_i h
    rw [h]
    rfl
  · rfl

/-- The version register is not written. -/
theorem maxEntry_write : (d.ioapicWrite reg value).maxEntry = d.maxEntry := by
  have hVer : d.writable 1 = 0#32 := by
    rw [writable, if_neg (by decide), if_neg fun h => absurd h.1 (by decide)]
    rfl
  rw [maxEntry, ioapicWrite_regs, hVer, BitVec.not_zero, BitVec.and_allOnes, BitVec.and_zero, BitVec.or_zero,
    ite_self, maxEntry]

theorem HasPin.write (h : d.HasPin p) : (d.ioapicWrite reg value).HasPin p := by
  rwa [HasPin, maxEntry_write]

/-- The two registers of an entry. -/
theorem HasPin.writable_eq {high : Bool} (h : d.HasPin p) (hr : r.toNat = 16 + 2 * p.toNat + high.toNat) :
    d.writable r = if high then 0xFF000000 else 0x0001AFFF := by
  obtain ⟨hMax, -⟩ := h
  have hHigh := Bool.toNat_le high
  have hPos : r ≠ 0 := fun h0 => by
    have hZero : r.toNat = 0 := congrArg BitVec.toNat h0
    omega
  have hTable : 0x10 ≤ r.toNat ∧ r.toNat < 0x10 + 2 * (d.maxEntry + 1) := by omega
  have hOdd : r.getLsbD 0 = high := by
    rw [BitVec.getLsbD, Nat.testBit_zero, hr]
    cases high with
    | false => simp
    | true =>
        simp
        omega
  rw [writable, if_neg hPos, if_pos hTable, hOdd]

theorem HasPin.writable_low (h : d.HasPin p) : d.writable (lowReg p) = 0x0001AFFF := by
  have hPin := h.2
  have hNat : (lowReg p).toNat = 16 + 2 * p.toNat + false.toNat := by
    rw [toNat_lowReg, Bool.toNat_false]
    omega
  exact h.writable_eq hNat

theorem HasPin.writable_high (h : d.HasPin p) : d.writable (highReg p) = 0xFF000000 := by
  have hPin := h.2
  have hNat : (highReg p).toNat = 16 + 2 * p.toNat + true.toNat := by
    rw [toNat_highReg, Bool.toNat_true]
    omega
  exact h.writable_eq hNat

/-- Two writes to the registers of a pin. -/
theorem read_writes (h : d.HasPin p) (hLow : reg.setWidth 8 = lowReg q) (hHigh : reg'.setWidth 8 = highReg q) :
    ((d.ioapicWrite reg low).ioapicWrite reg' high).read p = if p = q then fields low high else d.read p := by
  have hFirst : ((d.ioapicWrite reg low).ioapicWrite reg' high).regs (lowReg p) =
      if p = q then d.regs (lowReg p) &&& ~~~0x0001AFFF ||| low &&& 0x0001AFFF else d.regs (lowReg p) := by
    rw [ioapicWrite_regs, hHigh, if_neg (lowReg_ne_highReg p q), ioapicWrite_regs, hLow, h.writable_low]
    simp only [lowReg_inj]
  have hSecond : ((d.ioapicWrite reg low).ioapicWrite reg' high).regs (highReg p) =
      if p = q then d.regs (highReg p) &&& ~~~0xFF000000 ||| high &&& 0xFF000000 else d.regs (highReg p) := by
    rw [ioapicWrite_regs, hHigh, ioapicWrite_regs, hLow, if_neg (lowReg_ne_highReg q p).symm, h.write.writable_high]
    simp only [highReg_inj]
  rw [read, hFirst, hSecond]
  split
  · exact fields_kept _ _ _ _
  · rfl

end Write

theorem read_inton (h : d.HasPin p) :
    (ioapicInton irqRedirect route irq apicid d).1.read p =
      if irq.toNat ≤ 24 ∧ p = target irqRedirect irq then redirection route 0 irq apicid else d.read p := by
  obtain ⟨hLow, hHigh⟩ := selected irqRedirect irq
  rw [ioapicInton]
  split
  · rename_i hRefused
    rw [if_neg fun hc => absurd hc.1 (Nat.not_le.mpr hRefused)]
  · rename_i hTaken
    rw [← fields_assign]
    refine (read_writes h hLow hHigh).trans (if_congr ?_ rfl rfl)
    exact (and_iff_right (Nat.not_lt.mp hTaken)).symm

theorem read_intoff (h : d.HasPin p) :
    (ioapicIntoff irqRedirect route irq apicid d).1.read p =
      if irq.toNat ≤ 24 ∧ p = target irqRedirect irq then redirection route 1 irq apicid else d.read p := by
  obtain ⟨hLow, hHigh⟩ := selected irqRedirect irq
  rw [ioapicIntoff]
  split
  · rename_i hRefused
    rw [if_neg fun hc => absurd hc.1 (Nat.not_le.mpr hRefused)]
  · rename_i hTaken
    rw [← fields_assign]
    refine (read_writes h hLow hHigh).trans (if_congr ?_ rfl rfl)
    exact (and_iff_right (Nat.not_lt.mp hTaken)).symm

theorem maxEntry_inton : (ioapicInton irqRedirect route irq apicid d).1.maxEntry = d.maxEntry := by
  rw [ioapicInton]
  split
  · rfl
  · exact maxEntry_write.trans maxEntry_write

theorem HasPin.inton (h : d.HasPin p) : (ioapicInton irqRedirect route irq apicid d).1.HasPin p := by
  rwa [HasPin, maxEntry_inton]

theorem maxEntry_intoff : (ioapicIntoff irqRedirect route irq apicid d).1.maxEntry = d.maxEntry := by
  rw [ioapicIntoff]
  split
  · rfl
  · exact maxEntry_write.trans maxEntry_write

theorem maxEntry_foldl (irqs : List Nat) (d : IoApic) :
    (irqs.foldl (fun d i => (ioapicInton irqRedirect (routes i) (BitVec.ofNat 8 i) apicid d).1) d).maxEntry =
      d.maxEntry := by
  induction irqs generalizing d with
  | nil => rfl
  | cons i irqs ih => exact (ih _).trans maxEntry_inton

/-- The entries that the calls of `ioapic_inton` write, in their order. -/
def routed (irqRedirect : Nat → BitVec 8) (apicid : BitVec 8) (routes : Nat → IoApicRoute)
    (irqs : List Nat) : List (BitVec 7 × Redirection) :=
  (irqs.filter (· ≤ 24)).map fun i =>
    (target irqRedirect (BitVec.ofNat 8 i), redirection (routes i) 0 (BitVec.ofNat 8 i) apicid)

theorem read_foldl {irqs : List Nat} (h : d.HasPin p) (hByte : ∀ i ∈ irqs, i < 256) :
    (irqs.foldl (fun d i => (ioapicInton irqRedirect (routes i) (BitVec.ofNat 8 i) apicid d).1) d).read p =
      Stores.written (routed irqRedirect apicid routes irqs) d.read p := by
  induction irqs generalizing d with
  | nil => rfl
  | cons i irqs ih =>
      have hFirst : (BitVec.ofNat 8 i).toNat = i := by
        rw [BitVec.toNat_ofNat, Nat.mod_eq_of_lt (hByte i List.mem_cons_self)]
      rw [List.foldl_cons, ih h.inton fun j hj => hByte j (List.mem_cons_of_mem _ hj), routed, routed]
      by_cases hi : i ≤ 24
      · rw [List.filter_cons_of_pos (by simpa using hi), List.map_cons, Stores.written_cons]
        refine Stores.written_congr (Or.inr ?_)
        rw [read_inton h, hFirst, Function.update_apply]
        exact if_congr (and_iff_right hi) rfl rfl
      · rw [List.filter_cons_of_neg (by simpa using hi)]
        refine Stores.written_congr (Or.inr ?_)
        rw [read_inton h, hFirst, if_neg fun hc => hi hc.1]

theorem maxRedirectionEntry_eq (d : IoApic) :
    d.maxRedirectionEntry.1.toNat = d.maxEntry ∧ d.maxRedirectionEntry.2.regs = d.regs := by
  refine ⟨?_, rfl⟩
  show ((d.regs 1) >>> 16 &&& 0xFF).toNat = ((d.regs 1).extractLsb' 16 8).toNat
  have hByte : ∀ i < 8, (0xFF : BitVec 32).getLsbD i = true := by decide
  rw [← extract_masked _ _ hByte, BitVec.toNat_setWidth, Nat.mod_eq_of_lt]
  rw [BitVec.toNat_and]
  exact Nat.and_lt_two_pow _ (by decide)

/-- All entries behind the calibration. -/
theorem read_calibrate (h : d.HasPin p) :
    (d.calibrate irqRedirect apicid routes).read p =
      if p = target irqRedirect 2 then redirection (routes 2) 1 2 apicid
      else Stores.written (routed irqRedirect apicid routes (turnedOn d.maxEntry)) d.read p := by
  obtain ⟨hMax, hRegs⟩ := maxRedirectionEntry_eq d
  have hByte : ∀ i ∈ turnedOn d.maxEntry, i < 256 := fun i hi => by
    have hLt := List.mem_range.mp (List.mem_filter.mp hi).1
    have hVer := ((d.regs 1).extractLsb' 16 8).isLt
    rw [maxEntry] at hLt
    omega
  have hPin : d.maxRedirectionEntry.2.HasPin p := h
  rw [calibrate]
  dsimp only
  have hSmall : (2 : BitVec 8).toNat ≤ 24 := by decide
  rw [hMax, read_intoff, read_foldl hPin hByte]
  · simp only [hSmall, true_and]
    rfl
  · rwa [HasPin, maxEntry_foldl]

theorem maxEntry_calibrate : (d.calibrate irqRedirect apicid routes).maxEntry = d.maxEntry :=
  maxEntry_intoff.trans (maxEntry_foldl _ _)

/-- The entry of the pin is that of this interrupt: no later one has the same pin. -/
def Owns (irqRedirect : Nat → BitVec 8) (max i : Nat) (p : BitVec 7) : Prop :=
  i ∈ turnedOn max ∧ i ≤ 24 ∧ target irqRedirect (BitVec.ofNat 8 i) = p ∧
    ∀ j ∈ turnedOn max, i < j → j ≤ 24 → target irqRedirect (BitVec.ofNat 8 j) ≠ p

/-- What the device sends to the processors when the pin is raised. -/
def request (d : IoApic) (p : BitVec 7) : Option Redirection :=
  if (d.read p).mask = 1 then none else some (d.read p)

theorem Owns.written {max i : Nat} {mem : BitVec 7 → Redirection} (h : Owns irqRedirect max i p) :
    Stores.written (routed irqRedirect apicid routes (turnedOn max)) mem p =
      redirection (routes i) 0 (BitVec.ofNat 8 i) apicid := by
  obtain ⟨hOn, hSmall, rfl, hLast⟩ := h
  obtain ⟨before, later, hSplit⟩ := List.append_of_mem hOn
  have hSorted : (turnedOn max).Pairwise (· < ·) := List.pairwise_lt_range.filter _
  rw [hSplit] at hSorted
  have hLater : ∀ j ∈ later, i < j := (List.pairwise_cons.mp (List.pairwise_append.mp hSorted).2.1).1
  rw [hSplit, routed, List.filter_append, List.filter_cons_of_pos (by simpa using hSmall), List.map_append,
    List.map_cons]
  refine Stores.written_of_last fun hMem => ?_
  obtain ⟨w, hw, hPin⟩ := List.mem_map.mp hMem
  obtain ⟨j, hj, rfl⟩ := List.mem_map.mp hw
  obtain ⟨hj, hjSmall⟩ := List.mem_filter.mp hj
  have hjOn : j ∈ turnedOn max := hSplit ▸ List.mem_append_right _ (List.mem_cons_of_mem _ hj)
  exact hLast j hjOn (hLater j hj) (of_decide_eq_true hjSmall) hPin

/-- Of the interrupts that are routed to a pin there is a last one. -/
theorem exists_owns {max i : Nat} (hOn : i ∈ turnedOn max) (hSmall : i ≤ 24)
    (hPin : target irqRedirect (BitVec.ofNat 8 i) = p) : ∃ j, Owns irqRedirect max j p := by
  induction hLeft : 24 - i using Nat.strong_induction_on generalizing i with
  | _ n ih =>
      by_cases hLast : ∃ j ∈ turnedOn max, i < j ∧ j ≤ 24 ∧ target irqRedirect (BitVec.ofNat 8 j) = p
      · obtain ⟨j, hj, hlt, hjSmall, hjPin⟩ := hLast
        exact ih (24 - j) (by omega) hj hjSmall hjPin rfl
      · exact ⟨i, hOn, hSmall, hPin, fun j hj hlt hjSmall hjPin => hLast ⟨j, hj, hlt, hjSmall, hjPin⟩⟩

theorem written_of_not_owns {max : Nat} {mem : BitVec 7 → Redirection} (h : ∀ i, ¬ Owns irqRedirect max i p) :
    Stores.written (routed irqRedirect apicid routes (turnedOn max)) mem p = mem p := by
  refine Stores.written_of_not_mem fun hMem => ?_
  obtain ⟨w, hw, hPin⟩ := List.mem_map.mp hMem
  obtain ⟨i, hi, rfl⟩ := List.mem_map.mp hw
  obtain ⟨hOn, hSmall⟩ := List.mem_filter.mp hi
  obtain ⟨j, hj⟩ := exists_owns hOn (of_decide_eq_true hSmall) hPin
  exact h j hj

/-- A pin behind the calibration. -/
theorem request_calibrate (irqRedirect : Nat → BitVec 8) (apicid : BitVec 8) (routes : Nat → IoApicRoute)
    (h : d.HasPin p) :
    (p = target irqRedirect 2 → (d.calibrate irqRedirect apicid routes).request p = none) ∧
      (p ≠ target irqRedirect 2 → ∀ i, Owns irqRedirect d.maxEntry i p →
        (d.calibrate irqRedirect apicid routes).request p =
          some (redirection (routes i) 0 (BitVec.ofNat 8 i) apicid)) ∧
      (p ≠ target irqRedirect 2 → (∀ i, ¬ Owns irqRedirect d.maxEntry i p) →
        (d.calibrate irqRedirect apicid routes).request p = d.request p) := by
  refine ⟨fun hTimer => ?_, fun hOther i hOwns => ?_, fun hOther hNone => ?_⟩
  · rw [request, read_calibrate h, if_pos hTimer]
    rfl
  · rw [request, read_calibrate h, if_neg hOther, hOwns.written]
    rfl
  · rw [request, request, read_calibrate h, if_neg hOther, written_of_not_owns hNone]

/-- The gates of `irq_install` end at interrupt 23, the two functions take interrupt 24 as well. -/
theorem deliver_irq (address : Stub → BitVec 32) (tss : BitVec 32) (cpl : BitVec 2) {i : Nat} (hi : i ≤ 24) :
    (Idt.installed address).deliver (gdtInstall tss) .external cpl (0x20 + BitVec.ofNat 8 i) =
      some (if h : i < 24 then ⟨0x20 + BitVec.ofNat 8 i, address (.irq ⟨i, h⟩), 0, none, false⟩
        else ⟨13, address (.isr 13), 0, some (Idt.errorCode .external 56), false⟩) := by
  by_cases h : i < 24
  · have hVector : 0x20 + BitVec.ofNat 8 i = (Stub.irq ⟨i, h⟩).vector := by
      rw [Stub.vector, BitVec.ofNat_add]
      rfl
    rw [dif_pos h, hVector, Idt.deliver_vector, if_neg fun hc => Origin.noConfusion hc.1]
    rfl
  · obtain rfl : i = 24 := by omega
    have hNone : ∀ s : Stub, s.vector ≠ 0x20 + BitVec.ofNat 8 24 := fun s hs => by
      have hAll : 0x20 + BitVec.ofNat 8 24 ∉ irqInit.map Stub.vector := by decide
      exact hAll (List.mem_map.mpr ⟨s, s.mem_irqInit, hs⟩)
    rw [dif_neg h, Idt.deliver_of_none hNone]
    rfl

end IoApic

namespace Apic

open IoApic

/-- The bus of which the interrupts are redirected. -/
def redirectedBus (mem : Nat → BitVec 8) (entries : List Nat) : Int :=
  match isaIndex mem entries with
  | some k => k
  | none => -1

/-- What the probe makes of `irq_redirect`. An entry of the table counts for the ISA bus if it names the
position of that bus in the table. -/
def redirectedPins (mem : Nat → BitVec 8) (apicMp q : Nat) : BitVec 8 :=
  (pinOf mem (tableEntries mem apicMp) (redirectedBus mem (tableEntries mem apicMp)) q).getD (BitVec.ofNat 8 q)

/-- `apic_processors[boot_processor]->id`, if there is one. -/
def bootId (mem : Nat → BitVec 8) (s : Apic) : Option (BitVec 8) :=
  if s.bootProcessor < maxCores then (s.apicProcessors s.bootProcessor).map fun cpu => mem (cpu + 1)
  else none

/-- What `apic_calibration` does with the I/O APIC. -/
def routeIrqs (mem : Nat → BitVec 8) (routes : Nat → IoApicRoute) (s : Apic) (d : IoApic) : Option IoApic :=
  if s.ioapic ≠ 0 then (bootId mem s).map fun id => d.calibrate s.irqRedirect id routes else some d

variable {hw : ApicHardware} {mem : Nat → BitVec 8} {apicMp : Nat}

theorem irqRedirect_probed (mem : Nat → BitVec 8) (apicMp : Nat) :
    (probed mem apicMp).irqRedirect = redirectedPins mem apicMp := by
  funext q
  rw [probed, redirectedPins, tableEntries]
  cases mpConfig mem apicMp with
  | none => rfl
  | some config =>
      have hBus : isaLoop mem (entryCount mem config) 0 (config + sizeofConfigTable) (-1) =
          redirectedBus mem (configEntries mem config) := by
        rw [isaLoop_eq, redirectedBus, configEntries]
        cases isaIndex mem (entryAddrs mem (entryCount mem config) (config + sizeofConfigTable)) with
        | none => rfl
        | some k => exact congrArg Nat.cast (Nat.zero_add k)
      dsimp only [Option.elim_some]
      rw [passes_eq, hBus, irqRedirect_foldl]
      rfl

/-- With the I/O APIC that the table has, there is a processor to which the interrupts go. -/
theorem routeIrqs_probed (hBounds : AccessesInBounds hw mem apicMp) (hOn : Enabled hw mem apicMp)
    (hEntry : ∃ a ∈ tableEntries mem apicMp, entryType mem a = 2) (routes : Nat → IoApicRoute) (d : IoApic) :
    ∃ id, bootId mem (apicProbe hw mem apicMp initial).1 = some id ∧
      routeIrqs mem routes (apicProbe hw mem apicMp initial).1 d =
        some (d.calibrate (redirectedPins mem apicMp) id routes) := by
  obtain ⟨l, n, hState, -⟩ := apicProbe_eq hw mem apicMp
  obtain ⟨hLess, hSome⟩ := probed_boots.mpr ((accessesInBounds_iff.mp hBounds).2 hOn hEntry)
  obtain ⟨cpu, hCpu⟩ := Option.ne_none_iff_exists'.mp hSome
  have hId : bootId mem (apicProbe hw mem apicMp initial).1 = some (mem (cpu + 1)) := by
    rw [hState, bootId]
    dsimp only
    rw [if_pos hLess, hCpu]
    rfl
  refine ⟨_, hId, ?_⟩
  rw [routeIrqs, hId, hState]
  dsimp only
  rw [if_pos (probed_ioapic.mpr hEntry), irqRedirect_probed]
  rfl

/-- The destination is the processor if the bits behind the field are those of its identifier. -/
theorem dest_eq_iff (reserved : BitVec 4) (id : BitVec 8) :
    reserved ++ id.setWidth 4 = id ↔ reserved = id.extractLsb' 4 4 := by
  have hSplit : id = id.extractLsb' 4 4 ++ id.setWidth 4 := by
    apply BitVec.eq_of_toNat_eq
    rw [BitVec.toNat_append, BitVec.extractLsb'_toNat, BitVec.toNat_setWidth, ← Nat.shiftLeft_add_eq_or_of_lt]
    · rw [Nat.shiftLeft_eq, Nat.shiftRight_eq_div_pow]
      omega
    · exact Nat.mod_lt _ (by decide)
  constructor
  · intro h
    have hUpper := congrArg (BitVec.extractLsb' 4 4) h
    rwa [BitVec.extractLsb'_append_eq_left] at hUpper
  · intro h
    rw [h]
    exact hSplit.symm

/-- Behind the probe and the calibration, a pin sends the vector of the last interrupt that `irq_redirect`
leads to it, and the CPU enters the stub of this interrupt; only interrupt 24 has none and becomes a
failure of whatever runs. It goes to the boot processor if what has been on the stack is as the upper half
of its identifier. The pin of interrupt 2 is silent, and so is whatever else is led there. Pins that
nothing is led to stay as they have been. -/
theorem pins_served (hBounds : AccessesInBounds hw mem apicMp) (hOn : Enabled hw mem apicMp)
    (hEntry : ∃ a ∈ tableEntries mem apicMp, entryType mem a = 2) (routes : Nat → IoApicRoute) (d : IoApic)
    (address : Stub → BitVec 32) (tss : BitVec 32) (cpl : BitVec 2) :
    ∃ (id : BitVec 8) (d' : IoApic),
      bootId mem (apicProbe hw mem apicMp initial).1 = some id ∧
      routeIrqs mem routes (apicProbe hw mem apicMp initial).1 d = some d' ∧
      ∀ p, d.HasPin p →
        (p = target (redirectedPins mem apicMp) 2 → d'.request p = none) ∧
        (p ≠ target (redirectedPins mem apicMp) 2 → ∀ i, Owns (redirectedPins mem apicMp) d.maxEntry i p →
          ∃ dest, d'.request p = some ⟨0x20 + BitVec.ofNat 8 i, 0, 0, 0, 0, 0, dest⟩ ∧
            dest = (routes i).destReserved2 ++ id.setWidth 4 ∧
            (dest = id ↔ (routes i).destReserved2 = id.extractLsb' 4 4) ∧
            (Idt.installed address).deliver (gdtInstall tss) .external cpl (0x20 + BitVec.ofNat 8 i) =
              some (if h : i < 24 then ⟨0x20 + BitVec.ofNat 8 i, address (.irq ⟨i, h⟩), 0, none, false⟩
                else ⟨13, address (.isr 13), 0, some (Idt.errorCode .external 56), false⟩)) ∧
        (p ≠ target (redirectedPins mem apicMp) 2 →
          (∀ i, ¬ Owns (redirectedPins mem apicMp) d.maxEntry i p) → d'.request p = d.request p) := by
  obtain ⟨id, hId, hRoute⟩ := routeIrqs_probed hBounds hOn hEntry routes d
  refine ⟨id, _, hId, hRoute, fun p hp => ?_⟩
  obtain ⟨hSilent, hOwned, hOther⟩ := request_calibrate (redirectedPins mem apicMp) id routes hp
  exact ⟨hSilent, fun hp' i hi => ⟨_, hOwned hp' i hi, rfl, dest_eq_iff _ id, deliver_irq address tss cpl hi.2.1⟩,
    hOther⟩

/-- A processor, an ISA bus, and an I/O APIC to whose pin 2 the timer is led. -/
def timerTable : Nat → BitVec 8 :=
  mpMemory 4 ([0, 7, 0x14, 3] ++ List.replicate 16 0 ++ [1, 1, 0x49, 0x53, 0x41, 0x20, 0x20, 0x20] ++
    [2, 1, 0x11, 1, 0, 0, 0xC0, 0xFE] ++ [3, 0, 0, 0, 1, 0, 1, 2])

/-- An I/O APIC with 24 pins, all of them masked. -/
def resetIoApic : IoApic where
  reg := 0
  regs := fun r => if r = 1 then 0x00170011 else 0x00010000

/-- Behind the calibration the keyboard still gets to its stub. -/
theorem pins_served_example : ∃ (d' : IoApic) (e : Redirection), d'.request 1 = some e ∧
    (Idt.installed fun _ => 0).deliver (gdtInstall 0) .external 0 e.vector =
      some ⟨33, 0, 0, none, false⟩ := by
  have hBounds : AccessesInBounds ⟨true, false, 0x14, 5, 23⟩ timerTable 16 :=
    accessesInBounds_iff.mpr ⟨by decide, fun _ _ => by decide⟩
  obtain ⟨id, d', -, -, hPins⟩ := pins_served hBounds ⟨by decide, by decide, by decide⟩
    (by decide) (fun _ => ⟨0, 0, 0, 0, 0, 0, 0, 0, 0, 0, 0, 0⟩) resetIoApic (fun _ => 0) 0 0
  have hTarget : ∀ j < 24, target (redirectedPins timerTable 16) (BitVec.ofNat 8 j) =
      if j = 0 then 2 else BitVec.ofNat 7 j := by decide
  have hOwns : Owns (redirectedPins timerTable 16) resetIoApic.maxEntry 1 1 := by
    refine ⟨by decide, by decide, hTarget 1 (by decide), fun j hj hlt _ => ?_⟩
    have hMax : j < 24 := List.mem_range.mp (List.mem_filter.mp hj).1
    rw [hTarget j hMax]
    revert j
    decide
  have hOther : 1 ≠ target (redirectedPins timerTable 16) 2 := by decide
  obtain ⟨dest, hRequest, -, -, hDeliver⟩ := (hPins 1 (by decide)).2.1 hOther 1 hOwns
  exact ⟨d', _, hRequest, hDeliver⟩

end Apic
end ArtOS
