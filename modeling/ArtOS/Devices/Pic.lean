import Mathlib.Data.BitVec
import ArtOS.Library.Transition

/-! The two interrupt controllers of the PC as `irq_remap` programs them, and the end-of-interrupt
writes of `irq_handler` in `cpu/irq.c`, while the APIC is not enabled.

The controllers are the documented 8259A in its fully nested mode with edge-triggered requests; the
slave is wired to line 2 of the master. Handlers run with interrupts disabled; meanwhile devices may
raise their lines, and the handler may raise exceptions, which go through `irq_handler` as well. The
handlers of exceptions 7 and 14 return, or halt the machine. All others are `fault_handler`, which ends the
task in `abort`: the handler that it has interrupted goes on no more. -/
namespace ArtOS

/-- Which initialisation word the next write to the data port is. -/
inductive InitWord where
  | ready
  | icw2
  | icw3
  | icw4
  deriving DecidableEq, Repr

structure Pic where
  irr : BitVec 8
  isr : BitVec 8
  imr : BitVec 8
  base : BitVec 8
  cascade : BitVec 8
  expected : InitWord
  deriving DecidableEq, Repr

namespace Pic

def line (i : Nat) : BitVec 8 := 1#8 <<< i

/-- The non-specific end of interrupt takes the most urgent request out of service. -/
def finish (p : Pic) : Pic := { p with isr := p.isr &&& (p.isr - 1) }

/-- A write to the command port: the first initialisation word, or an end of interrupt. -/
def command (p : Pic) (v : BitVec 8) : Pic :=
  if v.getLsbD 4 then { p with irr := 0, isr := 0, imr := 0, expected := .icw2 }
  else if v = 0x20 then p.finish
  else p

/-- A write to the data port. -/
def data (p : Pic) (v : BitVec 8) : Pic :=
  match p.expected with
  | .icw2 => { p with base := v &&& 0xF8, expected := .icw3 }
  | .icw3 => { p with cascade := v, expected := .icw4 }
  | .icw4 => { p with expected := .ready }
  | .ready => { p with imr := v }

/-- The most urgent of these requests, unless one that is as urgent is in service. -/
def choose (p : Pic) (requests : BitVec 8) : Option Nat :=
  (List.range 8).find? fun i =>
    (requests &&& ~~~p.imr).getLsbD i && (List.range (i + 1)).all fun j => !p.isr.getLsbD j

/-- The CPU acknowledges the request. -/
def accept (p : Pic) (i : Nat) : Pic :=
  { p with isr := p.isr ||| line i, irr := p.irr &&& ~~~line i }

end Pic

structure Pics where
  master : Pic
  slave : Pic
  deriving DecidableEq, Repr

namespace Pics

open Pic (line)

def outportb (p : Pics) (port : Nat) (v : BitVec 8) : Pics :=
  match port with
  | 0x20 => { p with master := p.master.command v }
  | 0x21 => { p with master := p.master.data v }
  | 0xA0 => { p with slave := p.slave.command v }
  | 0xA1 => { p with slave := p.slave.data v }
  | _ => p

def irqRemap (p : Pics) : Pics :=
  let p := p.outportb 0x20 0x11
  let p := p.outportb 0xA0 0x11
  let p := p.outportb 0x21 0x20
  let p := p.outportb 0xA1 0x28
  let p := p.outportb 0x21 0x04
  let p := p.outportb 0xA1 0x02
  let p := p.outportb 0x21 0x01
  let p := p.outportb 0xA1 0x01
  let p := p.outportb 0x21 0x0
  p.outportb 0xA1 0x0

/-- What `irq_handler` writes to the ports. -/
def endOfInterrupt (p : Pics) (intNo : Nat) : Pics :=
  let p := if 40 ≤ intNo then p.outportb 0xA0 0x20 else p
  p.outportb 0x20 0x20

/-- A device raises line `n`. -/
def request (p : Pics) (n : Nat) : Pics :=
  if n < 8 then { p with master := { p.master with irr := p.master.irr ||| line n } }
  else { p with slave := { p.slave with irr := p.slave.irr ||| line (n - 8) } }

/-- The requests that reach the master. -/
def requests (p : Pics) : BitVec 8 :=
  p.master.irr ||| if (p.slave.choose p.slave.irr).isSome then line 2 else 0

/-- The interrupt acknowledge cycle: the vector comes from the slave, if the master takes the line for
that of a slave and the slave takes the line for its own. -/
def acknowledge (p : Pics) : Option (BitVec 8 × Pics) :=
  (p.master.choose p.requests).bind fun i =>
    if p.master.cascade.getLsbD i then
      if p.slave.cascade.toNat = i then
        (p.slave.choose p.slave.irr).map fun j =>
          (p.slave.base + BitVec.ofNat 8 j, ⟨p.master.accept i, p.slave.accept j⟩)
      else none
    else some (p.master.base + BitVec.ofNat 8 i, { p with master := p.master.accept i })

/-- What a device or the CPU may do at any time. -/
inductive Meanwhile where
  | request (n : Nat)
  | exception (intNo : Nat)
  deriving DecidableEq, Repr

/-- A device is on every line but that of the slave; the first 32 vectors are the exceptions. -/
def Meanwhile.Allowed : Meanwhile → Prop
  | .request n => n < 16 ∧ n ≠ 2
  | .exception intNo => intNo < 32

/-- `fpu_handler` and `page_fault_handler` return to what has raised the exception. -/
def Meanwhile.Returns : Meanwhile → Prop
  | .request _ => True
  | .exception intNo => intNo = 7 ∨ intNo = 14

/-- `fault_handler` writes to the master itself, and never comes to what `irq_handler` writes. -/
def faultHandler (p : Pics) : Pics := p.outportb 0x20 0x20

def meanwhile (p : Pics) : Meanwhile → Pics
  | .request n => p.request n
  | .exception intNo => if intNo = 7 ∨ intNo = 14 then p.endOfInterrupt intNo else p.faultHandler

/-- An interrupt from its acknowledgement to the return of `irq_handler`, with what happens while its
handler runs; or to the fault that ends it. -/
def serve (p : Pics) (during : List Meanwhile) (faults : Bool) : Option (Nat × Pics) :=
  p.acknowledge.map fun accepted =>
    let q := during.foldl meanwhile accepted.2
    (accepted.1.toNat, if faults then q.faultHandler else q.endOfInterrupt accepted.1.toNat)

/-- What happens between two moments at which interrupts are enabled. -/
inductive Event where
  | mask (master slave : BitVec 8)
  | outside (m : Meanwhile)
  | interrupt (during : List Meanwhile) (faults : Bool)
  deriving DecidableEq, Repr

def Event.Allowed : Event → Prop
  | .mask _ _ => True
  | .outside m => m.Allowed
  | .interrupt during _ => ∀ m ∈ during, m.Allowed ∧ m.Returns

/-- The controllers, and the lines of the slave whose handler has been left for good. -/
abbrev Run := Pics × List Nat

def act (r : Run) : Event → Option Run
  | .mask master slave => some ((r.1.outportb 0x21 master).outportb 0xA1 slave, r.2)
  | .outside m => some (r.1.meanwhile m, r.2)
  | .interrupt during faults => (r.1.serve during faults).map fun (vector, p) =>
      (p, if faults ∧ 40 ≤ vector then (vector - 32) :: r.2 else r.2)

def Step (r r' : Run) : Prop := ∃ event : Event, event.Allowed ∧ act r event = some r'

/-- Runs start behind `irq_remap`, whatever the controllers did before. -/
abbrev Reachable : Run → Prop := Transition.Reachable (fun r => ∃ q, r = (irqRemap q, [])) Step

/-- Line `n` has been raised and not been delivered yet. -/
def Requested (p : Pics) (n : Nat) : Prop :=
  if n < 8 then p.master.irr.getLsbD n = true else p.slave.irr.getLsbD (n - 8) = true

/-- Neither the line nor the way through the master is masked. -/
def Enabled (p : Pics) (n : Nat) : Prop :=
  if n < 8 then p.master.imr.getLsbD n = false
  else p.slave.imr.getLsbD (n - 8) = false ∧ p.master.imr.getLsbD 2 = false

/-- The place of a line in the order of urgency: those of the slave come after lines 0 and 1. -/
def rank (n : Nat) : Nat := if n < 2 then n else if n < 8 then n + 8 else n - 6

end Pics

namespace Pic

variable {p : Pic} {i j : Nat} {r : BitVec 8}

theorem getLsbD_line (hj : j < 8) : (line i).getLsbD j = decide (i = j) := by
  rw [line, BitVec.getLsbD_shiftLeft, BitVec.getLsbD_one]
  by_cases h : i = j
  · simp [h, hj]
  · by_cases hlt : j < i
    · simp [h, hlt]
    · have hne : j - i ≠ 0 := by omega
      simp [h, hne]

theorem getLsbD_raise (hj : j < 8) :
    (r ||| line i).getLsbD j = true ↔ r.getLsbD j = true ∨ j = i := by
  rw [BitVec.getLsbD_or, getLsbD_line hj, Bool.or_eq_true, decide_eq_true_iff,
    @eq_comm _ i j]

theorem getLsbD_lower (hj : j < 8) :
    (r &&& ~~~line i).getLsbD j = true ↔ r.getLsbD j = true ∧ j ≠ i := by
  rw [BitVec.getLsbD_and, BitVec.getLsbD_not, getLsbD_line hj, Bool.and_eq_true, decide_eq_true hj,
    Bool.true_and, Bool.not_eq_true', decide_eq_false_iff_not, @eq_comm _ i j]

/-- A line in front of all others is the one that the end of interrupt takes. -/
theorem finish_line (hi : i < 8) (h : ∀ j ≤ i, r.getLsbD j = false) :
    (r ||| line i) &&& ((r ||| line i) - 1) = r := by
  have hAll : ∀ i : Fin 8, ∀ r : BitVec 8, (∀ j ≤ i, r.getLsbD j.val = false) →
      (r ||| line i) &&& ((r ||| line i) - 1) = r := by decide +kernel
  exact hAll ⟨i, hi⟩ r fun j hj => h j hj

/-- No request that is as urgent is in service. -/
def Free (p : Pic) (i : Nat) : Prop := ∀ j ≤ i, p.isr.getLsbD j = false

theorem Free.mono (h : p.Free i) (hj : j ≤ i) : p.Free j := fun k hk => h k (hk.trans hj)

theorem free_of_idle (h : p.isr = 0) : p.Free i := fun j _ => by simp [h]

theorem all_not_isr : (List.range (i + 1)).all (fun j => !p.isr.getLsbD j) = true ↔ p.Free i := by
  simp only [Free, List.all_eq_true, List.mem_range, Nat.lt_succ_iff, Bool.not_eq_true']

theorem choose_eq_some :
    p.choose r = some i ↔
      i < 8 ∧ (r &&& ~~~p.imr).getLsbD i = true ∧ p.Free i ∧
        ∀ j < i, (r &&& ~~~p.imr).getLsbD j = false := by
  rw [choose, List.find?_range_eq_some, List.mem_range, Bool.and_eq_true, all_not_isr]
  constructor
  · rintro ⟨⟨hBit, hFree⟩, hi, hBefore⟩
    refine ⟨hi, hBit, hFree, fun j hj => ?_⟩
    have hOut := hBefore j hj
    rw [Bool.not_eq_true', Bool.and_eq_false_iff] at hOut
    exact hOut.resolve_right fun hBusy =>
      absurd (all_not_isr.mpr (hFree.mono hj.le)) (by rw [hBusy]; exact Bool.false_ne_true)
  · rintro ⟨hi, hBit, hFree, hBefore⟩
    refine ⟨⟨hBit, hFree⟩, hi, fun j hj => ?_⟩
    rw [hBefore j hj]
    rfl

theorem choose_eq_none :
    p.choose r = none ↔ ∀ i < 8, (r &&& ~~~p.imr).getLsbD i = true → ¬ p.Free i := by
  rw [choose, List.find?_eq_none]
  simp only [List.mem_range, Bool.and_eq_true, all_not_isr, not_and]

theorem finish_idle (h : p.isr = 0) : p.finish.isr = 0 := by
  simp [finish, h]

theorem finish_busy (hi : i < 8) (hr : ∀ j ≤ i, r.getLsbD j = false) (h : p.isr = r ||| line i) :
    p.finish.isr = r := by
  rw [finish, h]
  exact finish_line hi hr

end Pic

namespace Pics

open Pic (line)

variable {p q : Pics} {n k : Nat}

/-- As `irq_remap` leaves the controllers, and no device on the line of the slave. -/
structure Programmed (p : Pics) : Prop where
  master_expected : p.master.expected = .ready
  slave_expected : p.slave.expected = .ready
  master_base : p.master.base = 0x20
  slave_base : p.slave.base = 0x28
  master_cascade : p.master.cascade = 0x04
  slave_cascade : p.slave.cascade = 0x02
  slave_line : p.master.irr.getLsbD 2 = false

structure Settled (p : Pics) : Prop extends Programmed p where
  master_idle : p.master.isr = 0

/-- The handler of line `n` runs, over these lines of the slave that have been left; an exception in it may
have taken the line out of the service of the master already. -/
structure Serving (p : Pics) (n : Nat) (busy : BitVec 8) : Prop extends Programmed p where
  master_busy : p.master.isr = 0 ∨ p.master.isr = line (if n < 8 then n else 2)
  slave_busy : p.slave.isr = if n < 8 then busy else busy ||| line (n - 8)

/-- The line is raised and enabled, and at the slave no line that is as urgent has been left in
service. -/
def Waiting (p : Pics) (n : Nat) : Prop :=
  p.Requested n ∧ p.Enabled n ∧ (8 ≤ n → p.slave.Free (n - 8))

/-- The state in which the handler of line `n` starts. -/
def accepted (p : Pics) (n : Nat) : Pics :=
  if n < 8 then { p with master := p.master.accept n }
  else ⟨p.master.accept 2, p.slave.accept (n - 8)⟩

theorem endOfInterrupt_eq (p : Pics) (intNo : Nat) :
    p.endOfInterrupt intNo =
      ⟨p.master.finish, if 40 ≤ intNo then p.slave.finish else p.slave⟩ := by
  unfold endOfInterrupt
  split <;> simp [outportb, Pic.command]

theorem settled_irqRemap (p : Pics) : (irqRemap p).Settled := by
  constructor
  · constructor <;> simp [irqRemap, outportb, Pic.command, Pic.data]
  · simp [irqRemap, outportb, Pic.command, Pic.data]

theorem irqRemap_slave_isr (p : Pics) : (irqRemap p).slave.isr = 0 := by
  simp [irqRemap, outportb, Pic.command, Pic.data]

/-- An exception takes the most urgent line out of the service of the master, whether its handler returns
or not. -/
theorem meanwhile_exception {intNo : Nat} (h : intNo < 32) (p : Pics) :
    p.meanwhile (.exception intNo) = { p with master := p.master.finish } := by
  rw [meanwhile]
  split
  · rw [endOfInterrupt_eq, if_neg (by omega)]
  · simp [faultHandler, outportb, Pic.command]

theorem Programmed.endOfInterrupt (h : p.Programmed) (intNo : Nat) :
    (p.endOfInterrupt intNo).Programmed := by
  rw [endOfInterrupt_eq]
  split <;> exact ⟨h.1, h.2, h.3, h.4, h.5, h.6, h.7⟩

theorem Programmed.request (h : p.Programmed) (hn : n ≠ 2) : (p.request n).Programmed := by
  unfold Pics.request
  split
  · refine ⟨h.1, h.2, h.3, h.4, h.5, h.6, ?_⟩
    rw [BitVec.getLsbD_or, h.slave_line, Pic.getLsbD_line (by omega), decide_eq_false hn]
    rfl
  · exact ⟨h.1, h.2, h.3, h.4, h.5, h.6, h.7⟩

theorem request_isr (p : Pics) (n : Nat) :
    (p.request n).master.isr = p.master.isr ∧ (p.request n).slave.isr = p.slave.isr := by
  unfold request
  split <;> exact ⟨rfl, rfl⟩

theorem mask_isr (h : p.Programmed) (master slave : BitVec 8) :
    ((p.outportb 0x21 master).outportb 0xA1 slave).slave.isr = p.slave.isr := by
  simp only [outportb, Pic.data, h.master_expected, h.slave_expected]

theorem Settled.mask (h : p.Settled) (master slave : BitVec 8) :
    ((p.outportb 0x21 master).outportb 0xA1 slave).Settled := by
  simp only [outportb, Pic.data, h.master_expected, h.slave_expected]
  exact ⟨⟨rfl, rfl, h.master_base, h.slave_base, h.master_cascade, h.slave_cascade, h.slave_line⟩,
    h.master_idle⟩

theorem meanwhile_slave_isr {m : Meanwhile} (hm : m.Allowed) (p : Pics) :
    (p.meanwhile m).slave.isr = p.slave.isr := by
  cases m with
  | request n => exact (request_isr p n).2
  | exception intNo => rw [meanwhile_exception hm]

theorem Programmed.finish (h : p.Programmed) : Programmed { p with master := p.master.finish } :=
  ⟨h.1, h.2, h.3, h.4, h.5, h.6, h.7⟩

theorem Settled.meanwhile (h : p.Settled) {m : Meanwhile} (hm : m.Allowed) :
    (p.meanwhile m).Settled := by
  cases m with
  | request n => exact ⟨h.toProgrammed.request hm.2, (request_isr p n).1.trans h.master_idle⟩
  | exception intNo =>
      rw [meanwhile_exception hm]
      exact ⟨h.toProgrammed.finish, Pic.finish_idle h.master_idle⟩

variable {busy : BitVec 8}

theorem Serving.master_finish (h : p.Serving n busy) : p.master.finish.isr = 0 := by
  rcases h.master_busy with hIdle | hBusy
  · exact Pic.finish_idle hIdle
  · refine Pic.finish_busy (r := 0) ?_ (by simp) (hBusy.trans BitVec.zero_or.symm)
    split <;> omega

theorem Serving.meanwhile (h : p.Serving n busy) {m : Meanwhile} (hm : m.Allowed) :
    (p.meanwhile m).Serving n busy := by
  refine ⟨?_, ?_, (meanwhile_slave_isr hm p).trans h.slave_busy⟩
  · cases m with
    | request k => exact h.toProgrammed.request hm.2
    | exception intNo =>
        rw [meanwhile_exception hm]
        exact h.toProgrammed.finish
  · cases m with
    | request k =>
        rw [Pics.meanwhile, (request_isr p k).1]
        exact h.master_busy
    | exception intNo =>
        rw [meanwhile_exception hm]
        exact Or.inl h.master_finish

theorem Serving.during (h : p.Serving n busy) {during : List Meanwhile}
    (hDuring : ∀ m ∈ during, m.Allowed) : (during.foldl Pics.meanwhile p).Serving n busy := by
  induction during generalizing p with
  | nil => exact h
  | cons m during ih =>
      exact ih (h.meanwhile (hDuring m List.mem_cons_self))
        fun m hm => hDuring m (List.mem_cons_of_mem _ hm)

/-- The end of an interrupt reaches both controllers that have it in service, over the lines that have
been left. -/
theorem Serving.finish (h : p.Serving n busy) (hn : n < 16)
    (hFree : 8 ≤ n → ∀ j ≤ n - 8, busy.getLsbD j = false) :
    (p.endOfInterrupt (32 + n)).Settled ∧ (p.endOfInterrupt (32 + n)).slave.isr = busy := by
  have hSlave := h.slave_busy
  refine ⟨⟨h.toProgrammed.endOfInterrupt _, ?_⟩, ?_⟩ <;> rw [endOfInterrupt_eq]
  · exact h.master_finish
  · by_cases hLow : n < 8
    · have hFirst : ¬ 40 ≤ 32 + n := by omega
      simpa only [if_neg hFirst, if_pos hLow] using hSlave
    · have hSecond : 40 ≤ 32 + n := by omega
      rw [if_neg hLow] at hSlave
      simpa only [if_pos hSecond] using Pic.finish_busy (by omega) (hFree (Nat.le_of_not_lt hLow)) hSlave

/-- A fault ends it at the master only. -/
theorem Serving.fault (h : p.Serving n busy) :
    p.faultHandler.Settled ∧ p.faultHandler.slave.isr = if n < 8 then busy else busy ||| line (n - 8) := by
  have hFault : p.faultHandler = { p with master := p.master.finish } := by
    simp [faultHandler, outportb, Pic.command]
  rw [hFault]
  exact ⟨⟨h.toProgrammed.finish, h.master_finish⟩, h.slave_busy⟩

theorem requested_request (hn : n < 16) (hk : k < 16) :
    (p.request n).Requested k ↔ p.Requested k ∨ k = n := by
  unfold request Requested
  by_cases hLow : n < 8 <;> by_cases hLine : k < 8
  · simpa only [if_pos hLow, if_pos hLine] using Pic.getLsbD_raise hLine
  · have hne : k ≠ n := by omega
    simp only [if_pos hLow, if_neg hLine, hne, or_false]
  · have hne : k ≠ n := by omega
    simp only [if_neg hLow, if_pos hLine, hne, or_false]
  · have hShift : k - 8 = n - 8 ↔ k = n := by omega
    have hBound : k - 8 < 8 := by omega
    rw [if_neg hLow, if_neg hLine, if_neg hLine, ← hShift]
    exact Pic.getLsbD_raise hBound

theorem requested_endOfInterrupt (intNo : Nat) :
    (p.endOfInterrupt intNo).Requested k ↔ p.Requested k := by
  rw [endOfInterrupt_eq]
  unfold Requested
  split <;> split <;> exact Iff.rfl

theorem requested_exception {intNo : Nat} (h : intNo < 32) :
    (p.meanwhile (.exception intNo)).Requested k ↔ p.Requested k := by
  rw [meanwhile_exception h]
  exact Iff.rfl

theorem requested_faultHandler : p.faultHandler.Requested k ↔ p.Requested k := by
  have hFault : p.faultHandler = { p with master := p.master.finish } := by
    simp [faultHandler, outportb, Pic.command]
  rw [hFault]
  exact Iff.rfl

theorem requested_during (hk : k < 16) {during : List Meanwhile}
    (hDuring : ∀ m ∈ during, m.Allowed) :
    (during.foldl meanwhile p).Requested k ↔ p.Requested k ∨ .request k ∈ during := by
  induction during generalizing p with
  | nil => simp
  | cons m during ih =>
      have hFirst := hDuring m List.mem_cons_self
      rw [List.foldl_cons, ih fun m hm => hDuring m (List.mem_cons_of_mem _ hm), List.mem_cons]
      cases m with
      | request n =>
          rw [meanwhile, requested_request hFirst.1 hk, Meanwhile.request.injEq, or_assoc]
      | exception intNo => simp [requested_exception hFirst]

theorem requested_accepted (h : p.Programmed) (hn : n < 16) (hk : k < 16) :
    (p.accepted n).Requested k ↔ p.Requested k ∧ k ≠ n := by
  unfold accepted Requested
  by_cases hLow : n < 8 <;> by_cases hLine : k < 8
  · rw [if_pos hLow, if_pos hLine, if_pos hLine]
    exact Pic.getLsbD_lower hLine
  · have hOther : k ≠ n := by omega
    simp [hLow, hLine, hOther]
  · have hOther : k ≠ n := by omega
    have hTwo : p.master.irr.getLsbD k = true → k ≠ 2 := by
      rintro hBit rfl
      exact absurd hBit (by rw [h.slave_line]; exact Bool.false_ne_true)
    rw [if_neg hLow, if_pos hLine, if_pos hLine, and_iff_left hOther]
    exact (Pic.getLsbD_lower hLine).trans (and_iff_left_of_imp hTwo)
  · have hShift : k - 8 = n - 8 ↔ k = n := by omega
    have hBound : k - 8 < 8 := by omega
    rw [if_neg hLow, if_neg hLine, if_neg hLine, ne_eq, ← hShift]
    exact Pic.getLsbD_lower hBound

theorem Programmed.accepted (h : p.Programmed) (n : Nat) : (p.accepted n).Programmed := by
  have hLine (i : Nat) : (p.master.irr &&& ~~~line i).getLsbD 2 = false := by
    rw [BitVec.getLsbD_and, h.slave_line, Bool.false_and]
  unfold Pics.accepted
  split <;> exact ⟨h.1, h.2, h.3, h.4, h.5, h.6, hLine _⟩

theorem Settled.accepted (h : p.Settled) (n : Nat) : (p.accepted n).Serving n p.slave.isr := by
  refine ⟨h.toProgrammed.accepted n, Or.inr ?_, ?_⟩ <;> unfold Pics.accepted
  · by_cases hLow : n < 8 <;> simp [hLow, Pic.accept, h.master_idle]
  · by_cases hLow : n < 8 <;> simp [hLow, Pic.accept]

/-- A request passes the mask. -/
theorem passes {r imr : BitVec 8} {i : Nat} (hi : i < 8) :
    (r &&& ~~~imr).getLsbD i = true ↔ r.getLsbD i = true ∧ imr.getLsbD i = false := by
  rw [BitVec.getLsbD_and, BitVec.getLsbD_not, decide_eq_true hi, Bool.true_and, Bool.and_eq_true,
    Bool.not_eq_true']

theorem waiting_low (hn : n < 8) :
    p.Waiting n ↔ (p.master.irr &&& ~~~p.master.imr).getLsbD n = true := by
  have hFree : 8 ≤ n → p.slave.Free (n - 8) := fun hHigh => absurd hn (Nat.not_lt_of_le hHigh)
  rw [passes hn, Waiting, Requested, Enabled, if_pos hn, if_pos hn, and_iff_left hFree]

theorem waiting_high (hn : n < 8) :
    p.Waiting (n + 8) ↔
      (p.slave.irr &&& ~~~p.slave.imr).getLsbD n = true ∧ p.master.imr.getLsbD 2 = false ∧ p.slave.Free n := by
  have hHigh : ¬ n + 8 < 8 := by omega
  have hLe : 8 ≤ n + 8 := Nat.le_add_left 8 n
  rw [passes hn, Waiting, Requested, Enabled, if_neg hHigh, if_neg hHigh, Nat.add_sub_cancel, and_assoc,
    and_assoc, forall_prop_of_true hLe]

theorem slave_asks :
    (p.slave.choose p.slave.irr).isSome ∧ p.master.imr.getLsbD 2 = false ↔
      ∃ j < 8, p.Waiting (j + 8) := by
  have hSome : (p.slave.choose p.slave.irr).isSome ↔
      ∃ j < 8, (p.slave.irr &&& ~~~p.slave.imr).getLsbD j = true ∧ p.slave.Free j := by
    rw [Option.isSome_iff_ne_none, ne_eq, Pic.choose_eq_none]
    push Not
    rfl
  rw [hSome]
  constructor
  · rintro ⟨⟨j, hj, hBit, hFree⟩, hMask⟩
    exact ⟨j, hj, (waiting_high hj).mpr ⟨hBit, hMask, hFree⟩⟩
  · rintro ⟨j, hj, hWaiting⟩
    obtain ⟨hBit, hMask, hFree⟩ := (waiting_high hj).mp hWaiting
    exact ⟨⟨j, hj, hBit, hFree⟩, hMask⟩

/-- What the master sees on a line: its own device, or on line 2 the slave. -/
theorem passes_requests (hn : n < 8) :
    (p.requests &&& ~~~p.master.imr).getLsbD n = true ↔
      p.Waiting n ∨ n = 2 ∧ ∃ j < 8, p.Waiting (j + 8) := by
  rw [← slave_asks, passes hn, waiting_low hn, passes hn, requests]
  split
  · rename_i hSome
    rw [Pic.getLsbD_raise hn]
    constructor
    · rintro ⟨hBit | rfl, hMask⟩
      · exact Or.inl ⟨hBit, hMask⟩
      · exact Or.inr ⟨rfl, hSome, hMask⟩
    · rintro (⟨hBit, hMask⟩ | ⟨rfl, -, hMask⟩)
      · exact ⟨Or.inl hBit, hMask⟩
      · exact ⟨Or.inr rfl, hMask⟩
  · rename_i hNone
    simp [hNone]

theorem Settled.not_waiting_two (h : p.Settled) : ¬ p.Waiting 2 := by
  rw [waiting_low (by omega), passes (by omega), h.slave_line]
  simp

/-- The request that the CPU gets, if there is one: the most urgent. -/
structure Urgent (p : Pics) (n : Nat) : Prop where
  line_lt : n < 16
  waiting : p.Waiting n
  first : ∀ k < 16, p.Waiting k → rank n ≤ rank k

theorem rank_before (hn : n < 2) : rank n = n := if_pos hn

theorem rank_behind (hFirst : 2 < n) (hn : n < 8) : rank n = n + 8 := by
  rw [rank, if_neg (by omega), if_pos hn]

theorem rank_slave (n : Nat) : rank (n + 8) = n + 2 := by
  rw [rank, if_neg (by omega), if_neg (by omega)]
  omega

/-- No line before the one that the master takes has a request, and the slave asks on line 2. -/
theorem master_first (hMaster : p.master.choose p.requests = some n) :
    (∀ k < 8, p.Waiting k → n ≤ k) ∧ ∀ j < 8, p.Waiting (j + 8) → n ≤ 2 := by
  obtain ⟨-, -, -, hFirst⟩ := Pic.choose_eq_some.mp hMaster
  constructor
  · intro k hk hWaiting
    by_contra hlt
    exact Bool.false_ne_true ((hFirst k (by omega)).symm.trans
      ((passes_requests hk).mpr (Or.inl hWaiting)))
  · intro j hj hWaiting
    by_contra hlt
    exact Bool.false_ne_true ((hFirst 2 (by omega)).symm.trans
      ((passes_requests (by omega)).mpr (Or.inr ⟨rfl, j, hj, hWaiting⟩)))

theorem Settled.acknowledge_master (h : p.Settled) (hMaster : p.master.choose p.requests = some n)
    (hTwo : n ≠ 2) :
    p.Urgent n ∧ p.acknowledge = some (BitVec.ofNat 8 (32 + n), p.accepted n) := by
  obtain ⟨hn, hBit, -⟩ := Pic.choose_eq_some.mp hMaster
  obtain ⟨hBefore, hSlave⟩ := master_first hMaster
  refine ⟨⟨by omega, ?_, fun k hk hWaiting => ?_⟩, ?_⟩
  · exact ((passes_requests hn).mp hBit).resolve_right fun hSecond => hTwo hSecond.1
  · rcases Nat.lt_or_ge k 8 with hLow | hHigh
    · have hLe := hBefore k hLow hWaiting
      simp only [rank]
      split <;> split <;> omega
    · obtain ⟨j, rfl⟩ := Nat.exists_eq_add_of_le' hHigh
      have hLe := hSlave j (by omega) hWaiting
      rw [rank_before (by omega), rank_slave]
      omega
  · have hCascade : ¬ (0x04 : BitVec 8).getLsbD n = true := by
      have hOnly : ∀ i : Fin 8, i ≠ 2 → ¬ (0x04 : BitVec 8).getLsbD i = true := by decide
      exact hOnly ⟨n, hn⟩ fun hEq => hTwo (congrArg Fin.val hEq)
    have hVector : 0x20 + BitVec.ofNat 8 n = BitVec.ofNat 8 (32 + n) := by
      apply BitVec.eq_of_toNat_eq
      simp
    simp only [acknowledge, hMaster, Option.bind_some, h.master_cascade, if_neg hCascade,
      h.master_base, hVector, Pics.accepted, if_pos hn]

theorem Settled.acknowledge_slave (h : p.Settled) (hMaster : p.master.choose p.requests = some 2) :
    ∃ j, p.Urgent (j + 8) ∧
      p.acknowledge = some (BitVec.ofNat 8 (32 + (j + 8)), p.accepted (j + 8)) := by
  obtain ⟨hn, hBit, -⟩ := Pic.choose_eq_some.mp hMaster
  obtain ⟨hBefore, -⟩ := master_first hMaster
  obtain ⟨-, hAsks⟩ := ((passes_requests hn).mp hBit).resolve_left h.not_waiting_two
  obtain ⟨hSome, hMask⟩ := slave_asks.mpr hAsks
  obtain ⟨j, hChoose⟩ := Option.isSome_iff_exists.mp hSome
  obtain ⟨hj, hSlaveBit, hFree, hFirst⟩ := Pic.choose_eq_some.mp hChoose
  refine ⟨j, ⟨by omega, (waiting_high hj).mpr ⟨hSlaveBit, hMask, hFree⟩, fun k hk hWaiting => ?_⟩, ?_⟩
  · rcases Nat.lt_or_ge k 8 with hLow | hHigh
    · have hLe := hBefore k hLow hWaiting
      have hne : k ≠ 2 := fun hEq => h.not_waiting_two (hEq ▸ hWaiting)
      rw [rank_slave, rank_behind (by omega) hLow]
      omega
    · obtain ⟨l, rfl⟩ := Nat.exists_eq_add_of_le' hHigh
      have hLe : j ≤ l := by
        by_contra hlt
        exact Bool.false_ne_true ((hFirst l (by omega)).symm.trans
          ((waiting_high (by omega)).mp hWaiting).1)
      rw [rank_slave, rank_slave]
      omega
  · have hVector : 0x28 + BitVec.ofNat 8 j = BitVec.ofNat 8 (32 + (j + 8)) := by
      apply BitVec.eq_of_toNat_eq
      simp
      omega
    simpa [acknowledge, hMaster, h.master_cascade, h.slave_cascade, h.slave_base, hChoose,
      Pics.accepted] using hVector

theorem Settled.acknowledge_cases (h : p.Settled) :
    (p.acknowledge = none ∧ ∀ k < 16, ¬ p.Waiting k) ∨
      ∃ n, p.Urgent n ∧ p.acknowledge = some (BitVec.ofNat 8 (32 + n), p.accepted n) := by
  cases hMaster : p.master.choose p.requests with
  | none =>
      left
      refine ⟨by simp [acknowledge, hMaster], fun k hk hWaiting => ?_⟩
      have hSilent := fun i hi hBit => Pic.choose_eq_none.mp hMaster i hi hBit (Pic.free_of_idle h.master_idle)
      rcases Nat.lt_or_ge k 8 with hLow | hHigh
      · exact hSilent k hLow ((passes_requests hLow).mpr (Or.inl hWaiting))
      · obtain ⟨j, rfl⟩ := Nat.exists_eq_add_of_le' hHigh
        exact hSilent 2 (by omega) ((passes_requests (by omega)).mpr (Or.inr ⟨rfl, j, by omega, hWaiting⟩))
  | some i =>
      right
      by_cases hTwo : i = 2
      · subst hTwo
        obtain ⟨j, hUrgent⟩ := h.acknowledge_slave hMaster
        exact ⟨j + 8, hUrgent⟩
      · exact ⟨i, h.acknowledge_master hMaster hTwo⟩

/-- An interrupt is that of the most urgent request; only this request is gone behind it. A line of the
slave stays in service if a fault has ended its handler. -/
theorem Settled.serve_cases (h : p.Settled) {during : List Meanwhile} (faults : Bool)
    (hDuring : ∀ m ∈ during, m.Allowed) :
    (p.serve during faults = none ∧ ∀ k < 16, ¬ p.Waiting k) ∨
      ∃ n q, p.serve during faults = some (32 + n, q) ∧ p.Urgent n ∧ q.Settled ∧
        q.slave.isr = (if faults ∧ 8 ≤ n then p.slave.isr ||| line (n - 8) else p.slave.isr) ∧
        ∀ k < 16, q.Requested k ↔ p.Requested k ∧ k ≠ n ∨ .request k ∈ during := by
  rcases h.acknowledge_cases with ⟨hNone, hIdle⟩ | ⟨n, hUrgent, hSome⟩
  · exact Or.inl ⟨by rw [serve, hNone, Option.map_none], hIdle⟩
  · right
    have hn := hUrgent.line_lt
    have hVector : (BitVec.ofNat 8 (32 + n)).toNat = 32 + n := by
      rw [BitVec.toNat_ofNat]
      omega
    have hServing := (h.accepted n).during hDuring
    refine ⟨n, _, by rw [serve, hSome, Option.map_some, hVector], hUrgent, ?_⟩
    cases faults with
    | true =>
        obtain ⟨hSettled, hSlave⟩ := hServing.fault
        refine ⟨hSettled, ?_, fun k hk => ?_⟩
        · rw [if_pos rfl, hSlave]
          by_cases hLow : n < 8
          · rw [if_pos hLow, if_neg fun hBoth => Nat.not_le_of_lt hLow hBoth.2]
          · rw [if_neg hLow, if_pos ⟨rfl, Nat.le_of_not_lt hLow⟩]
        · rw [if_pos rfl, requested_faultHandler, requested_during hk hDuring,
            requested_accepted h.toProgrammed hn hk]
    | false =>
        obtain ⟨hSettled, hSlave⟩ := hServing.finish hn hUrgent.waiting.2.2
        refine ⟨hSettled, hSlave, fun k hk => ?_⟩
        rw [if_neg Bool.false_ne_true, requested_endOfInterrupt, requested_during hk hDuring,
          requested_accepted h.toProgrammed hn hk]

/-- Between two interrupts the master has nothing in service, and the slave the lines whose handler has
been left. -/
structure Left (r : Run) : Prop where
  settled : r.1.Settled
  slave : ∀ j < 8, r.1.slave.isr.getLsbD j = true ↔ j + 8 ∈ r.2

theorem Left.act {r r' : Run} (h : Left r) {event : Event} (hAllowed : event.Allowed)
    (hAct : Pics.act r event = some r') : Left r' := by
  obtain ⟨p, left⟩ := r
  cases event with
  | mask master slave =>
      obtain rfl := Option.some.inj hAct
      exact ⟨h.settled.mask master slave, fun j hj => by
        rw [mask_isr h.settled.toProgrammed]
        exact h.slave j hj⟩
  | outside m =>
      obtain rfl := Option.some.inj hAct
      exact ⟨h.settled.meanwhile hAllowed, fun j hj => by
        rw [meanwhile_slave_isr hAllowed]
        exact h.slave j hj⟩
  | interrupt during faults =>
      rcases h.settled.serve_cases faults fun m hm => (hAllowed m hm).1 with
        ⟨hNone, -⟩ | ⟨n, q, hSome, -, hq, hSlave, -⟩
      · rw [Pics.act, hNone] at hAct
        cases hAct
      · rw [Pics.act, hSome] at hAct
        obtain rfl := Option.some.inj hAct
        refine ⟨hq, fun j hj => ?_⟩
        have hOld := h.slave j hj
        have hVector : faults = true ∧ 40 ≤ 32 + n ↔ faults = true ∧ 8 ≤ n :=
          and_congr_right fun _ => by omega
        dsimp only
        rw [hSlave, if_congr hVector rfl rfl]
        split
        next hBoth =>
          have hShift : j = n - 8 ↔ j + 8 = 32 + n - 32 := by
            have hHigh := hBoth.2
            omega
          rw [Pic.getLsbD_raise hj, hOld, List.mem_cons, or_comm, hShift]
        next => exact hOld

theorem Reachable.left {r : Run} (h : Reachable r) : Left r := by
  refine Transition.Reachable.invariant h ?_ ?_
  · rintro _ ⟨q, rfl⟩
    exact ⟨settled_irqRemap q, fun j _ => by simp [irqRemap_slave_isr]⟩
  · rintro r r' hr ⟨event, hAllowed, hAct⟩
    exact hr.act hAllowed hAct

/-- Whatever the devices do and wherever exceptions occur, between two interrupts the master has nothing in
service, and the slave exactly the lines whose handler a fault has ended; an interrupt comes if and only if
an enabled request waits that these lines do not block, for the most urgent one, at the vector behind the
exceptions; it takes this request away and no other. -/
theorem interrupt_served {left : List Nat} (h : Reachable (p, left)) {during : List Meanwhile} (faults : Bool)
    (hDuring : ∀ m ∈ during, m.Allowed ∧ m.Returns) :
    p.master.isr = 0 ∧ (∀ j < 8, p.slave.isr.getLsbD j = true ↔ j + 8 ∈ left) ∧
      (p.serve during faults = none ↔ ∀ k < 16, ¬ p.Waiting k) ∧
      ∀ vector q, p.serve during faults = some (vector, q) →
        ∃ n, vector = 32 + n ∧ p.Urgent n ∧
          ∀ k < 16, q.Requested k ↔ p.Requested k ∧ k ≠ n ∨ .request k ∈ during := by
  refine ⟨h.left.settled.master_idle, h.left.slave, ?_⟩
  rcases h.left.settled.serve_cases faults fun m hm => (hDuring m hm).1 with
    ⟨hNone, hIdle⟩ | ⟨n, q, hSome, hUrgent, -, -, hRequested⟩
  · refine ⟨iff_of_true hNone hIdle, fun vector q hServe => ?_⟩
    exact absurd (hNone.symm.trans hServe) (Option.some_ne_none _).symm
  · rw [hSome]
    refine ⟨iff_of_false (Option.some_ne_none _) fun hIdle => ?_, fun vector r hServe => ?_⟩
    · exact hIdle n hUrgent.line_lt hUrgent.waiting
    · obtain ⟨rfl, rfl⟩ := Prod.mk.inj (Option.some.inj hServe)
      exact ⟨n, rfl, hUrgent, hRequested⟩

def examplePics : Pics := irqRemap ⟨⟨7, 1, 255, 8, 0, .ready⟩, ⟨0, 0, 0, 0x70, 0, .ready⟩⟩

/-- The handler of line 9 takes a page fault, and divides by zero. Then lines 8 and 12 ask. -/
def exampleEvents : List Event :=
  [.outside (.request 9), .interrupt [.exception 14] true, .outside (.request 8), .outside (.request 12)]

theorem exampleEvents_reachable {p : Pics} {left : List Nat}
    (h : exampleEvents.foldlM act (examplePics, []) = some (p, left)) : Reachable (p, left) := by
  have hAllowed : ∀ event ∈ exampleEvents, event.Allowed := by
    simp [exampleEvents, Event.Allowed, Meanwhile.Allowed, Meanwhile.Returns]
  have hStart : Reachable (examplePics, []) := Transition.Reachable.of_init ⟨_, rfl⟩
  generalize (examplePics, ([] : List Nat)) = r at h hStart
  generalize exampleEvents = events at h hAllowed
  induction events generalizing r with
  | nil =>
      cases h
      exact hStart
  | cons event events ih =>
      obtain ⟨r', hAct, hRest⟩ := Option.bind_eq_some_iff.mp (List.foldlM_cons.symm.trans h)
      exact ih r' (hStart.next ⟨event, hAllowed event List.mem_cons_self, hAct⟩) hRest
        fun e he => hAllowed e (List.mem_cons_of_mem _ he)

/-- Line 8 comes in front of line 9, line 12 waits behind it. -/
theorem interrupt_served_example : ∃ p q, exampleEvents.foldlM act (examplePics, []) = some (p, [9]) ∧
    p.serve [] false = some (40, q) ∧ q.Requested 12 ∧ ¬ q.Requested 8 := by
  obtain ⟨p, q, hRun, hServe, hRequested⟩ : ∃ p q, exampleEvents.foldlM act (examplePics, []) = some (p, [9]) ∧
      p.serve [] false = some (40, q) ∧ p.Requested 12 := ⟨_, _, rfl, rfl, rfl⟩
  have hNothing : ∀ m ∈ ([] : List Meanwhile), m.Allowed ∧ m.Returns := by simp
  obtain ⟨n, hVector, -, hSame⟩ :=
    (interrupt_served (exampleEvents_reachable hRun) false hNothing).2.2.2 40 q hServe
  obtain rfl : n = 8 := by omega
  refine ⟨p, q, hRun, hServe, (hSame 12 (by decide)).mpr (Or.inl ⟨hRequested, by decide⟩), fun hEight => ?_⟩
  simpa using (hSame 8 (by decide)).mp hEight

end Pics
end ArtOS
