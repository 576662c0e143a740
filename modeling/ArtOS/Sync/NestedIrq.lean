import ArtOS.Sync.KernelLocks

/-! Nested calls of `lock_irq`. The counter tells a nested call from the first one only while it is 1. -/
namespace ArtOS

/-- The loop that waits for the ticket. Nobody else changes the lock meanwhile. -/
def IrqLock.waitFor (s : IrqLock) (ticket : BitVec 32) : Nat → Option Unit
  | 0 => none
  | fuel + 1 => if s.dequeue ≠ ticket then s.waitFor ticket fuel else some ()

inductive IrqCall where
  | lock
  | unlock

namespace Interrupts

/-- `lock_irq` with the rounds of its loop. -/
def lockIrqWaiting (fuel : Nat) (c : Interrupts) (l : IrqName) : Option Interrupts :=
  let s := c.lock l
  if s.counter = 1 then
    some { enabled := false, lock := Function.update c.lock l { s with counter := s.counter + 1 } }
  else
    let ticket := s.queue + 1
    (s.waitFor ticket fuel).map fun _ =>
      { enabled := false
        lock := Function.update c.lock l { s with queue := ticket, flags := c.enabled, counter := 1 } }

/-- The states behind the calls of one flow of control. -/
def callsWaiting (fuel : Nat) (l : IrqName) : List IrqCall → Interrupts → Option (List Interrupts)
  | [], _ => some []
  | .lock :: calls, c =>
      (c.lockIrqWaiting fuel l).bind fun c => (callsWaiting fuel l calls c).map (c :: ·)
  | .unlock :: calls, c => (callsWaiting fuel l calls (c.unlockIrq l)).map (c.unlockIrq l :: ·)

/-- So many calls of `lock_irq`, and as many of `unlock_irq`. -/
def nestedCalls (k : Nat) : List IrqCall := List.replicate k .lock ++ List.replicate k .unlock

/-- The lock has been initialised and nobody holds it. -/
def Idle (c : Interrupts) (l : IrqName) : Prop :=
  (c.lock l).counter = 0 ∧ (c.lock l).dequeue = (c.lock l).queue + 1

/-- All calls come back, interrupts are disabled in between, and in the end everything is as before. -/
def Nests (c : Interrupts) (l : IrqName) (k : Nat) : Prop :=
  ∃ fuel states last, callsWaiting fuel l (nestedCalls k) c = some states ∧
    (∀ s ∈ states.dropLast, s.enabled = false) ∧ states.getLast? = some last ∧
      last.enabled = c.enabled ∧ (last.lock l).counter = (c.lock l).counter ∧
        (last.lock l).dequeue - (last.lock l).queue = (c.lock l).dequeue - (c.lock l).queue

variable {c : Interrupts} {l : IrqName} {k fuel : Nat} {calls : List IrqCall} {states : List Interrupts}

/-- The loop never ends if its condition holds at first. -/
theorem waitFor_eq (s : IrqLock) (ticket : BitVec 32) (fuel : Nat) :
    s.waitFor ticket (fuel + 1) = if s.dequeue = ticket then some () else none := by
  induction fuel with
  | zero =>
      rw [IrqLock.waitFor]
      by_cases h : s.dequeue = ticket
      · rw [if_pos h, if_neg (not_not_intro h)]
      · rw [if_neg h, if_pos h, IrqLock.waitFor]
  | succ fuel ih =>
      rw [IrqLock.waitFor, ih]
      by_cases h : s.dequeue = ticket
      · rw [if_pos h, if_neg (not_not_intro h)]
      · rw [if_neg h, if_pos h]

theorem lockIrqWaiting_eq (c : Interrupts) (l : IrqName) (fuel : Nat) :
    c.lockIrqWaiting (fuel + 1) l = c.lockIrq l := by
  rw [lockIrqWaiting, lockIrq]
  split
  · rfl
  · dsimp only
    rw [waitFor_eq]
    split
    · rfl
    · rfl

/-- A lock that is held as often as this by one flow of control, which found interrupts enabled or not. -/
structure Held (c : Interrupts) (l : IrqName) (depth : BitVec 32) (enabled : Bool) : Prop where
  counter : (c.lock l).counter = depth
  flags : (c.lock l).flags = enabled
  served : (c.lock l).dequeue = (c.lock l).queue
  disabled : c.enabled = false

theorem held_update {s : IrqLock} {depth : BitVec 32} {flag enabled : Bool} (hCounter : s.counter = depth)
    (hFlags : s.flags = enabled) (hServed : s.dequeue = s.queue) (hDisabled : flag = false) :
    Held { enabled := flag, lock := Function.update c.lock l s } l depth enabled := by
  have hLock : Function.update c.lock l s l = s := Function.update_self _ _ _
  exact ⟨(congrArg IrqLock.counter hLock).trans hCounter, (congrArg IrqLock.flags hLock).trans hFlags,
    ((congrArg IrqLock.dequeue hLock).trans hServed).trans (congrArg IrqLock.queue hLock).symm, hDisabled⟩

theorem lockIrq_idle (h : c.Idle l) : ∃ d, c.lockIrq l = some d ∧ d.Held l 1 c.enabled := by
  rw [lockIrq, if_neg (by rw [h.1]; decide), if_pos h.2]
  exact ⟨_, rfl, held_update rfl rfl h.2 rfl⟩

theorem Held.lockIrq_one {enabled : Bool} (h : c.Held l 1 enabled) :
    ∃ d, c.lockIrq l = some d ∧ d.Held l 2 enabled := by
  rw [lockIrq, if_pos h.counter]
  exact ⟨_, rfl, held_update (congrArg (· + 1) h.counter) h.flags h.served rfl⟩

/-- The third call waits for a ticket that it would have to serve itself. -/
theorem Held.lockIrq_two {enabled : Bool} (h : c.Held l 2 enabled) : c.lockIrq l = none := by
  have hOther : (c.lock l).queue ≠ (c.lock l).queue + 1 := by
    intro hSame
    bv_omega
  rw [lockIrq, if_neg (by rw [h.counter]; decide), h.served, if_neg hOther]

theorem Held.unlockIrq_two {enabled : Bool} (h : c.Held l 2 enabled) : (c.unlockIrq l).Held l 1 enabled := by
  rw [unlockIrq, h.counter, if_neg (by decide)]
  exact held_update rfl h.flags h.served h.disabled

/-- The last `unlock_irq` brings back what `lock_irq` has found. -/
theorem Held.unlockIrq_one {enabled : Bool} (h : c.Held l 1 enabled) :
    (c.unlockIrq l).Idle l ∧ (c.unlockIrq l).enabled = enabled := by
  rw [unlockIrq, h.counter, if_pos (by decide)]
  dsimp only
  rw [h.disabled, h.flags, Bool.false_or]
  refine ⟨⟨?_, ?_⟩, rfl⟩
  · dsimp only
    rw [Function.update_self]
    rfl
  · dsimp only
    rw [Function.update_self]
    exact congrArg (· + 1) h.served

theorem Idle.distance (h : c.Idle l) : (c.lock l).dequeue - (c.lock l).queue = 1 := by
  rw [h.2]
  bv_omega

theorem callsWaiting_three (h : c.Idle l) :
    callsWaiting fuel l (.lock :: .lock :: .lock :: calls) c = none := by
  obtain ⟨c₁, hFirst, hOne⟩ := lockIrq_idle h
  obtain ⟨c₂, hSecond, hTwo⟩ := hOne.lockIrq_one
  cases fuel with
  | zero =>
      have hWait : c.lockIrqWaiting 0 l = none := by
        rw [lockIrqWaiting, if_neg (by rw [h.1]; decide)]
        rfl
      rw [callsWaiting, hWait]
      rfl
  | succ fuel =>
      rw [callsWaiting, lockIrqWaiting_eq, hFirst, Option.bind_some, callsWaiting, lockIrqWaiting_eq, hSecond,
        Option.bind_some, callsWaiting, lockIrqWaiting_eq, hTwo.lockIrq_two]
      rfl

/-- Two calls can be nested, and no more. -/
theorem nests_iff (c : Interrupts) (l : IrqName) (k : Nat) (hIdle : c.Idle l) (hk : 1 ≤ k) :
    c.Nests l k ↔ k ≤ 2 := by
  obtain ⟨c₁, hFirst, hOne⟩ := lockIrq_idle hIdle
  obtain ⟨c₂, hSecond, hTwo⟩ := hOne.lockIrq_one
  have hBack : ∀ {d : Interrupts}, d.Held l 1 c.enabled → (d.unlockIrq l).enabled = c.enabled ∧
      ((d.unlockIrq l).lock l).counter = (c.lock l).counter ∧
        ((d.unlockIrq l).lock l).dequeue - ((d.unlockIrq l).lock l).queue =
          (c.lock l).dequeue - (c.lock l).queue := by
    intro d hd
    obtain ⟨hEnd, hFlag⟩ := hd.unlockIrq_one
    exact ⟨hFlag, hEnd.1.trans hIdle.1.symm, hEnd.distance.trans hIdle.distance.symm⟩
  constructor
  · rintro ⟨fuel, states, last, hCalls, _⟩
    by_contra hMany
    obtain ⟨n, rfl⟩ := Nat.exists_eq_add_of_le (show 3 ≤ k by omega)
    have hSplit : nestedCalls (3 + n) =
        .lock :: .lock :: .lock :: (List.replicate n .lock ++ List.replicate (3 + n) .unlock) := by
      rw [nestedCalls, Nat.add_comm 3 n, List.replicate_succ, List.replicate_succ, List.replicate_succ]
      rfl
    rw [hSplit] at hCalls
    rw [callsWaiting_three hIdle] at hCalls
    cases hCalls
  · intro hFew
    rcases (show k = 1 ∨ k = 2 by omega) with rfl | rfl
    · refine ⟨1, [c₁, c₁.unlockIrq l], c₁.unlockIrq l, ?_, ?_, rfl, hBack hOne⟩
      · show callsWaiting 1 l [.lock, .unlock] c = _
        rw [callsWaiting, lockIrqWaiting_eq, hFirst]
        rfl
      · rw [List.dropLast_cons_cons, List.dropLast_singleton, List.forall_mem_singleton]
        exact hOne.disabled
    · have hInner := hTwo.unlockIrq_two
      refine ⟨1, [c₁, c₂, c₂.unlockIrq l, (c₂.unlockIrq l).unlockIrq l], (c₂.unlockIrq l).unlockIrq l, ?_, ?_,
        rfl, hBack hInner⟩
      · show callsWaiting 1 l [.lock, .lock, .unlock, .unlock] c = _
        rw [callsWaiting, lockIrqWaiting_eq, hFirst, Option.bind_some, callsWaiting, lockIrqWaiting_eq, hSecond]
        rfl
      · show ∀ s ∈ [c₁, c₂, c₂.unlockIrq l], s.enabled = false
        rw [List.forall_mem_cons, List.forall_mem_cons, List.forall_mem_singleton]
        exact ⟨hOne.disabled, hTwo.disabled, hInner.disabled⟩

/-- A lock that has just been initialised. -/
def initial : Interrupts := { enabled := true, lock := fun _ => IrqLock.init }

theorem nests_iff_initial : initial.Nests .tableLock 2 ↔ 2 ≤ 2 :=
  nests_iff initial .tableLock 2 ⟨rfl, by decide⟩ (by decide)

/-- The third nested call does not come back. -/
theorem not_nests : ¬ initial.Nests .tableLock 3 := by
  rintro ⟨fuel, states, last, hCalls, _⟩
  have hIdle : initial.Idle .tableLock := ⟨rfl, by decide⟩
  have hNone : callsWaiting fuel .tableLock (nestedCalls 3) initial = none := callsWaiting_three hIdle
  rw [hNone] at hCalls
  cases hCalls

end Interrupts
end ArtOS
