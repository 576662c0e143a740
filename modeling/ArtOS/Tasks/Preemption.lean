import ArtOS.Tasks.Fifo
import ArtOS.Tasks.SavedContext

/-! When an external interrupt takes the CPU from the task it interrupts: the decision at the end
of `irq_handler` together with the one in `scheduler`. -/
namespace ArtOS

namespace RunQueue

variable {a : RunQueue}

/-- A running task gives way to every ready task that is at least as urgent. -/
theorem Inv.reschedule_switches (h : a.Inv) (hRunning : a.status a.current = .running) :
    a.reschedule.current ≠ a.current ↔ ∃ t, a.status t = .ready ∧ a.prio a.current ≤ a.prio t := by
  cases hTop : a.top with
  | none =>
      have hNone := h.top_eq_none.mp hTop
      have hSame : a.reschedule = a := by
        simp only [RunQueue.reschedule, hTop, hRunning, true_or, if_true]
      rw [hSame]
      refine iff_of_false (fun hne => hne rfl) ?_
      rintro ⟨t, hReady, -⟩
      exact hNone t hReady
  | some p =>
      obtain ⟨⟨u, hReady, rfl⟩, hMax⟩ := h.top_eq_some.mp hTop
      by_cases hKeep : a.prio u < a.prio a.current ∧ a.status a.current = .running
      · rw [reschedule_keep hTop hKeep]
        refine iff_of_false (fun hne => hne rfl) ?_
        rintro ⟨t, ht, hPrio⟩
        exact absurd (hPrio.trans (hMax t ht)) (Nat.not_le.mpr hKeep.1)
      · obtain ⟨t, rest, hQueue, hCurrent, _⟩ := h.reschedule_take hTop hKeep
        have hTaken := ((h.waiting t _).mp (by rw [hQueue]; exact List.mem_cons_self)).1
        refine iff_of_true (fun he => ?_) ⟨u, hReady, Nat.not_lt.mp fun hlt => hKeep ⟨hlt, hRunning⟩⟩
        rw [← hCurrent, he, hRunning] at hTaken
        cases hTaken

end RunQueue

namespace Machine

open Kernel

variable {m m' : Machine} {a : RunQueue} {linked : Linked} {junk junk' : Cells} {intNo : Nat}

/-- `get_highest_priority` compared with a priority that a task can have. -/
theorem lt_highest_iff {k : Kernel} {n : Nat} (hInv : a.Inv) (hRep : k.Represents a)
    (hReady : ∃ t, a.status t = .ready) :
    n < k.getHighestPriority ↔ ∃ t, a.status t = .ready ∧ n < a.prio t := by
  have hMsb := msb_prioBitmap hRep.bitmap
  rw [getHighestPriority]
  cases hTop : a.top with
  | none =>
      obtain ⟨t, ht⟩ := hReady
      exact absurd ht (hInv.top_eq_none.mp hTop t)
  | some p =>
      rw [hTop] at hMsb
      obtain ⟨⟨u, hu, rfl⟩, hMax⟩ := hInv.top_eq_some.mp hTop
      have hMsb' : msb k.prioBitmap = a.prio u := hMsb
      rw [hMsb']
      exact ⟨fun hlt => ⟨u, hu, hlt⟩, fun ⟨t, ht, hlt⟩ => hlt.trans_le (hMax t ht)⟩

/-- What an external interrupt does to the queues, and when it asks for the scheduler. -/
theorem interrupt_queue (h : Reachable linked m) (hAllowed : m.Allowed (.interrupt intNo junk junk'))
    (hAct : m.act linked (.interrupt intNo junk junk') = some m') :
    ∃ a : RunQueue, a.Inv ∧ m.kernel.Represents a ∧
      m'.kernel.Represents (if Asks m.kernel intNo then a.reschedule else a) ∧
      ∀ t, a.status t = .ready → (Asks m.kernel intNo ↔
        intNo = 32 ∨ ∃ u, a.status u = .ready ∧ a.prio a.current < a.prio u) := by
  obtain ⟨a, hInv⟩ := reachable_inv h
  obtain ⟨hExternal, hRoom⟩ := hAllowed
  obtain ⟨m₁, hAct₁, -, hRep, -⟩ := interrupt_spec linked intNo junk junk' hInv hRoom
  obtain rfl := Option.some.inj (hAct.symm.trans hAct₁)
  refine ⟨a, hInv.queue, hInv.represents, hRep, fun t ht => ?_⟩
  have hAsks : Asks m.kernel intNo ↔ intNo = 32 ∨ a.prio a.current < m.kernel.getHighestPriority := by
    rw [Asks, hInv.represents.prio, hInv.represents.current]
    exact or_congr_right ⟨And.right, fun hlt => ⟨hExternal, hlt⟩⟩
  rw [hAsks, lt_highest_iff hInv.queue hInv.represents ⟨t, ht⟩]

/-- A task does not give up the CPU by itself, and only these interrupts come. -/
def Keeping (vectors : Nat → Prop) : Event → Prop
  | .compute _ _ | .fpu _ | .create _ _ _ _ | .wakeup _ => True
  | .interrupt intNo _ _ => vectors intNo
  | .block | .exit | .reschedule _ _ => False

/-- A step without a more urgent task that is ready. -/
def Undisturbed (linked : Linked) (vectors : Nat → Prop) (m m' : Machine) : Prop :=
  ∃ event, Keeping vectors event ∧ m.Allowed event ∧ m.act linked event = some m' ∧
    ∀ t, m.kernel.task.status t = .ready → m.kernel.task.prio t ≤ m.kernel.task.prio m.current

theorem keeping_step {vectors : Nat → Prop} (hTimer : ¬ vectors 32) (h : Reachable linked m)
    (hRunning : m.kernel.currentStatus = .running) (hStep : Undisturbed linked vectors m m') :
    m'.current = m.current ∧ m'.kernel.currentStatus = .running := by
  obtain ⟨event, hKeeping, hAllowed, hAct, hUrgent⟩ := hStep
  -- it is enough to find the run queue behind the step
  have hQueue {a a' : RunQueue} (hNow : m.kernel.Represents a) (hNext : m'.kernel.Represents a')
      (hCurrent : a'.current = a.current)
      (hStatus : a.status a.current = .running → a'.status a.current = .running) :
      m'.current = m.current ∧ m'.kernel.currentStatus = .running := by
    rw [currentStatus, hNow.status, hNow.current] at hRunning
    refine ⟨hNext.current.trans (hCurrent.trans hNow.current.symm), ?_⟩
    rw [currentStatus, hNext.status, hNext.current, hCurrent]
    exact hStatus hRunning
  obtain ⟨a, hInv⟩ := reachable_inv h
  have hNow := hInv.represents
  cases event with
  | compute cpu cells =>
      obtain rfl := Option.some.inj hAct
      exact hQueue hNow hNow rfl id
  | fpu unit =>
      obtain rfl := Option.some.inj hAct
      exact hQueue hNow (fpuHandler_represents hNow) rfl id
  | create ep arg prio pages =>
      obtain ⟨hLow, hHigh, hFrame⟩ := hAllowed
      obtain ⟨k', ret, hCreate, hEffect⟩ := createTask_refines ep arg hInv.queue hNow ⟨hLow, hHigh⟩ hFrame
      have hKernel : m'.kernel = k' := by
        rw [act, createTask, hCreate, Option.map_some] at hAct
        obtain rfl := Option.some.inj hAct
        dsimp only
        split <;> rfl
      rw [← hKernel] at hEffect
      rcases hEffect with hSame | ⟨t, hFree, hNext, -⟩
      · exact hQueue hNow (hSame ▸ hNow) rfl id
      · refine hQueue hNow hNext rfl fun hCurrent => ?_
        have hOther : a.current ≠ t := fun he => by
          rw [← he, hCurrent] at hFree
          cases hFree
        exact (Function.update_of_ne hOther _ _).trans hCurrent
  | wakeup id =>
      obtain ⟨k', ret, hWake, hNext, -⟩ := wakeupTask_refines (t := id) hInv.queue hNow
      rw [act, hWake] at hAct
      obtain rfl := Option.some.inj hAct
      refine hQueue hNow hNext ?_ fun hCurrent => ?_
      · rw [RunQueue.wake]
        split <;> rfl
      · rw [RunQueue.wake]
        split
        · rename_i hBlocked
          have hOther : a.current ≠ id := fun he => by
            rw [← he, hCurrent] at hBlocked
            cases hBlocked
          exact (Function.update_of_ne hOther _ _).trans hCurrent
        · exact hCurrent
  | interrupt intNo junk junk' =>
      obtain ⟨b, hQueueInv, hBefore, hNext, hAsks⟩ := interrupt_queue h hAllowed hAct
      have hSame : (if Asks m.kernel intNo then b.reschedule else b) = b := by
        split
        · rename_i hAsk
          have hNone : ∀ t, b.status t ≠ .ready := fun t ht => by
            rcases (hAsks t ht).mp hAsk with rfl | ⟨u, hu, hlt⟩
            · exact hTimer hKeeping
            · have hCurrent : m.current = b.current := hBefore.current
              rw [hBefore.status, hBefore.prio, hCurrent] at hUrgent
              exact absurd (hUrgent u hu) (Nat.not_le.mpr hlt)
          rw [currentStatus, hBefore.status, hBefore.current] at hRunning
          simp only [RunQueue.reschedule, hQueueInv.top_eq_none.mpr hNone, hRunning, true_or, if_true]
        · rfl
      rw [hSame] at hNext
      exact hQueue hBefore hNext rfl id
  | block => exact absurd hKeeping id
  | exit => exact absurd hKeeping id
  | reschedule junk junk' => exact absurd hKeeping id

/-- Without the timer at vector 32 a task keeps the CPU for as long as it wants, unless a more urgent
one gets ready. -/
theorem keeping_run {vectors : Nat → Prop} (hTimer : ¬ vectors 32) (h : Reachable linked m)
    (hRunning : m.kernel.currentStatus = .running)
    (hRun : Relation.ReflTransGen (Undisturbed linked vectors) m m') :
    m'.current = m.current ∧ m'.kernel.currentStatus = .running := by
  suffices Reachable linked m' ∧ m'.current = m.current ∧ m'.kernel.currentStatus = .running from this.2
  induction hRun with
  | refl => exact ⟨h, rfl, hRunning⟩
  | tail _ hLast ih =>
      obtain ⟨hBefore, hCurrent, hStatus⟩ := ih
      obtain ⟨hCurrent', hStatus'⟩ := keeping_step hTimer hBefore hStatus hLast
      obtain ⟨event, -, hAllowed, hAct, -⟩ := hLast
      exact ⟨hBefore.next ⟨event, hAllowed, hAct⟩, hCurrent'.trans hCurrent, hStatus'⟩

/-- No ready task is more urgent than the one that the interrupt returns to. -/
theorem interrupt_highest (h : Reachable linked m) (hAllowed : m.Allowed (.interrupt intNo junk junk'))
    (hAct : m.act linked (.interrupt intNo junk junk') = some m') {t : TaskPtr}
    (ht : m'.kernel.task.status t = .ready) :
    m'.kernel.task.prio t ≤ m'.kernel.task.prio m'.current := by
  obtain ⟨a, hInv, -, hRep, hAsks⟩ := interrupt_queue h hAllowed hAct
  have hCurrent : m'.current = _ := hRep.current
  rw [hRep.status] at ht
  rw [hRep.prio, hCurrent]
  split_ifs at ht ⊢ with hAsk
  · rw [RunQueue.reschedule_prio]
    exact hInv.reschedule_highest ht
  · exact Nat.not_lt.mp fun hlt => hAsk ((hAsks t ht).mpr (Or.inr ⟨t, ht, hlt⟩))

theorem interrupt_switches (h : Reachable linked m) (hAllowed : m.Allowed (.interrupt intNo junk junk'))
    (hAct : m.act linked (.interrupt intNo junk junk') = some m') (hRunning : m.kernel.currentStatus = .running) :
    m'.current ≠ m.current ↔ ∃ t, m.kernel.task.status t = .ready ∧
      (m.kernel.task.prio m.current < m.kernel.task.prio t ∨
        intNo = 32 ∧ m.kernel.task.prio t = m.kernel.task.prio m.current) := by
  obtain ⟨a, hInv, hNow, hRep, hAsks⟩ := interrupt_queue h hAllowed hAct
  have hCurrent : m'.current = _ := hRep.current
  have hSame : m.current = a.current := hNow.current
  rw [currentStatus, hNow.status, hNow.current] at hRunning
  rw [hCurrent, hSame, hNow.status, hNow.prio]
  split
  · rename_i hAsk
    rw [hInv.reschedule_switches hRunning]
    constructor
    · rintro ⟨t, hReady, hLe⟩
      rcases (hAsks t hReady).mp hAsk with hTimer | ⟨u, hu, hlt⟩
      · exact ⟨t, hReady, hLe.lt_or_eq.imp_right fun he => ⟨hTimer, he.symm⟩⟩
      · exact ⟨u, hu, Or.inl hlt⟩
    · rintro ⟨t, hReady, hlt | ⟨-, he⟩⟩
      · exact ⟨t, hReady, hlt.le⟩
      · exact ⟨t, hReady, he.ge⟩
  · rename_i hQuiet
    refine iff_of_false (fun hne => hne rfl) ?_
    rintro ⟨t, hReady, hlt | ⟨hTimer, -⟩⟩
    · exact hQuiet ((hAsks t hReady).mpr (Or.inr ⟨t, hReady, hlt⟩))
    · exact hQuiet ((hAsks t hReady).mpr (Or.inl hTimer))

/-- When an external interrupt returns, no ready task is more urgent than the one it returns to. A
running task loses the CPU to more urgent tasks only, save for the timer at vector 32, which also
lets equals take turns. -/
theorem interrupt_preempts (h : Reachable linked m) (hAllowed : m.Allowed (.interrupt intNo junk junk'))
    (hAct : m.act linked (.interrupt intNo junk junk') = some m') :
    (∀ t, m'.kernel.task.status t = .ready →
      m'.kernel.task.prio t ≤ m'.kernel.task.prio m'.current) ∧
    (m.kernel.currentStatus = .running → (m'.current ≠ m.current ↔
      ∃ t, m.kernel.task.status t = .ready ∧
        (m.kernel.task.prio m.current < m.kernel.task.prio t ∨
          intNo = 32 ∧ m.kernel.task.prio t = m.kernel.task.prio m.current))) :=
  ⟨fun _ ht => interrupt_highest h hAllowed hAct ht, interrupt_switches h hAllowed hAct⟩

theorem interrupt_preempts_example :
    ∃ m m', run exampleLinked (exampleEvents.take 1) exampleMachine = some m ∧
      run exampleLinked (exampleEvents.take 2) exampleMachine = some m' ∧
      ∀ t, m'.kernel.task.status t = .ready →
        m'.kernel.task.prio t ≤ m'.kernel.task.prio m'.current := by
  obtain ⟨m, hm, -⟩ := Option.map_eq_some_iff.mp (example_currents 1 (by decide))
  obtain ⟨m', hm', -⟩ := Option.map_eq_some_iff.mp (example_currents 2 (by decide))
  have hReachable : Reachable exampleLinked m :=
    exampleMachine_reachable.next ⟨_, run_next (n := 0) rfl rfl hm⟩
  obtain ⟨hAllowed, hAct⟩ := run_next rfl hm hm'
  exact ⟨m, m', hm, hm', (interrupt_preempts hReachable hAllowed hAct).1⟩

end Machine
end ArtOS
