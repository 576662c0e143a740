import ArtOS.Tasks.Lifecycle

/-! The order in which `scheduler` serves the ready tasks. A history of the
run records when each task last became ready; the queues turn out to be
sorted by it, so that the head of a queue has waited longest. -/
namespace ArtOS

namespace RunQueue

/-- The history after a change of status: tasks that became ready are stamped. -/
def stamp (since : TaskPtr → Nat) (clock : Nat) (before after : TaskPtr → TaskStatus)
    (t : TaskPtr) : Nat :=
  if after t = .ready ∧ before t ≠ .ready then clock else since t

/-- Every queue is sorted by arrival, and all arrivals are in the past. -/
structure Ordered (a : RunQueue) (since : TaskPtr → Nat) (clock : Nat) : Prop where
  sorted : ∀ p, (a.waiting p).Pairwise fun t u => since t < since u
  past : ∀ t, a.status t = .ready → since t < clock

/-- Queues only lose tasks. -/
def Shrinks (a b : RunQueue) : Prop := ∀ p, (b.waiting p).Sublist (a.waiting p)

/-- Queues lose tasks, and gain at most one at the tail that was not ready before. -/
def Advances (a b : RunQueue) : Prop :=
  ∀ p, ∃ kept new, b.waiting p = kept ++ new ∧ kept.Sublist (a.waiting p) ∧ new.length ≤ 1 ∧
    ∀ t ∈ new, a.status t ≠ .ready

variable {a b : RunQueue} {t : TaskPtr} {p : Nat} {since : TaskPtr → Nat} {clock : Nat}

theorem Shrinks.refl (a : RunQueue) : Shrinks a a := fun _ => List.Sublist.refl _

theorem Shrinks.advances (h : Shrinks a b) : Advances a b := fun p =>
  ⟨b.waiting p, [], by simp, h p, by simp, by simp⟩

theorem Shrinks.enqueue (h : Shrinks a b) (hNew : a.status t ≠ .ready) :
    Advances a (b.enqueue t) := by
  intro p
  by_cases hp : p = b.prio t
  · exact ⟨b.waiting p, [t], by simp [RunQueue.enqueue, hp], h p, by simp, by simpa using hNew⟩
  · exact ⟨b.waiting p, [], by simp [RunQueue.enqueue, hp], h p, by simp, by simp⟩

theorem shrinks_pick : Shrinks a (a.pick p) := by
  intro p'
  unfold RunQueue.pick
  split
  · exact List.Sublist.refl _
  · next t rest hQueue =>
      by_cases hp : p' = p
      · simp [hp, hQueue]
      · simp [hp]

/-- An arrival is later than everything that waits already. -/
theorem Ordered.advance (h : a.Ordered since clock)
    (hOld : ∀ t p, t ∈ a.waiting p ↔ a.status t = .ready ∧ a.prio t = p)
    (hNew : ∀ t p, t ∈ b.waiting p ↔ b.status t = .ready ∧ b.prio t = p)
    (hAdvances : Advances a b) :
    b.Ordered (stamp since clock a.status b.status) (clock + 1) := by
  have hKept : ∀ t, a.status t = .ready → stamp since clock a.status b.status t = since t :=
    fun t ht => by simp [stamp, ht]
  refine ⟨fun p => ?_, fun t ht => ?_⟩
  · obtain ⟨kept, new, hSplit, hSub, hLength, hFresh⟩ := hAdvances p
    have hReady : ∀ t ∈ kept, a.status t = .ready := fun t ht =>
      ((hOld t p).mp (hSub.subset ht)).1
    rw [hSplit, List.pairwise_append]
    refine ⟨?_, ?_, fun t ht u hu => ?_⟩
    · refine ((h.sorted p).sublist hSub).imp_of_mem fun ht hu hlt => ?_
      rwa [hKept _ (hReady _ ht), hKept _ (hReady _ hu)]
    · match new, hLength with
      | [], _ => exact List.Pairwise.nil
      | [_], _ => exact List.pairwise_singleton _ _
    · have hu' : b.status u = .ready := ((hNew u p).mp (by simp [hSplit, hu])).1
      rw [hKept t (hReady t ht)]
      simpa [stamp, hu', hFresh u hu] using h.past t (hReady t ht)
  · by_cases hOldReady : a.status t = .ready
    · rw [hKept t hOldReady]
      exact (h.past t hOldReady).trans (Nat.lt_succ_self clock)
    · simp [stamp, ht, hOldReady]

theorem advances_reschedule : Advances a a.reschedule := by
  have hRetire : Shrinks a a.retire := fun p => by simp
  unfold RunQueue.reschedule
  split
  · split
    · exact (Shrinks.refl a).advances
    · exact Shrinks.advances hRetire
  · next p hTop =>
      split
      · exact (Shrinks.refl a).advances
      · split
        · next hRunning => exact shrinks_pick.enqueue (by simp [hRunning])
        · exact Shrinks.advances fun p' => (shrinks_pick p').trans (hRetire p')

/-- A change of status that no ready task takes part in. -/
theorem Advances.of_same {c : RunQueue} (h : Advances b c) (hWaiting : b.waiting = a.waiting)
    (hStatus : ∀ t, a.status t = .ready → b.status t = .ready) : Advances a c := by
  intro p
  obtain ⟨kept, new, hSplit, hSub, hLength, hFresh⟩ := h p
  exact ⟨kept, new, hSplit, hWaiting ▸ hSub, hLength, fun t ht => mt (hStatus t) (hFresh t ht)⟩

theorem advances_effect {call : Call} (hEffect : call.Effect a b)
    (hExit : call = .exit → a.status a.current ≠ .ready) : Advances a b := by
  cases call with
  | create ep arg prio pages =>
      rcases hEffect with rfl | ⟨t, hInvalid, rfl⟩
      · exact (Shrinks.refl _).advances
      · exact Shrinks.enqueue (b := { a with prio := Function.update a.prio t prio })
          (Shrinks.refl a) (by simp [hInvalid])
  | schedule => exact hEffect ▸ advances_reschedule
  | block =>
      obtain rfl := hEffect
      refine Shrinks.advances fun p => ?_
      unfold RunQueue.block
      split <;> exact List.Sublist.refl _
  | wakeup id =>
      obtain rfl := hEffect
      unfold RunQueue.wake
      split
      · next hBlocked => exact (Shrinks.refl a).enqueue (by simp [hBlocked])
      · exact (Shrinks.refl a).advances
  | exit =>
      obtain rfl := hEffect
      refine advances_reschedule.of_same rfl fun t ht => ?_
      have hne : t ≠ a.current := fun he => hExit rfl (he ▸ ht)
      simpa [RunQueue.exit, hne] using ht

theorem reschedule_prio : a.reschedule.prio = a.prio := by
  unfold RunQueue.reschedule
  split
  · split <;> simp
  · split
    · rfl
    · split
      · exact pick_prio
      · rw [pick_prio, retire_prio]

theorem pick_ready {u : TaskPtr} (hu : (a.pick p).status u = .ready) : a.status u = .ready := by
  unfold RunQueue.pick at hu
  split at hu
  · exact hu
  · next t rest _ =>
      have hne : u ≠ t := fun he => by simp [he] at hu
      simpa [hne] using hu

theorem retire_ready {u : TaskPtr} (hu : a.retire.status u = .ready) : a.status u = .ready := by
  unfold RunQueue.retire at hu
  split at hu
  · have hne : u ≠ a.current := fun he => by simp [he] at hu
    simpa [hne] using hu
  · exact hu

/-- Only a preempted task becomes ready by a switch. -/
theorem reschedule_ready {u : TaskPtr} (hu : a.reschedule.status u = .ready) :
    a.status u = .ready ∨ u = a.current ∧ a.status a.current = .running := by
  unfold RunQueue.reschedule at hu
  split at hu
  · split at hu
    · exact .inl hu
    · exact .inl (retire_ready hu)
  · split at hu
    · exact .inl hu
    · split at hu
      · next hRunning =>
          by_cases he : u = a.current
          · exact .inr ⟨he, hRunning⟩
          · exact .inl (pick_ready (by simpa [RunQueue.enqueue, he] using hu))
      · exact .inl (retire_ready (pick_ready hu))

/-- The head of the chosen queue runs, and a preempted task is ready. -/
theorem Inv.reschedule_take (h : a.Inv) (hTop : a.top = some p)
    (hLower : ¬ (p < a.prio a.current ∧ a.status a.current = .running)) :
    ∃ t rest, a.waiting p = t :: rest ∧ a.reschedule.current = t ∧
      a.reschedule.status t = .running ∧
      (a.status a.current = .running → a.reschedule.status a.current = .ready) := by
  obtain ⟨_, hFull, _⟩ := topBelow_eq_some.mp hTop
  obtain ⟨t, rest, hQueue⟩ := List.exists_cons_of_ne_nil hFull
  have hReady := ((h.waiting t p).mp (by simp [hQueue])).1
  refine ⟨t, rest, hQueue, ?_⟩
  simp only [RunQueue.reschedule, hTop, if_neg hLower]
  by_cases hRunning : a.status a.current = .running
  · have hne : t ≠ a.current := fun he => by simp [he, hRunning] at hReady
    rw [if_pos hRunning, pick_eq hQueue]
    simp [RunQueue.enqueue, hne]
  · rw [if_neg hRunning, pick_eq (by rwa [retire_waiting])]
    simp [hRunning]

theorem reschedule_keep (hTop : a.top = some p)
    (hKeep : p < a.prio a.current ∧ a.status a.current = .running) : a.reschedule = a := by
  simp only [RunQueue.reschedule, hTop, if_pos hKeep]

/-- The head of a sorted queue has waited longest. -/
theorem Ordered.head {rest : List TaskPtr} (h : a.Ordered since clock) (hInv : a.Inv)
    (hQueue : a.waiting p = t :: rest) :
    (a.status t = .ready ∧ a.prio t = p) ∧
      ∀ u, a.status u = .ready → a.prio u = p → u ≠ t → since t < since u := by
  have hSorted := h.sorted p
  rw [hQueue, List.pairwise_cons] at hSorted
  refine ⟨(hInv.waiting t p).mp (by simp [hQueue]), fun u hu hp hne => hSorted.1 u ?_⟩
  have hMem := (hInv.waiting u p).mpr ⟨hu, hp⟩
  simpa [hQueue, hne] using hMem

/-- After a switch no ready task has a higher priority than the current task. -/
theorem Inv.reschedule_highest (h : a.Inv) {u : TaskPtr}
    (hu : a.reschedule.status u = .ready) : a.prio u ≤ a.prio a.reschedule.current := by
  cases hTop : a.top with
  | none =>
      have hNone := h.top_eq_none.mp hTop
      rcases reschedule_ready hu with hReady | ⟨rfl, hCurrent⟩
      · exact absurd hReady (hNone u)
      · simp [RunQueue.reschedule, hTop, hCurrent] at hu
  | some p =>
      obtain ⟨_, hMax⟩ := h.top_eq_some.mp hTop
      by_cases hKeep : p < a.prio a.current ∧ a.status a.current = .running
      · rw [reschedule_keep hTop hKeep] at hu ⊢
        exact (hMax u hu).trans hKeep.1.le
      · obtain ⟨t, rest, hQueue, hCurrent, _, _⟩ := h.reschedule_take hTop hKeep
        rw [hCurrent, ((h.waiting t p).mp (by simp [hQueue])).2]
        rcases reschedule_ready hu with hReady | ⟨rfl, hPreempted⟩
        · exact hMax u hReady
        · exact Nat.not_lt.mp fun hlt => hKeep ⟨hlt, hPreempted⟩

end RunQueue

/-- The kernel with the history of its run: the number of steps, and for each
task the step at which it last became ready. -/
structure Timed where
  kernel : Kernel
  clock : Nat
  since : TaskPtr → Nat

namespace Timed

def advance (s : Timed) (k' : Kernel) : Timed where
  kernel := k'
  clock := s.clock + 1
  since := RunQueue.stamp s.since s.clock s.kernel.task.status k'.task.status

def Step (mayExit : Kernel → Prop) (s s' : Timed) : Prop :=
  ∃ call : Call, call.Allowed mayExit s.kernel ∧
    ∃ k', call.exec s.kernel = some k' ∧ s' = s.advance k'

abbrev Reachable (mayExit : Kernel → Prop) : Timed → Prop :=
  Transition.Reachable (fun s => s.kernel.Booted) (Step mayExit)

/-- The highest priority of a ready task. -/
def TopReady (s : Timed) (p : Nat) : Prop :=
  (∃ t, s.kernel.task.status t = .ready ∧ s.kernel.task.prio t = p) ∧
    ∀ t, s.kernel.task.status t = .ready → s.kernel.task.prio t ≤ p

/-- `t` is the task of priority `p` that has been ready the longest. -/
def Oldest (s : Timed) (p : Nat) (t : TaskPtr) : Prop :=
  s.kernel.task.status t = .ready ∧ s.kernel.task.prio t = p ∧
    ∀ u, s.kernel.task.status u = .ready → s.kernel.task.prio u = p → u ≠ t →
      s.since t < s.since u

/-- Every other ready task of the same priority has been ready for longer. -/
def Youngest (s : Timed) (t : TaskPtr) : Prop :=
  s.kernel.task.status t = .ready ∧
    ∀ u, s.kernel.task.status u = .ready → s.kernel.task.prio u = s.kernel.task.prio t → u ≠ t →
      s.since u < s.since t

/-- The current task keeps the processor against ready tasks of priority `p`. -/
def Keeps (s : Timed) (p : Nat) : Prop :=
  s.kernel.currentStatus = .running ∧ p < s.kernel.task.prio s.kernel.currentTask

/-- The scheduling policy: what a choice made in `s` leads to in `s'`. -/
structure Chooses (s s' : Timed) : Prop where
  stays : ∀ p, s.TopReady p → s.Keeps p → s'.kernel.currentTask = s.kernel.currentTask ∧
    s'.kernel.currentStatus = .running
  takes : ∀ p, s.TopReady p → ¬ s.Keeps p → s.Oldest p s'.kernel.currentTask ∧
    s'.kernel.currentStatus = .running
  preempted : ∀ p, s.TopReady p → ¬ s.Keeps p → s.kernel.currentStatus = .running →
    s'.Youngest s.kernel.currentTask
  keepsOn : (∀ t, s.kernel.task.status t ≠ .ready) →
    s.kernel.currentStatus = .running ∨ s.kernel.currentStatus = .idle →
    s'.kernel.currentTask = s.kernel.currentTask
  idles : (∀ t, s.kernel.task.status t ≠ .ready) →
    ¬ (s.kernel.currentStatus = .running ∨ s.kernel.currentStatus = .idle) →
    s'.kernel.currentTask = s.kernel.idle
  highest : s'.kernel.currentStatus = .running → ∀ t, s'.kernel.task.status t = .ready →
    s'.kernel.task.prio t ≤ s'.kernel.task.prio s'.kernel.currentTask

variable {s s' : Timed} {mayExit : Kernel → Prop}

/-- The queues of a reachable kernel are sorted by arrival. -/
structure Sound (s : Timed) (a : RunQueue) : Prop where
  kernel : s.kernel.Sound a
  ordered : a.Ordered s.since s.clock

theorem Sound.step {a : RunQueue} (h : s.Sound a)
    (hStep : Step (fun k => k.currentStatus ≠ .ready) s s') : ∃ a', s'.Sound a' := by
  obtain ⟨call, hAllowed, k', hExec, rfl⟩ := hStep
  obtain ⟨k₁, a', hExec', hEffect, hSound, _⟩ := Kernel.exec_refines call h.kernel hAllowed
  obtain rfl := Option.some.inj (hExec.symm.trans hExec')
  refine ⟨a', hSound, ?_⟩
  have hRep := h.kernel.represents
  simp only [advance, hRep.status, hSound.represents.status]
  refine h.ordered.advance h.kernel.inv.waiting hSound.inv.waiting ?_
  refine RunQueue.advances_effect hEffect fun hExit => ?_
  subst hExit
  simpa [Kernel.currentStatus, hRep.status, hRep.current] using hAllowed.2

theorem reachable_sound (h : Reachable (fun k => k.currentStatus ≠ .ready) s) :
    ∃ a, s.Sound a := by
  refine h.invariant (P := fun s => ∃ a, s.Sound a) (fun s hs => ?_) fun s s' ⟨a, ha⟩ hStep =>
    ha.step hStep
  refine ⟨_, hs.sound.1, fun p => List.Pairwise.nil, fun t ht => ?_⟩
  by_cases h : t = 0 <;> simp [Kernel.bootQueue, h] at ht

/-- The choice made by a kernel whose queues are sorted by arrival. -/
theorem chooses_of_ordered {a : RunQueue} (hInv : a.Inv) (hRep : s.kernel.Represents a)
    (hOrdered : a.Ordered s.since s.clock) :
    ∃ k', s.kernel.reschedule = some k' ∧ s.Chooses (s.advance k') := by
  obtain ⟨k', hExec, hRep', _⟩ := Kernel.reschedule_refines hInv hRep
  refine ⟨k', hExec, ?_⟩
  have hTop : ∀ p, s.TopReady p ↔ a.top = some p := fun p => by
    rw [hInv.top_eq_some, TopReady, hRep.status, hRep.prio]
  have hNone : (∀ t, s.kernel.task.status t ≠ .ready) ↔ a.top = none := by
    rw [hInv.top_eq_none, hRep.status]
  have hKeeps : ∀ p, s.Keeps p ↔ p < a.prio a.current ∧ a.status a.current = .running :=
    fun p => by rw [Keeps, Kernel.currentStatus, hRep.status, hRep.prio, hRep.current, and_comm]
  have hStatus : s.kernel.currentStatus = a.status a.current := by
    rw [Kernel.currentStatus, hRep.status, hRep.current]
  have hStatus' : k'.currentStatus = a.reschedule.status a.reschedule.current := by
    rw [Kernel.currentStatus, hRep'.status, hRep'.current]
  refine ⟨fun p hp hKeep => ?_, fun p hp hLeave => ?_, fun p hp hLeave hRunning => ?_,
    fun hp hKeep => ?_, fun hp hLeave => ?_, fun _ t ht => ?_⟩
  · rw [hTop] at hp
    rw [hKeeps] at hKeep
    simp only [advance]
    rw [hRep'.current, hRep.current, hStatus', RunQueue.reschedule_keep hp hKeep]
    exact ⟨rfl, hKeep.2⟩
  · rw [hTop] at hp
    rw [hKeeps] at hLeave
    obtain ⟨t, rest, hQueue, hCurrent, hRunning, _⟩ := hInv.reschedule_take hp hLeave
    obtain ⟨⟨hReady, hPrio⟩, hOldest⟩ := hOrdered.head hInv hQueue
    simp only [advance]
    rw [hStatus', hRep'.current, hCurrent, Oldest, hRep.status, hRep.prio]
    exact ⟨⟨hReady, hPrio, hOldest⟩, hRunning⟩
  · rw [hTop] at hp
    rw [hKeeps] at hLeave
    rw [hStatus] at hRunning
    obtain ⟨_, _, _, _, _, hPreempted⟩ := hInv.reschedule_take hp hLeave
    have hReady := hPreempted hRunning
    simp only [Youngest, advance, hRep.current, hRep'.status, hRep.status]
    refine ⟨hReady, fun u hu _ hne => ?_⟩
    have hu' := (RunQueue.reschedule_ready hu).resolve_right fun h => hne h.1
    simpa [RunQueue.stamp, hReady, hRunning, hu'] using hOrdered.past u hu'
  · rw [hNone] at hp
    rw [hStatus] at hKeep
    have hSame : a.reschedule = a := by simp only [RunQueue.reschedule, hp, if_pos hKeep]
    simp only [advance]
    rw [hRep'.current, hRep.current, hSame]
  · rw [hNone] at hp
    rw [hStatus] at hLeave
    simp only [advance]
    rw [hRep'.current, hRep.idle]
    simp only [RunQueue.reschedule, hp, if_neg hLeave]
  · simp only [advance] at ht ⊢
    rw [hRep'.status] at ht
    rw [hRep'.prio, hRep'.current, RunQueue.reschedule_prio]
    exact hInv.reschedule_highest ht

/-- The state in which `do_exit` calls `reschedule`. -/
def exiting (s : Timed) : Timed := { s with kernel := s.kernel.doExit }

/-- Where a task does not exit after it was woken up again, every call of
`scheduler` picks by priority and, within a priority, by waiting time. -/
theorem reachable_chooses (h : Reachable (fun k => k.currentStatus ≠ .ready) s) :
    (∃ k', s.kernel.reschedule = some k' ∧ s.Chooses (s.advance k')) ∧
      (Call.exit.Allowed (fun k => k.currentStatus ≠ .ready) s.kernel →
        ∃ k', s.exiting.kernel.reschedule = some k' ∧ s.exiting.Chooses (s.exiting.advance k')) := by
  obtain ⟨a, ⟨hInv, _, hRep⟩, hOrdered⟩ := reachable_sound h
  refine ⟨chooses_of_ordered hInv hRep hOrdered, fun hExit => ?_⟩
  obtain ⟨hIdle, hReady⟩ := hExit
  rw [hRep.current, hRep.idle] at hIdle
  rw [Kernel.currentStatus, hRep.status, hRep.current] at hReady
  refine chooses_of_ordered (hInv.exit hReady hIdle) (Kernel.doExit_refines hInv hRep)
    ⟨hOrdered.sorted, fun t ht => hOrdered.past t ?_⟩
  have hne : t ≠ a.current := fun he => by simp [RunQueue.exit, he] at ht
  simpa [RunQueue.exit, hne] using ht

/-- The history restricts no run. -/
theorem reachable_lift {k : Kernel} (h : Kernel.Reachable mayExit k) :
    ∃ s, Reachable mayExit s ∧ s.kernel = k := by
  refine h.simulate (R := fun k (s : Timed) => s.kernel = k)
    (fun k hk => ⟨⟨k, 0, fun _ => 0⟩, hk, rfl⟩) ?_
  rintro k k' s rfl ⟨call, hAllowed, hExec⟩
  exact ⟨s.advance k', Relation.ReflTransGen.single ⟨call, hAllowed, k', hExec, rfl⟩, rfl⟩

theorem reachable_chooses_example :
    ∃ s : Timed, Call.run (fun k => k.currentStatus ≠ .ready)
      [.create 1 0 5 ⟨4096, 0⟩, .create 1 0 5 ⟨8192, 0⟩, .schedule] Kernel.exampleKernel =
        some s.kernel ∧ ∃ k', s.kernel.reschedule = some k' ∧ s.Chooses (s.advance k') := by
  obtain ⟨k, hRun⟩ := Option.isSome_iff_exists.mp (show (Call.run
    (fun k => k.currentStatus ≠ .ready) [.create 1 0 5 ⟨4096, 0⟩, .create 1 0 5 ⟨8192, 0⟩, .schedule]
    Kernel.exampleKernel).isSome by decide)
  obtain ⟨s, hReach, rfl⟩ :=
    reachable_lift (Kernel.reachable_run Kernel.exampleKernel_reachable hRun)
  exact ⟨s, hRun, (reachable_chooses hReach).1⟩

/-- A task that exits after it was woken up again stays in its queue, and is
picked later although its table entry is free. -/
theorem exit_woken_chooses_invalid :
    ¬ ∀ s : Timed, Reachable (fun _ => True) s →
      ∃ k', s.kernel.reschedule = some k' ∧ s.Chooses (s.advance k') := by
  intro h
  have hRun : (Call.run (fun _ => True)
      [.create 1 0 5 ⟨4096, 0⟩, .create 1 0 5 ⟨8192, 0⟩, .schedule, .block, .wakeup 1, .exit]
      Kernel.exampleKernel).map (fun k => (decide (∀ t, k.task.status t ≠ .ready),
        k.currentStatus, k.currentTask, k.reschedule.map Kernel.currentTask)) =
      some (true, .running, 2, some 1) := by decide +kernel
  obtain ⟨k, hRun, hView⟩ := Option.map_eq_some_iff.mp hRun
  obtain ⟨s, hReach, rfl⟩ :=
    reachable_lift (Kernel.reachable_run Kernel.exampleKernel_reachable hRun)
  obtain ⟨k', hExec, hChooses⟩ := h s hReach
  simp only [Prod.mk.injEq, decide_eq_true_eq, hExec, Option.map_some, Option.some.injEq] at hView
  obtain ⟨hNone, hRunning, hCurrent, hNext⟩ := hView
  have hStays := hChooses.keepsOn hNone (.inl hRunning)
  rw [hCurrent] at hStays
  exact absurd (hNext.symm.trans hStays) (by decide)

end Timed
end ArtOS
