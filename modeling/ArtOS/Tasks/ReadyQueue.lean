import ArtOS.Library.LinkedList
import ArtOS.Tasks.Scheduler

/-! The ready queues as lists. `Threaded k w` says that the pointers of `k`
spell the lists `w`; appending a task and taking the first one off are then
operations on lists. -/
namespace ArtOS

open LinkedList

theorem getLsbD_prioBit {p i : Nat} (h : i < 32) : (prioBit p).getLsbD i = decide (i = p) := by
  simp only [prioBit, BitVec.getLsbD_shiftLeft, BitVec.getLsbD_one]
  by_cases hp : i = p
  · simp [hp, hp ▸ h]
  · have : i < p ∨ i - p ≠ 0 := by omega
    rcases this with hlt | hne
    · simp [hp, hlt]
    · simp [hp, hne]

/-- `bsr` finds the highest set bit of a non-zero operand. -/
theorem msb_spec {b : BitVec 32} (h : b ≠ 0) :
    msb b < 32 ∧ b.getLsbD (msb b) = true ∧ ∀ i, msb b < i → b.getLsbD i = false := by
  have hNat : b.toNat ≠ 0 := fun he => h (BitVec.eq_of_toNat_eq (by simpa using he))
  have hLog : msb b = Nat.log2 b.toNat := if_neg h
  refine ⟨?_, ?_, ?_⟩
  · rw [hLog, Nat.log2_lt hNat]
    exact b.isLt
  · rw [hLog]
    exact Nat.testBit_log2 hNat
  · intro i hi
    rw [hLog] at hi
    refine Nat.testBit_lt_two_pow ?_
    exact lt_of_lt_of_le Nat.lt_log2_self (Nat.pow_le_pow_right (by omega) hi)

theorem msb_zero : msb 0 = 32 := rfl

namespace Kernel

/-- The links of `k` spell the lists `w`, which share no task. -/
structure Threaded (k : Kernel) (w : Nat → List TaskPtr) : Prop where
  chain : ∀ p, Chain k.task.next (k.queue p).first (w p)
  last : ∀ p, (k.queue p).last = (w p).getLast?
  disjoint : ∀ p p' t, t ∈ w p → t ∈ w p' → p = p'

/-- A bit of `prio_bitmap` for every non-empty queue. -/
def Bitmap (bitmap : BitVec 32) (w : Nat → List TaskPtr) : Prop :=
  ∀ p < 32, bitmap.getLsbD p = true ↔ w p ≠ []

variable {k : Kernel} {w : Nat → List TaskPtr} {p : Nat} {t : TaskPtr}

theorem Threaded.first_eq_none (h : k.Threaded w) (p : Nat) :
    (k.queue p).first = none ↔ w p = [] := (h.chain p).eq_nil_iff

theorem Threaded.last_eq_none (h : k.Threaded w) (p : Nat) :
    (k.queue p).last = none ↔ w p = [] := by
  rw [h.last, List.getLast?_eq_none_iff]

/-- Only the links and the queue heads matter. -/
theorem Threaded.congr {k' : Kernel} (h : k.Threaded w) (hNext : k'.task.next = k.task.next)
    (hQueue : k'.queue = k.queue) : k'.Threaded w :=
  ⟨fun p => by rw [hNext, hQueue]; exact h.chain p,
    fun p => by rw [hQueue]; exact h.last p, h.disjoint⟩

theorem Bitmap.mono {w' : Nat → List TaskPtr} {b b' : BitVec 32} (h : Bitmap b w)
    (hSame : ∀ i < 32, i ≠ p → (b'.getLsbD i = b.getLsbD i ∧ (w' i = [] ↔ w i = [])))
    (hAt : p < 32 → (b'.getLsbD p = true ↔ w' p ≠ [])) : Bitmap b' w' := by
  intro i hi
  by_cases hp : i = p
  · exact hp ▸ hAt (hp ▸ hi)
  · rw [(hSame i hi hp).1, h i hi, ne_eq, ne_eq, (hSame i hi hp).2]

/-- Setting the bit of a queue that receives a task. -/
theorem Bitmap.push {b : BitVec 32} {list : List TaskPtr} (h : Bitmap b w) (hList : list ≠ []) :
    Bitmap (b ||| prioBit p) (Function.update w p list) := by
  refine h.mono (p := p) (fun i hi hp => ?_) fun hp => ?_
  · simp [getLsbD_prioBit hi, hp]
  · simp [getLsbD_prioBit hp, hList]

/-- The bit of a queue is cleared when its last task leaves. -/
theorem Bitmap.pop {b : BitVec 32} {rest : List TaskPtr} (h : Bitmap b w) (hFull : w p ≠ []) :
    Bitmap (if rest = [] then b &&& ~~~prioBit p else b) (Function.update w p rest) := by
  refine h.mono (p := p) (fun i hi hp => ?_) fun hp => ?_
  · by_cases hRest : rest = []
    · simp only [hRest, if_true, BitVec.getLsbD_and, BitVec.getLsbD_not, getLsbD_prioBit hi]
      simp [hp, hi]
    · simp [hRest, hp]
  · by_cases hRest : rest = []
    · simp [hRest, getLsbD_prioBit hp]
    · simpa [hRest] using (h p hp).mpr hFull

/-- Everything except links and queue heads is as before. -/
structure Relinked (k k' : Kernel) : Prop where
  status : k'.task.status = k.task.status
  prio : k'.task.prio = k.task.prio
  id : k'.task.id = k.task.id
  currentTask : k'.currentTask = k.currentTask
  idle : k'.idle = k.idle
  oldTask : k'.oldTask = k.oldTask
  nrTasks : k'.nrTasks = k.nrTasks
  prioBitmap : k'.prioBitmap = k.prioBitmap

/-- Writing one queue head and the links of tasks outside the other queues
leaves the other queues threaded. -/
theorem Threaded.replace {k' : Kernel} {list : List TaskPtr} (h : k.Threaded w)
    (hQueue : ∀ p', p' ≠ p → k'.queue p' = k.queue p')
    (hNext : ∀ p', p' ≠ p → ∀ u ∈ w p', k'.task.next u = k.task.next u)
    (hChain : Chain k'.task.next (k'.queue p).first list)
    (hLast : (k'.queue p).last = list.getLast?)
    (hList : ∀ p', p' ≠ p → ∀ u ∈ list, u ∉ w p') :
    k'.Threaded (Function.update w p list) := by
  refine ⟨fun p' => ?_, fun p' => ?_, fun p₁ p₂ u h₁ h₂ => ?_⟩
  · by_cases hp : p' = p
    · subst hp
      simpa using hChain
    · rw [Function.update_of_ne hp, hQueue p' hp]
      exact (h.chain p').congr (hNext p' hp)
  · by_cases hp : p' = p
    · subst hp
      simpa using hLast
    · rw [Function.update_of_ne hp, hQueue p' hp]
      exact h.last p'
  · by_cases hp₁ : p₁ = p <;> by_cases hp₂ : p₂ = p
    · exact hp₁.trans hp₂.symm
    · rw [hp₁, Function.update_self] at h₁
      rw [Function.update_of_ne hp₂] at h₂
      exact absurd h₂ (hList p₂ hp₂ u h₁)
    · rw [hp₂, Function.update_self] at h₂
      rw [Function.update_of_ne hp₁] at h₁
      exact absurd h₁ (hList p₁ hp₁ u h₂)
    · rw [Function.update_of_ne hp₁] at h₁
      rw [Function.update_of_ne hp₂] at h₂
      exact h.disjoint p₁ p₂ u h₁ h₂

/-- All copies of the enqueue code append at the tail, whichever of the two
queue pointers they test. -/
theorem Threaded.linkLast (h : k.Threaded w) (hNew : ∀ p', t ∉ w p') {tested : Option TaskPtr}
    (hTested : tested = none ↔ w p = []) :
    ∃ k', k.linkLast p t tested = some k' ∧ k.Relinked k' ∧
      k'.Threaded (Function.update w p (w p ++ [t])) ∧
      ∀ u, u ≠ t → u ∉ w p →
        k'.task.next u = k.task.next u ∧ k'.task.prev u = k.task.prev u := by
  rcases List.eq_nil_or_concat (w p) with hEmpty | ⟨before, last, hList⟩
  · rw [hTested.mpr hEmpty]
    refine ⟨_, rfl, ⟨by simp, by simp, by simp, rfl, rfl, rfl, rfl, rfl⟩, ?_,
      fun u hu _ => by simp [hu]⟩
    refine h.replace (fun p' hp => by simp [hp]) ?_ ?_ ?_ ?_
    · intro p' _ u hu
      have hne : u ≠ t := fun he => hNew p' (he ▸ hu)
      simp [hne]
    · simp [hEmpty]
    · simp [hEmpty]
    · intro p' _ u hu
      rw [hEmpty, List.nil_append, List.mem_singleton] at hu
      exact hu ▸ hNew p'
  · rw [List.concat_eq_append] at hList
    have hLast : (k.queue p).last = some last := by simp [h.last p, hList]
    have hMem : last ∈ w p := by simp [hList]
    have hne : t ≠ last := fun he => hNew p (he ▸ hMem)
    obtain ⟨front, hFront⟩ := Option.ne_none_iff_exists'.mp
      (fun he => by simpa [hList] using hTested.mp he)
    simp only [hFront, Kernel.linkLast, hLast, Option.map_some]
    refine ⟨_, rfl, ⟨by simp, by simp, by simp, rfl, rfl, rfl, rfl, rfl⟩, ?_, fun u hu hOff => ?_⟩
    case refine_2 =>
      have hu' : u ≠ last := fun he => hOff (he ▸ hMem)
      simp [hu, hu']
    refine h.replace (fun p' hp => by simp [hp]) ?_ ?_ ?_ ?_
    · intro p' hp u hu
      have h₁ : u ≠ t := fun he => hNew p' (he ▸ hu)
      have h₂ : u ≠ last := fun he => hp (h.disjoint p' p last (he ▸ hu) hMem)
      simp [h₁, h₂]
    · have hChain := h.chain p
      rw [hList] at hChain ⊢
      simpa [hne] using hChain.append_cell (hList ▸ hNew p)
    · simp [hList]
    · intro p' hp u hu
      rcases List.mem_append.mp hu with hu | hu
      · exact fun hu' => hp (h.disjoint p' p u hu' hu)
      · rw [List.mem_singleton] at hu
        exact hu ▸ hNew p'

/-- `t` was taken off the queue of priority `p`, where `rest` stays behind. -/
structure Taken (k k' : Kernel) (p : Nat) (t : TaskPtr) (rest : List TaskPtr) : Prop where
  status : k'.task.status = Function.update k.task.status t .running
  prio : k'.task.prio = k.task.prio
  id : k'.task.id = k.task.id
  next : k'.task.next t = none
  prev : k'.task.prev t = none
  currentTask : k'.currentTask = t
  idle : k'.idle = k.idle
  oldTask : k'.oldTask = k.oldTask
  nrTasks : k'.nrTasks = k.nrTasks
  prioBitmap : k'.prioBitmap =
    if rest = [] then k.prioBitmap &&& ~~~prioBit p else k.prioBitmap

theorem Threaded.takeFirst (h : k.Threaded w) {rest : List TaskPtr} (hQueue : w p = t :: rest) :
    ∃ k', k.takeFirst p = some k' ∧ k'.Threaded (Function.update w p rest) ∧
      k.Taken k' p t rest := by
  have hChain := h.chain p
  rw [hQueue] at hChain
  have hTail : k.task.next t = none ↔ rest = [] := Chain.eq_nil_iff hChain.2
  have hOff : t ∉ rest := (List.nodup_cons.mp (Chain.nodup hChain)).1
  have hRest : ∀ p', p' ≠ p → ∀ u ∈ rest, u ∉ w p' := fun p' hp u hu hm =>
    hp (h.disjoint p' p u hm (by simp [hQueue, hu]))
  have hOther : ∀ p', p' ≠ p → ∀ u ∈ w p', u ≠ t := fun p' hp u hu he =>
    hp (h.disjoint p' p u hu (by simp [hQueue, he]))
  simp only [Kernel.takeFirst, hChain.1, Option.map_some]
  refine ⟨_, rfl, ?_⟩
  by_cases hEmpty : rest = []
  · have hNext := hTail.mpr hEmpty
    simp only [setCurrentTask_task, setTask_task, TaskTable.next_update, TaskTable.next_fold,
      hNext, hEmpty]
    refine ⟨?_, by constructor <;> simp⟩
    refine h.replace (fun p' hp => by simp [hp]) ?_ (by simp) (by simp) (by simp)
    intro p' hp u hu
    simp [hOther p' hp u hu]
  · have hNext : k.task.next t ≠ none := fun he => hEmpty (hTail.mp he)
    simp only [setCurrentTask_task, setTask_task, TaskTable.next_update, TaskTable.next_fold,
      Function.update_eq_self, hNext, if_false]
    refine ⟨?_, by constructor <;> simp [hEmpty]⟩
    refine h.replace (fun p' hp => by simp [hp]) ?_ ?_ ?_ hRest
    · intro p' hp u hu
      simp [hOther p' hp u hu]
    · simpa using Segment.update hChain.2 hOff
    · obtain ⟨last, hLast⟩ := Option.ne_none_iff_exists'.mp
        (mt List.getLast?_eq_none_iff.mp hEmpty)
      simp [h.last p, hQueue, List.getLast?_cons, hLast]

end Kernel
end ArtOS
