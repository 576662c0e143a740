import ArtOS.Memory.PageMapDrop
import ArtOS.Tasks.OwnedMaps

/-! Frames that user space can reach through the page map of a task that can
still be scheduled. They stay in use as long as no task exits and the copies
of page maps get all their frames; every `page_map_drop` gives frames back
whose entries are still present. -/
namespace ArtOS

/-- The tasks that may run again, and the one that runs to its end. -/
def Kernel.Schedulable (k : Kernel) (t : TaskPtr) : Prop :=
  k.task.status t = .running ∨ k.task.status t = .ready ∨ k.task.status t = .blocked ∨
    k.task.status t = .finished ∧ t = k.currentTask

theorem Kernel.Schedulable.live {k : Kernel} {t : TaskPtr} (h : k.Schedulable t) :
    k.task.status t ≠ .invalid := by
  rcases h with h | h | h | ⟨h, _⟩
  all_goals simp [h]

namespace PageRun

open Frames Paging Kernel

/-- Every frame that a present entry with `PG_USER` refers to, a page table or a page, is marked
in the bitmap. -/
def Guarded (r : PageRun) : Prop :=
  ∀ t, r.kernel.Schedulable t → ∀ i < pageMapEntries,
    ((r.mem (root r.kernel t) i).IsUser → r.frames.Marked (r.mem (root r.kernel t) i).frame) ∧
    ((r.mem (root r.kernel t) i).Has pgPresent → ∀ j < pageMapEntries,
      (r.mem (r.mem (root r.kernel t) i).frame j).IsUser →
        r.frames.Marked (r.mem (r.mem (root r.kernel t) i).frame j).frame)

/-- No task exits, copies get all their frames, only pages below the self-references are mapped
and unmapped, and user space gets blocks from `get_pages` that are not mapped yet. -/
def Keeps (kernelEnd : Nat) (r : PageRun) : PageCall → Prop
  | .create ep _ prio => r.kernel.newSlot ep prio ≠ none →
      r.frames.Supply kernelEnd (r.paging.copyCount r.cr3)
  | .drop => False
  | .map viraddr phyaddr npages bits => viraddr >>> pageBits + npages ≤ lowPages ∧
      (bits &&& pgUser ≠ 0 → (phyaddr, npages) ∈ r.held)
  | .unmap viraddr npages => viraddr >>> pageBits + npages ≤ lowPages
  | .fault viraddr heap => (∃ area ∈ heap, area.1 ≤ viraddr ∧ viraddr < area.2) →
      viraddr >>> pageBits < lowPages
  | _ => True

/-- An entry of a page table that user space can use refers to a frame of the page map. -/
def UserOwned (r : Holding) (e : PageEntry) : Prop := e.IsUser → r.Owned e.frame

variable {r r' : PageRun} {a : RunQueue} {kernelEnd : Nat} {used : Finset Nat}

theorem userOwned_rule : CopyRule UserOwned where
  mono _ _ _ hGrows hLeaf hUser := hGrows _ (hLeaf hUser)
  zero _ hUser := absurd hUser.1 PageEntry.not_has_zero
  tmp _ _ hFlags hUser := absurd hUser.2 (PageEntry.has_tmp hFlags).2
  fresh _ _ _ _ hOwned _ := hOwned

theorem Inv.guarded (h : r.Inv UserOwned used a) : r.Guarded := by
  intro t ht i hi
  have hp : root r.kernel t ∈ rootsOf r.kernel := ⟨t, ht.live, rfl⟩
  have hRoot := h.maps.root _ hp
  generalize root r.kernel t = p at hp hRoot
  have hTable : ∀ i < pageMapEntries - 2, (r.mem p i).Has pgPresent →
      r.frames.Marked (r.mem p i).frame ∧ ∀ j < pageMapEntries,
        (r.mem (r.mem p i).frame j).IsUser → r.frames.Marked (r.mem (r.mem p i).frame j).frame := by
    intro i hi hPresent
    obtain ⟨_, _, _, hOwned, hLeaf⟩ := h.maps.table p hp i hi hPresent
    exact ⟨hOwned.marked, fun j hj hUser => (hLeaf j hj hUser).marked⟩
  have hWord : ∀ i < pageMapEntries, (r.mem p i).IsUser → r.frames.Marked (r.mem p i).frame := by
    intro i hi hUser
    by_cases hLow : i < pageMapEntries - 2
    · exact (hTable i hLow hUser.1).1
    · rcases (by omega : i = pageMapEntries - 2 ∨ i = pageMapEntries - 1) with rfl | rfl
      · exact absurd hUser.1 hRoot.closed
      · exact absurd hUser.2 hRoot.kernel
  refine ⟨hWord i hi, fun hPresent => ?_⟩
  by_cases hLow : i < pageMapEntries - 2
  · exact (hTable i hLow hPresent).2
  · rcases (by omega : i = pageMapEntries - 2 ∨ i = pageMapEntries - 1) with rfl | rfl
    · exact absurd hPresent hRoot.closed
    · have hSelf : (r.mem p (pageMapEntries - 1)).frame = p := hRoot.rooted.frame
      rw [hSelf]
      exact hWord

/-- What the new entries of `page_map` refer to. -/
theorem userOwned_block {frames : Frames} {held : List (Nat × Nat)} {phyaddr npages : Nat}
    {bits : BitVec 12} (h : Holding.Sound used ⟨frames, held⟩)
    (hBlock : bits &&& pgUser ≠ 0 → (phyaddr, npages) ∈ held) :
    ∀ k < npages, UserOwned
      ⟨frames, if bits &&& pgUser ≠ 0 then held.erase (phyaddr, npages) else held⟩
      ⟨phyaddr >>> pageBits + k, bits ||| pgPresent⟩ := by
  intro k hk hUser
  have hBits : bits &&& pgUser ≠ 0 :=
    (PageEntry.or_and_ne_zero.mp hUser.2).resolve_right fun hne => hne (by decide)
  rw [if_pos hBits]
  exact h.owned (hBlock hBits)
    (Finset.mem_Ico.mpr ⟨Nat.le_add_right _ _, Nat.add_lt_add_left hk _⟩)

/-- One call that keeps the rules. -/
theorem Inv.keeps {call : PageCall} (h : r.Inv UserOwned used a) (hAllowed : r.Allowed call)
    (hKeeps : r.Keeps kernelEnd call) (hExec : r.exec kernelEnd call = some r') :
    ∃ a', r'.Inv UserOwned used a' := by
  have hRule := userOwned_rule.toLeafRule
  cases call with
  | create ep arg prio =>
      rcases h.create_cases hKeeps hExec with rfl | ⟨s, d, a', hCreated⟩
      · exact ⟨a, h⟩
      · exact ⟨a', hCreated.inv userOwned_rule h⟩
  | schedule =>
      obtain ⟨k, hCall, rfl⟩ := Option.map_eq_some_iff.mp hExec
      exact h.call hRule .schedule trivial (fun _ _ _ _ he => nomatch he) hCall r.exiting
  | block =>
      obtain ⟨k, hCall, rfl⟩ := Option.map_eq_some_iff.mp hExec
      exact h.call hRule .block trivial (fun _ _ _ _ he => nomatch he) hCall r.exiting
  | wakeup id =>
      obtain ⟨k, hCall, rfl⟩ := Option.map_eq_some_iff.mp hExec
      exact h.call hRule (.wakeup id) trivial (fun _ _ _ _ he => nomatch he) hCall r.exiting
  | drop => exact hKeeps.elim
  | exit =>
      obtain ⟨k, hCall, rfl⟩ := Option.map_eq_some_iff.mp hExec
      exact h.call hRule .exit hAllowed.2 (fun _ _ _ _ he => nomatch he) hCall _
  | map viraddr phyaddr npages bits =>
      exact ⟨a, h.map hRule hAllowed.2 hKeeps.1 (userOwned_block h.maps.pool hKeeps.2) hExec⟩
  | unmap viraddr npages => exact ⟨a, h.unmap hRule hKeeps hExec⟩
  | fault viraddr heap =>
      exact ⟨a, h.fault hRule hKeeps (fun _ _ hOwned _ => hOwned) hExec⟩
  | get npages => exact ⟨a, h.get hRule hExec⟩
  | split block npages =>
      exact ⟨a, h.split hRule hAllowed.1 hAllowed.2.1 hAllowed.2.2 hExec⟩
  | put block => exact ⟨a, h.put hRule hAllowed.2 hExec⟩
  | vma call answer fuel => exact ⟨a, h.vma hExec⟩

theorem reachable_inv (h : Reachable kernelEnd (Keeps kernelEnd) r) :
    ∃ used a, r.Inv UserOwned used a := by
  refine h.invariant (P := fun r => ∃ used a, r.Inv UserOwned used a) (fun r hr => ?_) ?_
  · exact ⟨_, hr.inv fun _ _ hUser _ hBoth => absurd hBoth.2 hUser⟩
  · rintro r r' ⟨used, a, hr⟩ ⟨call, hAllowed, hKeeps, hExec⟩
    exact ⟨used, hr.keeps hAllowed hKeeps hExec⟩

/-- In a run of such calls, what user space can reach is never handed out. -/
theorem reachable_guarded (h : Reachable kernelEnd (Keeps kernelEnd) r) : r.Guarded := by
  obtain ⟨used, a, hInv⟩ := reachable_inv h
  exact hInv.guarded

/-- Whenever a task gives its page map up, the rule is broken. -/
theorem Inv.drop (h : r.Inv UserOwned used a) (kernelEnd : Nat)
    (hRunning : r.kernel.currentStatus = .running) :
    ∃ r', r.exec kernelEnd .drop = some r' ∧ ¬ r'.Guarded := by
  have hLeaf : ∀ r e, UserOwned r e → e.IsUser → e.frame < bitmapBits :=
    fun _ _ hLeaf hUser => (hLeaf hUser).lt
  obtain ⟨s, hDrop, hSame, hUser, hFree⟩ := h.maps.pageMapDrop (mem_roots h) hLeaf
  refine ⟨{ r.setPaging s with exiting := Function.update r.exiting r.kernel.currentTask true }, ?_,
    fun hGuarded => ?_⟩
  · rw [exec, hDrop, Option.map_some]
  · obtain ⟨hStatus, hRoot⟩ := setPaging_task (r := r) (s := s) r.kernel.currentTask
    have hCurrent : Schedulable (r.setPaging s).kernel r.kernel.currentTask :=
      Or.inl (hStatus.trans hRunning)
    have hMarked := (hGuarded r.kernel.currentTask hCurrent 0 (by decide)).1
    rw [show root (r.setPaging s).kernel r.kernel.currentTask = r.cr3 from hRoot] at hMarked
    have hEntry : s.mem r.cr3 0 = r.paging.mem r.cr3 0 := by rw [hSame.mem]
    rw [← hEntry] at hFree hUser
    exact hFree (hMarked hUser)

/-- A task created first runs as soon as it is scheduled. -/
theorem first_runs {k k₁ : Kernel} {addr copied : Nat} (h : k.Sound bootQueue)
    (hSlot : k.newSlot 1 5 = some 1) (hAddr : addr ≠ 0)
    (hCreate : (k.createTask 1 0 5 ⟨addr, copied⟩).map Prod.fst = some k₁) :
    ∃ k₂, Call.exec .schedule k₁ = some k₂ ∧ k₂.currentStatus = .running ∧
      k₂.currentTask ≠ k₂.idle ∧ k₂.currentTask = 1 := by
  obtain ⟨k', a₁, hExec, hEffect, hSound, _⟩ :=
    exec_refines (.create 1 0 5 ⟨addr, copied⟩) h ⟨by decide, by decide, hAddr⟩
  obtain rfl := Option.some.inj (hCreate.symm.trans hExec)
  have hReady := (createTask_ready hSlot hAddr hCreate).1
  rw [hSound.represents.status] at hReady
  obtain rfl : a₁ = bootQueue.create 1 5 := by
    rcases hEffect with rfl | ⟨t, _, rfl⟩
    · exact absurd hReady (by decide)
    · by_cases ht : t = 1
      · rw [ht]
      · have hSame : (bootQueue.create t 5).status 1 = bootQueue.status 1 :=
          Function.update_of_ne (Ne.symm ht) ..
        exact absurd (hSame.symm.trans hReady) (by decide)
  obtain ⟨k₂, a₂, hExec₂, hEffect₂, hSound₂, _⟩ := exec_refines .schedule hSound trivial
  obtain rfl : a₂ = (bootQueue.create 1 5).reschedule := hEffect₂
  obtain ⟨_, _, hRep⟩ := hSound₂
  refine ⟨k₂, hExec₂, ?_, ?_, ?_⟩
  · rw [currentStatus, hRep.status, hRep.current]
    decide
  · rw [hRep.current, hRep.idle]
    decide
  · rw [hRep.current]
    decide

theorem exampleStart_inv :
    ∃ a, exampleStart.Inv UserOwned exampleStart.frames.usedFrames a :=
  exampleStart_initial.inv fun _ _ hUser _ hBoth => absurd hBoth.2 hUser

/-- The idle task creates a task. -/
theorem exampleStart_create :
    ∃ r addr copied, exampleStart.exec 0x200000 (.create 1 0 5) = some r ∧ addr ≠ 0 ∧
      (exampleStart.kernel.createTask 1 0 5 ⟨addr, copied⟩).map Prod.fst = some r.kernel ∧
      ∀ t, r.exiting t = false := by
  obtain ⟨a, hInv⟩ := exampleStart_inv
  obtain ⟨r, s, d, a', hExec, hCreated, _⟩ := hInv.created 1 0 5
    (by simp [exampleStart_newSlot]) exampleStart_supply
  obtain ⟨addr, copied, hAddr, _, hCreate⟩ := hCreated.created
  refine ⟨r, addr, copied, hExec, hAddr, hCreate, fun t => ?_⟩
  rw [hCreated.rest]
  rfl

theorem reachable_guarded_example :
    ∃ r, Reachable 0x200000 (Keeps 0x200000) r ∧ r.kernel.task.status 1 = .ready ∧ r.Guarded := by
  obtain ⟨r, addr, copied, hExec, hAddr, hCreate, _⟩ := exampleStart_create
  have hReach : Reachable 0x200000 (Keeps 0x200000) r :=
    (Transition.Reachable.of_init exampleStart_initial).next
      ⟨.create 1 0 5, rfl, fun _ => exampleStart_enough, hExec⟩
  exact ⟨r, hReach, (createTask_ready exampleStart_newSlot hAddr hCreate).1, reachable_guarded hReach⟩

/-- The first task exits: its page table is free before it has left the processor. -/
theorem drop_unguarded :
    ¬ ∀ kernelEnd r, Reachable kernelEnd (fun _ _ => True) r → r.Guarded := by
  intro h
  obtain ⟨r₁, addr, copied, hExec₁, hAddr, hCreate, hStay⟩ := exampleStart_create
  have hReach₁ : Reachable 0x200000 (Keeps 0x200000) r₁ :=
    (Transition.Reachable.of_init exampleStart_initial).next
      ⟨.create 1 0 5, rfl, fun _ => exampleStart_enough, hExec₁⟩
  obtain ⟨k₂, hExec₂, hRunning, hBusy, _⟩ :=
    first_runs exampleStart_initial.idle.1 exampleStart_newSlot hAddr hCreate
  have hExec₂' : r₁.exec 0x200000 .schedule = some { r₁ with kernel := k₂ } := by
    rw [exec, hExec₂, Option.map_some]
  have hReach₂ := hReach₁.next ⟨.schedule, trivial, trivial, hExec₂'⟩
  obtain ⟨used, a₂, hInv₂⟩ := reachable_inv hReach₂
  obtain ⟨r₃, hExec₃, hBroken⟩ := hInv₂.drop 0x200000 hRunning
  have hReach₃ : Reachable 0x200000 (fun _ _ => True) r₃ :=
    (hReach₂.mono (fun _ hr => hr) fun _ _ hStep => by
      obtain ⟨call, hAllowed, _, hExec⟩ := hStep
      exact ⟨call, hAllowed, trivial, hExec⟩).next
      ⟨.drop, ⟨hStay k₂.currentTask, hBusy, hRunning⟩, trivial, hExec₃⟩
  exact hBroken (h _ r₃ hReach₃)

end PageRun
end ArtOS
