import ArtOS.Tasks.FrameOwners

/-! The frames of a task over its life. `page_map_drop` returns the tables and the pages of user
space, but nothing returns the root of the page map that `create_task` took. -/
namespace ArtOS.PageRun

open Frames Paging Kernel

/-- What the page map of a task consists of: its root, its tables and its user pages. -/
def taskFrames (r : PageRun) (t : TaskPtr) : Set Nat := {f | ∃ x, Uses r.mem (root r.kernel t) x f}

/-- A task from `create_task` over `page_map_drop` to the switch after its `do_exit`. -/
structure Life (kernelEnd : Nat) (t : TaskPtr) (start born last dropped gone : PageRun) : Prop where
  reachable : Reachable kernelEnd (Orderly kernelEnd) start
  created : ∃ ep arg prio, start.kernel.newSlot ep prio = some t ∧
    start.Allowed (.create ep arg prio) ∧ start.Orderly kernelEnd (.create ep arg prio) ∧
    start.exec kernelEnd (.create ep arg prio) = some born
  lives : Relation.ReflTransGen (Step kernelEnd (Orderly kernelEnd)) born last
  same : last.kernel.currentTask = t ∧ root last.kernel t = root born.kernel t
  drops : last.Allowed .drop ∧ last.exec kernelEnd .drop = some dropped
  leaves : Relation.ReflTransGen (Step kernelEnd (Orderly kernelEnd)) dropped gone
  gone : gone.kernel.task.status t = .invalid

variable {start born last dropped gone : PageRun} {kernelEnd f : Nat} {t : TaskPtr}

theorem Life.owning (h : Life kernelEnd t start born last dropped gone) :
    ∃ leaked a, last.Owning leaked a := by
  obtain ⟨leaked, a, hStart⟩ := reachable_owning h.reachable
  obtain ⟨ep, arg, prio, _, hAllowed, hOrderly, hExec⟩ := h.created
  obtain ⟨leaked₁, a₁, hBorn, _⟩ := hStart.step hAllowed hOrderly hExec
  obtain ⟨leaked₂, a₂, hLast, _⟩ := hBorn.run h.lives
  exact ⟨leaked₂, a₂, hLast⟩

/-- `page_map_drop` returns the tables and the pages. -/
theorem Life.returned (h : Life kernelEnd t start born last dropped gone)
    (hf : f ∈ last.taskFrames t) (hZero : f ≠ 0) (hRoot : f ≠ root last.kernel t) :
    ¬ dropped.frames.Marked f := by
  obtain ⟨leaked, a, hLast⟩ := h.owning
  obtain ⟨_, _, hDropping⟩ := hLast.drop h.drops.1 h.drops.2
  obtain ⟨x, hUses⟩ := hf
  rw [← h.same.1] at hUses hRoot
  intro hMarked
  refine ((hDropping.marked f).mp hMarked).2 hZero x (fun hx => hRoot ?_) hUses
  subst hx
  exact hUses

/-- The root is never free again. -/
theorem Life.root_marked (h : Life kernelEnd t start born last dropped gone) :
    gone.frames.Marked (root last.kernel t) := by
  obtain ⟨leaked, a, hLast⟩ := h.owning
  obtain ⟨hDropped, _⟩ := hLast.drop h.drops.1 h.drops.2
  obtain ⟨leaked', a', hGone, hSub⟩ := hDropped.run h.leaves
  have hLost : (last.cr3 <<< pageBits, 1) ∈ gone.held ++ leaked' :=
    List.mem_append_right _ (hSub List.mem_cons_self)
  rw [← h.same.1]
  refine (hGone.owners.maps.pool.marked hLost ?_).2
  rw [Holding.framesOf_single]
  exact Finset.mem_singleton_self _

/-- No task gives all its frames back. -/
theorem life_leaks (h : Life kernelEnd t start born last dropped gone) :
    ¬ ∀ f ∈ last.taskFrames t, ¬ gone.frames.Marked f :=
  fun hFree => hFree _ ⟨.root, rfl⟩ h.root_marked

theorem orderly_of_keeps {r r' : PageRun} (h : Step kernelEnd (Keeps kernelEnd) r r') :
    Step kernelEnd (Orderly kernelEnd) r r' := by
  obtain ⟨call, hAllowed, hKeeps, hExec⟩ := h
  exact ⟨call, hAllowed, Or.inr hKeeps, hExec⟩

/-- After `page_map_drop` a task can leave at once. -/
theorem allowed_exit {r r' : PageRun} (hAllowed : r.Allowed .drop)
    (hExec : r.exec kernelEnd .drop = some r') :
    r'.Allowed .exit ∧ r'.kernel.currentTask = r.kernel.currentTask := by
  obtain ⟨_, hBusy, hRunning⟩ := hAllowed
  obtain ⟨⟨s, ret⟩, _, rfl⟩ := Option.map_eq_some_iff.mp hExec
  exact ⟨⟨Function.update_self .., hBusy, (setPaging_task (s := s) _).1.trans hRunning⟩, rfl⟩

/-- The first task is created, runs and exits. -/
theorem exampleStart_life : ∃ born last dropped gone,
    Life 0x200000 1 exampleStart born last dropped gone := by
  obtain ⟨r₁, addr, copied, hExec₁, hAddr, hCreate, hStay⟩ := exampleStart_create
  have hReach₁ : Reachable 0x200000 (Keeps 0x200000) r₁ :=
    (Transition.Reachable.of_init exampleStart_initial).next
      ⟨.create 1 0 5, rfl, fun _ => exampleStart_enough, hExec₁⟩
  obtain ⟨k₂, hExec₂, hRunning, hBusy, hCurrent⟩ :=
    first_runs exampleStart_initial.idle.1 exampleStart_newSlot hAddr hCreate
  have hExec₂' : r₁.exec 0x200000 .schedule = some { r₁ with kernel := k₂ } := by
    rw [exec, hExec₂, Option.map_some]
  have hStep₂ : Step 0x200000 (Keeps 0x200000) r₁ { r₁ with kernel := k₂ } :=
    ⟨.schedule, trivial, trivial, hExec₂'⟩
  have hReach₂ := hReach₁.next hStep₂
  obtain ⟨used, a₂, hInv₂⟩ := reachable_inv hReach₂
  obtain ⟨r₃, hExec₃, _⟩ := hInv₂.drop 0x200000 hRunning
  obtain ⟨leaked, a, hOwning⟩ :=
    reachable_owning (hReach₂.mono (fun _ hr => hr) fun _ _ hStep => orderly_of_keeps hStep)
  have hAllowed₃ : Allowed { r₁ with kernel := k₂ } .drop := ⟨hStay k₂.currentTask, hBusy, hRunning⟩
  obtain ⟨hDropped, _⟩ := hOwning.drop hAllowed₃ hExec₃
  obtain ⟨hAllowed₄, hCurrent₄⟩ := allowed_exit hAllowed₃ hExec₃
  obtain ⟨k₄, a₄, hExec₄, _⟩ :=
    exec_refines .exit hDropped.sound (Allowed.mono .exit hAllowed₄.2 not_ready_of_running)
  have hExec₄' : r₃.exec 0x200000 .exit = some { r₃ with
      kernel := k₄, exiting := Function.update r₃.exiting r₃.kernel.currentTask false } := by
    rw [exec, hExec₄, Option.map_some]
  have hGone := (hDropped.exit hAllowed₄ hExec₄').2
  rw [hCurrent₄, hCurrent] at hGone
  have hRoot : root k₂ 1 = root r₁.kernel 1 := congrArg (· >>> pageBits)
    (pageMap_unscheduled.exec (fun _ _ _ => rfl) (fun _ _ _ _ he => by cases he) hExec₂)
  exact ⟨r₁, { r₁ with kernel := k₂ }, r₃, _,
    Transition.Reachable.of_init exampleStart_initial,
    ⟨1, 0, 5, exampleStart_newSlot, rfl, Or.inr fun _ => exampleStart_enough, hExec₁⟩,
    Relation.ReflTransGen.single (orderly_of_keeps hStep₂), ⟨hCurrent, hRoot⟩, ⟨hAllowed₃, hExec₃⟩,
    Relation.ReflTransGen.single ⟨.exit, hAllowed₄, Or.inr trivial, hExec₄'⟩, hGone⟩

theorem life_leaks_example : ∃ born last dropped gone,
    Life 0x200000 1 exampleStart born last dropped gone ∧
      ¬ ∀ f ∈ last.taskFrames 1, ¬ gone.frames.Marked f := by
  obtain ⟨born, last, dropped, gone, hLife⟩ := exampleStart_life
  exact ⟨born, last, dropped, gone, hLife, life_leaks hLife⟩

/-- The root of the first task's page map stays in use. -/
theorem life_returns_not : ¬ ∀ kernelEnd t start born last dropped gone,
    Life kernelEnd t start born last dropped gone →
      ∀ f ∈ last.taskFrames t, ¬ gone.frames.Marked f := by
  intro h
  obtain ⟨born, last, dropped, gone, hLife⟩ := exampleStart_life
  exact h _ _ _ _ _ _ _ hLife _ ⟨.root, rfl⟩ hLife.root_marked

end ArtOS.PageRun
