import ArtOS.Memory.Overlap
import ArtOS.Tasks.LoaderAccess

/-! The areas behind an executable. `load_task` enters its segments and its stack without `VMA_USER`,
so `vma_add` takes them for areas of the kernel. -/
namespace ArtOS

variable {Env Out : Type}

/-- The task has no areas. -/
def Mm.Bare (s : Mm Env) : Prop := s.vmas.list .user = none

/-- Every answer leaves the task without areas. -/
def Bares (answer : Option (Mm Env × Out)) : Prop := ∀ u ∈ answer, u.1.Bare

/-- The calls of an allocator leave it so. -/
def Sparing (kmalloc : Allocator Env) : Prop := ∀ sz s, s.Bare → Bares (kmalloc sz s)

section Bare

variable {kmalloc : Allocator Env} {s : Mm Env} {fuel size sz exp start endAddr : Nat} {flags : BitVec 32}

theorem bares_none : Bares (none : Option (Mm Env × Out)) := fun u hu => by cases hu

theorem bares_some {t : Mm Env} {out : Out} (h : t.Bare) : Bares (some (t, out)) := by
  intro u hu
  cases hu
  exact h

theorem Bares.map {Out' : Type} {answer : Option (Mm Env × Out)} {f : Mm Env × Out → Mm Env × Out'}
    (h : Bares answer) (hStep : ∀ u, u.1.Bare → (f u).1.Bare) : Bares (answer.map f) := by
  intro u hu
  obtain ⟨v, hv, rfl⟩ := Option.map_eq_some_iff.1 hu
  exact hStep v (h v hv)

theorem Bares.bind {Out' : Type} {answer : Option (Mm Env × Out)}
    {f : Mm Env × Out → Option (Mm Env × Out')} (h : Bares answer)
    (hStep : ∀ u, u.1.Bare → Bares (f u)) : Bares (answer.bind f) := by
  intro u hu
  obtain ⟨v, hv, hNext⟩ := Option.bind_eq_some_iff.1 hu
  exact hStep v (h v hv) u hNext

theorem Mm.Bare.insert {area : Area} {new : Nat} {pred succ : Option Nat} (h : s.Bare) :
    ({ s with vmas := s.vmas.insert .kernel new area pred succ } : Mm Env).Bare := by
  have hNode : ((s.vmas.setNode new fun _ => { area with next := succ, prev := pred }).linkPrev succ
      (some new)).list .user = none := by
    rw [Vmas.list_linkPrev, Vmas.list_setNode]
    exact h
  rw [Bare, Vmas.insert]
  dsimp only
  split
  · rw [Vmas.list_linkNext]
    exact hNode
  · exact hNode

theorem Mm.Bare.unlink {vma : Nat} (h : s.Bare) :
    ({ s with vmas := s.vmas.unlink .kernel vma } : Mm Env).Bare := by
  rw [Bare, Vmas.unlink]
  dsimp only
  rw [Vmas.list_linkPrev, Vmas.list_linkNext]
  split
  · exact h
  · exact h

theorem bares_withNode {err : Out} {fill : Nat → Mm Env → Mm Env × Out} (hMalloc : Sparing kmalloc)
    (hFill : ∀ new s, s.Bare → (fill new s).1.Bare) (h : s.Bare) :
    Bares (withNode kmalloc err fill s) := by
  apply (hMalloc _ _ h).map
  rintro ⟨u, new⟩ hu
  cases new with
  | none => exact hu
  | some new => exact hFill new u hu

theorem bares_vmaAlloc (hMalloc : Sparing kmalloc) (hKernel : Space.of flags = .kernel) (h : s.Bare) :
    Bares (vmaAlloc kmalloc fuel size flags s) := by
  rw [vmaAlloc, hKernel]
  intro u hu
  obtain ⟨found, _, hu⟩ := Option.bind_eq_some_iff.1 hu
  revert hu
  cases found with
  | none => exact bares_some h u
  | some gap =>
      dsimp only
      split
      · intro hu
        cases hu
        exact Vmas.list_setNode.trans h
      · exact bares_withNode hMalloc (fun _ _ hs => hs.insert) h u

theorem bares_vmaAdd (hMalloc : Sparing kmalloc) (hKernel : Space.of flags = .kernel) (h : s.Bare) :
    Bares (vmaAdd kmalloc fuel start endAddr flags s) := by
  rw [vmaAdd, hKernel]
  dsimp only
  split
  · exact bares_some h
  · split
    · exact bares_some h
    · split
      · exact bares_some h
      · intro u hu
        obtain ⟨found, _, hu⟩ := Option.bind_eq_some_iff.1 hu
        split at hu
        · exact bares_some h u hu
        · exact bares_withNode hMalloc (fun _ _ hs => hs.insert) h u hu

theorem bares_vmaRelease {vma : Nat} (hMalloc : Sparing kmalloc) (h : s.Bare) :
    Bares (vmaRelease kmalloc kfree .kernel vma start endAddr s) := by
  rw [vmaRelease]
  split
  · intro u hu
    obtain ⟨t, hFree, rfl⟩ := Option.map_eq_some_iff.1 hu
    have hVmas : t.vmas = s.vmas.unlink .kernel vma := by
      rw [kfree] at hFree
      split at hFree
      · cases hFree
        rfl
      · dsimp only at hFree
        split at hFree
        · cases hFree
          rfl
        · obtain ⟨heap, _, rfl⟩ := Option.map_eq_some_iff.1 hFree
          rfl
    rw [Mm.Bare, hVmas]
    exact h.unlink
  · split
    · exact bares_some (Vmas.list_setNode.trans h)
    · split
      · exact bares_some (Vmas.list_setNode.trans h)
      · exact bares_withNode hMalloc (fun _ _ hs => Vmas.list_split.trans hs) h

theorem bares_vmaFree (hMalloc : Sparing kmalloc) (h : s.Bare) :
    Bares (vmaFree kmalloc kfree fuel start endAddr s) := by
  rw [vmaFree]
  split
  · exact bares_some h
  · split
    · exact bares_some h
    next sp hSpace =>
      split
      · exact bares_some h
      next hList =>
        cases sp with
        | user => exact absurd h hList
        | kernel =>
            intro u hu
            obtain ⟨found, _, hu⟩ := Option.bind_eq_some_iff.1 hu
            cases found with
            | none => exact bares_some h u hu
            | some vma => exact bares_vmaRelease hMalloc h u hu

theorem sparing_palloc {phys : Phys Env} (hMalloc : Sparing kmalloc) :
    Sparing (palloc phys kmalloc fuel) := by
  intro sz s h
  apply (bares_vmaAlloc hMalloc rfl h).bind
  rintro ⟨u, viraddr⟩ hu
  dsimp only
  split
  · exact bares_some hu
  · rw [mapFrames]
    dsimp only
    split
    · refine Bares.map (bares_vmaFree hMalloc ?_) ?_
      · exact hu
      · exact fun _ ht => ht
    · split
      · refine Bares.map (bares_vmaFree hMalloc ?_) ?_
        · exact hu
        · exact fun _ ht => ht
      · exact bares_some hu

theorem bares_pnodeGet {palloc : Allocator Env} (hPalloc : Sparing palloc) (h : s.Bare) :
    Bares (pnodeGet palloc fuel exp s) := by
  induction fuel generalizing exp with
  | zero => exact bares_none
  | succ fuel ih =>
      rw [pnodeGet]
      split
      · exact bares_some h
      · split
        · exact hPalloc _ _ h
        · apply ih.map
          rintro ⟨u, pnode⟩ hu
          cases pnode <;> exact hu

theorem sparing_kmallocWith {palloc : Allocator Env} (hPalloc : Sparing palloc) :
    Sparing (kmallocWith palloc) := by
  intro sz s h
  rw [kmallocWith]
  split
  · exact bares_some h
  · intro u hu
    obtain ⟨exp, _, hu⟩ := Option.bind_eq_some_iff.1 hu
    split at hu
    · exact bares_some h u hu
    · refine (bares_pnodeGet hPalloc h).map ?_ u hu
      rintro ⟨t, pnode⟩ ht
      cases pnode <;> exact ht

end Bare

/-- The heap gets its address space from the areas of the kernel. -/
theorem sparing_kmalloc (phys : Phys Env) (fuel : Nat) : Sparing (kmalloc phys fuel) := by
  induction fuel with
  | zero => exact fun _ _ _ => bares_none
  | succ fuel ih => exact sparing_kmallocWith (sparing_palloc ih)

/-- The memory management, and `task->heap`. -/
structure LoadState (Env : Type) where
  mm : Mm Env
  heap : Option Nat

namespace LoadState

/-- A call that does not come back leaves no state. -/
def call (f : Mm Env → Option (Mm Env × Out)) (lost : Out) :
    Option (LoadState Env) → Option (LoadState Env) × Out
  | none => (none, lost)
  | some s =>
      match f s.mm with
      | none => (none, lost)
      | some (mm, out) => (some { s with mm := mm }, out)

/-- The same for a call that comes back, and changes only what lies below. -/
def callEnv (f : Env → Env × Out) (lost : Out) :
    Option (LoadState Env) → Option (LoadState Env) × Out :=
  call (fun mm => some ({ mm with env := (f mm.env).1 }, (f mm.env).2)) lost

/-- `if (!curr_task->heap) curr_task->heap = kmalloc(sizeof(vma_t))`. -/
def heapArea (phys : Phys Env) (fuel : Nat) :
    Option (LoadState Env) → Option (LoadState Env) × Bool
  | none => (none, false)
  | some s =>
      match s.heap with
      | some _ => (some s, true)
      | none =>
          match kmalloc phys fuel sizeofVma s.mm with
          | none => (none, false)
          | some (mm, heap) => (some { mm := mm, heap := heap }, heap.isSome)

/-- The heap of the task, which is empty at first. -/
def setHeap (addr : Nat) (s : LoadState Env) : LoadState Env :=
  match s.heap with
  | none => s
  | some p =>
      let vmas := s.mm.vmas.setNode p fun n =>
        { n with start := addr, endAddr := addr, flags := vmaHeap ||| vmaUser }
      { s with mm := { s.mm with vmas := vmas } }

/-- What `create_task` leaves for a new task. -/
def created (s : Mm Env) : LoadState Env where
  mm := { s with vmas := s.vmas.setList none .user }
  heap := none

end LoadState

/-- `page_map` with the flags of its caller, and the writes to the memory of the task. -/
structure UserMemory (Env : Type) where
  pageMap : Nat → Nat → Nat → BitVec 12 → Env → Env × Int
  write : Nat → List (BitVec 8) → Env → Env

/-- `load_task` over the areas and the heap. -/
def areaLoader (phys : Phys Env) (user : UserMemory Env) (fuel : Nat) :
    Loader (Option (LoadState Env)) where
  getPages npages := LoadState.callEnv (phys.getPages npages) 0
  pageMap viraddr phyaddr npages bits :=
    LoadState.callEnv (user.pageMap viraddr phyaddr npages bits) (-enomem)
  write addr bytes s := (LoadState.callEnv (fun env => (user.write addr bytes env, ())) () s).1
  vmaAdd start endAddr flags :=
    LoadState.call (vmaAdd (kmalloc phys fuel) fuel start endAddr flags) (-enomem)
  heapArea := LoadState.heapArea phys fuel
  setHeap addr s := s.map (LoadState.setHeap addr)

/-- The user pages that were mapped. -/
def mappedPages (log : List Access) : Set Nat :=
  {vpn | ∃ viraddr npages bits, .map viraddr npages bits 0 ∈ log ∧
    vpn ∈ (Access.map viraddr npages bits 0).pages}

namespace LoadState

/-- Every page that was mapped lies in an area of the task. -/
def Covers (t : LoadState Env) (log : List Access) : Prop :=
  ∀ vpn ∈ mappedPages log, ∃ l, t.mm.vmas.Spells .user l ∧
    ∃ e ∈ l, e.2.start ≤ vpn <<< pageBits ∧ vpn <<< pageBits < e.2.endAddr

/-- What `vma_alloc` finds for the task lies apart from the pages that were mapped. -/
def Avoids (phys : Phys Env) (t : LoadState Env) (log : List Access) : Prop :=
  ∀ fuel size flags u start, flags &&& vmaUser ≠ 0 →
    vmaAlloc (kmalloc phys fuel) fuel size flags t.mm = some (u, start) → start ≠ 0 →
      ∀ vpn ∈ mappedPages log,
        start + size ≤ vpn <<< pageBits ∨ vpn <<< pageBits + pageSize ≤ start

def Guards (phys : Phys Env) (t : LoadState Env) (log : List Access) : Prop :=
  t.Covers log ∧ t.Avoids phys log

end LoadState

namespace Loader

variable {State : Type} {P : State → Prop} {m : Loader State}

/-- Every call that `load_task` makes leaves `P` true. -/
structure Keeps (m : Loader State) (P : State → Prop) : Prop where
  getPages : ∀ npages s, P s → P (m.getPages npages s).1
  pageMap : ∀ viraddr phyaddr npages bits s, P s → P (m.pageMap viraddr phyaddr npages bits s).1
  write : ∀ addr bytes s, P s → P (m.write addr bytes s)
  vmaAdd : ∀ start endAddr (h : ProgramHeader) s, P s → P (m.vmaAdd start endAddr h.vmaFlags s).1
  heapArea : ∀ s, P s → P (m.heapArea s).1
  setHeap : ∀ addr s, P s → P (m.setHeap addr s)

theorem Keeps.logged (h : m.Keeps P) : m.logged.Keeps fun s => P s.1 where
  getPages _ _ hs := h.getPages _ _ hs
  pageMap _ _ _ _ _ hs := h.pageMap _ _ _ _ _ hs
  write _ _ _ hs := h.write _ _ _ hs
  vmaAdd _ _ _ _ hs := h.vmaAdd _ _ _ _ hs
  heapArea _ hs := h.heapArea _ hs
  setHeap _ _ hs := h.setHeap _ _ hs

theorem Keeps.loadSegment (h : m.Keeps P) (f : InitrdFile) (hd : ProgramHeader) (heap : Nat) {s : State}
    (hs : P s) : P (m.loadSegment f hd heap s).1 := by
  apply h.vmaAdd
  apply h.write
  apply h.write
  apply h.pageMap
  exact h.getPages _ _ hs

theorem Keeps.loadStack (h : m.Keeps P) (entry : Nat) (hd : ProgramHeader) {s : State} (hs : P s) :
    P (m.loadStack entry hd s).1 := by
  have hMapped : P (m.pageMap (entry * 2 % 2 ^ 32) (m.getPages (pageCount defaultStackSize) s).2
      (pageCount defaultStackSize) (pgUser ||| pgRw) (m.getPages (pageCount defaultStackSize) s).1).1 :=
    h.pageMap _ _ _ _ _ (h.getPages _ _ hs)
  rw [Loader.loadStack]
  dsimp only
  split
  · exact hMapped
  · exact h.vmaAdd _ _ _ _ (h.write _ _ _ hMapped)

theorem Keeps.loadHeader (h : m.Keeps P) (f : InitrdFile) (entry : Nat) (hd : ProgramHeader)
    (heap stack : Nat) {s : State} (hs : P s) : P (m.loadHeader f entry hd heap stack s).1 := by
  rw [Loader.loadHeader]
  split
  · split
    · exact hs
    · exact h.loadSegment f hd heap hs
  · split
    · exact h.loadStack entry hd hs
    · exact hs

theorem Keeps.loadEach (h : m.Keeps P) (f : InitrdFile) (entry : Nat) (hs : List ProgramHeader)
    (heap stack : Nat) {s : State} (hStart : P s) : P (m.loadEach f entry hs heap stack s).1 := by
  induction hs generalizing heap stack s with
  | nil => exact hStart
  | cons hd rest ih =>
      have hRound := h.loadHeader f entry hd heap stack hStart
      rw [Loader.loadEach]
      split
      next t hEnd =>
        rw [hEnd] at hRound
        exact hRound
      next t heap stack hEnd =>
        rw [hEnd] at hRound
        exact ih heap stack hRound

section Pushed

variable (hWrite : ∀ addr bytes s, P s → P (m.write addr bytes s)) {s : State} (hs : P s)
include hWrite hs

theorem pushPointers_keeps (buffer : List (BitVec 8)) (base left addr idx : Nat) :
    P (m.pushPointers buffer base left addr idx s).1 := by
  induction left generalizing addr idx s with
  | zero => exact hs
  | succ left ih => exact ih (hWrite _ _ _ hs) _ _

/-- The arguments are only written. -/
theorem pushArgs_keeps (args : LoadArgs) (behind : Nat → BitVec 8) (stack : Nat) :
    P (m.pushArgs args behind stack s).1 := by
  apply hWrite
  apply hWrite
  apply hWrite
  apply hWrite
  apply pushPointers_keeps hWrite
  apply pushPointers_keeps hWrite
  apply hWrite
  exact hWrite _ _ _ hs

end Pushed

/-- The record makes no difference. -/
theorem pushPointers_logged (m : Loader State) (buffer : List (BitVec 8)) (base left addr idx : Nat)
    (s : State × List Access) :
    (m.logged.pushPointers buffer base left addr idx s).1.1 = (m.pushPointers buffer base left addr idx s.1).1 ∧
      (m.logged.pushPointers buffer base left addr idx s).2 = (m.pushPointers buffer base left addr idx s.1).2 := by
  induction left generalizing addr idx s with
  | zero => exact ⟨rfl, rfl⟩
  | succ left ih => exact ih _ _ _

theorem pushArgs_logged (m : Loader State) (args : LoadArgs) (behind : Nat → BitVec 8) (stack : Nat)
    (s : State × List Access) :
    (m.logged.pushArgs args behind stack s).1.1 = (m.pushArgs args behind stack s.1).1 := by
  have hWrite : ∀ addr bytes (s : State × List Access),
      (m.logged.write addr bytes s).1 = m.write addr bytes s.1 := fun _ _ _ => rfl
  rw [pushArgs, pushArgs]
  dsimp only
  rw [hWrite, hWrite, hWrite, hWrite, (pushPointers_logged ..).1, (pushPointers_logged ..).1,
    (pushPointers_logged ..).2, hWrite, hWrite]

/-- What every call keeps, the whole of `load_task` keeps. -/
theorem Keeps.loadTask (h : m.Keeps P) (f : InitrdFile) (args : LoadArgs) (behind : Nat → BitVec 8)
    (header var : List (BitVec 8)) {s : State} (hs : P s) :
    P (m.loadTask f args behind header var s).1 := by
  rw [Loader.loadTask]
  dsimp only
  split
  · exact hs
  · rw [loadHeaders_eq]
    have hLoop := h.loadEach f (ElfHeader.ofBytes (overlay (f.read 0 sizeofElfHeader) header)).entry
      (programHeaders f (ElfHeader.ofBytes (overlay (f.read 0 sizeofElfHeader) header))
        (ElfHeader.ofBytes (overlay (f.read 0 sizeofElfHeader) header)).phEntryCount 0 var) 0 0 hs
    split
    next t hEnd =>
      rw [hEnd] at hLoop
      exact hLoop
    next t heap stack hEnd =>
      rw [hEnd] at hLoop
      have hArea := h.heapArea t hLoop
      have hHeap := h.setHeap (pageFloor heap) _ hArea
      split
      · exact hArea
      · split
        · exact hHeap
        · dsimp only
          exact pushArgs_keeps h.write hHeap args behind stack

/-- The record only grows. -/
theorem keeps_mem (m : Loader State) (a : Access) : m.logged.Keeps fun s => a ∈ s.2 where
  getPages _ _ hs := hs
  pageMap _ _ _ _ _ hs := List.mem_cons_of_mem _ hs
  write _ _ _ hs := List.mem_cons_of_mem _ hs
  vmaAdd _ _ _ _ hs := hs
  heapArea _ hs := hs
  setHeap _ _ hs := hs

/-- The pages of the stack. -/
def stackMapped (stack : Nat) : Access := .map stack (pageCount defaultStackSize) (pgUser ||| pgRw) 0

variable {f : InitrdFile} {hs : List ProgramHeader} {hd : ProgramHeader} {args : LoadArgs}
variable {behind : Nat → BitVec 8} {header var : List (BitVec 8)} {s t : State × List Access}
variable {entry heap heap' stack stack' : Nat}

theorem loadStack_mapped (h : m.logged.loadStack entry hd s = (t, some stack)) :
    stackMapped stack ∈ t.2 := by
  rw [loadStack] at h
  dsimp only at h
  split at h
  · cases h
  next hErr =>
    have hZero : (m.pageMap (entry * 2 % 2 ^ 32) (m.getPages (pageCount defaultStackSize) s.1).2
        (pageCount defaultStackSize) (pgUser ||| pgRw)
        (m.getPages (pageCount defaultStackSize) s.1).1).2 = 0 := Decidable.not_not.1 hErr
    cases h
    apply (keeps_mem m _).vmaAdd
    apply (keeps_mem m _).write
    rw [stackMapped, ← hZero]
    exact List.mem_cons_self

theorem loadHeader_mapped
    (h : m.logged.loadHeader f entry hd heap stack s = (t, some (heap', stack'))) :
    stack' = stack ∨ stackMapped stack' ∈ t.2 := by
  rw [loadHeader] at h
  split at h
  · split at h
    · cases h
      exact Or.inl rfl
    · cases h
      exact Or.inl rfl
  · split at h
    · cases hStack : m.logged.loadStack entry hd s with
      | mk u found =>
          rw [hStack] at h
          cases found with
          | none => cases h
          | some found =>
              cases h
              exact Or.inr (loadStack_mapped hStack)
    · cases h
      exact Or.inl rfl

theorem loadEach_mapped (h : m.logged.loadEach f entry hs heap stack s = (t, some (heap', stack'))) :
    stack' = stack ∨ stackMapped stack' ∈ t.2 := by
  induction hs generalizing heap stack s with
  | nil =>
      cases h
      exact Or.inl rfl
  | cons hd rest ih =>
      rw [loadEach] at h
      split at h
      · cases h
      next u heap₁ stack₁ hRound =>
        rcases ih h with rfl | hMem
        · rcases loadHeader_mapped hRound with rfl | hMem
          · exact Or.inl rfl
          · have hKept := (keeps_mem m _).loadEach f entry rest heap₁ stack' hMem
            rw [h] at hKept
            exact Or.inr hKept
        · exact Or.inr hMem

/-- When `load_task` gets to the jump, it has mapped a stack. -/
theorem loadTask_mapped (h : m.logged.loadTask f args behind header var s = (t, 0)) :
    ∃ stack, stackMapped stack ∈ t.2 := by
  rw [loadTask] at h
  dsimp only at h
  split at h
  · exact absurd (Prod.mk.inj h).2 (by decide)
  · rw [loadHeaders_eq] at h
    split at h
    · exact absurd (Prod.mk.inj h).2 (by decide)
    next u heap stack hLoop =>
      split at h
      · exact absurd (Prod.mk.inj h).2 (by decide)
      · split at h
        · exact absurd (Prod.mk.inj h).2 (by decide)
        next hStack =>
          refine ⟨stack, ?_⟩
          rw [← (Prod.mk.inj h).1]
          apply pushArgs_keeps (keeps_mem m _).write
          exact (loadEach_mapped hLoop).resolve_left hStack

end Loader

theorem ProgramHeader.vmaFlags_kernel (h : ProgramHeader) : Space.of h.vmaFlags = .kernel := by
  rw [vmaFlags]
  split <;> split <;> split <;> rfl

theorem callEnv_bare {f : Env → Env × Out} {lost : Out} {s : Option (LoadState Env)}
    (h : ∀ t ∈ s, t.mm.Bare) : ∀ t ∈ (LoadState.callEnv f lost s).1, t.mm.Bare := by
  intro t ht
  cases s with
  | none => cases ht
  | some s =>
      cases ht
      exact h s rfl

variable {phys : Phys Env} {user : UserMemory Env} {fuel : Nat}

/-- `load_task` finds a task without areas, and leaves it so. -/
theorem areaLoader_keeps :
    (areaLoader phys user fuel).Keeps fun s => ∀ t ∈ s, t.mm.Bare where
  getPages _ _ hs := callEnv_bare hs
  pageMap _ _ _ _ _ hs := callEnv_bare hs
  write _ _ _ hs := callEnv_bare hs
  vmaAdd start endAddr h s hs := by
    intro t ht
    cases s with
    | none => cases ht
    | some s =>
        have hBares : Bares (vmaAdd (kmalloc phys fuel) fuel start endAddr h.vmaFlags s.mm) :=
          bares_vmaAdd (sparing_kmalloc phys fuel) h.vmaFlags_kernel (hs s rfl)
        simp only [areaLoader, LoadState.call] at ht
        split at ht
        · cases ht
        next u out hCall =>
          cases ht
          exact hBares _ hCall
  heapArea s hs := by
    intro t ht
    cases s with
    | none => cases ht
    | some s =>
        simp only [areaLoader, LoadState.heapArea] at ht
        split at ht
        · exact hs t ht
        · split at ht
          · cases ht
          next u heap hCall =>
            cases ht
            exact sparing_kmalloc phys fuel _ _ (hs s rfl) _ hCall
  setHeap addr s hs := by
    intro t ht
    cases s with
    | none => cases ht
    | some s =>
        cases ht
        rw [LoadState.setHeap]
        split
        · exact hs s rfl
        · exact Vmas.list_setNode.trans (hs s rfl)

variable {f : InitrdFile} {args : LoadArgs} {behind : Nat → BitVec 8} {header var : List (BitVec 8)}
variable {s : Mm Env} {t : LoadState Env} {log : List Access}

/-- The pages of the stack lie in no area of the task. -/
theorem not_covers
    (h : (areaLoader phys user fuel).logged.loadTask f args behind header var
      (some (.created s), []) = ((some t, log), 0)) : ¬ t.Covers log := by
  intro hCovers
  have hBare : ∀ u ∈ (some t, log).1, u.mm.Bare := by
    rw [← (Prod.mk.inj h).1]
    apply (areaLoader_keeps.logged).loadTask
    intro u hu
    cases hu
    rfl
  obtain ⟨stack, hMapped⟩ := Loader.loadTask_mapped h
  have hPage : stack >>> pageBits + 0 ∈ mappedPages log :=
    ⟨_, _, _, hMapped, by decide, 0, by decide, rfl⟩
  obtain ⟨l, hSpells, e, he, _⟩ := hCovers _ hPage
  have hNil : l = [] := hSpells.unique (DoublyLinked.path_nil.2 (hBare t rfl))
  rw [hNil] at he
  cases he

/-- Without areas the first call of `vma_alloc` gets the user space from its start on. -/
theorem vmaAlloc_bare {kmalloc : Allocator Env} {u : Mm Env} {new size : Nat} {flags : BitVec 32}
    (h : s.Bare) (hUser : flags &&& vmaUser ≠ 0) (hSize : vmaUserMin + size < vmaUserMax)
    (hNode : kmalloc sizeofVma s = some (u, some new)) :
    ∃ t, vmaAlloc kmalloc fuel size flags s = some (t, vmaUserMin) := by
  have hSpace : Space.of flags = .user := if_pos hUser
  have hWord : Word.add vmaUserMin size = vmaUserMin + size :=
    Word.add_eq (hSize.trans (by decide))
  have hFits : fits .user size none none = true := by
    simp only [fits, decide_eq_true_eq]
    refine ⟨?_, le_rfl, ?_⟩
    · exact (congrArg (· < vmaUserMax) hWord).mpr hSize
    · exact (congrArg (· < vmaUserMax) hWord).mpr hSize
  have hList : s.vmas.list .user = none := h
  rw [vmaAlloc, hSpace]
  simp only [hList, Option.map_none, hFits, if_true, Option.bind_some, Option.filter_none]
  rw [withNode, hNode]
  exact ⟨_, rfl⟩

/-- Whatever user page was mapped, `vma_alloc` can hand it out again. -/
theorem not_avoids (hBare : t.mm.Bare) {vpn : Nat} (hPage : vpn ∈ mappedPages log)
    (hUser : UserPage vpn) {u : Mm Env} {new : Nat}
    (hNode : kmalloc phys fuel sizeofVma t.mm = some (u, some new)) : ¬ t.Avoids phys log := by
  intro hAvoids
  have hShift : vpn <<< pageBits = vpn * 4096 := Nat.shiftLeft_eq vpn 12
  obtain ⟨hLow, hHigh⟩ := userPage_iff.1 hUser
  obtain ⟨v, hCall⟩ : ∃ v, vmaAlloc (kmalloc phys fuel) fuel (vmaUserMax - vmaUserMin - 1) vmaUser
      t.mm = some (v, vmaUserMin) := vmaAlloc_bare hBare (by decide) (by decide) hNode
  have hApart := hAvoids fuel _ vmaUser v _ (by decide) hCall (by decide) vpn hPage
  have hSum : vmaUserMin + (vmaUserMax - vmaUserMin - 1) = 0xFF3FFFFF := rfl
  have hMin : vmaUserMin = 0x40000000 := rfl
  have hPageSize : pageSize = 4096 := rfl
  rw [hSum, hMin, hShift, hPageSize] at hApart
  omega

/-- `load_task` never leaves the task areas that cover what it has mapped. -/
theorem loadTask_unguarded (phys : Phys Env) (user : UserMemory Env) (fuel : Nat) (f : InitrdFile)
    (args : LoadArgs) (behind : Nat → BitVec 8) (header var : List (BitVec 8)) (s : Mm Env)
    (t : LoadState Env) (log : List Access)
    (h : (areaLoader phys user fuel).logged.loadTask f args behind header var
      (some (.created s), []) = ((some t, log), 0)) : ¬ t.Guards phys log :=
  fun hGuards => not_covers h hGuards.1

/-- An executable with a segment of one page at 0x50100000, and a stack. -/
def oneSegmentAndStack : InitrdFile where
  length := 116
  byte i := ([0x7F, 0x45, 0x4C, 0x46, 1, 1, 1, 0, 0, 0, 0, 0, 0, 0, 0, 0, 2, 0, 3, 0, 1, 0, 0, 0,
    0, 0x10, 0, 0x50, 52, 0, 0, 0, 0, 0, 0, 0, 0, 0, 0, 0, 52, 0, 32, 0, 2, 0, 0, 0, 0, 0, 0, 0,
    1, 0, 0, 0, 0, 0, 0, 0, 0, 0, 0x10, 0x50, 0, 0, 0, 0, 116, 0, 0, 0, 0, 0x10, 0, 0, 7, 0, 0, 0,
    0, 0x10, 0, 0,
    0x51, 0xE5, 0x74, 0x64, 0, 0, 0, 0, 0, 0, 0, 0, 0, 0, 0, 0, 0, 0, 0, 0, 0, 0, 0, 0, 6, 0, 0, 0,
    0, 0, 0, 0]).getD i 0

/-- Page tables that take everything. -/
def plainMemory : UserMemory Unit where
  pageMap _ _ _ _ env := (env, 0)
  write _ _ env := env

theorem oneSegmentAndStack_loads : ∃ t log,
    (areaLoader plainPhys plainMemory 5).logged.loadTask oneSegmentAndStack ⟨0, 1, 0, [97, 0]⟩ 0 [] []
      (some (.created bootState), []) = ((some t, log), 0) := by
  have hRet : ((areaLoader plainPhys plainMemory 5).logged.loadTask oneSegmentAndStack
      ⟨0, 1, 0, [97, 0]⟩ 0 [] [] (some (.created bootState), [])).2 = 0 := by decide
  have hState : ((areaLoader plainPhys plainMemory 5).logged.loadTask oneSegmentAndStack
      ⟨0, 1, 0, [97, 0]⟩ 0 [] [] (some (.created bootState), [])).1.1.isSome = true := by
    decide
  obtain ⟨t, ht⟩ := Option.isSome_iff_exists.1 hState
  exact ⟨t, _, Prod.ext (Prod.ext ht rfl) hRet⟩

theorem oneSegmentAndStack_unguarded : ∃ t log,
    (areaLoader plainPhys plainMemory 5).logged.loadTask oneSegmentAndStack ⟨0, 1, 0, [97, 0]⟩ 0 [] []
      (some (.created bootState), []) = ((some t, log), 0) ∧ ¬ t.Guards plainPhys log := by
  obtain ⟨t, log, hLoad⟩ := oneSegmentAndStack_loads
  exact ⟨t, log, hLoad, loadTask_unguarded _ _ _ _ _ _ _ _ _ t log hLoad⟩

theorem not_loadTask_guards : ¬ ∀ (phys : Phys Unit) (user : UserMemory Unit) (fuel : Nat)
    (f : InitrdFile) (args : LoadArgs) (behind : Nat → BitVec 8) (header var : List (BitVec 8))
    (s : Mm Unit) (t : LoadState Unit) (log : List Access),
    (areaLoader phys user fuel).logged.loadTask f args behind header var
      (some (.created s), []) = ((some t, log), 0) → t.Guards phys log := by
  intro h
  obtain ⟨t, log, hLoad⟩ := oneSegmentAndStack_loads
  exact not_covers hLoad (h _ _ _ _ _ _ _ _ _ t log hLoad).1

end ArtOS
