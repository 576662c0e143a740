import ArtOS.Memory.Heap
import ArtOS.Memory.VmaList

/-! `palloc` of `mm/malloc.c`, and with it the circle of the allocators: to
grow, the heap asks `vma_alloc` for address space, and `vma_alloc` asks
`kmalloc` for a list node. The page frames and the page tables below are
parameters. -/
namespace ArtOS

/-- The calls `palloc` makes to `memory.c` and `page.c`. Mapping pages also decides what the
memory of the mapped range holds. -/
structure Phys (Env : Type) where
  getPages : Nat → Env → Env × Nat
  putPages : Nat → Nat → Env → Env
  pageMap : Nat → Nat → Nat → Env → Env × Int
  contents : Nat → Nat → Nat → Env → Nat → BitVec 8

variable {Env : Type}

abbrev pageMask : Nat := 2 ^ 32 - pageSize

def pageFloor (addr : Nat) : Nat := Word.add addr (pageSize - 1) &&& pageMask

/-- The memory after pages have been mapped at `viraddr`. -/
def mapped (viraddr size : Nat) (contents : Nat → BitVec 8) (h : Heap) : Heap :=
  { h with mem := fun x => if viraddr ≤ x ∧ x < viraddr + size then contents x else h.mem x }

/-- The second half of `palloc`: put page frames behind the address space it got, or give the
address space back. -/
def mapFrames (phys : Phys Env) (kmalloc : Allocator Env) (fuel npages size viraddr : Nat)
    (s : Mm Env) : Option (Mm Env × Option Nat) :=
  let (env, phyaddr) := phys.getPages npages s.env
  let s := { s with env := env }
  if phyaddr = 0 then
    (vmaFree kmalloc kfree fuel viraddr (Word.add viraddr size) s).map fun (s, _) => (s, none)
  else
    let contents := phys.contents viraddr phyaddr npages s.env
    let (env, err) := phys.pageMap viraddr phyaddr npages s.env
    let s := { s with env := env, heap := mapped viraddr size contents s.heap }
    if err ≠ 0 then
      (vmaFree kmalloc kfree fuel viraddr (Word.add viraddr size) s).map fun (s, _) =>
        ({ s with env := phys.putPages phyaddr npages s.env }, none)
    else some (s, some viraddr)

def palloc (phys : Phys Env) (kmalloc : Allocator Env) (fuel : Nat) : Allocator Env := fun sz s =>
  let npages := pageFloor sz >>> pageBits
  let size := npages * pageSize % 2 ^ 32
  (vmaAlloc kmalloc fuel size vmaHeap s).bind fun (s, viraddr) =>
    if viraddr = 0 then some (s, none) else mapFrames phys kmalloc fuel npages size viraddr s

/-- `kmalloc`, with at most `fuel` calls of it nested in each other and walks of at most `fuel`
nodes. -/
def kmalloc (phys : Phys Env) : Nat → Allocator Env
  | 0 => fun _ _ => none
  | fuel + 1 => kmallocWith (palloc phys (kmalloc phys fuel) fuel)

variable {phys : Phys Env} {kmalloc' kmalloc'' : Allocator Env} {fuel fuel' sz : Nat} {s : Mm Env}

theorem mapFrames_mono {npages size viraddr : Nat}
    (hMalloc : ∀ sz s, Partial.Le (kmalloc' sz s) (kmalloc'' sz s)) (h : fuel ≤ fuel') :
    Partial.Le (mapFrames phys kmalloc' fuel npages size viraddr s)
      (mapFrames phys kmalloc'' fuel' npages size viraddr s) := by
  refine Partial.Le.ite (vmaFree_mono hMalloc h).map (Partial.Le.ite ?_ Partial.Le.refl)
  exact (vmaFree_mono hMalloc h).map

theorem palloc_mono (hMalloc : ∀ sz s, Partial.Le (kmalloc' sz s) (kmalloc'' sz s))
    (h : fuel ≤ fuel') : Partial.Le (palloc phys kmalloc' fuel sz s) (palloc phys kmalloc'' fuel' sz s) :=
  Partial.Le.bind (vmaAlloc_mono hMalloc h) fun _ =>
    Partial.Le.ite Partial.Le.refl (mapFrames_mono hMalloc h)

/-- More fuel never changes an answer. -/
theorem kmalloc_mono (h : fuel ≤ fuel') :
    Partial.Le (kmalloc phys fuel sz s) (kmalloc phys fuel' sz s) := by
  induction fuel generalizing fuel' sz s with
  | zero => exact Partial.le_none
  | succ fuel ih =>
      obtain ⟨fuel', rfl⟩ := Nat.exists_eq_add_of_le' (Nat.le_of_add_left_le h)
      exact kmallocWith_mono fun sz s => palloc_mono (fun _ _ => ih (by omega)) (by omega)

end ArtOS
