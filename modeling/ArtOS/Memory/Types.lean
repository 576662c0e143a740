import ArtOS.Config

/-! The data of `vma.h` and `malloc.h`. A pointer is an address, and `none`
stands for `NULL`. -/
namespace ArtOS

abbrev vmaRead : BitVec 32 := 1#32 <<< 0
abbrev vmaWrite : BitVec 32 := 1#32 <<< 1
abbrev vmaExecute : BitVec 32 := 1#32 <<< 2
abbrev vmaCacheable : BitVec 32 := 1#32 <<< 3
abbrev vmaUser : BitVec 32 := 1#32 <<< 5
abbrev vmaHeap : BitVec 32 := vmaRead ||| vmaWrite ||| vmaCacheable

abbrev vmaKernMin : Nat := 0xC0000
abbrev vmaKernMax : Nat := kernelSpace
abbrev vmaUserMin : Nat := kernelSpace
abbrev vmaUserMax : Nat := 0xFF400000

abbrev pnodeMax : Nat := 32
abbrev pnodeMin : Nat := 3
abbrev pnodeAlloc : Nat := 16
abbrev pnodeLists : Nat := pnodeMax - pnodeMin + 1
abbrev pnodeMagic : BitVec 16 := 0xBABE#16

/-- `sizeof(vma_t)`. -/
abbrev sizeofVma : Nat := 20
/-- `sizeof(pnode_t)`. -/
abbrev sizeofPnode : Nat := 4

/-- What a `vma_t` says about the address space. -/
structure Area where
  start : Nat
  endAddr : Nat
  flags : BitVec 32
deriving DecidableEq

structure Vma extends Area where
  next : Option Nat
  prev : Option Nat
deriving DecidableEq

/-- Whose list a call works on: `vma_list` or `task->vma_list`. -/
inductive Space where
  | kernel
  | user
deriving DecidableEq

/-- The two list heads and the nodes. -/
structure Vmas where
  vmaList : Option Nat
  taskVmaList : Option Nat
  node : Nat → Vma

/-- The memory of the heap, byte by byte, and the heads of the free lists. -/
structure Heap where
  mem : Nat → BitVec 8
  lists : Nat → Option Nat

/-- The state of the memory management; `env` is whatever lies below it. -/
structure Mm (Env : Type) where
  vmas : Vmas
  heap : Heap
  env : Env

/-- `kmalloc` as its callers see it. It has no result when it does not come back. -/
abbrev Allocator (Env : Type) := Nat → Mm Env → Option (Mm Env × Option Nat)

/-- `kfree` as its callers see it. -/
abbrev Deallocator (Env : Type) := Nat → Mm Env → Option (Mm Env)

end ArtOS
