import ArtOS.Memory.Types
import ArtOS.Library.Partial
import ArtOS.Library.Word

/-! The virtual memory areas of `mm/vma.c`. The heap is a parameter here: the
calls of `kmalloc` and `kfree` may change the whole state, the lists included.
A walk along a list that has not ended after `fuel` nodes has no result. -/
namespace ArtOS

def Space.of (flags : BitVec 32) : Space := if flags &&& vmaUser ≠ 0 then .user else .kernel

def Space.base : Space → Nat
  | .kernel => vmaKernMin
  | .user => vmaUserMin

def Space.limit : Space → Nat
  | .kernel => vmaKernMax
  | .user => vmaUserMax

/-- The only node at the start: an empty area of the heap. -/
def vmaBoot : Vma :=
  { start := vmaKernMin, endAddr := vmaKernMin, flags := vmaHeap, next := none, prev := none }

namespace Vmas

def list (v : Vmas) : Space → Option Nat
  | .kernel => v.vmaList
  | .user => v.taskVmaList

def setList (v : Vmas) (head : Option Nat) : Space → Vmas
  | .kernel => { v with vmaList := head }
  | .user => { v with taskVmaList := head }

def setNode (v : Vmas) (p : Nat) (f : Vma → Vma) : Vmas :=
  { v with node := Function.update v.node p (f (v.node p)) }

def next (v : Vmas) (p : Nat) : Option Nat := (v.node p).next

def prev (v : Vmas) (p : Nat) : Option Nat := (v.node p).prev

def area (v : Vmas) (p : Nat) : Area := (v.node p).toArea

/-- `if (p) p->next = target`. -/
def linkNext (v : Vmas) (p target : Option Nat) : Vmas :=
  match p with
  | some p => v.setNode p fun n => { n with next := target }
  | none => v

/-- `if (p) p->prev = target`. -/
def linkPrev (v : Vmas) (p target : Option Nat) : Vmas :=
  match p with
  | some p => v.setNode p fun n => { n with prev := target }
  | none => v

/-- The end of `vma_alloc` and `vma_add`: fill in the new node and link it. -/
def insert (v : Vmas) (sp : Space) (new : Nat) (area : Area) (pred succ : Option Nat) : Vmas :=
  let v := v.setNode new fun _ => { area with next := succ, prev := pred }
  let v := v.linkPrev succ (some new)
  if pred.isSome then v.linkNext pred (some new) else v.setList (some new) sp

/-- The part of `vma_free` that takes a node out of the list. -/
def unlink (v : Vmas) (sp : Space) (vma : Nat) : Vmas :=
  let v := if v.list sp = some vma then v.setList (v.next vma) sp else v
  let v := v.linkNext (v.prev vma) (v.next vma)
  v.linkPrev (v.next vma) (v.prev vma)

/-- The part of `vma_free` that cuts `[start, endAddr)` out of the middle of an area. -/
def split (v : Vmas) (vma new start endAddr : Nat) : Vmas :=
  let v := v.setNode new fun n => { n with endAddr := (v.node vma).endAddr }
  let v := v.setNode vma fun n => { n with endAddr := start }
  let v := v.setNode new fun n => { n with start := endAddr }
  let v := v.setNode new fun n => { n with next := v.next vma }
  let v := v.setNode vma fun n => { n with next := some new }
  v.setNode new fun n => { n with prev := some vma }

/-- The loop over the gaps `(pred, succ)` of a list, which runs until both are null. -/
def gapLoop (v : Vmas) (test : Option Nat → Option Nat → Bool) :
    Nat → Option Nat → Option Nat → Option (Option (Option Nat × Option Nat))
  | 0, _, _ => none
  | fuel + 1, pred, succ =>
      if pred = none ∧ succ = none then some none
      else if test pred succ then some (some (pred, succ))
      else v.gapLoop test fuel succ (succ.bind v.next)

/-- The loop that looks for the area around `[start, endAddr)`. -/
def findVma (v : Vmas) (start endAddr : Nat) : Nat → Option Nat → Option (Option Nat)
  | 0, _ => none
  | _ + 1, none => some none
  | fuel + 1, some vma =>
      if (v.node vma).start ≤ start ∧ endAddr ≤ (v.node vma).endAddr then some (some vma)
      else v.findVma start endAddr fuel (v.next vma)

end Vmas

/-- `(pred) ? pred->end : base`. -/
def gapStart (base : Nat) (pred : Option Area) : Nat := (pred.map Area.endAddr).getD base

/-- `(succ) ? succ->start : limit`. -/
def gapEnd (limit : Nat) (succ : Option Area) : Nat := (succ.map Area.start).getD limit

/-- The test of `vma_alloc`: the gap is large enough and in the bounds. -/
def fits (sp : Space) (size : Nat) (pred succ : Option Area) : Bool :=
  let start := gapStart sp.base pred
  Word.add start size < gapEnd sp.limit succ ∧ sp.base ≤ start ∧ Word.add start size < sp.limit

/-- The test of `vma_add`: the new area lies between the neighbours. -/
def between (start endAddr : Nat) (pred succ : Option Area) : Bool :=
  (∀ p ∈ pred, p.endAddr ≤ start) ∧ (∀ q ∈ succ, endAddr ≤ q.start)

variable {Env : Type}

/-- `new = kmalloc(sizeof(vma_t))`, and giving up with `err` when there is none. -/
def withNode {Out : Type} (kmalloc : Allocator Env) (err : Out) (fill : Nat → Mm Env → Mm Env × Out)
    (s : Mm Env) : Option (Mm Env × Out) :=
  (kmalloc sizeofVma s).map fun (s, new) => (new.map fun new => fill new s).getD (s, err)

def vmaAlloc (kmalloc : Allocator Env) (fuel size : Nat) (flags : BitVec 32) (s : Mm Env) :
    Option (Mm Env × Nat) :=
  let sp := Space.of flags
  let test := fun pred succ => fits sp size (pred.map s.vmas.area) (succ.map s.vmas.area)
  let head := s.vmas.list sp
  (if test none head then some (some (none, head))
    else s.vmas.gapLoop test fuel head (head.bind s.vmas.next)).bind fun
  | none => some (s, 0)
  | some (pred, succ) =>
      let start := gapStart sp.base (pred.map s.vmas.area)
      match pred.filter fun p => (s.vmas.node p).flags = flags with
      | some p =>
          let vmas := s.vmas.setNode p fun n => { n with endAddr := Word.add start size }
          some ({ s with vmas := vmas }, start)
      | none =>
          let area := { start := start, endAddr := Word.add start size, flags := flags }
          withNode kmalloc 0 (fun new s =>
            ({ s with vmas := s.vmas.insert sp new area pred succ }, start)) s

/-- The second half of `vma_free`: take `[start, endAddr)` away from the area it was found in. -/
def vmaRelease (kmalloc : Allocator Env) (kfree : Deallocator Env) (sp : Space)
    (vma start endAddr : Nat) (s : Mm Env) : Option (Mm Env × Int) :=
  let area := s.vmas.area vma
  if start = area.start ∧ endAddr = area.endAddr then
    (kfree vma { s with vmas := s.vmas.unlink sp vma }).map fun s => (s, 0)
  else if start = area.start then
    some ({ s with vmas := s.vmas.setNode vma fun n => { n with start := endAddr } }, 0)
  else if endAddr = area.endAddr then
    some ({ s with vmas := s.vmas.setNode vma fun n => { n with endAddr := start } }, 0)
  else
    withNode kmalloc (-enomem) (fun new s =>
      ({ s with vmas := s.vmas.split vma new start endAddr }, 0)) s

/-- The list that `vma_free` searches. -/
def freeSpace (start endAddr : Nat) : Option Space :=
  if endAddr < vmaKernMax then some .kernel
  else if vmaKernMax ≤ start then some .user
  else none

def vmaFree (kmalloc : Allocator Env) (kfree : Deallocator Env) (fuel start endAddr : Nat)
    (s : Mm Env) : Option (Mm Env × Int) :=
  if endAddr ≤ start then some (s, -einval)
  else
    match freeSpace start endAddr with
    | none => some (s, -einval)
    | some sp =>
        if s.vmas.list sp = none then some (s, -einval)
        else
          (s.vmas.findVma start endAddr fuel (s.vmas.list sp)).bind fun
          | none => some (s, -einval)
          | some vma => vmaRelease kmalloc kfree sp vma start endAddr s

def vmaAdd (kmalloc : Allocator Env) (fuel start endAddr : Nat) (flags : BitVec 32) (s : Mm Env) :
    Option (Mm Env × Int) :=
  let sp := Space.of flags
  if endAddr ≤ start then some (s, -einval)
  else if sp = .user ∧ start < vmaKernMax then some (s, -einval)
  else if sp = .kernel ∧ vmaKernMax ≤ endAddr then some (s, -einval)
  else
    let test := fun pred succ => between start endAddr (pred.map s.vmas.area) (succ.map s.vmas.area)
    (s.vmas.gapLoop test fuel none (s.vmas.list sp)).bind fun found =>
      if s.vmas.list sp ≠ none ∧ found = none then some (s, -einval)
      else
        let gap := found.getD (none, none)
        let area := { start := start, endAddr := endAddr, flags := flags }
        withNode kmalloc (-enomem) (fun new s =>
          ({ s with vmas := s.vmas.insert sp new area gap.1 gap.2 }, 0)) s

/-! More fuel and an allocator with more results give the operations no other results. -/

open Partial

section Mono

variable {kmalloc kmalloc' : Allocator Env} {kfree : Deallocator Env} {s : Mm Env} {fuel fuel' : Nat}

theorem Vmas.gapLoop_mono {v : Vmas} {test : Option Nat → Option Nat → Bool}
    {pred succ : Option Nat} (h : fuel ≤ fuel') :
    Le (v.gapLoop test fuel pred succ) (v.gapLoop test fuel' pred succ) := by
  induction fuel generalizing fuel' pred succ with
  | zero => exact le_none
  | succ fuel ih =>
      obtain ⟨fuel', rfl⟩ := Nat.exists_eq_add_of_le' (Nat.le_of_add_left_le h)
      exact Le.ite Le.refl (Le.ite Le.refl (ih (by omega)))

theorem Vmas.findVma_mono {v : Vmas} {start endAddr : Nat} {p : Option Nat} (h : fuel ≤ fuel') :
    Le (v.findVma start endAddr fuel p) (v.findVma start endAddr fuel' p) := by
  induction fuel generalizing fuel' p with
  | zero => exact le_none
  | succ fuel ih =>
      obtain ⟨fuel', rfl⟩ := Nat.exists_eq_add_of_le' (Nat.le_of_add_left_le h)
      cases p with
      | none => exact Le.refl
      | some p => exact Le.ite Le.refl (ih (by omega))

variable (hMalloc : ∀ sz s, Le (kmalloc sz s) (kmalloc' sz s))
include hMalloc

theorem withNode_mono {Out : Type} {err : Out} {fill : Nat → Mm Env → Mm Env × Out} :
    Le (withNode kmalloc err fill s) (withNode kmalloc' err fill s) :=
  (hMalloc _ _).map

theorem vmaAlloc_mono {size : Nat} {flags : BitVec 32} (h : fuel ≤ fuel') :
    Le (vmaAlloc kmalloc fuel size flags s) (vmaAlloc kmalloc' fuel' size flags s) := by
  refine Le.bind (Le.ite Le.refl (Vmas.gapLoop_mono h)) fun found => ?_
  cases found with
  | none => exact Le.refl
  | some gap =>
      dsimp only
      split
      · exact Le.refl
      · exact withNode_mono hMalloc

theorem vmaAdd_mono {start endAddr : Nat} {flags : BitVec 32} (h : fuel ≤ fuel') :
    Le (vmaAdd kmalloc fuel start endAddr flags s) (vmaAdd kmalloc' fuel' start endAddr flags s) := by
  refine Le.ite Le.refl (Le.ite Le.refl (Le.ite Le.refl ?_))
  refine Le.bind (Vmas.gapLoop_mono h) fun found => ?_
  exact Le.ite Le.refl (withNode_mono hMalloc)

theorem vmaFree_mono {start endAddr : Nat} (h : fuel ≤ fuel') :
    Le (vmaFree kmalloc kfree fuel start endAddr s) (vmaFree kmalloc' kfree fuel' start endAddr s) := by
  refine Le.ite Le.refl ?_
  cases freeSpace start endAddr with
  | none => exact Le.refl
  | some sp =>
      refine Le.ite Le.refl (Le.bind (Vmas.findVma_mono h) fun found => ?_)
      cases found with
      | none => exact Le.refl
      | some vma =>
          exact Le.ite Le.refl (Le.ite Le.refl (Le.ite Le.refl (withNode_mono hMalloc)))

end Mono

end ArtOS
