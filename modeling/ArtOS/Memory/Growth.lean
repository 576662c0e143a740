import ArtOS.Memory.Palloc

/-! How the heap grows. `kmalloc` without a block in stock needs address space
behind an area of the heap itself: anywhere else `vma_alloc` needs a node for
a new area, which is another `kmalloc` in the same situation. -/
namespace ArtOS

open Intervals

/-- `pnode_exp` of the block of a list node. -/
abbrev nodeExp : Nat := 5

variable {Env : Type} {phys : Phys Env} {s t u : Mm Env} {l : List Entry}
variable {n m fuel size sz exp : Nat} {pred succ : Option Entry}

theorem pages_eq (hm : pnodeAlloc ≤ m ∧ m < pnodeMax) :
    pageFloor (1 <<< m) >>> pageBits * pageSize % 2 ^ 32 = 2 ^ m := by
  have hAll : ∀ m < pnodeMax, pnodeAlloc ≤ m →
      pageFloor (1 <<< m) >>> pageBits * pageSize % 2 ^ 32 = 2 ^ m := by decide
  exact hAll m hm.2 hm.1

theorem palloc_eq {kmalloc : Allocator Env} (hm : pnodeAlloc ≤ m ∧ m < pnodeMax) :
    palloc phys kmalloc fuel (1 <<< m) s =
      (vmaAlloc kmalloc fuel (2 ^ m) vmaHeap s).bind fun answer =>
        if answer.2 = 0 then some (answer.1, none)
        else mapFrames phys kmalloc fuel (pageFloor (1 <<< m) >>> pageBits) (2 ^ m) answer.2 answer.1 := by
  rw [palloc, pages_eq hm]

theorem kmalloc_empty (hSize : sz ≠ 0) (hExp : pnodeExp (Word.add sz sizeofPnode) = some exp)
    (hEmpty : ¬ s.heap.Stocked exp) :
    kmalloc phys (n + 1) sz s =
      (palloc phys (kmalloc phys n) n (1 <<< max exp pnodeAlloc) s).map fun answer =>
        stampAnswer exp (splitAnswer exp (pnodeAlloc - exp) answer) := by
  have hMax := (pnodeExp_spec hExp).2.1
  rw [kmalloc, kmallocWith_eq hSize hExp, pnodeGet_empty hEmpty hMax
    (Nat.lt_succ_of_le ((Nat.sub_le _ _).trans (by decide))), Option.map_map]
  rfl

/-- A block in stock is taken whatever `palloc` does, and the areas stay as they are. -/
theorem kmalloc_stocked (hSize : sz ≠ 0) (hExp : pnodeExp (Word.add sz sizeofPnode) = some exp)
    (hStock : s.heap.Stocked exp) :
    ∃ n q, exp + n < pnodeMax ∧ s.heap.lists (exp + n - pnodeMin) = some q ∧
      ∀ k, kmalloc phys (k + 1) sz s = some (stampAnswer exp (splitAnswer exp n
        (s.mapHeap fun h => h.setList (exp + n - pnodeMin) (h.next q), some q))) := by
  obtain ⟨n, q, hBelow, hHead, hTop⟩ := hStock.least
  refine ⟨n, q, hTop, hHead, fun k => ?_⟩
  rw [kmalloc, kmallocWith_eq hSize hExp, pnodeGet_stocked hBelow hHead hTop (by omega), Option.map_some]

/-- A new area needs a node; without one there is no answer either. -/
theorem vmaAlloc_insert_none {kmalloc : Allocator Env} (hSpells : s.vmas.Spells .kernel l)
    (hGap : firstGap (fitsGap .kernel size) none l = some (pred, succ))
    (hFlags : ∀ e ∈ pred, e.2.flags ≠ vmaHeap) (hNode : kmalloc sizeofVma s = none) :
    vmaAlloc kmalloc fuel size vmaHeap s = none := by
  cases hCall : vmaAlloc kmalloc fuel size vmaHeap s with
  | none => rfl
  | some answer =>
      obtain ⟨left, right, hSplit, hPred, _, _⟩ := firstGap_split hGap
      rw [Option.or_none] at hPred
      have hMem : ∀ e ∈ pred, e ∈ l := fun e he =>
        hSplit ▸ List.mem_append_left _ (List.mem_of_getLast? (hPred ▸ he))
      have hMore := vmaAlloc_mono (fun _ _ => Partial.Le.refl) (le_max_left fuel (l.length + 2)) _ hCall
      have hSpells' : s.vmas.Spells (Space.of vmaHeap) l := hSpells
      rw [vmaAlloc_insert hSpells' (le_max_right _ _) hGap hMem hFlags] at hMore
      simp [withNode, hNode] at hMore

/-- With no block in stock for a list node, and the first gap that could feed the heap behind
an area of another kind, `kmalloc` of a list node calls itself for ever. -/
theorem kmalloc_diverges (hSpells : s.vmas.Spells .kernel l) (hEmpty : ¬ s.heap.Stocked nodeExp)
    (hGap : firstGap (fitsGap .kernel (2 ^ pnodeAlloc)) none l = some (pred, succ))
    (hFlags : ∀ e ∈ pred, e.2.flags ≠ vmaHeap) : kmalloc phys n sizeofVma s = none := by
  induction n with
  | zero => rfl
  | succ n ih =>
      have hExp : max nodeExp pnodeAlloc = pnodeAlloc := rfl
      rw [kmalloc_empty (by decide) (by decide) hEmpty, hExp, palloc_eq (by decide),
        vmaAlloc_insert_none hSpells hGap hFlags ih]
      rfl

end ArtOS
