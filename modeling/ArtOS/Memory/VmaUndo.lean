import ArtOS.Memory.VmaBounds

/-! `vma_free` takes back what `vma_alloc` has just given: the range is the end of the area
that was extended or put in for it, so no area is ever split. -/
namespace ArtOS

open DoublyLinked Intervals Partial

variable {Env : Type} {kmalloc : Allocator Env} {kfree : Deallocator Env} {s t u : Mm Env}
variable {sp : Space} {l left right : List Entry} {e : Entry} {new : Option Nat}
variable {r ret size start fuel : Nat} {flags : BitVec 32}

/-- The request for a node is all that `vma_alloc` does to the rest of the memory. -/
theorem vmaAlloc_env (hEnv : ∀ u new, kmalloc sizeofVma s = some (u, new) → u.env = s.env)
    (hRun : vmaAlloc kmalloc fuel size flags s = some (t, r)) : t.env = s.env := by
  rw [vmaAlloc] at hRun
  obtain ⟨found, _, hRest⟩ := Option.bind_eq_some_iff.mp hRun
  cases found with
  | none =>
      cases hRest
      rfl
  | some gap =>
      obtain ⟨pred, succ⟩ := gap
      dsimp only at hRest
      split at hRest
      · cases hRest
        rfl
      · obtain ⟨⟨u, new⟩, hCall, hFill⟩ := Option.map_eq_some_iff.mp hRest
        have hSame := hEnv u new hCall
        cases new with
        | none =>
            cases hFill
            exact hSame
        | some p =>
            cases hFill
            exact hSame

/-- `kfree` does nothing but free the node. -/
def FreesOnly (kfree : Deallocator Env) : Prop :=
  ∀ p s t, kfree p s = some t → t.vmas = s.vmas ∧ t.env = s.env

theorem kfree_freesOnly : FreesOnly (@ArtOS.kfree Env) := by
  intro p s t hCall
  rw [ArtOS.kfree] at hCall
  split at hCall
  · cases hCall
    exact ⟨rfl, rfl⟩
  · dsimp only at hCall
    split at hCall
    · cases hCall
      exact ⟨rfl, rfl⟩
    · obtain ⟨h, _, rfl⟩ := Option.map_eq_some_iff.mp hCall
      exact ⟨rfl, rfl⟩

/-- The range `[r, r + size)` is the end of one area. -/
structure Reserved (flags : BitVec 32) (size : Nat) (l : List Entry) (t : Mm Env) (r : Nat)
    (left : List Entry) (e : Entry) (right : List Entry) : Prop where
  spells : t.vmas.Spells (Space.of flags) (left ++ e :: right)
  sorted : Sorted (left ++ e :: right)
  low : e.2.start ≤ r
  high : e.2.endAddr = r + size
  map : ∀ addr, assigns (left ++ e :: right) addr =
    if r ≤ addr ∧ addr < r + size then some flags else assigns l addr

section Alloc

variable (hSpells : s.vmas.Spells (Space.of flags) l) (hSorted : Sorted l)
  (hBounds : Unwrapping (Space.of flags) l size)
  (hNode : NodeAnswer kmalloc (Space.of flags) l s u new)
include hSpells hSorted hBounds hNode

/-- What `vma_alloc` gives is the end of an area. -/
theorem vmaAlloc_reserved (hRun : vmaAlloc kmalloc fuel size flags s = some (t, r)) (hr : r ≠ 0) :
    Allocated flags size l t r ∧ ∃ left e right, Reserved flags size l t r left e right := by
  have hAllocated := ((vmaAlloc_first_fit hSpells hSorted hBounds fun _ => hNode).2 fuel _ hRun).found hr
  refine ⟨hAllocated, ?_⟩
  obtain ⟨l', hSpells', hSorted', hAssigns⟩ := hAllocated.list
  suffices hEntry : ∃ left e right, t.vmas.Spells (Space.of flags) (left ++ e :: right) ∧
      e.2.start ≤ r ∧ e.2.endAddr = r + size by
    obtain ⟨left, e, right, hList, hLow, hHigh⟩ := hEntry
    obtain rfl := hList.unique hSpells'
    exact ⟨left, e, right, hSpells', hSorted', hLow, hHigh, hAssigns⟩
  obtain ⟨pred, succ, ample, hGap, hFuel, hLarge⟩ := vmaAlloc_gap hSpells hRun hr
  obtain ⟨left, right, rfl, hPred, rfl, _⟩ := firstGap_split hGap
  rw [Option.or_none] at hPred
  subst hPred
  have hAdd := hBounds.add_eq
  rcases vmaAlloc_found hSpells hFuel hGap with ⟨e, he, _, hFound⟩ | hFound
  · obtain ⟨front, rfl⟩ := List.getLast?_eq_some_iff.mp he
    rw [he] at hAdd
    rw [hFound] at hLarge
    cases hLarge
    have hArea : (s.vmas.node e.1).toArea = e.2 := hSpells.area_eq (by simp)
    rw [List.append_assoc, List.singleton_append] at hSpells hSorted
    refine ⟨front, (e.1, { e.2 with endAddr := e.2.endAddr + size }), right, ?_, ?_, rfl⟩
    · rw [show Word.add e.2.endAddr size = e.2.endAddr + size from hAdd]
      exact hSpells.modify (f := fun n => { n with endAddr := e.2.endAddr + size }) rfl rfl
        (by rw [← hArea])
    · exact hSorted.middle.2.1
  · rw [hFound, hNode.withNode] at hLarge
    cases new with
    | none =>
        cases hLarge
        exact absurd rfl hr
    | some p =>
        cases hLarge
        exact ⟨left, (p, _), right, hNode.insert _, le_rfl, hAdd⟩

end Alloc

/-- The end of an area is found again, and goes with its node if there was nothing in front of it. -/
theorem vmaFree_end (hSpells : s.vmas.Spells sp (left ++ e :: right))
    (hSorted : Sorted (left ++ e :: right)) (hIn : Within sp e start e.2.endAddr)
    (hFuel : (left ++ e :: right).length < fuel) :
    vmaFree kmalloc kfree fuel start e.2.endAddr s =
      if start = e.2.start then
        (kfree e.1 { s with vmas := s.vmas.unlink sp e.1 }).map fun t => (t, 0)
      else some ({ s with vmas := s.vmas.setNode e.1 fun n => { n with endAddr := start } }, 0) := by
  have hArea : (s.vmas.node e.1).toArea = e.2 := hSpells.area_eq (by simp)
  rw [vmaFree_search hSpells hFuel hIn.proper hIn.space, hSorted.find hIn.proper hIn.low hIn.high]
  show vmaRelease kmalloc kfree sp e.1 start e.2.endAddr s = _
  rw [vmaRelease, Vmas.area, hArea]
  by_cases hStart : start = e.2.start
  · rw [if_pos ⟨hStart, rfl⟩, if_pos hStart]
  · rw [if_neg fun h => hStart h.1, if_neg hStart, if_pos rfl, if_neg hStart]

/-- The end of an area is given back. -/
theorem vmaFree_tail (hSpells : s.vmas.Spells sp (left ++ e :: right))
    (hSorted : Sorted (left ++ e :: right)) (hIn : Within sp e start e.2.endAddr)
    (hKfree : FreesOnly kfree) {ret : Int}
    (hRun : vmaFree kmalloc kfree fuel start e.2.endAddr s = some (t, ret)) :
    Freed sp start e.2.endAddr (left ++ e :: right) t ret ∧ ret = 0 ∧ t.env = s.env := by
  have hLarge := vmaFree_mono (fun _ _ => Le.refl)
    (Nat.le_max_left fuel ((left ++ e :: right).length + 1)) _ hRun
  rw [vmaFree_end hSpells hSorted hIn (Nat.lt_of_succ_le (Nat.le_max_right _ _))] at hLarge
  have hArea : (s.vmas.node e.1).toArea = e.2 := hSpells.area_eq (by simp)
  have hAll : ∀ addr, e.2.Covers addr ↔ e.2.start ≤ addr ∧ addr < e.2.endAddr := fun _ => Iff.rfl
  have hLt := hIn.proper
  have hLow := hIn.low
  by_cases hStart : start = e.2.start
  · rw [if_pos hStart] at hLarge
    obtain ⟨x, hCall, hx⟩ := Option.map_eq_some_iff.mp hLarge
    cases hx
    obtain ⟨hVmas, hEnv⟩ := hKfree _ _ _ hCall
    refine ⟨⟨fun _ => ⟨left ++ ([] ++ right), ?_, hSorted.remove, ?_⟩, fun h => absurd rfl h⟩, rfl, hEnv⟩
    · rw [hVmas]
      exact hSpells.unlink
    · apply assigns_cut hSorted hIn
      intro addr
      rw [if_neg (by rw [hAll]; omega)]
      rfl
  · rw [if_neg hStart] at hLarge
    cases hLarge
    refine ⟨freed_modify hSorted hIn _ { e.2 with endAddr := start } hSpells (fun _ => rfl)
      (fun _ => rfl) (by rw [← hArea]) hLow le_rfl hLt.le rfl ?_, rfl, rfl⟩
    intro addr
    rw [hAll]
    show e.2.start ≤ addr ∧ addr < start ↔ _
    omega

/-- It comes back. -/
theorem vmaFree_ends (kmalloc : Allocator Env) (hSpells : s.vmas.Spells sp (left ++ e :: right))
    (hSorted : Sorted (left ++ e :: right)) (hIn : Within sp e start e.2.endAddr)
    (hKfree : ∀ p s, ∃ t, kfree p s = some t) (hFuel : (left ++ e :: right).length < fuel) :
    ∃ t ret, vmaFree kmalloc kfree fuel start e.2.endAddr s = some (t, ret) := by
  rw [vmaFree_end hSpells hSorted hIn hFuel]
  by_cases hStart : start = e.2.start
  · obtain ⟨t, hCall⟩ := hKfree e.1 { s with vmas := s.vmas.unlink sp e.1 }
    rw [if_pos hStart, hCall]
    exact ⟨t, 0, rfl⟩
  · rw [if_neg hStart]
    exact ⟨_, 0, rfl⟩

/-- `vma_free` of what `vma_alloc` has given restores the address space. -/
theorem Reserved.free (h : Reserved flags size l t r left e right) (hSize : 0 < size)
    (hSpace : freeSpace r (r + size) = some (Space.of flags))
    (hOld : ∀ addr, r ≤ addr → addr < r + size → assigns l addr = none) (hVmas : s.vmas = t.vmas)
    (hKfree : FreesOnly kfree) {ret : Int}
    (hRun : vmaFree kmalloc kfree fuel r (r + size) s = some (u, ret)) :
    u.env = s.env ∧ ∃ l', u.vmas.Spells (Space.of flags) l' ∧ Sorted l' ∧
      ∀ addr, assigns l' addr = assigns l addr := by
  have hIn : Within (Space.of flags) e r e.2.endAddr :=
    ⟨by rw [h.high]; omega, by rw [h.high]; exact hSpace, h.low, le_rfl⟩
  have hSpells := h.spells
  rw [← hVmas] at hSpells
  rw [← h.high] at hRun
  obtain ⟨hFreed, rfl, hEnv⟩ := vmaFree_tail hSpells h.sorted hIn hKfree hRun
  obtain ⟨l', hSpells', hSorted', hAssigns⟩ := hFreed.list rfl
  refine ⟨hEnv, l', hSpells', hSorted', fun addr => ?_⟩
  rw [hAssigns, h.high, h.map]
  split
  · rename_i hRange
    exact (hOld addr hRange.1 hRange.2).symm
  · rfl

end ArtOS
