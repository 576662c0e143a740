import Mathlib.Data.List.Pairwise
import ArtOS.Memory.Growth

/-! What the `kmalloc` inside `vma_add` and `vma_alloc` does to the list they
work on. The gap is chosen before that call; when the heap has to grow, the
call moves the end of another area of the same list. -/
namespace ArtOS

open Intervals

/-- The area at the end of which the heap gets its next pages. -/
def HeapGrows (l : List Entry) (e : Entry) : Prop :=
  ∃ succ, firstGap (fitsGap .kernel (2 ^ pnodeAlloc)) none l = some (some e, succ)

variable {Env : Type}

/-- A well-formed kernel list none of whose nodes lies in memory that is still free. -/
structure Prepared (s : Mm Env) (l : List Entry) : Prop where
  spells : s.vmas.Spells .kernel l
  sorted : Sorted l
  below : ∀ e ∈ l, e.2.endAddr ≤ vmaKernMax
  unlisted : ∀ i p, s.heap.lists i = some p → Word.add p sizeofPnode ∉ l.map Prod.fst
  unmapped : ∀ e, HeapGrows l e → ∀ p ∈ l.map Prod.fst,
    ¬ (e.2.endAddr ≤ p ∧ p < e.2.endAddr + 2 ^ pnodeAlloc)

/-- The list is in order, and `[start, endAddr)` belongs to one area, which overlaps no area
that was not in `l` before. -/
def Kept (l : List Entry) (t : Mm Env) (start endAddr : Nat) : Prop :=
  ∃ l' new, t.vmas.Spells .kernel l' ∧ Sorted l' ∧ new ∈ l' ∧
    new.2.start ≤ start ∧ endAddr ≤ new.2.endAddr ∧
    ∀ e ∈ l', e ∉ l → e ≠ new → e.2.endAddr ≤ new.2.start ∨ new.2.endAddr ≤ e.2.start

/-- The heap does not have to grow, or not from the end of the area in front of the new one
into it. -/
def AddClean (s : Mm Env) (l : List Entry) (start endAddr : Nat) : Prop :=
  s.heap.Stocked nodeExp ∨ ∀ e succ, HeapGrows l e →
    firstGap (betweenGap start endAddr) none l = some (some e, succ) →
    e.2.endAddr + 2 ^ pnodeAlloc ≤ start

/-- `start + size` does not wrap around below the area that gets the memory, and when that is a
new area the heap does not have to grow from the end of the one in front of it. -/
def AllocClean (s : Mm Env) (l : List Entry) (size : Nat) (flags : BitVec 32) : Prop :=
  ∀ pred succ, firstGap (fitsGap .kernel size) none l = some (pred, succ) →
    let start := gapStart vmaKernMin (pred.map Prod.snd)
    (∀ e ∈ pred, e.2.flags = flags → e.2.start ≤ Word.add start size) ∧
      ((∀ e ∈ pred, e.2.flags ≠ flags) → start ≤ Word.add start size ∧
        (s.heap.Stocked nodeExp ∨ ∀ e ∈ pred, ¬ HeapGrows l e))

/-- The entry of `cell` grows by `size`. -/
def enlarge (cell size : Nat) (e : Entry) : Entry :=
  if e.1 = cell then (e.1, { e.2 with endAddr := e.2.endAddr + size }) else e

variable {phys : Phys Env} {s t : Mm Env} {l left right : List Entry} {e e₀ : Entry}
variable {pred succ : Option Entry} {n fuel p cell size start endAddr : Nat} {flags : BitVec 32}

theorem enlarge_fst : (enlarge cell size e).1 = e.1 := by
  rw [enlarge]
  split <;> rfl

theorem enlarge_start : (enlarge cell size e).2.start = e.2.start := by
  rw [enlarge]
  split <;> rfl

theorem map_enlarge (h : ((left ++ e :: right).map Prod.fst).Nodup) :
    (left ++ e :: right).map (enlarge e.1 size) =
      left ++ (e.1, { e.2 with endAddr := e.2.endAddr + size }) :: right := by
  rw [List.map_append, List.map_cons, List.nodup_append, List.nodup_cons] at h
  have hLeft : left.map (enlarge e.1 size) = left := by
    refine (List.map_congr_left fun x hx => ?_).trans (List.map_id left)
    exact if_neg (h.2.2 x.1 (List.mem_map_of_mem hx) e.1 List.mem_cons_self)
  have hRight : right.map (enlarge e.1 size) = right := by
    refine (List.map_congr_left fun x hx => ?_).trans (List.map_id right)
    refine if_neg fun he : x.1 = e.1 => h.2.1.1 ?_
    exact he ▸ List.mem_map_of_mem hx
  rw [List.map_append, List.map_cons, hLeft, hRight, enlarge, if_pos rfl]

/-- The list is known, and so is the area of the new memory: only the order is left to check. -/
theorem kept_iff_sorted {l' : List Entry} {new : Entry} (h : t.vmas.Spells .kernel l')
    (hNew : new ∈ l') (hStart : new.2.start ≤ start) (hEnd : endAddr ≤ new.2.endAddr) :
    Kept l t start endAddr ↔ Sorted l' := by
  constructor
  · rintro ⟨l'', _, h', hSorted, _⟩
    exact h.unique h' ▸ hSorted
  · refine fun hSorted => ⟨l', new, h, hSorted, hNew, hStart, hEnd, fun e he _ hne => ?_⟩
    have hApart : l'.Pairwise fun x y : Entry =>
        x.2.endAddr ≤ y.2.start ∨ y.2.endAddr ≤ x.2.start := hSorted.sorted.imp Or.inl
    have hSymm : Std.Symm fun x y : Entry =>
        x.2.endAddr ≤ y.2.start ∨ y.2.endAddr ≤ x.2.start := ⟨fun _ _ => Or.symm⟩
    exact hApart.forall he hNew hne

/-- What a gap of the heap says in numbers. -/
theorem HeapGrows.spec (h : HeapGrows l e) (hBelow : ∀ e ∈ l, e.2.endAddr ≤ vmaKernMax) :
    ∃ left right, l = left ++ e :: right ∧
      Word.add e.2.endAddr (2 ^ pnodeAlloc) = e.2.endAddr + 2 ^ pnodeAlloc ∧
      (∀ x ∈ right.head?, e.2.endAddr + 2 ^ pnodeAlloc ≤ x.2.start) ∧
      e.2.endAddr + 2 ^ pnodeAlloc ≤ vmaKernMax := by
  obtain ⟨succ, hGap⟩ := h
  obtain ⟨front, right, hSplit, hPred, rfl, hTest⟩ := firstGap_split hGap
  rw [Option.or_none] at hPred
  obtain ⟨left, rfl⟩ := List.getLast?_eq_some_iff.mp hPred.symm
  rw [List.append_assoc, List.singleton_append] at hSplit
  have hLow := hBelow e (by simp [hSplit])
  have hSum : Word.add e.2.endAddr (2 ^ pnodeAlloc) = e.2.endAddr + 2 ^ pnodeAlloc :=
    Word.add_eq ((Nat.add_le_add_right hLow _).trans_lt (by decide))
  have hFits := (fitsGap_spec hTest).2
  simp only [fits, decide_eq_true_eq] at hTest
  have hStart : gapStart Space.kernel.base ((some e).map Prod.snd) = e.2.endAddr := rfl
  rw [hStart, hSum] at hFits hTest
  exact ⟨left, right, hSplit, hSum, hFits, hTest.2.2.le⟩

theorem mapFrames_some {kmalloc : Allocator Env} {npages viraddr : Nat}
    (h : mapFrames phys kmalloc fuel npages size viraddr s = some (t, some p)) :
    p = viraddr ∧ t.vmas = s.vmas := by
  rw [mapFrames] at h
  simp only at h
  split at h
  · simp at h
  · split at h
    · simp at h
    · cases h
      exact ⟨rfl, rfl⟩

/-- When the heap has to grow for a list node, it grows an area of its own. -/
theorem kmalloc_grown (hList : s.vmas.Spells .kernel l) (hBelow : ∀ e ∈ l, e.2.endAddr ≤ vmaKernMax)
    (hStock : ¬ s.heap.Stocked nodeExp) (hCall : kmalloc phys (n + 1) sizeofVma s = some (t, some p)) :
    ∃ e, HeapGrows l e ∧ e.2.flags = vmaHeap ∧ p = Word.add e.2.endAddr sizeofPnode ∧
      t.vmas.Spells .kernel (l.map (enlarge e.1 (2 ^ pnodeAlloc))) := by
  have hExp : pnodeExp (Word.add sizeofVma sizeofPnode) = some nodeExp := rfl
  have hMax : max nodeExp pnodeAlloc = pnodeAlloc := rfl
  have hSpells : s.vmas.Spells (Space.of vmaHeap) l := hList
  rw [kmalloc_empty (by decide) hExp hStock, hMax, palloc_eq (by decide)] at hCall
  obtain ⟨answer, hPalloc, hStamp⟩ := Option.map_eq_some_iff.mp hCall
  obtain ⟨⟨v, start⟩, hAlloc, hMap⟩ := Option.bind_eq_some_iff.mp hPalloc
  obtain ⟨u, _ | q⟩ := answer
  · simp [splitAnswer, stampAnswer] at hStamp
  · have hVmas : t.vmas = u.vmas ∧ p = Word.add q sizeofPnode := by
      cases hStamp
      exact ⟨rfl, rfl⟩
    have hMapped : q = start ∧ u.vmas = v.vmas := by
      split at hMap
      · simp at hMap
      · exact mapFrames_some hMap
    have hStart : start ≠ 0 := by
      intro hZero
      simp [hZero] at hMap
    obtain ⟨pred, succ, ample, hGap, hAmple, hMore⟩ := vmaAlloc_gap hSpells hAlloc hStart
    have hFlags : ∃ e ∈ pred, e.2.flags = vmaHeap := by
      by_contra! hFlags
      rw [vmaAlloc_insert_none hList hGap hFlags (kmalloc_diverges hList hStock hGap hFlags)] at hMore
      cases hMore
    obtain ⟨e, hPred, hHeap⟩ := hFlags
    obtain rfl : pred = some e := hPred
    have hGrows : HeapGrows l e := ⟨succ, hGap⟩
    obtain ⟨left, right, rfl, hSum, _, _⟩ := hGrows.spec hBelow
    rw [vmaAlloc_extend hSpells hAmple hGap (by simp) hHeap, hSum] at hMore
    cases hMore
    refine ⟨e, hGrows, hHeap, by rw [hVmas.2, hMapped.1], ?_⟩
    rw [hVmas.1, hMapped.2, map_enlarge hList.nodup]
    refine hList.modify (f := fun n => { n with endAddr := e.2.endAddr + 2 ^ pnodeAlloc }) rfl rfl ?_
    rw [← hList.area_eq (List.mem_append_right _ List.mem_cons_self)]
    rfl

/-- The list after a successful `kmalloc` of a list node. -/
theorem kmalloc_node (h : Prepared s l) (hCall : kmalloc phys n sizeofVma s = some (t, some p)) :
    p ∉ l.map Prod.fst ∧
      ((s.heap.Stocked nodeExp ∧ t.vmas.Spells .kernel l) ∨
        ∃ e, ¬ s.heap.Stocked nodeExp ∧ HeapGrows l e ∧ e.2.flags = vmaHeap ∧
          t.vmas.Spells .kernel (l.map (enlarge e.1 (2 ^ pnodeAlloc)))) := by
  have hExp : pnodeExp (Word.add sizeofVma sizeofPnode) = some nodeExp := rfl
  cases n with
  | zero => cases hCall
  | succ n =>
      by_cases hStock : s.heap.Stocked nodeExp
      · obtain ⟨k, q, _, hHead, hAnswer⟩ := kmalloc_stocked (by decide) hExp hStock
        rw [hAnswer n] at hCall
        cases hCall
        exact ⟨h.unlisted _ _ hHead, Or.inl ⟨hStock, h.spells⟩⟩
      · obtain ⟨e, hGrows, hHeap, rfl, hSpells⟩ := kmalloc_grown h.spells h.below hStock hCall
        obtain ⟨_, _, _, _, _, hTop⟩ := hGrows.spec h.below
        refine ⟨fun hMem => h.unmapped e hGrows _ hMem ?_, Or.inr ⟨e, hStock, hGrows, hHeap, hSpells⟩⟩
        have hSize : sizeofPnode < 2 ^ pnodeAlloc := by decide
        have hWord : vmaKernMax < 2 ^ 32 := by decide
        rw [Word.add_eq (by omega)]
        omega

theorem HeapGrows.mem (h : HeapGrows l e) (hBelow : ∀ e ∈ l, e.2.endAddr ≤ vmaKernMax) : e ∈ l := by
  obtain ⟨left, right, rfl, _⟩ := h.spec hBelow
  simp

/-- The heap grows into a gap. -/
theorem HeapGrows.sorted (h : HeapGrows l e) (hs : Prepared s l) :
    Sorted (l.map (enlarge e.1 (2 ^ pnodeAlloc))) := by
  obtain ⟨left, right, rfl, _, hFirst, _⟩ := h.spec hs.below
  rw [map_enlarge hs.spells.nodup]
  have hProper := hs.sorted.proper e (by simp)
  have hLast := hs.sorted.middle.1
  exact hs.sorted.replace (hProper.trans (Nat.le_add_right _ _))
    (fun y hy => hLast y (List.mem_of_getLast? hy)) hFirst

theorem HeapGrows.unique (h : HeapGrows l e) (h' : HeapGrows l e₀) : e = e₀ := by
  obtain ⟨_, h⟩ := h
  obtain ⟨_, h'⟩ := h'
  rw [h] at h'
  cases h'
  rfl

/-- A list with one area enlarged takes a new one exactly when its left neighbour still ends
in front of it. -/
theorem sorted_enlarge_iff {new : Entry} (hNodup : ((left ++ right).map Prod.fst).Nodup)
    (hSorted : Sorted ((left ++ right).map (enlarge e.1 size))) (he : e ∈ left ++ right)
    (hLast : ∀ y ∈ left.getLast?, y.2.endAddr ≤ new.2.start)
    (hFirst : ∀ y ∈ right.head?, new.2.endAddr ≤ y.2.start) :
    Sorted (left.map (enlarge e.1 size) ++ new :: right.map (enlarge e.1 size)) ↔
      new.2.start ≤ new.2.endAddr ∧
        (left.getLast? = some e → e.2.endAddr + size ≤ new.2.start) := by
  rw [List.map_append] at hSorted
  constructor
  · intro h
    obtain ⟨hLeft, hProper, _⟩ := h.middle
    refine ⟨hProper, fun hPred => ?_⟩
    have hBelow := hLeft _ (List.mem_map_of_mem (List.mem_of_getLast? hPred))
    rwa [enlarge, if_pos rfl] at hBelow
  · rintro ⟨hProper, hPred⟩
    refine hSorted.insert hProper ?_ ?_
    · intro y hy
      rw [List.getLast?_map] at hy
      obtain ⟨x, hx, rfl⟩ := Option.map_eq_some_iff.mp hy
      rw [enlarge]
      split
      · rename_i hCell
        have hxe : x = e := List.inj_on_of_nodup_map hNodup
          (List.mem_append_left _ (List.mem_of_getLast? hx)) he hCell
        exact hxe ▸ hPred (hxe ▸ hx)
      · exact hLast x hx
    · intro y hy
      rw [List.head?_map] at hy
      obtain ⟨x, hx, rfl⟩ := Option.map_eq_some_iff.mp hy
      rw [enlarge_start]
      exact hFirst x hx

/-- Linking a new node into a list with one area enlarged. -/
theorem insert_enlarged {v : Vmas} {area : Area}
    (h : v.Spells .kernel ((left ++ right).map (enlarge cell size)))
    (hNew : p ∉ (left ++ right).map Prod.fst) :
    (v.insert .kernel p area (left.getLast?.map Prod.fst) (right.head?.map Prod.fst)).Spells .kernel
      (left.map (enlarge cell size) ++ (p, area) :: right.map (enlarge cell size)) := by
  have hFst : Prod.fst ∘ enlarge cell size = Prod.fst := funext fun x => enlarge_fst
  rw [List.map_append] at h
  have hLast : left.getLast?.map Prod.fst = (left.map (enlarge cell size)).getLast?.map Prod.fst := by
    rw [List.getLast?_map, Option.map_map, hFst]
  have hHead : right.head?.map Prod.fst = (right.map (enlarge cell size)).head?.map Prod.fst := by
    rw [List.head?_map, Option.map_map, hFst]
  rw [hLast, hHead]
  refine h.insert ?_
  rw [← List.map_append, List.map_map, hFst]
  exact hNew

/-- The last steps of `vma_add` and `vma_alloc`, with the node from `kmalloc`. -/
theorem withNode_kept_iff {Out : Type} {err out : Out} {area : Area} (h : Prepared s l)
    (hOut : out ≠ err) (hSplit : l = left ++ right)
    (hLast : ∀ y ∈ left.getLast?, y.2.endAddr ≤ area.start)
    (hFirst : ∀ y ∈ right.head?, area.endAddr ≤ y.2.start)
    (hCall : withNode (kmalloc phys n) err (fun new s =>
      let vmas := s.vmas.insert .kernel new area (left.getLast?.map Prod.fst) (right.head?.map Prod.fst)
      ({ s with vmas := vmas }, out)) s = some (t, out)) :
    Kept l t area.start area.endAddr ↔ area.start ≤ area.endAddr ∧
      (s.heap.Stocked nodeExp ∨
        ∀ e ∈ left.getLast?, HeapGrows l e → e.2.endAddr + 2 ^ pnodeAlloc ≤ area.start) := by
  obtain ⟨⟨u, _ | new⟩, hNode, hFill⟩ := Option.map_eq_some_iff.mp hCall
  · cases hFill
    exact absurd rfl hOut
  · obtain ⟨hNew, hCases⟩ := kmalloc_node h hNode
    have hVmas : t.vmas = u.vmas.insert .kernel new area
        (left.getLast?.map Prod.fst) (right.head?.map Prod.fst) := by
      cases hFill
      rfl
    subst hSplit
    rcases hCases with ⟨hStock, hSpells⟩ | ⟨e, hStock, hGrows, _, hSpells⟩
    · have hList : t.vmas.Spells .kernel (left ++ (new, area) :: right) :=
        hVmas ▸ hSpells.insert hNew
      rw [kept_iff_sorted hList (List.mem_append_right _ List.mem_cons_self) le_rfl le_rfl]
      refine (Ordered.insert_iff h.sorted hLast hFirst).trans ⟨fun hArea => ⟨hArea, Or.inl hStock⟩, And.left⟩
    · have hList : t.vmas.Spells .kernel
          (left.map (enlarge e.1 (2 ^ pnodeAlloc)) ++ (new, area) ::
            right.map (enlarge e.1 (2 ^ pnodeAlloc))) := hVmas ▸ insert_enlarged hSpells hNew
      rw [kept_iff_sorted hList (List.mem_append_right _ List.mem_cons_self) le_rfl le_rfl]
      have hSorted : Sorted (left.map (enlarge e.1 (2 ^ pnodeAlloc)) ++ (new, area) ::
          right.map (enlarge e.1 (2 ^ pnodeAlloc))) ↔ area.start ≤ area.endAddr ∧
            (left.getLast? = some e → e.2.endAddr + 2 ^ pnodeAlloc ≤ area.start) :=
        sorted_enlarge_iff h.spells.nodup (hGrows.sorted h) (hGrows.mem h.below) hLast hFirst
      refine hSorted.trans (and_congr_right fun _ => ⟨fun hPred => Or.inr ?_, fun hClean hPred => ?_⟩)
      · intro y hy hy'
        obtain rfl := hy'.unique hGrows
        exact hPred hy
      · exact (hClean.resolve_left hStock) e hPred hGrows

/-- `vma_add` leaves the list in order exactly when the heap has not grown over its gap. -/
theorem vmaAdd_kept_iff (h : Prepared s l) (hKernel : Space.of flags = .kernel)
    (hCall : vmaAdd (kmalloc phys n) fuel start endAddr flags s = some (t, 0)) :
    Kept l t start endAddr ↔ AddClean s l start endAddr := by
  have hSpells : s.vmas.Spells (Space.of flags) l := hKernel ▸ h.spells
  have hMore := vmaAdd_mono (fun _ _ => Partial.Le.refl) (le_max_left fuel (l.length + 2)) _ hCall
  have hFuel : l.length + 2 ≤ max fuel (l.length + 2) := le_max_right _ _
  by_cases hAdd : Addable start endAddr flags
  · cases hGap : firstGap (betweenGap start endAddr) none l with
    | none =>
        rw [vmaAdd_full hSpells hFuel hAdd hGap] at hMore
        simp [einval] at hMore
    | some gap =>
        obtain ⟨pred, succ⟩ := gap
        rw [vmaAdd_insert hSpells hFuel hAdd hGap, hKernel] at hMore
        obtain ⟨left, right, hSplit, hPred, rfl, hTest⟩ := firstGap_split hGap
        rw [Option.or_none] at hPred
        subst hPred
        obtain ⟨hLast, hFirst⟩ := betweenGap_iff.mp hTest
        have hKept : Kept l t start endAddr ↔ start ≤ endAddr ∧ (s.heap.Stocked nodeExp ∨
            ∀ e ∈ left.getLast?, HeapGrows l e → e.2.endAddr + 2 ^ pnodeAlloc ≤ start) :=
          withNode_kept_iff h (by decide) hSplit hLast hFirst hMore
        rw [hKept, and_iff_right hAdd.proper.le, AddClean, hGap]
        refine or_congr Iff.rfl ⟨fun hClean e succ hGrows hSame => ?_, fun hClean e he hGrows => ?_⟩
        · exact hClean e (congrArg Prod.fst (Option.some.inj hSame)) hGrows
        · exact hClean e _ hGrows (by rw [he])
  · rw [vmaAdd_reject hAdd] at hMore
    simp [einval] at hMore

theorem withNode_out {Out : Type} {kmalloc : Allocator Env} {err out r : Out}
    {fill : Nat → Mm Env → Mm Env × Out} (h : withNode kmalloc err fill s = some (t, r))
    (hr : r ≠ err) (hFill : ∀ new s, (fill new s).2 = out) : r = out := by
  obtain ⟨⟨u, _ | new⟩, _, hAnswer⟩ := Option.map_eq_some_iff.mp h
  · cases hAnswer
    exact absurd rfl hr
  · rw [← hFill new u]
    exact (congrArg Prod.snd hAnswer).symm

theorem allocClean_insert (hGap : firstGap (fitsGap .kernel size) none l = some (pred, succ))
    (hFlags : ∀ e ∈ pred, e.2.flags ≠ flags) : AllocClean s l size flags ↔
      gapStart vmaKernMin (pred.map Prod.snd) ≤
          Word.add (gapStart vmaKernMin (pred.map Prod.snd)) size ∧
        (s.heap.Stocked nodeExp ∨ ∀ e ∈ pred, HeapGrows l e → False) := by
  constructor
  · exact fun h => (h pred succ hGap).2 hFlags
  · intro h p q hOther
    rw [hGap] at hOther
    cases hOther
    exact ⟨fun e he hSame => absurd hSame (hFlags e he), fun _ => h⟩

theorem allocClean_extend (hGap : firstGap (fitsGap .kernel size) none l = some (some e, succ))
    (hFlags : e.2.flags = flags) :
    AllocClean s l size flags ↔ e.2.start ≤ Word.add e.2.endAddr size := by
  constructor
  · exact fun h => (h _ succ hGap).1 e rfl hFlags
  · intro h p q hOther
    rw [hGap] at hOther
    cases hOther
    refine ⟨?_, fun hOther => absurd hFlags (hOther e rfl)⟩
    rintro _ ⟨⟩ _
    exact h

/-- `vma_alloc` leaves the list in order exactly when the sum has not wrapped around and the
heap has not grown into its gap. -/
theorem vmaAlloc_kept_iff (h : Prepared s l) (hKernel : Space.of flags = .kernel)
    (hCall : vmaAlloc (kmalloc phys n) fuel size flags s = some (t, start)) (hStart : start ≠ 0) :
    Kept l t start (Word.add start size) ↔ AllocClean s l size flags := by
  have hSpells : s.vmas.Spells (Space.of flags) l := hKernel ▸ h.spells
  obtain ⟨pred, succ, ample, hGap, hFuel, hMore⟩ := vmaAlloc_gap hSpells hCall hStart
  rw [hKernel] at hGap
  obtain ⟨left, right, hSplit, hPred, rfl, hTest⟩ := firstGap_split hGap
  rw [Option.or_none] at hPred
  subst hPred
  obtain ⟨hLast, hFirst⟩ := fitsGap_spec hTest
  by_cases hFlags : ∀ e ∈ left.getLast?, e.2.flags ≠ flags
  · have hMem : ∀ e ∈ left.getLast?, e ∈ l := fun e he =>
      hSplit ▸ List.mem_append_left _ (List.mem_of_getLast? he)
    rw [vmaAlloc_insert hSpells hFuel (hKernel ▸ hGap) hMem hFlags, hKernel] at hMore
    obtain rfl := withNode_out hMore hStart fun _ _ => rfl
    have hKept := withNode_kept_iff h hStart hSplit hLast hFirst hMore
    refine hKept.trans ((and_congr_right fun _ => or_congr Iff.rfl ?_).trans
      (allocClean_insert hGap hFlags).symm)
    refine forall₂_congr fun e he => imp_congr_right fun _ => ?_
    have hEnd : gapStart Space.kernel.base (left.getLast?.map Prod.snd) = e.2.endAddr := by
      rw [show left.getLast? = some e from he]
      rfl
    rw [hEnd]
    exact iff_of_false (Nat.not_le.mpr (Nat.lt_add_of_pos_right (by decide))) id
  · push Not at hFlags
    obtain ⟨e, he, hSame⟩ := hFlags
    obtain ⟨front, rfl⟩ := List.getLast?_eq_some_iff.mp he
    rw [List.append_assoc, List.singleton_append] at hSplit
    subst hSplit
    rw [List.getLast?_concat] at hGap hFirst
    rw [vmaAlloc_extend hSpells hFuel (hKernel ▸ hGap) (by simp) hSame] at hMore
    cases hMore
    let area : Area := { e.2 with endAddr := Word.add e.2.endAddr size }
    have hArea : (s.vmas.node e.1).toArea = e.2 :=
      h.spells.area_eq (List.mem_append_right _ List.mem_cons_self)
    have hList : (s.vmas.setNode e.1 fun n => { n with endAddr := Word.add e.2.endAddr size }).Spells
        .kernel (front ++ (e.1, area) :: right) :=
      h.spells.modify rfl rfl
        (congrArg (fun a : Area => { a with endAddr := Word.add e.2.endAddr size }) hArea)
    have hProper : area.start ≤ e.2.endAddr := h.sorted.proper e (by simp)
    have hNew : (e.1, area) ∈ front ++ (e.1, area) :: right :=
      List.mem_append_right _ List.mem_cons_self
    rw [kept_iff_sorted hList hNew hProper le_rfl, allocClean_extend hGap hSame]
    refine Ordered.insert_iff h.sorted.remove (fun y hy => ?_) hFirst
    exact h.sorted.middle.1 y (List.mem_of_getLast? hy)

/-- A call that succeeds keeps the list in order, and the new memory apart from what the heap
took meanwhile, exactly when it is clean. -/
theorem kept_iff (h : Prepared s l) (hKernel : Space.of flags = .kernel) :
    (∀ start endAddr t, vmaAdd (kmalloc phys n) fuel start endAddr flags s = some (t, 0) →
      (Kept l t start endAddr ↔ AddClean s l start endAddr)) ∧
    ∀ size start t, vmaAlloc (kmalloc phys n) fuel size flags s = some (t, start) → start ≠ 0 →
      (Kept l t start (Word.add start size) ↔ AllocClean s l size flags) :=
  ⟨fun _ _ _ hCall => vmaAdd_kept_iff h hKernel hCall,
    fun _ _ _ hCall hStart => vmaAlloc_kept_iff h hKernel hCall hStart⟩

/-- Page frames that are always there, filled with zeros. -/
def plainPhys : Phys Unit :=
  { getPages := fun _ env => (env, 0x400000)
    putPages := fun _ _ env => env
    pageMap := fun _ _ _ env => (env, 0)
    contents := fun _ _ _ _ _ => 0 }

/-- The state in which the first `vma_add` is called: `vma_boot` and no block in stock. -/
def bootState : Mm Unit :=
  { vmas := { vmaList := some 0x101000, taskVmaList := none, node := fun _ => vmaBoot }
    heap := { mem := fun _ => 0, lists := fun _ => none }
    env := () }

abbrev bootList : List Entry := [(0x101000, vmaBoot.toArea)]

theorem bootState_prepared : Prepared bootState bootList where
  spells := ⟨rfl, rfl, rfl, rfl⟩
  sorted := ordered_cons.mpr ⟨le_rfl, ordered_nil, by simp⟩
  below := by simp only [List.forall_mem_singleton]; decide
  unlisted := fun i p h => by cases h
  unmapped := by
    rintro e ⟨succ, hGap⟩
    have hFirst : firstGap (fitsGap .kernel (2 ^ pnodeAlloc)) none bootList =
        some (some (0x101000, vmaBoot.toArea), none) := by decide
    rw [hFirst] at hGap
    cases hGap
    decide

/-- A page of another kind behind `vma_boot` shares its memory with the heap that grew to
describe it. -/
theorem vmaAlloc_overlaps_heap : ¬ ∀ (phys : Phys Unit) (n fuel : Nat) (s : Mm Unit) (l : List Entry)
    (flags : BitVec 32), Prepared s l → Space.of flags = .kernel →
      (∀ start endAddr t, vmaAdd (kmalloc phys n) fuel start endAddr flags s = some (t, 0) →
        Kept l t start endAddr) ∧
      ∀ size start t, vmaAlloc (kmalloc phys n) fuel size flags s = some (t, start) → start ≠ 0 →
        Kept l t start (Word.add start size) := by
  intro h
  have hStart : (vmaAlloc (kmalloc plainPhys 5) 5 0x1000 vmaRead bootState).map Prod.snd =
      some 0xC0000 := by decide
  obtain ⟨⟨t, start⟩, hCall, rfl⟩ := Option.map_eq_some_iff.mp hStart
  have hKept := (h plainPhys 5 5 bootState bootList vmaRead bootState_prepared rfl).2 0x1000 _ t
    hCall (by decide)
  have hGap : firstGap (fitsGap .kernel 0x1000) none bootList =
      some (some (0x101000, vmaBoot.toArea), none) := by decide
  have hGrows : HeapGrows bootList (0x101000, vmaBoot.toArea) := ⟨none, by decide⟩
  have hClean := (vmaAlloc_kept_iff bootState_prepared rfl hCall (by decide)).mp hKept
  obtain ⟨_, hEmpty⟩ := (allocClean_insert hGap (by rintro e ⟨⟩; decide)).mp hClean
  rcases hEmpty with ⟨k, _, _, hList⟩ | hOther
  · exact hList rfl
  · exact hOther _ rfl hGrows

/-- The areas far from the end of the heap are added without harm. -/
theorem kept_iff_example :
    ∃ t, vmaAdd (kmalloc plainPhys 5) 5 0x200000 0x201000 vmaRead bootState = some (t, 0) ∧
      Kept bootList t 0x200000 0x201000 := by
  have hAnswer : (vmaAdd (kmalloc plainPhys 5) 5 0x200000 0x201000 vmaRead bootState).map Prod.snd =
      some 0 := by decide
  obtain ⟨⟨t, answer⟩, hCall, rfl⟩ := Option.map_eq_some_iff.mp hAnswer
  have hKernel : Space.of vmaRead = .kernel := rfl
  have hIff := (kept_iff bootState_prepared hKernel).1 0x200000 0x201000 t hCall
  refine ⟨t, hCall, hIff.mpr (Or.inr fun e succ hGrows _ => ?_)⟩
  have hFirst : HeapGrows bootList (0x101000, vmaBoot.toArea) := ⟨none, by decide⟩
  obtain rfl := hGrows.unique hFirst
  decide

end ArtOS
