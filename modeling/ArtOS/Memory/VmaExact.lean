import ArtOS.Memory.KmallocEnds
import ArtOS.Memory.NodeSupply

/-! When `vma_alloc`, `vma_add` and `vma_free` keep what they promise, with the `kmalloc` that they call.
In the list of a task they do; in the list of the kernel `kmalloc` may be at work on the same list, and
then every call that takes a node from it breaks its promise. -/
namespace ArtOS

open Intervals

variable {Env : Type} {phys : Phys Env} {kmalloc' : Allocator Env} {s u : Mm Env}
variable {k l left right : List Entry} {e : Entry} {sp : Space} {x : Mm Env × Nat} {y : Mm Env × Int}
variable {n fuel size start endAddr addr p : Nat} {flags : BitVec 32}

theorem Space.eq_kernel (h : sp ≠ .user) : sp = .kernel := by
  cases sp with
  | kernel => rfl
  | user => exact absurd rfl h

/-- Two areas of a sorted list that share an address are one. -/
theorem Sorted.covers_unique {e' : Entry} (h : Sorted l) (he : e ∈ l) (he' : e' ∈ l)
    (hCovers : e.2.Covers addr) (hCovers' : e'.2.Covers addr) : e = e' := by
  by_contra hne
  have hApart : l.Pairwise fun x y : Entry => x.2.endAddr ≤ y.2.start ∨ y.2.endAddr ≤ x.2.start :=
    h.sorted.imp Or.inl
  have hSymm : Std.Symm fun x y : Entry => x.2.endAddr ≤ y.2.start ∨ y.2.endAddr ≤ x.2.start :=
    ⟨fun _ _ => Or.symm⟩
  have hLow := hCovers.1
  have hHigh := hCovers.2
  have hLow' := hCovers'.1
  have hHigh' := hCovers'.2
  rcases hApart.forall he he' hne with hBelow | hBelow <;> omega

/-- The area that the heap has enlarged. -/
theorem HeapGrows.enlarged (h : HeapGrows k e) (hBelow : ∀ e ∈ k, e.2.endAddr ≤ vmaKernMax)
    (hProper : e.2.start ≤ e.2.endAddr) :
    ∃ e' ∈ k.map (enlarge e.1 (2 ^ pnodeAlloc)), e'.1 = e.1 ∧ e'.2.Covers e.2.endAddr := by
  refine ⟨_, List.mem_map_of_mem (h.mem hBelow), enlarge_fst, ?_⟩
  rw [enlarge, if_pos rfl]
  exact ⟨hProper, Nat.lt_add_of_pos_right (Nat.two_pow_pos pnodeAlloc)⟩

/-- A new area between areas of which the heap has enlarged one: more is assigned than the new area. -/
theorem HeapGrows.assigns_more {area : Area} (hGrows : HeapGrows (left ++ right) e)
    (hs : Prepared s (left ++ right)) (hFresh : p ∉ (left ++ right).map Prod.fst)
    (hSorted : Sorted (left.map (enlarge e.1 (2 ^ pnodeAlloc)) ++
      (p, area) :: right.map (enlarge e.1 (2 ^ pnodeAlloc)))) :
    ∃ addr, ¬ area.Covers addr ∧ assigns (left ++ right) addr = none ∧
      assigns (left.map (enlarge e.1 (2 ^ pnodeAlloc)) ++
        (p, area) :: right.map (enlarge e.1 (2 ^ pnodeAlloc))) addr ≠ none := by
  have hMem := hGrows.mem hs.below
  obtain ⟨e', he', hCell, hCovers⟩ := hGrows.enlarged hs.below (hs.sorted.proper e hMem)
  have hIn : e' ∈ left.map (enlarge e.1 (2 ^ pnodeAlloc)) ++
      (p, area) :: right.map (enlarge e.1 (2 ^ pnodeAlloc)) := by
    rw [List.map_append, List.mem_append] at he'
    exact List.mem_append.mpr (he'.imp_right (List.mem_cons_of_mem _))
  refine ⟨e.2.endAddr, fun hNew => hFresh ?_, hGrows.unassigned hs.sorted hs.below le_rfl (Nat.lt_add_of_pos_right (Nat.two_pow_pos _)),
    fun hNone => assigns_eq_none_iff.mp hNone e' hIn hCovers⟩
  have hSame := Sorted.covers_unique hSorted hIn (List.mem_append_right _ List.mem_cons_self) hCovers hNew
  rw [← show e'.1 = p from congrArg Prod.fst hSame, hCell]
  exact List.mem_map_of_mem hMem

theorem Endless.none (h : Endless s k) (hs : Prepared s k) : kmalloc phys n sizeofVma s = none := by
  obtain ⟨hStock, pred, succ, hGap, hFlags⟩ := h
  exact kmalloc_diverges hs.spells hStock hGap hFlags

/-- Where the request for a node does not go on for ever, it is answered. -/
theorem NodeReady.answered (phys : Phys Env) (h : NodeReady s k) (hEnds : ¬ Endless s k) :
    ∃ n answer, kmalloc phys n sizeofVma s = some answer := by
  rcases h.supply phys with ⟨hEndless, _⟩ | ⟨u, new, ⟨n, hAll⟩, _⟩
  · exact absurd hEndless hEnds
  · exact ⟨n, _, hAll n le_rfl⟩

/-! The kernel's own list, before and after the first `vma_add`. -/

theorem bootState_nodeReady : NodeReady bootState bootList where
  toPrepared := bootState_prepared
  returnable := by
    rintro e hGrows _
    have hFirst : HeapGrows bootList (0x101000, vmaBoot.toArea) := ⟨none, by decide⟩
    obtain rfl := hGrows.unique hFirst
    exact ⟨fun hMagic => absurd hMagic (by decide), Or.inr (by decide)⟩

/-- The heap has nothing in stock yet, and grows from `vma_boot`. -/
theorem bootState_not_calm : ¬ Calm plainPhys bootState bootList := by
  rintro (⟨i, _, _, hSome⟩ | hAll)
  · exact hSome rfl
  · exact Nat.lt_irrefl _ (hAll (0x101000, vmaBoot.toArea) ⟨none, by decide⟩ rfl).2

/-- Halving a block does not concern the lists of larger ones. -/
theorem lists_splitDown {h : Heap} {exp m i : Nat} (hExp : pnodeMin ≤ exp) (hi : exp + m - pnodeMin ≤ i) :
    (splitDown exp p m h).lists i = h.lists i := by
  induction m generalizing exp with
  | zero => rfl
  | succ m ih =>
      rw [splitDown, splitBlock, Heap.lists_push_of_ne (by omega)]
      exact ih (by omega) (by omega)

theorem initState_nodeReady : NodeReady initState initList := by
  obtain ⟨k, hReady⟩ := initState_atHome.nodeReady fun i hi => by
    have hLists : initState.heap.lists i = (splitDown nodeExp 0xC0000 (pnodeAlloc - nodeExp)
      (mapped 0xC0000 (2 ^ pnodeAlloc) (fun _ => 0) bootState.heap)).lists i := rfl
    rw [hLists, lists_splitDown (by decide) (le_trans (by decide) hi)]
    rfl
  have hSpells : initState.vmas.Spells .kernel initList := ⟨rfl, rfl, rfl, rfl, rfl, rfl, rfl⟩
  exact hSpells.unique hReady.spells ▸ hReady

theorem initState_calm : Calm plainPhys initState initList :=
  Or.inl ⟨nodeExp, le_rfl, by decide, by decide⟩

/-! `vma_alloc`. -/

section Alloc

/-- A call that needs a new area asks for a node. -/
theorem NewArea.call (hNew : NewArea flags size l) (hSpells : s.vmas.Spells (Space.of flags) l) :
    ∃ left right : List Entry, l = left ++ right ∧
      fitsGap (Space.of flags) size left.getLast? right.head? = true ∧
      ∀ kmalloc' fuel, l.length + 2 ≤ fuel → vmaAlloc kmalloc' fuel size flags s =
        let start := gapStart (Space.of flags).base (left.getLast?.map Prod.snd)
        let area := { start := start, endAddr := Word.add start size, flags := flags }
        withNode kmalloc' 0 (fun new s =>
          ({ s with
            vmas := s.vmas.insert (Space.of flags) new area (left.getLast?.map Prod.fst)
              (right.head?.map Prod.fst) }, start)) s := by
  obtain ⟨pred, succ, hGap, hFlags⟩ := hNew
  obtain ⟨left, right, rfl, hPred, rfl, hTest⟩ := firstGap_split hGap
  rw [Option.or_none] at hPred
  subst hPred
  refine ⟨left, right, rfl, hTest, fun kmalloc' fuel hFuel =>
    vmaAlloc_insert hSpells hFuel hGap (fun e he => ?_) hFlags⟩
  exact List.mem_append_left _ (List.mem_of_getLast? he)

theorem NewArea.asks (hNew : NewArea flags size l) (hSpells : s.vmas.Spells (Space.of flags) l)
    (hRun : vmaAlloc kmalloc' fuel size flags s = some x) :
    ∃ u new, kmalloc' sizeofVma s = some (u, new) := by
  obtain ⟨left, right, _, _, hCall⟩ := hNew.call hSpells
  have hMore := vmaAlloc_mono (fun _ _ => Partial.Le.refl) (le_max_left fuel (l.length + 2)) _ hRun
  rw [hCall kmalloc' _ (le_max_right _ _)] at hMore
  obtain ⟨⟨u, new⟩, hNode, _⟩ := Option.map_eq_some_iff.mp hMore
  exact ⟨u, new, hNode⟩

variable (h : Listing s k (Space.of flags) l) (hBounds : Unwrapping (Space.of flags) l size)
include h hBounds

theorem Listing.vmaAlloc_returns : (∃ n fuel x, vmaAlloc (kmalloc phys n) fuel size flags s = some x) ↔
    ¬ (NewArea flags size l ∧ Endless s k) := by
  constructor
  · rintro ⟨n, fuel, x, hRun⟩ ⟨hNew, hEndless⟩
    obtain ⟨u, new, hNode⟩ := hNew.asks h.list hRun
    rw [hEndless.none h.toPrepared] at hNode
    cases hNode
  · intro hEnds
    by_cases hNew : NewArea flags size l
    · obtain ⟨n, answer, hNode⟩ := h.answered phys fun hEndless => hEnds ⟨hNew, hEndless⟩
      obtain ⟨left, right, _, _, hCall⟩ := hNew.call h.list
      have hRun := hCall (kmalloc phys n) _ le_rfl
      rw [withNode, hNode, Option.map_some] at hRun
      exact ⟨n, _, _, hRun⟩
    · have hAnswer : NewArea flags size l → NodeAnswer (kmalloc phys 0) (Space.of flags) l s s none :=
        fun hOther => absurd hOther hNew
      exact ⟨0, (vmaAlloc_first_fit h.list h.order hBounds hAnswer).1⟩

/-- The areas are left alone, or no node is needed, or the list is not the kernel's. -/
theorem Listing.vmaAlloc_fits
    (hCalm : Space.of flags = .user ∨ Calm phys s k ∨ ¬ NewArea flags size l)
    (hRun : vmaAlloc (kmalloc phys n) fuel size flags s = some x) :
    FirstFit flags size l (∃ n u, kmalloc phys n sizeofVma s = some (u, none)) x.1 x.2 := by
  by_cases hNew : NewArea flags size l
  · obtain ⟨u, new, hNode⟩ := hNew.asks h.list hRun
    have hAnswer : NodeAnswer (kmalloc phys n) (Space.of flags) l s u new :=
      h.answer (hCalm.imp_right fun hOr => hOr.resolve_right (not_not.mpr hNew)) hNode
        (h.supply_of_call hNode)
    have hFit := (vmaAlloc_first_fit h.list h.order hBounds fun _ => hAnswer).2 fuel x hRun
    refine ⟨hFit.found, hFit.same, fun hZero => (hFit.full hZero).imp_left ?_⟩
    rintro rfl
    exact ⟨n, u, hNode⟩
  · have hAnswer : NewArea flags size l → NodeAnswer (kmalloc phys n) (Space.of flags) l s s (some 0) :=
      fun hOther => absurd hOther hNew
    have hFit := (vmaAlloc_first_fit h.list h.order hBounds hAnswer).2 fuel x hRun
    exact ⟨hFit.found, hFit.same, fun hZero => (hFit.full hZero).imp_left fun hNone => by cases hNone⟩

/-- Where `kmalloc` changes the list of the kernel, the promise is broken. -/
theorem Listing.vmaAlloc_not_fits {failed : Prop} (hKernel : Space.of flags = .kernel)
    (hCalm : ¬ Calm phys s k) (hNew : NewArea flags size l) :
    ∃ n fuel x, vmaAlloc (kmalloc phys n) fuel size flags s = some x ∧
      ¬ FirstFit flags size l failed x.1 x.2 := by
  obtain rfl : l = k := (hKernel ▸ h).eq
  obtain ⟨left, right, rfl, hTest, hCall⟩ := hNew.call h.list
  obtain ⟨n, u, new, hNode, hCases⟩ := h.disturbed hCalm
  have hRun := hCall (kmalloc phys n) _ le_rfl
  rw [withNode, hNode, Option.map_some] at hRun
  refine ⟨n, _, _, hRun, fun hFit => ?_⟩
  rcases hCases with ⟨rfl, hOther⟩ | ⟨p, e, rfl, hNext, hGrows, hSpells⟩
  · exact hOther (hKernel ▸ hFit.same rfl)
  · have hFresh := h.fresh hNext
    have hAdd := hBounds.add_eq
    obtain ⟨l', hList, hSorted, hAssigns⟩ := (hFit.found (fitsGap_start_ne hTest)).list
    rw [hKernel] at hAdd hList hAssigns
    obtain rfl := hList.unique (insert_enlarged hSpells hFresh)
    obtain ⟨addr, hOutside, hOld, hMore⟩ := hGrows.assigns_more h.toPrepared hFresh hSorted
    refine hMore ((hAssigns addr).trans ((if_neg ?_).trans hOld))
    rw [Area.Covers, hAdd] at hOutside
    exact hOutside

/-- `vma_alloc` answers unless the request for a list node goes on for ever, and it is first fit in every
answer exactly if it works on the list of a task, or needs no new area, or `kmalloc` leaves the areas
alone. -/
theorem vmaAlloc_fits_iff (phys : Phys Env) :
    ((∃ n fuel x, vmaAlloc (kmalloc phys n) fuel size flags s = some x) ↔
      ¬ (NewArea flags size l ∧ Endless s k)) ∧
    ((∀ n fuel x, vmaAlloc (kmalloc phys n) fuel size flags s = some x →
        FirstFit flags size l (∃ n u, kmalloc phys n sizeofVma s = some (u, none)) x.1 x.2) ↔
      Space.of flags = .user ∨ Calm phys s k ∨ ¬ NewArea flags size l) := by
  refine ⟨h.vmaAlloc_returns hBounds, fun hAll => ?_, fun hCalm n fuel x hRun =>
    h.vmaAlloc_fits hBounds hCalm hRun⟩
  by_contra hNot
  push Not at hNot
  obtain ⟨hUser, hCalm, hNew⟩ := hNot
  obtain ⟨n, fuel, x, hRun, hWrong⟩ := h.vmaAlloc_not_fits hBounds (Space.eq_kernel hUser) hCalm hNew
  exact hWrong (hAll n fuel x hRun)

end Alloc

/-- A page behind the kernel, with a node in stock. -/
theorem vmaAlloc_fits_iff_init : ∃ n fuel x,
    vmaAlloc (kmalloc plainPhys n) fuel 0x1000 vmaRead initState = some x ∧
      FirstFit vmaRead 0x1000 initList (∃ n u, kmalloc plainPhys n sizeofVma initState = some (u, none))
        x.1 x.2 := by
  have hList : Listing initState initList (Space.of vmaRead) initList := initState_nodeReady.listing
  have hBounds : Unwrapping (Space.of vmaRead) initList 0x1000 := ⟨by decide, by decide, by decide⟩
  obtain ⟨hReturns, hFits⟩ := vmaAlloc_fits_iff hList hBounds plainPhys
  have hEnds : ¬ Endless initState initList := fun hEndless =>
    hEndless.1 ⟨nodeExp, le_rfl, by decide, by decide⟩
  obtain ⟨n, fuel, x, hRun⟩ := hReturns.mpr fun hBoth => hEnds hBoth.2
  exact ⟨n, fuel, x, hRun, hFits.mpr (Or.inr (Or.inl initState_calm)) n fuel x hRun⟩

/-- A page behind `vma_boot` with nothing in stock. -/
theorem vmaAlloc_boot_not_fits : ¬ ∀ (phys : Phys Unit) (s : Mm Unit) (k l : List Entry) (size : Nat)
    (flags : BitVec 32), Listing s k (Space.of flags) l → Unwrapping (Space.of flags) l size →
      ∀ n fuel x, vmaAlloc (kmalloc phys n) fuel size flags s = some x →
        FirstFit flags size l (∃ n u, kmalloc phys n sizeofVma s = some (u, none)) x.1 x.2 := by
  intro hAll
  have hList : Listing bootState bootList (Space.of vmaRead) bootList := bootState_nodeReady.listing
  have hBounds : Unwrapping (Space.of vmaRead) bootList 0x1000 := ⟨by decide, by decide, by decide⟩
  have hNew : NewArea vmaRead 0x1000 bootList :=
    ⟨some (0x101000, vmaBoot.toArea), none, by decide, by rintro e ⟨⟩; decide⟩
  obtain ⟨n, fuel, x, hRun, hWrong⟩ := hList.vmaAlloc_not_fits hBounds rfl bootState_not_calm hNew
  exact hWrong (hAll plainPhys bootState bootList bootList 0x1000 vmaRead hList hBounds n fuel x hRun)

/-! `vma_add`. -/

section Add

/-- A call with a range that is free asks for a node. -/
theorem Placeable.call (hFree : Placeable flags start endAddr l)
    (hSpells : s.vmas.Spells (Space.of flags) l) (hSorted : Sorted l) :
    ∃ left right : List Entry, l = left ++ right ∧
      ∀ kmalloc' fuel, l.length + 2 ≤ fuel → vmaAdd kmalloc' fuel start endAddr flags s =
        let area := { start := start, endAddr := endAddr, flags := flags }
        withNode kmalloc' (-enomem) (fun new s =>
          ({ s with
            vmas := s.vmas.insert (Space.of flags) new area (left.getLast?.map Prod.fst)
              (right.head?.map Prod.fst) }, 0)) s := by
  obtain ⟨left, right, hSplit, hTest⟩ := hSorted.place hFree.2
  cases hGap : firstGap (betweenGap start endAddr) none l with
  | none =>
      have hFail := firstGap_none hGap left right hSplit
      rw [Option.or_none, hTest] at hFail
      cases hFail
  | some gap =>
      obtain ⟨pred, succ⟩ := gap
      obtain ⟨left, right, rfl, hPred, rfl, _⟩ := firstGap_split hGap
      rw [Option.or_none] at hPred
      subst hPred
      exact ⟨left, right, rfl, fun kmalloc' fuel hFuel => vmaAdd_insert hSpells hFuel hFree.1 hGap⟩

theorem Placeable.asks (hFree : Placeable flags start endAddr l)
    (hSpells : s.vmas.Spells (Space.of flags) l) (hSorted : Sorted l)
    (hRun : vmaAdd kmalloc' fuel start endAddr flags s = some y) :
    ∃ u new, kmalloc' sizeofVma s = some (u, new) := by
  obtain ⟨left, right, _, hCall⟩ := hFree.call hSpells hSorted
  have hMore := vmaAdd_mono (fun _ _ => Partial.Le.refl) (le_max_left fuel (l.length + 2)) _ hRun
  rw [hCall kmalloc' _ (le_max_right _ _)] at hMore
  obtain ⟨⟨u, new⟩, hNode, _⟩ := Option.map_eq_some_iff.mp hMore
  exact ⟨u, new, hNode⟩

/-- `kmalloc` answers the request for a list node with this one. -/
def GivesNode (phys : Phys Env) (s : Mm Env) (p : Nat) : Prop :=
  ∃ n u, kmalloc phys n sizeofVma s = some (u, some p)

variable (h : Listing s k (Space.of flags) l)
include h

theorem Listing.vmaAdd_returns :
    (∃ n fuel x, vmaAdd (kmalloc phys n) fuel start endAddr flags s = some x) ↔
      ¬ (Placeable flags start endAddr l ∧ Endless s k) := by
  constructor
  · rintro ⟨n, fuel, x, hRun⟩ ⟨hFree, hEndless⟩
    obtain ⟨u, new, hNode⟩ := hFree.asks h.list h.order hRun
    rw [hEndless.none h.toPrepared] at hNode
    cases hNode
  · intro hEnds
    by_cases hFree : Placeable flags start endAddr l
    · obtain ⟨n, answer, hNode⟩ := h.answered phys fun hEndless => hEnds ⟨hFree, hEndless⟩
      obtain ⟨left, right, _, hCall⟩ := hFree.call h.list h.order
      have hRun := hCall (kmalloc phys n) _ le_rfl
      rw [withNode, hNode, Option.map_some] at hRun
      exact ⟨n, _, _, hRun⟩
    · have hAnswer : Placeable flags start endAddr l →
          NodeAnswer (kmalloc phys 0) (Space.of flags) l s s none := fun hOther => absurd hOther hFree
      exact ⟨0, (vmaAdd_exact h.list h.order hAnswer).1⟩

theorem Listing.vmaAdd_adds
    (hCalm : Space.of flags = .user ∨ Calm phys s k ∨ ¬ Placeable flags start endAddr l)
    (hRun : vmaAdd (kmalloc phys n) fuel start endAddr flags s = some y) :
    Added flags start endAddr l (GivesNode phys s) y.1 y.2 := by
  by_cases hFree : Placeable flags start endAddr l
  · obtain ⟨u, new, hNode⟩ := hFree.asks h.list h.order hRun
    have hAnswer : NodeAnswer (kmalloc phys n) (Space.of flags) l s u new :=
      h.answer (hCalm.imp_right fun hOr => hOr.resolve_right (not_not.mpr hFree)) hNode
        (h.supply_of_call hNode)
    have hAdded := (vmaAdd_exact h.list h.order fun _ => hAnswer).2 fuel y hRun
    have hGives : ∀ p, p ∈ new ↔ GivesNode phys s p := by
      intro p
      constructor
      · rintro rfl
        exact ⟨n, u, hNode⟩
      · rintro ⟨m, v, hOther⟩
        have hMore := kmalloc_mono (Nat.le_max_left n m) _ hNode
        rw [kmalloc_mono (Nat.le_max_right n m) _ hOther] at hMore
        cases hMore
        rfl
    exact ⟨by simpa only [hGives] using hAdded.succeeds, by simpa only [hGives] using hAdded.list,
      hAdded.same⟩
  · have hAnswer : Placeable flags start endAddr l →
        NodeAnswer (kmalloc phys n) (Space.of flags) l s s (some 0) := fun hOther => absurd hOther hFree
    have hAdded := (vmaAdd_exact h.list h.order hAnswer).2 fuel y hRun
    have hError : y.2 ≠ 0 := fun hZero => hFree (hAdded.succeeds.mp hZero).1
    exact ⟨iff_of_false hError fun hAll => hFree hAll.1, fun hZero => absurd hZero hError, hAdded.same⟩

theorem Listing.vmaAdd_not_adds {gives : Nat → Prop} (hKernel : Space.of flags = .kernel)
    (hCalm : ¬ Calm phys s k) (hFree : Placeable flags start endAddr l) :
    ∃ n fuel x, vmaAdd (kmalloc phys n) fuel start endAddr flags s = some x ∧
      ¬ Added flags start endAddr l gives x.1 x.2 := by
  obtain rfl : l = k := (hKernel ▸ h).eq
  obtain ⟨left, right, rfl, hCall⟩ := hFree.call h.list h.order
  obtain ⟨n, u, new, hNode, hCases⟩ := h.disturbed hCalm
  have hRun := hCall (kmalloc phys n) _ le_rfl
  rw [withNode, hNode, Option.map_some] at hRun
  refine ⟨n, _, _, hRun, fun hAdded => ?_⟩
  rcases hCases with ⟨rfl, hOther⟩ | ⟨p, e, rfl, hNext, hGrows, hSpells⟩
  · exact hOther (hKernel ▸ hAdded.same (show (-enomem : Int) ≠ 0 by decide))
  · have hFresh := h.fresh hNext
    obtain ⟨left', right', q, _, hSplit, hList, hSorted⟩ := hAdded.list rfl
    rw [hKernel] at hList
    have hSame := hList.unique (insert_enlarged hSpells hFresh)
    have hBoth := hSorted
    rw [hSame] at hSorted
    obtain ⟨addr, hOutside, hOld, hMore⟩ := hGrows.assigns_more h.toPrepared hFresh hSorted
    refine hMore ?_
    rw [← hSame, hBoth.assigns_middle, if_neg hOutside, ← hSplit]
    exact hOld

/-- `vma_add` answers unless the request for a list node goes on for ever, and it does exactly what it
promises in every answer exactly if it works on the list of a task, or has no place for the area, or
`kmalloc` leaves the areas alone. -/
theorem vmaAdd_adds_iff (phys : Phys Env) (start endAddr : Nat) :
    ((∃ n fuel x, vmaAdd (kmalloc phys n) fuel start endAddr flags s = some x) ↔
      ¬ (Placeable flags start endAddr l ∧ Endless s k)) ∧
    ((∀ n fuel x, vmaAdd (kmalloc phys n) fuel start endAddr flags s = some x →
        Added flags start endAddr l (GivesNode phys s) x.1 x.2) ↔
      Space.of flags = .user ∨ Calm phys s k ∨ ¬ Placeable flags start endAddr l) := by
  refine ⟨h.vmaAdd_returns, fun hAll => ?_, fun hCalm n fuel x hRun => h.vmaAdd_adds hCalm hRun⟩
  by_contra hNot
  push Not at hNot
  obtain ⟨hUser, hCalm, hFree⟩ := hNot
  obtain ⟨n, fuel, x, hRun, hWrong⟩ := h.vmaAdd_not_adds (Space.eq_kernel hUser) hCalm hFree
  exact hWrong (hAll n fuel x hRun)

end Add

/-- The page behind the kernel is added with the node in stock. -/
theorem vmaAdd_adds_iff_init : ∃ n fuel x,
    vmaAdd (kmalloc plainPhys n) fuel 0x200000 0x201000 vmaRead initState = some x ∧
      Added vmaRead 0x200000 0x201000 initList (GivesNode plainPhys initState) x.1 x.2 := by
  have hList : Listing initState initList (Space.of vmaRead) initList := initState_nodeReady.listing
  obtain ⟨hReturns, hAdds⟩ := vmaAdd_adds_iff hList plainPhys 0x200000 0x201000
  have hEnds : ¬ Endless initState initList := fun hEndless =>
    hEndless.1 ⟨nodeExp, le_rfl, by decide, by decide⟩
  obtain ⟨n, fuel, x, hRun⟩ := hReturns.mpr fun hBoth => hEnds hBoth.2
  exact ⟨n, fuel, x, hRun, hAdds.mpr (Or.inr (Or.inl initState_calm)) n fuel x hRun⟩

/-- The first `vma_add` of `vma_init` extends `vma_boot` as well. -/
theorem vmaAdd_boot_not_adds : ¬ ∀ (phys : Phys Unit) (s : Mm Unit) (k l : List Entry)
    (start endAddr : Nat) (flags : BitVec 32), Listing s k (Space.of flags) l →
      ∀ n fuel x, vmaAdd (kmalloc phys n) fuel start endAddr flags s = some x →
        Added flags start endAddr l (GivesNode phys s) x.1 x.2 := by
  intro hAll
  have hAdded := hAll plainPhys bootState bootList bootList 0x100000 0x200000 (vmaHeap ||| vmaExecute)
    bootState_nodeReady.listing 4 4 _ vmaAdd_boot
  obtain ⟨left, right, p, _, hSplit, hList, _⟩ := hAdded.list rfl
  have hInit : initState.vmas.Spells (Space.of (vmaHeap ||| vmaExecute)) initList :=
    ⟨rfl, rfl, rfl, rfl, rfl, rfl, rfl⟩
  have hBoot : (0x101000, vmaBoot.toArea) ∈ left ++ (p, kernelArea) :: right := by
    have hMem : (0x101000, vmaBoot.toArea) ∈ left ++ right := hSplit ▸ List.mem_singleton_self _
    exact List.mem_append.mpr ((List.mem_append.mp hMem).imp_right (List.mem_cons_of_mem _))
  have hOther : (0x101000, vmaBoot.toArea) ∉ initList := by decide
  exact hOther (hList.unique hInit ▸ hBoot)

/-! `vma_free`. -/

section Free

variable (h : Listing s k sp (left ++ e :: right)) (hIn : Within sp e start endAddr)
include h hIn

/-- What `vma_free` does with any sufficient fuel. -/
theorem Listing.vmaFree_eq (hFuel : (left ++ e :: right).length < fuel) :
    vmaFree kmalloc' kfree fuel start endAddr s = vmaRelease kmalloc' kfree sp e.1 start endAddr s := by
  rw [vmaFree_search h.list hFuel hIn.proper hIn.space, h.order.find hIn.proper hIn.low hIn.high]
  rfl

/-- A range inside the area, which touches neither of its ends, takes a node. -/
theorem Listing.vmaFree_split (kmalloc' : Allocator Env) (hStart : start ≠ e.2.start)
    (hEnd : endAddr ≠ e.2.endAddr) (hFuel : (left ++ e :: right).length < fuel) :
    vmaFree kmalloc' kfree fuel start endAddr s = withNode kmalloc' (-enomem) (fun new s =>
      ({ s with vmas := s.vmas.split e.1 new start endAddr }, 0)) s := by
  have hArea : (s.vmas.node e.1).toArea = e.2 := h.list.area_eq (by simp)
  rw [h.vmaFree_eq hIn hFuel, vmaRelease, Vmas.area, hArea, if_neg fun hBoth => hStart hBoth.1,
    if_neg hStart, if_neg hEnd]

theorem Listing.vmaFree_asks (hStart : start ≠ e.2.start) (hEnd : endAddr ≠ e.2.endAddr)
    (hRun : vmaFree kmalloc' kfree fuel start endAddr s = some y) :
    ∃ u new, kmalloc' sizeofVma s = some (u, new) := by
  have hMore := vmaFree_mono (fun _ _ => Partial.Le.refl)
    (le_max_left fuel ((left ++ e :: right).length + 1)) _ hRun
  rw [h.vmaFree_split hIn kmalloc' hStart hEnd (Nat.lt_of_succ_le (le_max_right _ _))] at hMore
  obtain ⟨⟨u, new⟩, hNode, _⟩ := Option.map_eq_some_iff.mp hMore
  exact ⟨u, new, hNode⟩

/-- Where the heap grows meanwhile, the address behind its old end is assigned afterwards. -/
theorem Listing.vmaFree_not_freed (hKernel : sp = .kernel) (hCalm : ¬ Calm phys s k)
    (hStart : start ≠ e.2.start) (hEnd : endAddr ≠ e.2.endAddr) :
    ∃ n fuel x, vmaFree (kmalloc phys n) kfree fuel start endAddr s = some x ∧
      ¬ Freed sp start endAddr (left ++ e :: right) x.1 x.2 := by
  subst hKernel
  obtain rfl := h.eq
  have hHigh := hIn.high
  obtain ⟨n, u, new, hNode, hCases⟩ := h.disturbed hCalm
  have hRun := h.vmaFree_split hIn (kmalloc phys n) hStart hEnd (Nat.lt_succ_self _)
  rw [withNode, hNode, Option.map_some] at hRun
  refine ⟨n, _, _, hRun, fun hFreed => ?_⟩
  rcases hCases with ⟨rfl, hOther⟩ | ⟨p, g, rfl, hNext, hGrows, hSpells⟩
  · exact hOther (hFreed.same (show (-enomem : Int) ≠ 0 by decide))
  · have hFresh := h.fresh hNext
    obtain ⟨l', hList, _, hAssigns⟩ := hFreed.list rfl
    have hFst : (left ++ e :: right).map (Prod.fst ∘ enlarge g.1 (2 ^ pnodeAlloc)) =
        (left ++ e :: right).map Prod.fst := List.map_congr_left fun x _ => enlarge_fst
    rw [← hFst, ← List.map_map, List.map_append, List.map_cons] at hFresh
    rw [List.map_append, List.map_cons] at hSpells
    have hCell : (enlarge g.1 (2 ^ pnodeAlloc) e).1 = e.1 := enlarge_fst
    cases right with
    | cons x right =>
        refine hSpells.not_split hFresh (a := start) (b := endAddr) l' ?_
        rw [hCell]
        exact hList
    | nil =>
        have hSplit := hSpells.split_last hFresh (a := start) (b := endAddr)
        rw [hCell] at hSplit
        obtain rfl := hList.unique hSplit
        have hAt := hAssigns g.2.endAddr
        rw [hGrows.unassigned h.sorted h.below le_rfl (Nat.lt_add_of_pos_right (Nat.two_pow_pos _)), ite_self] at hAt
        have hFree := assigns_eq_none_iff.mp hAt
        obtain ⟨e', he', hCell', hCovers⟩ :=
          hGrows.enlarged h.below (h.order.proper g (hGrows.mem h.below))
        rw [List.map_append, List.mem_append, List.map_singleton, List.mem_singleton] at he'
        rcases he' with he' | rfl
        · exact hFree e' (List.mem_append_left _ he') hCovers
        · have hSame : g = e := List.inj_on_of_nodup_map h.list.nodup (hGrows.mem h.below) (by simp)
            (hCell'.symm.trans hCell)
          refine hFree _ (List.mem_append_right _ (List.mem_cons_of_mem _ List.mem_cons_self)) ⟨?_, hCovers.2⟩
          rw [hSame]
          exact hHigh

/-- What `vma_free` may rely on when it has to split the area: `kmalloc` does not change the list, and a
node that it gives already holds the flags of the area, which is the last one. -/
def Splits (phys : Phys Env) (s : Mm Env) (k : List Entry) (sp : Space) (e : Entry)
    (right : List Entry) : Prop :=
  (sp = .user ∨ Calm phys s k) ∧
    ∀ p, NextNode phys s k p → right = [] ∧ (s.vmas.node p).flags = e.2.flags

variable (hFreeable : s.heap.Freeable e.1)
include hFreeable

omit h hIn in
theorem kfree_node : ∃ t, kfree e.1 { s with vmas := s.vmas.unlink sp e.1 } = some t ∧
    t.vmas = s.vmas.unlink sp e.1 := by
  obtain ⟨t, hCall⟩ := Heap.Freeable.kfree (s := { s with vmas := s.vmas.unlink sp e.1 }) hFreeable
  exact ⟨t, hCall, (kfree_freesOnly _ _ _ hCall).1⟩

theorem Listing.vmaFree_frees
    (hCond : start = e.2.start ∨ endAddr = e.2.endAddr ∨ Splits phys s k sp e right)
    (hRun : vmaFree (kmalloc phys n) kfree fuel start endAddr s = some y) :
    Freed sp start endAddr (left ++ e :: right) y.1 y.2 := by
  by_cases hInside : start ≠ e.2.start ∧ endAddr ≠ e.2.endAddr
  · obtain ⟨hStart, hEnd⟩ := hInside
    obtain ⟨hCalm, hNode⟩ := (hCond.resolve_left hStart).resolve_left hEnd
    obtain ⟨u, new, hCall⟩ := h.vmaFree_asks hIn hStart hEnd hRun
    have hSupply := h.supply_of_call hCall
    have hAnswer : NodeAnswer (kmalloc phys n) sp (left ++ e :: right) s u new :=
      h.answer hCalm hCall hSupply
    refine (vmaFree_freed_iff h.order hIn h.list (fun _ _ => hAnswer) (kfree_node hFreeable)).2.mpr
      (Or.inr (Or.inr ?_)) fuel y hRun
    rintro p ⟨⟩
    obtain ⟨hLast, hFlags⟩ := hNode p hSupply.next
    refine ⟨hLast, ?_⟩
    rw [hSupply.node h.toPrepared (h.toNodeReady.listing.fresh hSupply.next)]
    exact hFlags
  · have hEnds : start = e.2.start ∨ endAddr = e.2.endAddr := by
      rwa [not_and_or, not_not, not_not] at hInside
    have hAnswer : start ≠ e.2.start → endAddr ≠ e.2.endAddr →
        NodeAnswer (kmalloc phys n) sp (left ++ e :: right) s s none :=
      fun hStart hEnd => absurd ⟨hStart, hEnd⟩ hInside
    exact (vmaFree_freed_iff h.order hIn h.list hAnswer (kfree_node hFreeable)).2.mpr
      (hEnds.imp_right Or.inl) fuel y hRun

/-- A node that cannot be relied on shows. -/
theorem Listing.splits_of_freed (hStart : start ≠ e.2.start) (hEnd : endAddr ≠ e.2.endAddr)
    (hAll : ∀ n fuel x, vmaFree (kmalloc phys n) kfree fuel start endAddr s = some x →
      Freed sp start endAddr (left ++ e :: right) x.1 x.2) : Splits phys s k sp e right := by
  have hCalm : sp = .user ∨ Calm phys s k := by
    by_contra hCalm
    rw [not_or] at hCalm
    obtain ⟨n, fuel, x, hRun, hBroken⟩ :=
      h.vmaFree_not_freed hIn (Space.eq_kernel hCalm.1) hCalm.2 hStart hEnd
    exact hBroken (hAll n fuel x hRun)
  refine ⟨hCalm, fun p hNext => ?_⟩
  obtain ⟨n, ⟨u, new⟩, hNode⟩ := h.answered phys hNext.ends
  have hSupply := h.supply_of_call hNode
  obtain rfl := hSupply.answer hNext
  have hAnswer : NodeAnswer (kmalloc phys n) sp (left ++ e :: right) s u (some p) :=
    h.answer hCalm hNode hSupply
  have hNoSplit := (vmaFree_freed_iff h.order hIn h.list (fun _ _ => hAnswer)
    (kfree_node hFreeable)).2.mp (hAll n)
  obtain ⟨hLast, hFlags⟩ := (hNoSplit.resolve_left hStart).resolve_left hEnd p rfl
  rw [hSupply.node h.toPrepared (h.toNodeReady.listing.fresh hNext)] at hFlags
  exact ⟨hLast, hFlags⟩

theorem Listing.vmaFree_returns :
    (∃ n fuel x, vmaFree (kmalloc phys n) kfree fuel start endAddr s = some x) ↔
      ¬ (start ≠ e.2.start ∧ endAddr ≠ e.2.endAddr ∧ Endless s k) := by
  constructor
  · rintro ⟨n, fuel, x, hRun⟩ ⟨hStart, hEnd, hEndless⟩
    obtain ⟨u, new, hNode⟩ := h.vmaFree_asks hIn hStart hEnd hRun
    rw [hEndless.none h.toPrepared] at hNode
    cases hNode
  · intro hEnds
    by_cases hInside : start ≠ e.2.start ∧ endAddr ≠ e.2.endAddr
    · obtain ⟨n, answer, hNode⟩ := h.answered phys fun hEndless =>
        hEnds ⟨hInside.1, hInside.2, hEndless⟩
      have hRun := h.vmaFree_split hIn (kmalloc phys n) hInside.1 hInside.2
        (Nat.lt_succ_self _)
      rw [withNode, hNode, Option.map_some] at hRun
      exact ⟨n, _, _, hRun⟩
    · have hAnswer : start ≠ e.2.start → endAddr ≠ e.2.endAddr →
          NodeAnswer (kmalloc phys 0) sp (left ++ e :: right) s s none :=
        fun hStart hEnd => absurd ⟨hStart, hEnd⟩ hInside
      exact ⟨0, (vmaFree_freed_iff h.order hIn h.list hAnswer (kfree_node hFreeable)).1⟩

/-- `vma_free` answers unless the request for a list node goes on for ever, and it frees the range and
nothing else in every answer exactly if it does not have to split the area or can rely on the node that it
splits it with. -/
theorem vmaFree_frees_iff (phys : Phys Env) :
    ((∃ n fuel x, vmaFree (kmalloc phys n) kfree fuel start endAddr s = some x) ↔
      ¬ (start ≠ e.2.start ∧ endAddr ≠ e.2.endAddr ∧ Endless s k)) ∧
    ((∀ n fuel x, vmaFree (kmalloc phys n) kfree fuel start endAddr s = some x →
        Freed sp start endAddr (left ++ e :: right) x.1 x.2) ↔
      start = e.2.start ∨ endAddr = e.2.endAddr ∨ Splits phys s k sp e right) := by
  refine ⟨h.vmaFree_returns hIn hFreeable, fun hAll => ?_, fun hCond n fuel x hRun =>
    h.vmaFree_frees hIn hFreeable hCond hRun⟩
  by_cases hStart : start = e.2.start
  · exact Or.inl hStart
  · by_cases hEnd : endAddr = e.2.endAddr
    · exact Or.inr (Or.inl hEnd)
    · exact Or.inr (Or.inr (h.splits_of_freed hIn hFreeable hStart hEnd hAll))

end Free

theorem initState_freeable : initState.heap.Freeable 0xC0004 := fun _ => by decide

/-- Cutting off the first page of the kernel. -/
theorem vmaFree_frees_iff_init : ∃ n fuel x,
    vmaFree (kmalloc plainPhys n) kfree fuel 0x100000 0x101000 initState = some x ∧
      Freed .kernel 0x100000 0x101000 initList x.1 x.2 := by
  have hList : Listing initState initList .kernel
      ([(0x101000, { start := 0xC0000, endAddr := 0xD0000, flags := vmaHeap })] ++
        (0xC0004, kernelArea) :: []) := initState_nodeReady.listing
  have hIn : Within .kernel (0xC0004, kernelArea) 0x100000 0x101000 :=
    ⟨by decide, rfl, le_rfl, by decide⟩
  obtain ⟨hReturns, hFrees⟩ := vmaFree_frees_iff hList hIn initState_freeable plainPhys
  obtain ⟨n, fuel, x, hRun⟩ := hReturns.mpr fun hInside => hInside.1 rfl
  exact ⟨n, fuel, x, hRun, hFrees.mpr (Or.inl rfl) n fuel x hRun⟩

/-- Pages cut out of the middle of the kernel: what lies behind them gets the flags that the memory of the
new node happens to hold. -/
theorem vmaFree_init_not_frees : ¬ ∀ (phys : Phys Unit) (s : Mm Unit) (k left right : List Entry)
    (e : Entry) (sp : Space) (start endAddr : Nat), Listing s k sp (left ++ e :: right) →
      Within sp e start endAddr → s.heap.Freeable e.1 →
      ∀ n fuel x, vmaFree (kmalloc phys n) kfree fuel start endAddr s = some x →
        Freed sp start endAddr (left ++ e :: right) x.1 x.2 := by
  intro hAll
  have hList : Listing initState initList .kernel
      ([(0x101000, { start := 0xC0000, endAddr := 0xD0000, flags := vmaHeap })] ++
        (0xC0004, kernelArea) :: []) := initState_nodeReady.listing
  have hIn : Within .kernel (0xC0004, kernelArea) 0x120000 0x130000 :=
    ⟨by decide, rfl, by decide, by decide⟩
  have hSplits := hList.splits_of_freed hIn initState_freeable (by decide) (by decide)
    (hAll plainPhys _ _ _ _ _ _ _ _ hList hIn initState_freeable)
  have hHead : initState.heap.lists (nodeExp + 0 - pnodeMin) = some 0xC0020 := by decide
  have hNext : NextNode plainPhys initState initList (Word.add 0xC0020 sizeofPnode) :=
    .stock (n := 0) (fun j hLow hHigh => absurd hHigh (Nat.not_lt.mpr hLow)) hHead (by decide)
  exact absurd (hSplits.2 _ hNext).2 (by decide)

end ArtOS
