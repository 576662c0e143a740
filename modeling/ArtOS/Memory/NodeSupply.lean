import ArtOS.Memory.KernelHeap
import ArtOS.Memory.VmaUndo

/-! What the request for a list node leaves behind. With a block in stock, or without room to grow,
`kmalloc` does nothing to the areas. Otherwise it enlarges an area of the heap, and when `palloc` gets no
page frames for it, takes the new part back: with the whole area, if there was nothing else in it. -/
namespace ArtOS

open Intervals

variable {Env : Type}

/-- `palloc` gets page frames for the next 64 KiB of the heap, and `page_map` puts them there. -/
def Phys.Backs (phys : Phys Env) (env : Env) (viraddr : Nat) : Prop :=
  let (env, phyaddr) := phys.getPages 16 env
  phyaddr ≠ 0 ∧ (phys.pageMap viraddr phyaddr 16 env).2 = 0

/-- A request for a list node leaves the areas alone. -/
def Calm (phys : Phys Env) (s : Mm Env) (k : List Entry) : Prop :=
  s.heap.Stocked nodeExp ∨ ∀ e, HeapGrows k e → e.2.flags = vmaHeap →
    ¬ phys.Backs s.env e.2.endAddr ∧ e.2.start < e.2.endAddr

/-- A request for a list node needs another one first. -/
def Endless (s : Mm Env) (k : List Entry) : Prop :=
  ¬ s.heap.Stocked nodeExp ∧ ∃ pred succ,
    firstGap (fitsGap .kernel (2 ^ pnodeAlloc)) none k = some (pred, succ) ∧
      ∀ e ∈ pred, e.2.flags ≠ vmaHeap

/-- The next list node: the front of the smallest block in stock, or of the memory behind the area that
the heap enlarges. -/
inductive NextNode (phys : Phys Env) (s : Mm Env) (k : List Entry) : Nat → Prop where
  | stock {n p : Nat}
      (hBelow : ∀ j, nodeExp ≤ j → j < nodeExp + n → s.heap.lists (j - pnodeMin) = none)
      (hHead : s.heap.lists (nodeExp + n - pnodeMin) = some p) (hTop : nodeExp + n < pnodeMax) :
      NextNode phys s k (Word.add p sizeofPnode)
  | grown {e : Entry} (hStock : ¬ s.heap.Stocked nodeExp) (hGrows : HeapGrows k e)
      (hFlags : e.2.flags = vmaHeap) (hBacks : phys.Backs s.env e.2.endAddr) :
      NextNode phys s k (Word.add e.2.endAddr sizeofPnode)

/-- The area is 64 KiB longer. -/
def Vmas.enlarge (v : Vmas) (e : Entry) : Vmas :=
  v.setNode e.1 fun n => { n with endAddr := e.2.endAddr + 2 ^ pnodeAlloc }

/-- What `kmalloc` of a list node answers, and what becomes of the areas. -/
inductive NodeSupply (phys : Phys Env) (s : Mm Env) (k : List Entry) : Mm Env → Option Nat → Prop where
  | stock {u : Mm Env} {p : Nat} (hCalm : Calm phys s k) (hNext : NextNode phys s k p)
      (hVmas : u.vmas = s.vmas) : NodeSupply phys s k u (some p)
  | refused {u : Mm Env} (hCalm : Calm phys s k) (hNone : ∀ p, ¬ NextNode phys s k p)
      (hVmas : u.vmas = s.vmas) : NodeSupply phys s k u none
  | grown {u : Mm Env} {p : Nat} (e : Entry) (hCalm : ¬ Calm phys s k) (hNext : NextNode phys s k p)
      (hGrows : HeapGrows k e)
      (hVmas : u.vmas = s.vmas.enlarge e) :
      NodeSupply phys s k u (some p)
  | dropped {u : Mm Env} (e : Entry) (hCalm : ¬ Calm phys s k) (hNone : ∀ p, ¬ NextNode phys s k p)
      (hGrows : HeapGrows k e) (hVmas : u.vmas = (s.vmas.enlarge e).unlink .kernel e.1) : NodeSupply phys s k u none

/-- `kfree` of this node does not leave the free lists. -/
def Heap.Freeable (h : Heap) (p : Nat) : Prop :=
  h.magic (Word.sub p sizeofPnode) = pnodeMagic →
    pnodeMin ≤ h.exponent (Word.sub p sizeofPnode) ∧ h.exponent (Word.sub p sizeofPnode) ≤ pnodeMax

/-- Where the heap grows from an area that has nothing in it yet, `kfree` can take the node of that
area, and its prefix lies outside the new pages. -/
structure Returnable (s : Mm Env) (e : Entry) : Prop where
  freeable : s.heap.Freeable e.1
  apart : Word.sub e.1 sizeofPnode + sizeofPnode ≤ e.2.endAddr ∨
    e.2.endAddr + 2 ^ pnodeAlloc ≤ Word.sub e.1 sizeofPnode

variable {phys : Phys Env} {kmalloc' : Allocator Env} {s t u v : Mm Env} {k l left right : List Entry}
variable {e : Entry} {p n fuel viraddr size : Nat} {new : Option Nat}

theorem Heap.Freeable.kfree (h : s.heap.Freeable p) : ∃ t, kfree p s = some t := by
  rw [ArtOS.kfree]
  split
  · exact ⟨s, rfl⟩
  · dsimp only
    split
    · exact ⟨s, rfl⟩
    · rename_i hMagic
      rw [Heap.pnodePut, if_pos (h (not_not.mp hMagic))]
      exact ⟨_, rfl⟩

/-- New pages elsewhere leave the prefix of a node as it is. -/
theorem Heap.Freeable.mapped {h : Heap} {contents : Nat → BitVec 8} (hFree : h.Freeable p)
    (hApart : Word.sub p sizeofPnode + sizeofPnode ≤ viraddr ∨
      viraddr + size ≤ Word.sub p sizeofPnode) :
    (ArtOS.mapped viraddr size contents h).Freeable p := by
  have hWord : sizeofPnode = 4 := rfl
  have hOutside : ∀ x < 4, (ArtOS.mapped viraddr size contents h).mem (Word.sub p sizeofPnode + x) =
      h.mem (Word.sub p sizeofPnode + x) := by
    intro x hx
    refine if_neg fun hIn => ?_
    omega
  have hMagic : (ArtOS.mapped viraddr size contents h).magic (Word.sub p sizeofPnode) =
      h.magic (Word.sub p sizeofPnode) := by
    rw [magic, magic, hOutside 3 (by decide), hOutside 2 (by decide)]
  have hFirst := hOutside 0 (by decide)
  rw [Nat.add_zero] at hFirst
  rw [Freeable, hMagic, exponent, hFirst]
  exact hFree

/-- Where the heap grows, nothing is assigned yet. -/
theorem HeapGrows.unassigned {addr : Nat} (h : HeapGrows k e) (hSorted : Sorted k)
    (hBelow : ∀ e ∈ k, e.2.endAddr ≤ vmaKernMax) (hLow : e.2.endAddr ≤ addr)
    (hHigh : addr < e.2.endAddr + 2 ^ pnodeAlloc) : assigns k addr = none := by
  obtain ⟨left, right, rfl, _, hFirst, _⟩ := h.spec hBelow
  obtain ⟨hBefore, hProper, _⟩ := hSorted.middle
  rw [Sorted.assigns_middle hSorted, if_neg fun hCovers => absurd hCovers.2 (Nat.not_lt.mpr hLow)]
  refine assigns_gap (Sorted.apart hSorted.remove (fun y hy => ?_) hFirst) hLow hHigh
  exact (hBefore y (List.mem_of_getLast? hy)).trans hProper

/-- What a gap of the heap says about its upper end. -/
theorem HeapGrows.lt_top (h : HeapGrows k e) (hBelow : ∀ e ∈ k, e.2.endAddr ≤ vmaKernMax) :
    e.2.endAddr + 2 ^ pnodeAlloc < vmaKernMax := by
  obtain ⟨left, right, _, hSum, _, _⟩ := h.spec hBelow
  obtain ⟨succ, hGap⟩ := h
  obtain ⟨_, _, _, _, _, hTest⟩ := firstGap_split hGap
  simp only [fits, decide_eq_true_eq] at hTest
  rw [← hSum]
  exact hTest.2.2

theorem Vmas.Spells.enlarge {v : Vmas} (h : v.Spells .kernel (left ++ e :: right)) :
    (v.enlarge e).Spells .kernel
      (left ++ (e.1, { e.2 with endAddr := e.2.endAddr + 2 ^ pnodeAlloc }) :: right) := by
  have hArea : (v.node e.1).toArea = e.2 := h.area_eq (by simp)
  exact h.modify (f := fun n => { n with endAddr := e.2.endAddr + 2 ^ pnodeAlloc }) rfl rfl
    (by rw [← hArea])

/-- What `palloc` has enlarged it takes back. -/
theorem vmaFree_enlarged (kmalloc' : Allocator Env) (hSpells : s.vmas.Spells .kernel (left ++ e :: right))
    (hVmas : v.vmas = s.vmas.enlarge e)
    (hSorted : Sorted (left ++ (e.1, { e.2 with endAddr := e.2.endAddr + 2 ^ pnodeAlloc }) :: right))
    (hProper : e.2.start ≤ e.2.endAddr) (hTop : e.2.endAddr + 2 ^ pnodeAlloc < vmaKernMax)
    (hFree : e.2.start = e.2.endAddr → v.heap.Freeable e.1)
    (hFuel : (left ++ e :: right).length < fuel) :
    ∃ t ret, vmaFree kmalloc' kfree fuel e.2.endAddr (e.2.endAddr + 2 ^ pnodeAlloc) v = some (t, ret) ∧
      t.vmas = if e.2.start = e.2.endAddr then (s.vmas.enlarge e).unlink .kernel e.1 else s.vmas := by
  have hArea : (s.vmas.node e.1).toArea = e.2 := hSpells.area_eq (by simp)
  have hGrown : v.vmas.Spells .kernel
      (left ++ (e.1, { e.2 with endAddr := e.2.endAddr + 2 ^ pnodeAlloc }) :: right) := by
    rw [hVmas]
    exact hSpells.enlarge
  have hIn : Within .kernel (e.1, { e.2 with endAddr := e.2.endAddr + 2 ^ pnodeAlloc }) e.2.endAddr
      (e.2.endAddr + 2 ^ pnodeAlloc) :=
    ⟨Nat.lt_add_of_pos_right (by decide), if_pos hTop, hProper, le_rfl⟩
  have hEnd : vmaFree kmalloc' kfree fuel e.2.endAddr (e.2.endAddr + 2 ^ pnodeAlloc) v = _ :=
    vmaFree_end hGrown hSorted hIn (by simpa using hFuel)
  by_cases hEmpty : e.2.start = e.2.endAddr
  · obtain ⟨t, hCall⟩ := Heap.Freeable.kfree
      (s := { v with vmas := v.vmas.unlink .kernel e.1 }) (hFree hEmpty)
    refine ⟨t, 0, hEnd.trans ?_, ?_⟩
    · rw [if_pos hEmpty.symm, hCall]
      rfl
    · rw [if_pos hEmpty, (kfree_freesOnly _ _ _ hCall).1, hVmas]
  · refine ⟨_, 0, hEnd.trans (if_neg (Ne.symm hEmpty)), ?_⟩
    have hOld : { s.vmas.node e.1 with endAddr := e.2.endAddr } = s.vmas.node e.1 := by
      rw [← hArea]
    rw [if_neg hEmpty, hVmas, Vmas.enlarge, Vmas.setNode, Vmas.setNode]
    simp [hOld]

/-- The state of the kernel list and of the heap in which a list node is asked for. -/
structure NodeReady (s : Mm Env) (k : List Entry) : Prop extends Prepared s k where
  returnable : ∀ e, HeapGrows k e → e.2.start = e.2.endAddr → Returnable s e

/-- Without page frames the heap gives up the area again, if there was nothing else in it. -/
theorem nodeSupply_unbacked (hStock : ¬ s.heap.Stocked nodeExp) (hGrows : HeapGrows k e)
    (hFlags : e.2.flags = vmaHeap) (hProper : e.2.start ≤ e.2.endAddr)
    (hBacks : ¬ phys.Backs s.env e.2.endAddr) (hVmas : u.vmas =
      if e.2.start = e.2.endAddr then (s.vmas.enlarge e).unlink .kernel e.1 else s.vmas) :
    NodeSupply phys s k u none := by
  have hNone : ∀ p, ¬ NextNode phys s k p := by
    rintro _ (⟨_, hHead, hTop⟩ | ⟨_, hx, _, hOther⟩)
    · exact hStock ⟨_, Nat.le_add_right _ _, hTop, by simp [hHead]⟩
    · exact hBacks (hx.unique hGrows ▸ hOther)
  by_cases hEmpty : e.2.start = e.2.endAddr
  · rw [if_pos hEmpty] at hVmas
    refine .dropped e (fun hCalm => ?_) hNone hGrows hVmas
    have hRoom := ((hCalm.resolve_left hStock) e hGrows hFlags).2
    omega
  · rw [if_neg hEmpty] at hVmas
    refine .refused (Or.inr fun x hx _ => ?_) hNone hVmas
    obtain rfl := hx.unique hGrows
    exact ⟨hBacks, by omega⟩

/-- The second half of `palloc`, behind an area of the heap. -/
theorem NodeReady.mapFrames (phys : Phys Env) (kmalloc' : Allocator Env) (h : NodeReady s k)
    (hStock : ¬ s.heap.Stocked nodeExp) (hGrows : HeapGrows k e) (hFlags : e.2.flags = vmaHeap)
    (hVmas : v.vmas = s.vmas.enlarge e) (hHeap : v.heap = s.heap) (hEnv : v.env = s.env)
    (hFuel : k.length < fuel) :
    ∃ u new, mapFrames phys kmalloc' fuel 16 (2 ^ pnodeAlloc) e.2.endAddr v = some (u, new) ∧
      NodeSupply phys s k u (new.map fun p => Word.add p sizeofPnode) := by
  have hTop := hGrows.lt_top h.below
  have hOrder := hGrows.sorted h.toPrepared
  obtain ⟨left, right, rfl, _, _, _⟩ := hGrows.spec h.below
  rw [map_enlarge h.spells.nodup] at hOrder
  have hProper : e.2.start ≤ e.2.endAddr := h.sorted.proper e (by simp)
  have hAdd : Word.add e.2.endAddr (2 ^ pnodeAlloc) = e.2.endAddr + 2 ^ pnodeAlloc :=
    Word.add_eq (hTop.trans (by decide))
  rw [ArtOS.mapFrames]
  simp only [hEnv, hAdd]
  split
  · rename_i hNone
    obtain ⟨t, ret, hCall, ht⟩ := vmaFree_enlarged kmalloc'
      (v := { v with env := (phys.getPages 16 s.env).1 }) h.spells hVmas hOrder hProper hTop
      (fun hEmpty => by
        rw [show Mm.heap _ = s.heap from hHeap]
        exact (h.returnable e hGrows hEmpty).freeable) hFuel
    rw [hCall]
    exact ⟨t, none, rfl, nodeSupply_unbacked hStock hGrows hFlags hProper (fun hBacks => hBacks.1 hNone) ht⟩
  · rename_i hSome
    split
    · rename_i hErr
      obtain ⟨t, ret, hCall, ht⟩ := vmaFree_enlarged kmalloc'
        (v := { v with
          env := (phys.pageMap e.2.endAddr (phys.getPages 16 s.env).2 16 (phys.getPages 16 s.env).1).1
          heap := mapped e.2.endAddr (2 ^ pnodeAlloc) (phys.contents e.2.endAddr
            (phys.getPages 16 s.env).2 16 (phys.getPages 16 s.env).1) v.heap })
        h.spells hVmas hOrder hProper hTop
        (fun hEmpty => by
          have hReturn := h.returnable e hGrows hEmpty
          rw [hHeap]
          exact hReturn.freeable.mapped hReturn.apart) hFuel
      rw [hCall]
      exact ⟨_, none, rfl, nodeSupply_unbacked hStock hGrows hFlags hProper (fun hBacks => hErr hBacks.2) ht⟩
    · rename_i hErr
      have hBacks : phys.Backs s.env e.2.endAddr := ⟨hSome, not_not.mp hErr⟩
      refine ⟨_, some e.2.endAddr, rfl, .grown e (fun hCalm => ?_) (.grown hStock hGrows hFlags hBacks)
        hGrows hVmas⟩
      exact ((hCalm.resolve_left hStock) e hGrows hFlags).1 hBacks

/-- A block in stock becomes the node. -/
theorem kmalloc_stock (phys : Phys Env) (hStock : s.heap.Stocked nodeExp) :
    ∃ u p, (∀ n, kmalloc phys (n + 1) sizeofVma s = some (u, some p)) ∧ NextNode phys s k p ∧
      u.vmas = s.vmas := by
  have hExp : pnodeExp (Word.add sizeofVma sizeofPnode) = some nodeExp := rfl
  obtain ⟨j, q, hBelow, hHead, hTop⟩ := hStock.least
  have hCall : ∀ n, kmalloc phys (n + 1) sizeofVma s = some (stampAnswer nodeExp (splitAnswer nodeExp j
      (s.mapHeap fun h => h.setList (nodeExp + j - pnodeMin) (h.next q), some q))) := by
    intro n
    rw [kmalloc, kmallocWith_eq (by decide) hExp, pnodeGet_stocked hBelow hHead hTop (by omega)]
    rfl
  exact ⟨_, _, hCall, .stock hBelow hHead hTop, rfl⟩

/-- The heap grows behind one of its areas for the node. -/
theorem NodeReady.kmalloc_grows (h : NodeReady s k) (hStock : ¬ s.heap.Stocked nodeExp) (hGrows : HeapGrows k e)
    (hFlags : e.2.flags = vmaHeap) :
    ∃ u new, (∃ m, ∀ n, m ≤ n → kmalloc phys n sizeofVma s = some (u, new)) ∧
      NodeSupply phys s k u new := by
  have hExp : pnodeExp (Word.add sizeofVma sizeofPnode) = some nodeExp := rfl
  have hMax : max nodeExp pnodeAlloc = pnodeAlloc := rfl
  have hPages : pageFloor (1 <<< pnodeAlloc) >>> pageBits = 16 := by decide
  have hSpells : s.vmas.Spells (Space.of vmaHeap) k := h.spells
  have hMem := hGrows.mem h.below
  have hSum : Word.add e.2.endAddr (2 ^ pnodeAlloc) = e.2.endAddr + 2 ^ pnodeAlloc :=
    Word.add_eq ((hGrows.lt_top h.below).trans (by decide))
  obtain ⟨succ, hGap⟩ := id hGrows
  have hNonzero : e.2.endAddr ≠ 0 := by
    obtain ⟨_, _, _, _, _, hTest⟩ := firstGap_split hGap
    exact fitsGap_start_ne hTest
  obtain ⟨v, hv⟩ : ∃ v, v = { s with vmas := s.vmas.enlarge e } := ⟨_, rfl⟩
  obtain ⟨u, new, hFrames, hSupply⟩ := h.mapFrames phys (kmalloc phys (k.length + 2))
    (v := v) hStock hGrows hFlags (by rw [hv]) (by rw [hv]) (by rw [hv])
    (by omega : k.length < k.length + 2)
  have hCall : kmalloc phys (k.length + 3) sizeofVma s =
      some (stampAnswer nodeExp (splitAnswer nodeExp (pnodeAlloc - nodeExp) (u, new))) := by
    have hAlloc : vmaAlloc (kmalloc phys (k.length + 2)) (k.length + 2) (2 ^ pnodeAlloc) vmaHeap s =
        some (v, e.2.endAddr) := by
      rw [vmaAlloc_extend hSpells le_rfl hGap hMem hFlags, hSum, hv]
      rfl
    rw [kmalloc_empty (by decide) hExp hStock, hMax, palloc_eq (by decide), hAlloc, Option.bind_some,
      if_neg hNonzero, hPages, hFrames, Option.map_some]
  refine ⟨_, _, ⟨k.length + 3, fun n hn => kmalloc_mono hn _ hCall⟩, ?_⟩
  cases new with
  | none => exact hSupply
  | some p =>
      cases hSupply with
      | stock hCalm hNext hVmas => exact .stock hCalm hNext hVmas
      | grown e hCalm hNext hGrows hVmas => exact .grown e hCalm hNext hGrows hVmas

/-- A request for a list node goes on for ever, or leaves the areas in one of these ways. -/
theorem NodeReady.supply (phys : Phys Env) (h : NodeReady s k) :
    Endless s k ∧ (∀ n, kmalloc phys n sizeofVma s = none) ∨
      ∃ u new, (∃ m, ∀ n, m ≤ n → kmalloc phys n sizeofVma s = some (u, new)) ∧
        NodeSupply phys s k u new := by
  have hExp : pnodeExp (Word.add sizeofVma sizeofPnode) = some nodeExp := rfl
  by_cases hStock : s.heap.Stocked nodeExp
  · obtain ⟨u, p, hCall, hNext, hVmas⟩ := kmalloc_stock (k := k) phys hStock
    refine Or.inr ⟨u, some p, ⟨1, fun n hn => ?_⟩, .stock (Or.inl hStock) hNext hVmas⟩
    obtain ⟨n, rfl⟩ := Nat.exists_eq_add_of_le' hn
    exact hCall n
  · cases hGap : firstGap (fitsGap .kernel (2 ^ pnodeAlloc)) none k with
    | none =>
        have hMax : max nodeExp pnodeAlloc = pnodeAlloc := rfl
        have hSpells : s.vmas.Spells (Space.of vmaHeap) k := h.spells
        have hCall : kmalloc phys (k.length + 3) sizeofVma s = some (s, none) := by
          rw [kmalloc_empty (by decide) hExp hStock, hMax, palloc_eq (by decide),
            vmaAlloc_full hSpells le_rfl hGap]
          rfl
        have hNot : ∀ e, ¬ HeapGrows k e := by
          rintro e ⟨succ, hSome⟩
          rw [hGap] at hSome
          cases hSome
        refine Or.inr ⟨s, none, ⟨k.length + 3, fun n hn => kmalloc_mono hn _ hCall⟩,
          .refused (Or.inr fun e hGrows => absurd hGrows (hNot e)) ?_ rfl⟩
        rintro _ (⟨_, hHead, hTop⟩ | ⟨_, hGrows, _, _⟩)
        · exact hStock ⟨_, Nat.le_add_right _ _, hTop, by simp [hHead]⟩
        · exact hNot _ hGrows
    | some gap =>
        obtain ⟨pred, succ⟩ := gap
        by_cases hFlags : ∀ e ∈ pred, e.2.flags ≠ vmaHeap
        · exact Or.inl ⟨⟨hStock, pred, succ, hGap, hFlags⟩,
            fun n => kmalloc_diverges h.spells hStock hGap hFlags⟩
        · push Not at hFlags
          obtain ⟨e, rfl, hHeap⟩ := hFlags
          exact Or.inr (h.kmalloc_grows hStock ⟨succ, hGap⟩ hHeap)

/-- Whatever a request for a list node answers, it is one of these. -/
theorem NodeReady.supply_of_call (h : NodeReady s k) (hCall : kmalloc phys n sizeofVma s = some (u, new)) :
    NodeSupply phys s k u new := by
  rcases h.supply phys with ⟨_, hNone⟩ | ⟨u', new', ⟨m, hAll⟩, hSupply⟩
  · rw [hNone n] at hCall
    cases hCall
  · have hMore := kmalloc_mono (Nat.le_max_left n m) _ hCall
    rw [hAll _ (Nat.le_max_right n m)] at hMore
    cases hMore
    exact hSupply

/-- A list of areas beside the kernel's own: none of its nodes is in memory that is still free, or in
the kernel's list if it is another one. -/
structure Listing (s : Mm Env) (k : List Entry) (sp : Space) (l : List Entry) : Prop
    extends NodeReady s k where
  list : s.vmas.Spells sp l
  order : Sorted l
  apart : sp = .user → ∀ p ∈ l.map Prod.fst, p ∉ k.map Prod.fst
  unlistedNode : ∀ i p, s.heap.lists i = some p → Word.add p sizeofPnode ∉ l.map Prod.fst
  unmappedNode : ∀ e, HeapGrows k e → ∀ p ∈ l.map Prod.fst,
    ¬ (e.2.endAddr ≤ p ∧ p < e.2.endAddr + 2 ^ pnodeAlloc)

theorem NodeReady.listing (h : NodeReady s k) : Listing s k .kernel k where
  toNodeReady := h
  list := h.spells
  order := h.sorted
  apart := fun hUser => absurd hUser (by decide)
  unlistedNode := h.unlisted
  unmappedNode := h.unmapped

variable {sp : Space}

theorem Listing.eq (h : Listing s k .kernel l) : l = k := h.list.unique h.spells

/-- The next node is not in the list yet. -/
theorem Listing.fresh (h : Listing s k sp l) (hNext : NextNode phys s k p) : p ∉ l.map Prod.fst := by
  cases hNext with
  | stock _ hHead _ => exact h.unlistedNode _ _ hHead
  | grown _ hGrows _ _ =>
      intro hMem
      have hTop := hGrows.lt_top h.below
      have hWord : vmaKernMax < 2 ^ 32 := by decide
      have hSize : sizeofPnode < 2 ^ pnodeAlloc := by decide
      refine h.unmappedNode _ hGrows _ hMem ?_
      rw [Word.add_eq (by omega)]
      omega

/-- The list of the kernel while the heap has one area enlarged. -/
theorem Prepared.spells_enlarge (h : Prepared s k) (hGrows : HeapGrows k e) :
    (s.vmas.enlarge e).Spells .kernel (k.map (enlarge e.1 (2 ^ pnodeAlloc))) := by
  obtain ⟨left, right, rfl, _⟩ := hGrows.spec h.below
  rw [map_enlarge h.spells.nodup]
  exact h.spells.enlarge

/-- The list of a task does not notice what `kmalloc` does to the one of the kernel. -/
theorem Listing.user (h : Listing s k .user l) (hSupply : NodeSupply phys s k u new) :
    u.vmas.Spells .user l := by
  have hEnlarged : ∀ e, HeapGrows k e → (s.vmas.enlarge e).Spells .user l := by
    intro e hGrows
    refine h.list.congr Vmas.list_setNode fun p hp => ?_
    rw [Vmas.enlarge, Vmas.node_setNode, if_neg]
    rintro rfl
    exact h.apart rfl _ hp (List.mem_map_of_mem (hGrows.mem h.below))
  cases hSupply with
  | stock _ _ hVmas => exact hVmas ▸ h.list
  | refused _ _ hVmas => exact hVmas ▸ h.list
  | grown e _ _ hGrows hVmas => exact hVmas ▸ hEnlarged e hGrows
  | dropped e _ _ hGrows hVmas =>
      rw [hVmas]
      have hKernel := h.spells_enlarge hGrows
      obtain ⟨left, right, rfl, _⟩ := hGrows.spec h.below
      rw [map_enlarge h.spells.nodup] at hKernel
      refine hKernel.unlink_other (e := (e.1, _)) (hEnlarged e hGrows) (by decide) fun p hp => ?_
      have hApart := h.apart rfl p hp
      simpa using hApart

theorem NodeSupply.calm (h : NodeSupply phys s k u new) (hCalm : Calm phys s k) : u.vmas = s.vmas := by
  cases h with
  | stock _ _ hVmas => exact hVmas
  | refused _ _ hVmas => exact hVmas
  | grown _ hNot _ _ _ => exact absurd hCalm hNot
  | dropped _ hNot _ _ _ => exact absurd hCalm hNot

theorem NodeSupply.next (h : NodeSupply phys s k u (some p)) : NextNode phys s k p := by
  cases h with
  | stock _ hNext _ => exact hNext
  | grown _ _ hNext _ _ => exact hNext

/-- For the list of a task, and where the areas are left alone, the answer is as the operations need it. -/
theorem Listing.answer (h : Listing s k sp l) (hCalm : sp = .user ∨ Calm phys s k)
    (hCall : kmalloc' sizeofVma s = some (u, new)) (hSupply : NodeSupply phys s k u new) :
    NodeAnswer kmalloc' sp l s u new := by
  refine ⟨hCall, ?_, ?_⟩
  · rcases hCalm with rfl | hCalm
    · exact h.user hSupply
    · rw [hSupply.calm hCalm]
      exact h.list
  · rintro p ⟨⟩
    exact h.fresh hSupply.next

/-- There is one next node at most. -/
theorem NextNode.unique {q : Nat} (h : NextNode phys s k p) (h' : NextNode phys s k q) : p = q := by
  cases h with
  | @stock n a hBelow hHead hTop =>
      have hStock : s.heap.Stocked nodeExp := ⟨_, Nat.le_add_right _ n, hTop, by simp [hHead]⟩
      cases h' with
      | @stock n' b hBelow' hHead' hTop' =>
          have hLeast : n = n' := by
            rcases lt_trichotomy n n' with hLess | hSame | hLess
            · have hEmpty := hBelow' (nodeExp + n) (by omega) (by omega)
              rw [hHead] at hEmpty
              cases hEmpty
            · exact hSame
            · have hEmpty := hBelow (nodeExp + n') (by omega) (by omega)
              rw [hHead'] at hEmpty
              cases hEmpty
          subst hLeast
          rw [Option.some.inj (hHead.symm.trans hHead')]
      | grown hEmpty => exact absurd hStock hEmpty
  | grown hEmpty hGrows =>
      cases h' with
      | @stock n' b _ hHead' hTop' =>
          exact absurd ⟨_, Nat.le_add_right _ n', hTop', by simp [hHead']⟩ hEmpty
      | grown _ hGrows' => rw [hGrows.unique hGrows']

theorem NextNode.ends (h : NextNode phys s k p) : ¬ Endless s k := by
  rintro ⟨hStock, pred, succ, hGap, hFlags⟩
  rcases h with ⟨_, hHead, hTop⟩ | ⟨_, ⟨succ', hGrows⟩, hHeap, _⟩
  · exact hStock ⟨_, Nat.le_add_right _ _, hTop, by simp [hHead]⟩
  · rw [hGap] at hGrows
    cases hGrows
    exact hFlags _ rfl hHeap

/-- The next node is the one that `kmalloc` answers. -/
theorem NodeSupply.answer (h : NodeSupply phys s k u new) (hNext : NextNode phys s k p) : new = some p := by
  cases h with
  | stock _ hOther _ => rw [hOther.unique hNext]
  | refused _ hNone _ => exact absurd hNext (hNone p)
  | grown _ _ hOther _ _ => rw [hOther.unique hNext]
  | dropped _ _ hNone _ _ => exact absurd hNext (hNone p)

/-- The memory of the next node is what it was. -/
theorem NodeSupply.node (h : NodeSupply phys s k u (some p)) (hs : Prepared s k)
    (hFresh : p ∉ k.map Prod.fst) : u.vmas.node p = s.vmas.node p := by
  cases h with
  | stock _ _ hVmas => rw [hVmas]
  | grown e _ _ hGrows hVmas =>
      rw [hVmas, Vmas.enlarge, Vmas.node_setNode, if_neg]
      rintro rfl
      exact hFresh (List.mem_map_of_mem (hGrows.mem hs.below))

/-- Otherwise the list of the kernel is another one afterwards. -/
theorem NodeReady.disturbed (h : NodeReady s k) (hCalm : ¬ Calm phys s k) :
    ∃ n u new, kmalloc phys n sizeofVma s = some (u, new) ∧
      (new = none ∧ ¬ u.vmas.Spells .kernel k ∨ ∃ p e, new = some p ∧ NextNode phys s k p ∧
        HeapGrows k e ∧ u.vmas.Spells .kernel (k.map (enlarge e.1 (2 ^ pnodeAlloc)))) := by
  rcases h.supply phys with ⟨⟨hStock, pred, succ, hGap, hFlags⟩, _⟩ | ⟨u, new, ⟨n, hAll⟩, hSupply⟩
  · refine absurd (Or.inr fun e hGrows hHeap => ?_) hCalm
    obtain ⟨succ', hSome⟩ := hGrows
    rw [hGap] at hSome
    cases hSome
    exact absurd hHeap (hFlags e rfl)
  · refine ⟨n, u, new, hAll n le_rfl, ?_⟩
    cases hSupply with
    | stock hOther _ _ => exact absurd hOther hCalm
    | refused hOther _ _ => exact absurd hOther hCalm
    | grown e _ hNext hGrows hVmas =>
        exact Or.inr ⟨_, e, rfl, hNext, hGrows, hVmas ▸ h.spells_enlarge hGrows⟩
    | dropped e _ _ hGrows hVmas =>
        refine Or.inl ⟨rfl, fun hSame => ?_⟩
        have hKernel := h.spells_enlarge hGrows
        obtain ⟨left, right, rfl, _⟩ := hGrows.spec h.below
        rw [map_enlarge h.spells.nodup] at hKernel
        have hLength := congrArg List.length (hSame.unique (hVmas ▸ hKernel.unlink (e := (e.1, _))))
        simp at hLength

/-! The heap that runs of `kmalloc` and `kfree` leave is one in which a list node can be asked for. -/

variable {used nodes : List Nat} {free : Nat → List Nat} {regions : List (Nat × Nat)}

/-- A free block is neither in use nor the place of a node of the list. -/
theorem Homed.unlisted {i : Nat} (h : Homed s l used nodes free [] regions) (hi : i < pnodeLists)
    (hHead : s.heap.lists i = some p) : Word.add p sizeofPnode ∉ l.map Prod.fst := by
  have hWord : sizeofPnode = 4 := rfl
  have hFree : (p, i + pnodeMin) ∈ freeBlocks free := by
    refine Heap.mem_freeBlocks.mpr ⟨i, hi, ?_, rfl⟩
    have hChain := h.heap.chain i hi
    rw [hHead] at hChain
    cases hList : free i with
    | nil =>
        rw [hList] at hChain
        cases hChain
    | cons q rest =>
        rw [hList] at hChain
        obtain rfl := Option.some.inj hChain.1
        exact List.mem_cons_self
  have hEight : 8 ≤ 2 ^ (i + pnodeMin) := Heap.eight_le_two_pow (Nat.le_add_left _ _)
  have hFits := h.heap.fits (b := (p, i + pnodeMin)) (List.mem_append_right _ hFree)
  dsimp only at hFits
  rw [Word.add_eq (by omega)]
  intro hNode
  rcases h.node _ hNode with ⟨a, ha, hSame⟩ | ⟨_, hOutside⟩
  · obtain rfl : p = a := by omega
    have hAll := h.heap.exact.disjoint
    rw [List.nil_append, List.map_append, List.pairwise_append] at hAll
    have hLive : (p, s.heap.exponent p) ∈ s.heap.liveBlocks (used ++ nodes) :=
      List.mem_map_of_mem (List.mem_append_right _ ha)
    have hApart := hAll.2.2 _ (List.mem_map_of_mem hLive) _ (List.mem_map_of_mem hFree)
    exact Set.disjoint_left.mp hApart ⟨le_rfl, Nat.lt_add_of_pos_right (Nat.two_pow_pos _)⟩
      ⟨le_rfl, Nat.lt_add_of_pos_right (Nat.two_pow_pos _)⟩
  · have hBlock : block (p, i + pnodeMin) ⊆ territory regions :=
      h.heap.exact.subset (List.mem_map_of_mem (List.mem_append_right _ hFree))
    exact hOutside (hBlock ⟨by omega, by show p + 4 < p + 2 ^ (i + pnodeMin); omega⟩)

/-- Each node lies in an area. -/
theorem Homed.node_covered {c : Nat} (h : Homed s l used nodes free [] regions)
    (hc : c ∈ l.map Prod.fst) : c ∈ covered l := by
  have hWord : sizeofPnode = 4 := rfl
  rcases h.node c hc with ⟨a, ha, rfl⟩ | ⟨hCovered, _⟩
  · have hUsed : a ∈ used ++ nodes := List.mem_append_right _ ha
    have hEight : 8 ≤ 2 ^ s.heap.exponent a := Heap.eight_le_two_pow (h.heap.stamp a hUsed).1
    have hBlock : block (a, s.heap.exponent a) ⊆ territory regions :=
      h.heap.exact.subset (List.mem_map_of_mem
        (List.mem_append_left _ (List.mem_append_right _ (List.mem_map_of_mem hUsed))))
    exact h.inside (hBlock ⟨by omega, by show a + sizeofPnode < a + 2 ^ s.heap.exponent a; omega⟩)
  · exact hCovered

theorem AtHome.nodeReady (h : AtHome s used []) (hLists : ∀ i, pnodeLists ≤ i → s.heap.lists i = none) :
    ∃ k, NodeReady s k := by
  obtain ⟨k, nodes, free, regions, h⟩ := h
  refine ⟨k, ⟨h.spells, h.sorted, h.below, fun i p hHead => ?_, fun e hGrows c hc hRange => ?_⟩,
    fun e hGrows hEmpty => ?_⟩
  · by_cases hi : i < pnodeLists
    · exact h.unlisted hi hHead
    · rw [hLists i (Nat.le_of_not_lt hi)] at hHead
      cases hHead
  · obtain ⟨x, hx, hCovers⟩ := h.node_covered hc
    have hNone := hGrows.unassigned h.sorted h.below hRange.1 hRange.2
    exact assigns_eq_none_iff.mp hNone x hx hCovers
  · exact absurd hEmpty (Nat.ne_of_lt (h.proper e (hGrows.mem h.below)))

end ArtOS
