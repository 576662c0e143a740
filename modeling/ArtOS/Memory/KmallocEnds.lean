import ArtOS.Memory.HeapRun
import ArtOS.Memory.KernelHeap

/-! When `kmalloc` comes back. To grow, the heap asks `vma_alloc` for address space, which asks `kmalloc`
for a list node unless the address space follows an area of the heap. -/
namespace ArtOS

open Intervals Partial

variable {Env : Type} {phys : Phys Env} {s t : Mm Env} {l : List Entry} {used : List Nat}
variable {n sz exp : Nat} {answer : Mm Env × Option Nat}

/-- There is a block in stock for the request or for a list node, or the address space that the heap
asks for, or that of a list node, follows an area of the heap. -/
def Ends (s : Mm Env) (sz : Nat) : Prop :=
  ∀ l exp, s.vmas.Spells .kernel l → pnodeExp (Word.add sz sizeofPnode) = some exp →
    s.heap.Stocked exp ∨ s.heap.Stocked nodeExp ∨
      HeapGap l (2 ^ max exp pnodeAlloc) ∨ HeapGap l (2 ^ pnodeAlloc)

theorem not_heapGap {size : Nat} (h : ¬ HeapGap l size) :
    ∃ pred succ, firstGap (fitsGap .kernel size) none l = some (pred, succ) ∧
      ∀ e ∈ pred, e.2.flags ≠ vmaHeap := by
  rw [HeapGap] at h
  push Not at h
  exact h

theorem AtHome.kmalloc_ends (h : AtHome s used []) (hSize : sz ≠ 0)
    (hExp : pnodeExp (Word.add sz sizeofPnode) = some exp) (hEnds : Ends s sz) :
    ∃ answer, (∃ k, ∀ n, k ≤ n → kmalloc phys n sz s = some answer) ∧ Answered used answer := by
  obtain ⟨l, nodes, free, regions, h⟩ := h
  obtain ⟨hMin, hMax, _⟩ := pnodeExp_spec hExp
  by_cases hStock : s.heap.Stocked exp
  · obtain ⟨t, a, free', hCall, hHomed⟩ : ∃ t a free',
        (∀ k, kmalloc phys (k + 1) sz s = some (t, some (a + sizeofPnode))) ∧ _ :=
      h.kmalloc_stocked hSize hExp hStock
    refine ⟨(t, some (a + sizeofPnode)), ⟨1, fun n hn => ?_⟩,
      Or.inr ⟨a, rfl, l, nodes, free', regions, hHomed⟩⟩
    obtain ⟨n, rfl⟩ := Nat.exists_eq_add_of_le' hn
    exact hCall n
  · have hm : pnodeAlloc ≤ max exp pnodeAlloc ∧ max exp pnodeAlloc < pnodeMax :=
      ⟨le_max_right _ _, max_lt hMax (by decide)⟩
    have hLevels : max exp pnodeAlloc = exp + (pnodeAlloc - exp) := by omega
    suffices hPalloc : ∃ n answer, palloc phys (kmalloc phys n) n (1 <<< max exp pnodeAlloc) s =
        some answer ∧ Supplied used (max exp pnodeAlloc) answer by
      obtain ⟨n, answer, hCall, hSupplied⟩ := hPalloc
      have hEmpty : kmalloc phys (n + 1) sz s = _ := kmalloc_empty hSize hExp hStock
      rw [hCall, Option.map_some] at hEmpty
      rw [hLevels] at hSupplied
      exact ⟨_, ⟨n + 1, fun k hk => kmalloc_mono hk _ hEmpty⟩, hSupplied.stamp hMin⟩
    by_cases hGap : HeapGap l (2 ^ max exp pnodeAlloc)
    · exact ⟨l.length + 2, h.palloc_gap hm hGap le_rfl⟩
    · obtain ⟨pred, succ, hFirst, hFlags⟩ := not_heapGap hGap
      obtain ⟨k, answer, hNode, hAnswer⟩ : ∃ k answer,
          (∀ n, k ≤ n → kmalloc phys n sizeofVma s = some answer) ∧ NodeAnswered l used answer := by
        apply h.kmalloc_node
        rcases hEnds l exp h.spells hExp with hOwn | hNode | hLarge | hSmall
        · exact absurd hOwn hStock
        · exact Or.inl hNode
        · exact absurd hLarge hGap
        · exact Or.inr hSmall
      exact ⟨max k (l.length + 2), h.palloc_insert hm hFirst hFlags (hNode _ (le_max_left _ _)) hAnswer
        (le_max_right _ _)⟩

/-- Otherwise it calls itself for ever. -/
theorem AtHome.kmalloc_none (h : AtHome s used []) (hSize : sz ≠ 0) (hEnds : ¬ Ends s sz) :
    kmalloc phys n sz s = none := by
  cases n with
  | zero => rfl
  | succ n =>
      obtain ⟨l, nodes, free, regions, h⟩ := h
      rw [Ends] at hEnds
      push Not at hEnds
      obtain ⟨l', exp, hSpells, hExp, hStock, hNode, hLarge, hSmall⟩ := hEnds
      obtain rfl := h.spells.unique hSpells
      obtain ⟨_, hMax, _⟩ := pnodeExp_spec hExp
      obtain ⟨pred, succ, hFirst, hFlags⟩ := not_heapGap hLarge
      obtain ⟨pred', succ', hFirst', hFlags'⟩ := not_heapGap hSmall
      rw [kmalloc_empty hSize hExp hStock,
        palloc_eq ⟨le_max_right _ _, max_lt hMax (by decide)⟩,
        vmaAlloc_insert_none h.spells hFirst hFlags (kmalloc_diverges h.spells hNode hFirst' hFlags')]
      rfl

/-- Whatever `kmalloc` answers, the heap is in order. -/
theorem AtHome.kmalloc (h : AtHome s used []) (hCall : kmalloc phys n sz s = some answer) :
    Answered used answer := by
  by_cases hSize : sz = 0
  · cases n with
    | zero => cases hCall
    | succ n =>
        rw [ArtOS.kmalloc, kmallocWith, if_pos hSize] at hCall
        cases hCall
        exact Or.inl ⟨rfl, h⟩
  · by_cases hEnds : Ends s sz
    · cases hExp : pnodeExp (Word.add sz sizeofPnode) with
      | none =>
          cases n with
          | zero => cases hCall
          | succ n =>
              rw [ArtOS.kmalloc, kmallocWith, if_neg hSize, hExp] at hCall
              cases hCall
      | some exp =>
          obtain ⟨answer', ⟨k, hAll⟩, hAnswered⟩ : ∃ answer,
              (∃ k, ∀ n, k ≤ n → ArtOS.kmalloc phys n sz s = some answer) ∧ Answered used answer :=
            h.kmalloc_ends hSize hExp hEnds
          have hMore := kmalloc_mono (Nat.le_max_left n k) _ hCall
          rw [hAll _ (Nat.le_max_right n k)] at hMore
          exact Option.some.inj hMore ▸ hAnswered
    · rw [h.kmalloc_none hSize hEnds] at hCall
      cases hCall

/-- One call, a byte written by the user of a block, or a change of the page frames and page tables. -/
inductive KernelStep (phys : Phys Env) : Mm Env × List Nat → Mm Env × List Nat → Prop where
  | kmalloc {s t : Mm Env} {r : Option Nat} {used : List Nat} (n sz : Nat)
      (hCall : kmalloc phys n sz s = some (t, r)) :
      KernelStep phys (s, used) (t, (r.map fun addr => Word.sub addr sizeofPnode).toList ++ used)
  | kfree {s t : Mm Env} {used : List Nat} (a : Nat) (hUsed : a ∈ used)
      (hCall : kfree (a + sizeofPnode) s = some t) : KernelStep phys (s, used) (t, used.erase a)
  | use {s : Mm Env} {used : List Nat} (a x : Nat) (v : BitVec 8) (hUsed : a ∈ used)
      (hInside : a + sizeofPnode ≤ x ∧ x < a + 2 ^ s.heap.exponent a) :
      KernelStep phys (s, used) (s.mapHeap fun h => { h with mem := Function.update h.mem x v }, used)
  | below {s : Mm Env} {used : List Nat} (env : Env) :
      KernelStep phys (s, used) ({ s with env := env }, used)

/-- The address of a block in use and its prefix. -/
theorem AtHome.sub_eq {a : Nat} (h : AtHome s (a :: used) []) :
    Word.sub (a + sizeofPnode) sizeofPnode = a := by
  obtain ⟨l, nodes, free, regions, hHomed⟩ := h
  have hUsed : a ∈ a :: used ++ nodes := by simp
  have hFits := hHomed.heap.fits (b := (a, s.heap.exponent a))
    (List.mem_append_left _ (List.mem_append_right _ (List.mem_map_of_mem hUsed)))
  have hEight : 8 ≤ 2 ^ s.heap.exponent a := Heap.eight_le_two_pow (hHomed.heap.stamp a hUsed).1
  have hTop : a + 2 ^ s.heap.exponent a ≤ 2 ^ 32 := hFits.2
  have hWord : sizeofPnode = 4 := rfl
  rw [Word.sub_eq (by omega) (by omega)]
  omega

theorem AtHome.step {x y : Mm Env × List Nat} (h : AtHome x.1 x.2 []) (hStep : KernelStep phys x y) :
    AtHome y.1 y.2 [] := by
  cases hStep with
  | kmalloc n sz hCall =>
      rcases h.kmalloc hCall with ⟨hNone, hHome⟩ | ⟨a, hSome, hHome⟩
      · dsimp only at hNone hHome ⊢
        rw [hNone]
        exact hHome
      · dsimp only at hSome hHome ⊢
        rw [hSome, Option.map_some, hHome.sub_eq]
        exact hHome
  | kfree a hUsed hCall =>
      obtain ⟨l, nodes, free, regions, hHomed⟩ := h
      obtain ⟨heap, free', hFree, hSound⟩ := hHomed.heap.kfree (List.mem_append_left nodes hUsed)
      obtain rfl := Option.some.inj (hCall.symm.trans hFree)
      rw [List.erase_append_left _ hUsed] at hSound
      exact ⟨l, nodes, free', regions, { hHomed with heap := hSound }⟩
  | use a x v hUsed hInside =>
      obtain ⟨l, nodes, free, regions, hHomed⟩ := h
      exact ⟨l, nodes, free, regions,
        { hHomed with heap := hHomed.heap.use (List.mem_append_left nodes hUsed) hInside }⟩
  | below env =>
      obtain ⟨l, nodes, free, regions, hHomed⟩ := h
      exact ⟨l, nodes, free, regions, { hHomed with }⟩

theorem AtHome.run {x y : Mm Env × List Nat} (h : AtHome x.1 x.2 [])
    (hRun : Relation.ReflTransGen (KernelStep phys) x y) : AtHome y.1 y.2 [] := by
  induction hRun with
  | refl => exact h
  | tail _ hStep ih => exact ih.step hStep

/-- In every state that calls of `kmalloc` and `kfree` lead to, the next `kmalloc` comes back exactly
if it ends. -/
theorem kmalloc_ends_iff (phys : Phys Env) (s₀ s : Mm Env) (used : List Nat) (hStart : AtHome s₀ [] [])
    (hRun : Relation.ReflTransGen (KernelStep phys) (s₀, []) (s, used)) (sz : Nat)
    (hSize : 0 < sz ∧ sz ≤ 2 ^ 16) : (∃ n, (kmalloc phys n sz s).isSome) ↔ Ends s sz := by
  have hHome : AtHome s used [] := AtHome.run (x := (s₀, [])) hStart hRun
  have hZero : sz ≠ 0 := Nat.ne_of_gt hSize.1
  constructor
  · rintro ⟨n, hSome⟩
    by_contra hEnds
    rw [hHome.kmalloc_none hZero hEnds] at hSome
    cases hSome
  · intro hEnds
    have hWord : Word.add sz sizeofPnode = sz + 4 :=
      Word.add_eq (show sz + 4 < 2 ^ 32 by omega)
    obtain ⟨exp, _, hExp⟩ := pnodeExp_total (k := 31) (by decide)
      (show Word.add sz sizeofPnode ≤ 2 ^ 31 by omega)
    obtain ⟨answer, ⟨k, hAll⟩, _⟩ : ∃ answer,
        (∃ k, ∀ n, k ≤ n → kmalloc phys n sz s = some answer) ∧ Answered used answer :=
      hHome.kmalloc_ends hZero hExp hEnds
    exact ⟨k, Option.isSome_iff_exists.mpr ⟨answer, hAll k le_rfl⟩⟩

/-- The first 64 KiB of the heap, with one list node taken from it. -/
def initHeap : Heap :=
  (splitDown nodeExp 0xC0000 (pnodeAlloc - nodeExp) (mapped 0xC0000 (2 ^ pnodeAlloc) (fun _ => 0)
    bootState.heap)).setPrefix 0xC0000 nodeExp

def kernelArea : Area := { start := 0x100000, endAddr := 0x200000, flags := vmaHeap ||| vmaExecute }

/-- The heap and, behind it, the kernel with its first list node. -/
def initList : List Entry :=
  [(0x101000, { start := 0xC0000, endAddr := 0xD0000, flags := vmaHeap }), (0xC0004, kernelArea)]

def initState : Mm Unit where
  vmas := (bootState.vmas.setNode 0x101000 fun n => { n with endAddr := 0xD0000 }).insert .kernel 0xC0004
    kernelArea (some 0x101000) none
  heap := initHeap
  env := ()

/-- This is what the first `vma_add` of `vma_init` leaves. -/
theorem vmaAdd_boot : vmaAdd (kmalloc plainPhys 4) 4 0x100000 0x200000 (vmaHeap ||| vmaExecute) bootState =
    some (initState, 0) := rfl

theorem initHeap_sound : ∃ free, initHeap.Sound free [0xC0000] [] [(0xC0000, 2 ^ pnodeAlloc)] := by
  obtain ⟨free, hEmpty⟩ := HeapRun.unused_initial.sound
  have hFresh : Disjoint (block (0xC0000, pnodeAlloc)) (territory []) := by simp [territory]
  have hGrown := (hEmpty.grow (p := 0xC0000) (e := pnodeAlloc) (by decide) (by decide) hFresh).write
    (m := (mapped 0xC0000 (2 ^ pnodeAlloc) (fun _ => 0) bootState.heap).mem) fun x hx => if_neg hx
  obtain ⟨free', hSplit⟩ := Heap.Sound.splitDown (e := nodeExp) (n := pnodeAlloc - nodeExp) hGrown (by decide)
  exact ⟨free', hSplit.stamped⟩

theorem initState_atHome : AtHome initState [] [] := by
  obtain ⟨free, hSound⟩ := initHeap_sound
  refine ⟨initList, [0xC0000], free, [(0xC0000, 2 ^ pnodeAlloc)], ⟨rfl, rfl, rfl, rfl, rfl, rfl, rfl⟩,
    ?_, by decide, by decide, hSound, ?_, ?_⟩
  · exact ⟨by decide, by decide⟩
  · rintro x ⟨r, hr, hLo, hHi⟩
    obtain rfl := List.mem_singleton.mp hr
    exact ⟨_, List.mem_cons_self, hLo, hHi⟩
  · have hOutside : 0x101000 ∉ territory [(0xC0000, 2 ^ pnodeAlloc)] := by
      rintro ⟨r, hr, _, hHi⟩
      obtain rfl := List.mem_singleton.mp hr
      exact absurd hHi (by decide)
    intro c hc
    rcases List.mem_cons.mp hc with rfl | hc
    · exact Or.inr ⟨⟨_, List.mem_cons_of_mem _ List.mem_cons_self, by decide, by decide⟩, hOutside⟩
    · obtain rfl := List.mem_singleton.mp hc
      exact Or.inl ⟨0xC0000, List.mem_cons_self, rfl⟩

/-- A request for 100 bytes is served from the first 64 KiB. -/
theorem kmalloc_ends_iff_init :
    (∃ n, (kmalloc plainPhys n 100 initState).isSome) ↔ Ends initState 100 :=
  kmalloc_ends_iff plainPhys initState initState [] initState_atHome .refl 100 (by decide)

/-- One `kmalloc` after the other. -/
def kmallocs (phys : Phys Env) (n : Nat) : List Nat → Mm Env → Option (Mm Env)
  | [], s => some s
  | sz :: rest, s => (kmalloc phys n sz s).bind fun answer => kmallocs phys n rest answer.1

theorem kmallocs_run {sizes : List Nat} (h : kmallocs phys n sizes s = some t) :
    ∃ used', Relation.ReflTransGen (KernelStep phys) (s, used) (t, used') := by
  induction sizes generalizing s used with
  | nil =>
      cases h
      exact ⟨used, .refl⟩
  | cons sz rest ih =>
      obtain ⟨⟨u, r⟩, hCall, hRest⟩ := Option.bind_eq_some_iff.mp h
      obtain ⟨used', hRun⟩ := ih hRest
      exact ⟨used', .head (.kmalloc n sz hCall) hRun⟩

/-- Requests that use up the first 192 KiB of the heap. -/
def drain : List Nat :=
  [28, 60, 124, 252, 508, 1020, 2044, 4092, 8188, 16380, 32764, 65532, 65532]

/-- The areas after that. -/
def drainedList : List Entry :=
  [(0x101000, { start := 0xC0000, endAddr := 0xF0000, flags := vmaHeap }),
    (0xC0004, { start := 0x100000, endAddr := 0x200000, flags := vmaHeap ||| vmaExecute })]

/-- Behind the kernel the heap needs a new list node, and has no block for one. -/
theorem kmalloc_recurses : ¬ ∀ (phys : Phys Unit) (s₀ s : Mm Unit) (used : List Nat),
    AtHome s₀ [] [] → Relation.ReflTransGen (KernelStep phys) (s₀, []) (s, used) →
      ∀ sz, 0 < sz ∧ sz ≤ 2 ^ 16 → ∃ n, (kmalloc phys n sz s).isSome := by
  intro h
  have hView : (kmallocs plainPhys 4 drain initState).map (fun t =>
      ((List.range pnodeLists).all fun i => t.heap.lists i = none, t.vmas.vmaList,
        t.vmas.node 0x101000, t.vmas.node 0xC0004)) =
      some (true, some 0x101000,
        { start := 0xC0000, endAddr := 0xF0000, flags := vmaHeap, next := some 0xC0004, prev := none },
        { start := 0x100000, endAddr := 0x200000, flags := vmaHeap ||| vmaExecute, next := none
          prev := some 0x101000 }) := by decide
  obtain ⟨t, hCalls, hFields⟩ := Option.map_eq_some_iff.mp hView
  simp only [Prod.mk.injEq] at hFields
  obtain ⟨hLists, hHead, hBoot, hKernel⟩ := hFields
  obtain ⟨used, hRun⟩ : ∃ used, Relation.ReflTransGen (KernelStep plainPhys) (initState, []) (t, used) :=
    kmallocs_run hCalls
  obtain ⟨n, hSome⟩ := h plainPhys initState t used initState_atHome hRun 28 (by decide)
  have hSpells : t.vmas.Spells .kernel drainedList :=
    ⟨hHead, congrArg Vma.prev hBoot, congrArg Vma.toArea hBoot, congrArg Vma.next hBoot,
      congrArg Vma.prev hKernel, congrArg Vma.toArea hKernel, congrArg Vma.next hKernel⟩
  have hStock : ¬ t.heap.Stocked nodeExp := by
    rintro ⟨k, hLow, hHigh, hSome⟩
    have hIndex : k - pnodeMin < pnodeLists := lt_of_le_of_lt (Nat.sub_le_sub_right hHigh.le _) (by decide)
    exact hSome (of_decide_eq_true (List.all_eq_true.mp hLists _ (List.mem_range.mpr hIndex)))
  have hEnds : ¬ Ends t 28 := by
    intro hEnds
    have hFirst : firstGap (fitsGap .kernel (2 ^ pnodeAlloc)) none drainedList =
        some (drainedList.getLast?, none) := by decide
    have hGap : ¬ HeapGap drainedList (2 ^ pnodeAlloc) := by
      intro hGap
      obtain ⟨e, he, hFlags⟩ := hGap _ _ hFirst
      obtain rfl := Option.some.inj he
      exact absurd hFlags (by decide)
    rcases hEnds _ nodeExp hSpells rfl with hOwn | hNode | hLarge | hSmall
    · exact hStock hOwn
    · exact hStock hNode
    · exact hGap hLarge
    · exact hGap hSmall
  have hHome : AtHome t used [] := AtHome.run (x := (initState, [])) initState_atHome hRun
  rw [hHome.kmalloc_none (by decide) hEnds] at hSome
  cases hSome

end ArtOS
