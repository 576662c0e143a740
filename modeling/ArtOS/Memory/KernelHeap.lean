import ArtOS.Memory.HeapBlocks
import ArtOS.Memory.VmaUndo

/-! The heap in its own areas. The regions of the heap lie within areas of the kernel list, and the
nodes of this list are blocks of the heap, but for those that the kernel brings along. -/
namespace ArtOS

open Intervals Tiling

/-- The addresses in the areas. -/
def covered (l : List Entry) : Set Nat := {x | ∃ e ∈ l, e.2.Covers x}

variable {Env : Type}

/-- The areas `l`, the blocks that are in use, those of them that hold nodes, the free ones, the ones
that are on their way, and the regions. -/
structure Homed (s : Mm Env) (l : List Entry) (used nodes : List Nat) (free : Nat → List Nat)
    (flight regions : List (Nat × Nat)) : Prop where
  spells : s.vmas.Spells .kernel l
  sorted : Sorted l
  proper : ∀ e ∈ l, e.2.start < e.2.endAddr
  below : ∀ e ∈ l, e.2.endAddr ≤ vmaKernMax
  heap : s.heap.Sound free (used ++ nodes) flight regions
  inside : territory regions ⊆ covered l
  node : ∀ c ∈ l.map Prod.fst, (∃ a ∈ nodes, c = a + sizeofPnode) ∨
    c ∈ covered l ∧ c ∉ territory regions

/-- The kernel heap with the blocks `used` in the hands of its users. -/
def AtHome (s : Mm Env) (used : List Nat) (flight : List (Nat × Nat)) : Prop :=
  ∃ l nodes free regions, Homed s l used nodes free flight regions

/-- `vma_alloc` has put `[r, r + size)` at the end of the area `e`. -/
structure Claimed (s : Mm Env) (left : List Entry) (e : Entry) (right : List Entry) (r size : Nat)
    (used nodes : List Nat) (free : Nat → List Nat) (regions : List (Nat × Nat)) : Prop where
  spells : s.vmas.Spells .kernel (left ++ e :: right)
  sorted : Sorted (left ++ e :: right)
  proper : ∀ y ∈ left ++ right, y.2.start < y.2.endAddr
  below : ∀ y ∈ left ++ e :: right, y.2.endAddr ≤ vmaKernMax
  heap : s.heap.Sound free (used ++ nodes) [] regions
  low : e.2.start ≤ r
  high : e.2.endAddr = r + size
  base : vmaKernMin ≤ r
  top : r + size < vmaKernMax
  inside : territory regions ⊆ covered (left ++ (e.1, { e.2 with endAddr := r }) :: right)
  node : ∀ c ∈ (left ++ e :: right).map Prod.fst, (∃ a ∈ nodes, c = a + sizeofPnode) ∨
    c ∈ covered (left ++ (e.1, { e.2 with endAddr := r }) :: right) ∧ c ∉ territory regions
  own : e.2.start = r → ∃ a ∈ nodes, e.1 = a + sizeofPnode

variable {phys : Phys Env} {kmalloc' : Allocator Env} {s t u : Mm Env} {l left right : List Entry}
variable {e : Entry} {pred succ : Option Entry} {used nodes : List Nat} {free : Nat → List Nat}
variable {flight regions : List (Nat × Nat)} {r size fuel m n x exp sz : Nat}

theorem covered_middle : x ∈ covered (left ++ e :: right) ↔ e.2.Covers x ∨ x ∈ covered (left ++ right) := by
  constructor
  · rintro ⟨y, hy, hCovers⟩
    rcases List.mem_append.mp hy with hLeft | hRest
    · exact Or.inr ⟨y, List.mem_append_left _ hLeft, hCovers⟩
    · rcases List.mem_cons.mp hRest with rfl | hRight
      · exact Or.inl hCovers
      · exact Or.inr ⟨y, List.mem_append_right _ hRight, hCovers⟩
  · rintro (hCovers | ⟨y, hy, hCovers⟩)
    · exact ⟨e, by simp, hCovers⟩
    · refine ⟨y, ?_, hCovers⟩
      rcases List.mem_append.mp hy with hLeft | hRight
      · exact List.mem_append_left _ hLeft
      · exact List.mem_append_right _ (List.mem_cons_of_mem _ hRight)

/-- An area that ends later covers more. -/
theorem covered_shorter (h : r ≤ e.2.endAddr) :
    covered (left ++ (e.1, { e.2 with endAddr := r }) :: right) ⊆ covered (left ++ e :: right) := by
  intro x hx
  rw [covered_middle] at hx ⊢
  exact hx.imp_left fun hCovers => ⟨hCovers.1, hCovers.2.trans_le h⟩

/-- An area that is cut down to nothing covers nothing. -/
theorem covered_rest (hx : x ∈ covered (left ++ (e.1, { e.2 with endAddr := r }) :: right))
    (hStart : e.2.start = r) : x ∈ covered (left ++ right) := by
  refine (covered_middle.mp hx).resolve_left fun hCovers => ?_
  exact absurd (hStart ▸ hCovers.1) (Nat.not_le.mpr hCovers.2)

namespace Claimed

variable (h : Claimed s left e right r size used nodes free regions)
include h

/-- What was covered before lies apart from the new range. -/
theorem apart (hx : x ∈ covered (left ++ (e.1, { e.2 with endAddr := r }) :: right)) :
    ¬ (r ≤ x ∧ x < r + size) := by
  obtain ⟨hLeft, _, hRight⟩ := h.sorted.middle
  have hHigh := h.high
  have hLow := h.low
  rw [covered_middle] at hx
  rintro ⟨hFrom, hTo⟩
  rcases hx with hCovers | ⟨y, hy, hCovers⟩
  · exact absurd hCovers.2 (Nat.not_lt.mpr hFrom)
  · rcases List.mem_append.mp hy with hy | hy
    · have hEnd := hLeft y hy
      have hUpper := hCovers.2
      omega
    · have hStart := hRight y hy
      have hLower := hCovers.1
      omega

theorem fresh : Disjoint (Set.Ico r (r + size)) (territory regions) :=
  Set.disjoint_left.mpr fun _ hx hy => h.apart (h.inside hy) hx

/-- Whatever is done below, and to the memory in the new range. -/
theorem mapped {heap : Heap} {env : Env} (hLists : heap.lists = s.heap.lists)
    (hMem : ∀ x, ¬ (r ≤ x ∧ x < r + size) → heap.mem x = s.heap.mem x) :
    Claimed { s with env := env, heap := heap } left e right r size used nodes free regions := by
  have hSound := h.heap.write_outside fun x hx => hMem x (h.apart (h.inside hx))
  rw [← hLists] at hSound
  exact { h with heap := hSound }

/-- The new range becomes a region of the heap. -/
theorem supply (hm : pnodeMin ≤ m ∧ m < pnodeMax) (hSize : size = 2 ^ m) :
    Homed s (left ++ e :: right) used nodes free [(r, m)] ((r, 2 ^ m) :: regions) := by
  have hPos := Nat.two_pow_pos m
  have hHigh := h.high
  have hBase : 0xC0000 ≤ r := h.base
  have hTop : e.2.endAddr ≤ 0x40000000 := h.below e (by simp)
  have hUnion : territory ((r, 2 ^ m) :: regions) = block (r, m) ∪ territory regions := by
    ext x
    simp [territory, block]
  have hEnd : r ≤ e.2.endAddr := by omega
  have hFresh := h.fresh
  rw [hSize] at hFresh
  refine ⟨h.spells, h.sorted, ?_, h.below, h.heap.grow hm ⟨by omega, by omega⟩ hFresh, ?_, ?_⟩
  · intro y hy
    rcases List.mem_append.mp hy with hy | hy
    · exact h.proper y (List.mem_append_left _ hy)
    · rcases List.mem_cons.mp hy with rfl | hy
      · have hLow := h.low
        omega
      · exact h.proper y (List.mem_append_right _ hy)
  · rw [hUnion]
    rintro x (hx | hx)
    · have hLow := h.low
      refine covered_middle.mpr (Or.inl ⟨hLow.trans hx.1, ?_⟩)
      rw [hHigh, hSize]
      exact hx.2
    · exact covered_shorter hEnd (h.inside hx)
  · intro c hc
    refine (h.node c hc).imp_right ?_
    rintro ⟨hCovered, hOutside⟩
    refine ⟨covered_shorter hEnd hCovered, ?_⟩
    rw [hUnion]
    rintro (hBlock | hRegion)
    · refine h.apart hCovered ?_
      rw [hSize]
      exact hBlock
    · exact hOutside hRegion

/-- The new range can be given back. -/
theorem undo (hSize : 0 < size) (hFuel : (left ++ e :: right).length < fuel) :
    ∃ t, vmaFree kmalloc' kfree fuel r (r + size) s = some (t, 0) ∧ AtHome t used [] := by
  have hHigh := h.high
  have hIn : Within .kernel e r e.2.endAddr :=
    ⟨by omega, if_pos (hHigh ▸ h.top), h.low, le_rfl⟩
  have hFree : vmaFree kmalloc' kfree fuel r e.2.endAddr s = _ :=
    vmaFree_end h.spells h.sorted hIn hFuel
  rw [← hHigh, hFree]
  by_cases hStart : r = e.2.start
  · rw [if_pos hStart]
    obtain ⟨a, ha, hNode⟩ := h.own hStart.symm
    have hNodup := h.spells.nodup
    rw [List.map_append, List.map_cons, List.nodup_append, List.nodup_cons] at hNodup
    have hHeap := h.heap.reorder List.perm_append_comm (List.Perm.refl _)
    obtain ⟨heap, free', hCall, hSound⟩ := Heap.Sound.kfree
      (s := { s with vmas := s.vmas.unlink .kernel e.1 }) hHeap (List.mem_append_left used ha)
    rw [List.erase_append_left _ ha] at hSound
    rw [hNode] at hCall ⊢
    rw [hCall]
    refine ⟨_, rfl, left ++ right, nodes.erase a, free', regions, ?_, h.sorted.remove, h.proper,
      fun y hy => h.below y ?_, hSound.reorder List.perm_append_comm (List.Perm.refl _),
      fun x hx => covered_rest (h.inside hx) hStart.symm, fun c hc => ?_⟩
    · rw [← hNode]
      exact h.spells.unlink
    · rcases List.mem_append.mp hy with hy | hy
      · exact List.mem_append_left _ hy
      · exact List.mem_append_right _ (List.mem_cons_of_mem _ hy)
    · have hOther : c ≠ e.1 := by
        rintro rfl
        rw [List.map_append] at hc
        rcases List.mem_append.mp hc with hc | hc
        · exact hNodup.2.2 _ hc _ List.mem_cons_self rfl
        · exact hNodup.2.1.1 hc
      have hAll : c ∈ (left ++ e :: right).map Prod.fst := by
        rw [List.map_append] at hc
        rw [List.map_append, List.map_cons]
        rcases List.mem_append.mp hc with hc | hc
        · exact List.mem_append_left _ hc
        · exact List.mem_append_right _ (List.mem_cons_of_mem _ hc)
      rcases h.node c hAll with ⟨a', ha', rfl⟩ | ⟨hCovered, hOutside⟩
      · refine Or.inl ⟨a', (List.mem_erase_of_ne ?_).mpr ha', rfl⟩
        rintro rfl
        exact hOther hNode.symm
      · exact Or.inr ⟨covered_rest hCovered hStart.symm, hOutside⟩
  · rw [if_neg hStart]
    have hLow := h.low
    have hArea : (s.vmas.node e.1).toArea = e.2 := h.spells.area_eq (by simp)
    refine ⟨_, rfl, left ++ (e.1, { e.2 with endAddr := r }) :: right, nodes, free, regions, ?_,
      h.sorted.shrink hLow le_rfl (by show r ≤ e.2.endAddr; omega), ?_, ?_, h.heap, h.inside,
      fun c hc => h.node c ?_⟩
    · refine h.spells.modify (f := fun n => { n with endAddr := r }) rfl rfl ?_
      rw [← hArea]
    · intro y hy
      rcases List.mem_append.mp hy with hy | hy
      · exact h.proper y (List.mem_append_left _ hy)
      · rcases List.mem_cons.mp hy with rfl | hy
        · show e.2.start < r
          omega
        · exact h.proper y (List.mem_append_right _ hy)
    · intro y hy
      rcases List.mem_append.mp hy with hy | hy
      · exact h.below y (List.mem_append_left _ hy)
      · rcases List.mem_cons.mp hy with rfl | hy
        · have hTop := h.top
          show r ≤ vmaKernMax
          omega
        · exact h.below y (List.mem_append_right _ (List.mem_cons_of_mem _ hy))
    · rw [List.map_append, List.map_cons] at hc ⊢
      exact hc

/-- The second half of `palloc`. -/
theorem mapFrames {npages : Nat} (hm : pnodeMin ≤ m ∧ m < pnodeMax) (hSize : size = 2 ^ m)
    (hFuel : (left ++ e :: right).length < fuel) :
    ∃ t q, ArtOS.mapFrames phys kmalloc' fuel npages size r s = some (t, q) ∧
      (q = none ∧ AtHome t used [] ∨ q = some r ∧ t.vmas = s.vmas ∧ AtHome t used [(r, m)]) := by
  have hPos : 0 < size := hSize ▸ Nat.two_pow_pos m
  have hTop : r + size < 0x40000000 := h.top
  have hEnd : Word.add r size = r + size := Word.add_eq (by omega)
  rw [ArtOS.mapFrames, hEnd]
  dsimp only
  split
  · have hUnchanged : Claimed { s with env := (phys.getPages npages s.env).1 } left e right r size
        used nodes free regions := h.mapped rfl fun _ _ => rfl
    obtain ⟨t, hFree, hHome⟩ : ∃ t, vmaFree kmalloc' kfree fuel r (r + size) _ = some (t, 0) ∧
      AtHome t used [] := hUnchanged.undo hPos hFuel
    exact ⟨t, none, Option.map_eq_some_iff.mpr ⟨_, hFree, rfl⟩, Or.inl ⟨rfl, hHome⟩⟩
  · have hMapped : Claimed { s with
          env := (phys.pageMap r (phys.getPages npages s.env).2 npages (phys.getPages npages s.env).1).1
          heap := ArtOS.mapped r size (phys.contents r (phys.getPages npages s.env).2 npages
            (phys.getPages npages s.env).1) s.heap } left e right r size used nodes free regions :=
      h.mapped rfl fun x hx => if_neg hx
    split
    · obtain ⟨t, hFree, l, nodes, free, regions, hHomed⟩ :
        ∃ t, vmaFree kmalloc' kfree fuel r (r + size) _ = some (t, 0) ∧ AtHome t used [] :=
          hMapped.undo hPos hFuel
      exact ⟨{ t with env := phys.putPages (phys.getPages npages s.env).2 npages t.env }, none,
        Option.map_eq_some_iff.mpr ⟨_, hFree, rfl⟩,
        Or.inl ⟨rfl, l, nodes, free, regions, { hHomed with }⟩⟩
    · exact ⟨_, some r, rfl, Or.inr ⟨rfl, rfl, _, _, _, _, hMapped.supply hm hSize⟩⟩

end Claimed

/-- GapRoom for `size` bytes at `r`, between the last area of `left` and the first one of `right`. -/
structure GapRoom (left right : List Entry) (r size : Nat) : Prop where
  base : vmaKernMin ≤ r
  top : r + size < vmaKernMax
  last : ∀ y ∈ left.getLast?, y.2.endAddr ≤ r
  first : ∀ y ∈ right.head?, r + size ≤ y.2.start

theorem room_of_gap (hBelow : ∀ y ∈ l, y.2.endAddr ≤ vmaKernMax) (hSize : size ≤ 2 ^ 31)
    (hGap : firstGap (fitsGap .kernel size) none l = some (pred, succ)) :
    ∃ left right, l = left ++ right ∧ pred = left.getLast? ∧ succ = right.head? ∧
      GapRoom left right (gapStart vmaKernMin (pred.map Prod.snd)) size ∧
      Word.add (gapStart vmaKernMin (pred.map Prod.snd)) size =
        gapStart vmaKernMin (pred.map Prod.snd) + size := by
  obtain ⟨left, right, rfl, hPred, rfl, hTest⟩ := firstGap_split hGap
  rw [Option.or_none] at hPred
  have hBound : gapStart vmaKernMin (pred.map Prod.snd) ≤ vmaKernMax := by
    cases hLast : pred with
    | none => decide
    | some e => exact hBelow e (List.mem_append_left _ (List.mem_of_getLast? (hPred ▸ hLast)))
  have hAdd : Word.add (gapStart vmaKernMin (pred.map Prod.snd)) size =
      gapStart vmaKernMin (pred.map Prod.snd) + size :=
    Word.add_eq (lt_of_le_of_lt (Nat.add_le_add hBound hSize) (by decide))
  obtain ⟨hLast, hFirst⟩ := fitsGap_spec hTest
  simp only [fits, decide_eq_true_eq] at hTest
  obtain ⟨_, hBase, hTop⟩ := hTest
  have hStart : gapStart Space.kernel.base (pred.map Prod.snd) =
      gapStart vmaKernMin (pred.map Prod.snd) := rfl
  rw [hStart, hAdd] at hTop hFirst
  exact ⟨left, right, rfl, hPred, rfl, ⟨hBase, hTop, hPred ▸ hLast, hFirst⟩, hAdd⟩

/-- The area in front of the gap grows into it. -/
theorem Homed.extend (h : Homed s (left ++ e :: right) used nodes free [] regions)
    (hRoom : GapRoom (left ++ [e]) right e.2.endAddr size) :
    Claimed { s with vmas := s.vmas.setNode e.1 fun n => { n with endAddr := e.2.endAddr + size } }
      left (e.1, { e.2 with endAddr := e.2.endAddr + size }) right e.2.endAddr size used nodes free
      regions := by
  have hArea : (s.vmas.node e.1).toArea = e.2 := h.spells.area_eq (by simp)
  have hProper := h.proper e (by simp)
  have hLast := h.sorted.middle.1
  have hRest : ∀ y ∈ left ++ right, y ∈ left ++ e :: right := by
    intro y hy
    rcases List.mem_append.mp hy with hy | hy
    · exact List.mem_append_left _ hy
    · exact List.mem_append_right _ (List.mem_cons_of_mem _ hy)
  refine ⟨?_, ?_, fun y hy => h.proper y (hRest y hy), ?_, h.heap, hProper.le, rfl, hRoom.base,
    hRoom.top, h.inside, fun c hc => h.node c ?_, fun hSame => absurd hSame (Nat.ne_of_lt hProper)⟩
  · refine h.spells.modify (f := fun n => { n with endAddr := e.2.endAddr + size }) rfl rfl ?_
    rw [← hArea]
  · exact h.sorted.replace (hProper.le.trans (Nat.le_add_right _ _))
      (fun y hy => hLast y (List.mem_of_getLast? hy)) hRoom.first
  · intro y hy
    rcases List.mem_append.mp hy with hy | hy
    · exact h.below y (List.mem_append_left _ hy)
    · rcases List.mem_cons.mp hy with rfl | hy
      · exact hRoom.top.le
      · exact h.below y (List.mem_append_right _ (List.mem_cons_of_mem _ hy))
  · rw [List.map_append, List.map_cons] at hc ⊢
    exact hc

/-- A block that has just been handed out is not a node. -/
theorem Homed.new_node {a : Nat} (h : Homed s l (a :: used) nodes free flight regions) :
    a + sizeofPnode ∉ l.map Prod.fst := by
  intro hNode
  have hWord : sizeofPnode = 4 := rfl
  rcases h.node _ hNode with ⟨a', ha', hSame⟩ | ⟨_, hOutside⟩
  · obtain rfl : a = a' := by omega
    have hNodup := h.heap.nodup
    rw [List.cons_append, List.nodup_cons] at hNodup
    exact hNodup.1 (List.mem_append_right _ ha')
  · have hEight : 8 ≤ 2 ^ s.heap.exponent a := Heap.eight_le_two_pow (h.heap.stamp a (by simp)).1
    have hBlock : block (a, s.heap.exponent a) ⊆ territory regions :=
      h.heap.exact.subset (List.mem_map_of_mem (by simp [Heap.liveBlocks]))
    exact hOutside (hBlock ⟨by omega, by show a + 4 < a + 2 ^ s.heap.exponent a; omega⟩)

/-- A new area with the node at hand. -/
theorem Homed.insert {a : Nat} {area : Area} (h : Homed s (left ++ right) (a :: used) nodes free [] regions)
    (hRoom : GapRoom left right r size) (hStart : area.start = r) (hEnd : area.endAddr = r + size) :
    Claimed { s with
        vmas := s.vmas.insert .kernel (a + sizeofPnode) area (left.getLast?.map Prod.fst)
          (right.head?.map Prod.fst) }
      left (a + sizeofPnode, area) right r size used (a :: nodes) free regions := by
  have hGrown : covered (left ++ right) ⊆
      covered (left ++ (a + sizeofPnode, { area with endAddr := r }) :: right) :=
    fun x hx => covered_middle.mpr (Or.inr hx)
  have hSorted : Sorted (left ++ (a + sizeofPnode, area) :: right) := by
    refine h.sorted.insert ?_ ?_ ?_
    · show area.start ≤ area.endAddr
      omega
    · exact hStart ▸ hRoom.last
    · exact hEnd ▸ hRoom.first
  refine ⟨h.spells.insert h.new_node, hSorted, h.proper, ?_,
    h.heap.reorder List.perm_middle.symm (List.Perm.refl _), hStart.le, hEnd, hRoom.base, hRoom.top,
    fun x hx => hGrown (h.inside hx), ?_, fun _ => ⟨a, List.mem_cons_self, rfl⟩⟩
  · intro y hy
    rcases List.mem_append.mp hy with hy | hy
    · exact h.below y (List.mem_append_left _ hy)
    · rcases List.mem_cons.mp hy with rfl | hy
      · exact hEnd.trans_le hRoom.top.le
      · exact h.below y (List.mem_append_right _ hy)
  · intro c hc
    rw [List.map_append, List.map_cons] at hc
    rcases List.mem_append.mp hc with hc | hc
    · exact (h.node c (by rw [List.map_append]; exact List.mem_append_left _ hc)).imp
        (Exists.imp fun a' hNode => hNode.imp_left (List.mem_cons_of_mem _))
        fun hStatic => ⟨hGrown hStatic.1, hStatic.2⟩
    · rcases List.mem_cons.mp hc with rfl | hc
      · exact Or.inl ⟨a, List.mem_cons_self, rfl⟩
      · exact (h.node c (by rw [List.map_append]; exact List.mem_append_right _ hc)).imp
          (Exists.imp fun a' hNode => hNode.imp_left (List.mem_cons_of_mem _))
          fun hStatic => ⟨hGrown hStatic.1, hStatic.2⟩

/-- What `palloc` leaves: the heap as it was, or one more region. -/
def Supplied (used : List Nat) (m : Nat) (answer : Mm Env × Option Nat) : Prop :=
  answer.2 = none ∧ AtHome answer.1 used [] ∨ ∃ q, answer.2 = some q ∧ AtHome answer.1 used [(q, m)]

/-- What `kmalloc` leaves: the heap as it was, or one more block in use. -/
def Answered (used : List Nat) (answer : Mm Env × Option Nat) : Prop :=
  answer.2 = none ∧ AtHome answer.1 used [] ∨
    ∃ a, answer.2 = some (a + sizeofPnode) ∧ AtHome answer.1 (a :: used) []

/-- The first gap of this size lies behind an area of the heap, or there is none. -/
def HeapGap (l : List Entry) (size : Nat) : Prop :=
  ∀ pred succ, firstGap (fitsGap .kernel size) none l = some (pred, succ) →
    ∃ e ∈ pred, e.2.flags = vmaHeap

theorem Homed.stamp {q : Nat} (h : Homed s l used nodes free [(q, exp + n)] regions)
    (hExp : pnodeMin ≤ exp) :
    ∃ t free', stampAnswer exp (splitAnswer exp n (s, some q)) = (t, some (q + sizeofPnode)) ∧
      t.vmas = s.vmas ∧ Homed t l (q :: used) nodes free' [] regions := by
  obtain ⟨free', hSplit⟩ := h.heap.splitDown hExp
  have hFits := hSplit.fits_flight
  have hEight := Heap.eight_le_two_pow hExp
  have hWord : sizeofPnode = 4 := rfl
  refine ⟨(s.mapHeap (splitDown exp q n)).mapHeap fun h => h.setPrefix q exp, free',
    Prod.ext rfl (congrArg some (Word.add_eq ?_)), rfl, { h with heap := hSplit.stamped }⟩
  omega

theorem Supplied.stamp {answer : Mm Env × Option Nat} (h : Supplied used (exp + n) answer)
    (hExp : pnodeMin ≤ exp) : Answered used (stampAnswer exp (splitAnswer exp n answer)) := by
  obtain ⟨s, q⟩ := answer
  rcases h with ⟨rfl, hHome⟩ | ⟨q, rfl, l, nodes, free, regions, hHomed⟩
  · exact Or.inl ⟨rfl, hHome⟩
  · obtain ⟨t, free', hStamp, _, hHomed'⟩ := hHomed.stamp hExp
    rw [hStamp]
    exact Or.inr ⟨q, rfl, l, nodes, free', regions, hHomed'⟩

/-- A block in stock is taken off its list, and the areas stay as they are. -/
theorem Homed.kmalloc_stocked (h : Homed s l used nodes free [] regions) (hSize : sz ≠ 0)
    (hExp : pnodeExp (Word.add sz sizeofPnode) = some exp) (hStock : s.heap.Stocked exp) :
    ∃ t a free', (∀ k, kmalloc phys (k + 1) sz s = some (t, some (a + sizeofPnode))) ∧
      Homed t l (a :: used) nodes free' [] regions := by
  have hMin := (pnodeExp_spec hExp).1
  obtain ⟨n, q, hTop, hHead, hAnswer⟩ := ArtOS.kmalloc_stocked hSize hExp hStock
  obtain ⟨rest, _, hPop⟩ := h.heap.pop (by omega) hHead
  rw [Nat.sub_add_cancel (hMin.trans (Nat.le_add_right ..))] at hPop
  have hTaken : Homed (s.mapHeap fun h => h.setList (exp + n - pnodeMin) (h.next q)) l used nodes
      (Function.update free (exp + n - pnodeMin) rest) [(q, exp + n)] regions := { h with heap := hPop }
  obtain ⟨t, free', hStamp, _, hHomed⟩ := hTaken.stamp hMin
  refine ⟨t, q, free', fun k => ?_, hHomed⟩
  rw [hAnswer k, hStamp]

/-- `palloc` with the address space at hand. -/
theorem Claimed.palloc {v : Mm Env}
    (h : Claimed v left e right r (2 ^ m) used nodes free regions) (hm : pnodeAlloc ≤ m ∧ m < pnodeMax)
    (hCall : vmaAlloc kmalloc' fuel (2 ^ m) vmaHeap s = some (v, r))
    (hFuel : (left ++ e :: right).length < fuel) :
    ∃ answer, ArtOS.palloc phys kmalloc' fuel (1 <<< m) s = some answer ∧ Supplied used m answer := by
  have hMin : pnodeMin ≤ m := le_trans (by decide) hm.1
  have hBase : 0xC0000 ≤ r := h.base
  have hZero : ¬ r = 0 := by omega
  obtain ⟨t, q, hMap, hAnswer⟩ : ∃ t q, ArtOS.mapFrames phys kmalloc' fuel
      (pageFloor (1 <<< m) >>> pageBits) (2 ^ m) r v = some (t, q) ∧ _ :=
    h.mapFrames ⟨hMin, hm.2⟩ rfl hFuel
  rw [palloc_eq hm, hCall, Option.bind_some, if_neg hZero, hMap]
  refine ⟨_, rfl, hAnswer.imp id ?_⟩
  rintro ⟨hAddr, _, hHome⟩
  exact ⟨r, hAddr, hHome⟩

/-- An area of the heap grows into the gap, or there is none. -/
theorem Homed.palloc_gap (h : Homed s l used nodes free [] regions)
    (hm : pnodeAlloc ≤ m ∧ m < pnodeMax) (hGap : HeapGap l (2 ^ m)) (hFuel : l.length + 2 ≤ fuel) :
    ∃ answer, palloc phys kmalloc' fuel (1 <<< m) s = some answer ∧ Supplied used m answer := by
  have hSpells : s.vmas.Spells (Space.of vmaHeap) l := h.spells
  have hSize : 2 ^ m ≤ 2 ^ 31 := Nat.pow_le_pow_right (by decide) (Nat.le_of_lt_succ hm.2)
  cases hFirst : firstGap (fitsGap .kernel (2 ^ m)) none l with
  | none =>
      rw [palloc_eq hm, vmaAlloc_full hSpells hFuel hFirst]
      exact ⟨(s, none), rfl, Or.inl ⟨rfl, l, nodes, free, regions, h⟩⟩
  | some gap =>
      obtain ⟨pred, succ⟩ := gap
      obtain ⟨e, rfl, hFlags⟩ := hGap pred succ hFirst
      obtain ⟨front, right, rfl, hPred, _, hRoom, hAdd⟩ := room_of_gap h.below hSize hFirst
      obtain ⟨left, rfl⟩ := List.getLast?_eq_some_iff.mp hPred.symm
      have hCall : vmaAlloc kmalloc' fuel (2 ^ m) vmaHeap s = _ :=
        vmaAlloc_extend hSpells hFuel hFirst (by simp) hFlags
      rw [show Word.add e.2.endAddr (2 ^ m) = e.2.endAddr + 2 ^ m from hAdd] at hCall
      rw [List.append_assoc, List.singleton_append] at h
      refine (h.extend hRoom).palloc hm hCall ?_
      simp only [List.length_append, List.length_cons, List.length_nil] at hFuel ⊢
      omega

/-- What a call for a list node leaves: at most one area of the heap has grown. -/
def NodeAnswered (l : List Entry) (used : List Nat) (answer : Mm Env × Option Nat) : Prop :=
  answer.2 = none ∧ AtHome answer.1 used [] ∨
    ∃ a f nodes free regions, answer.2 = some (a + sizeofPnode) ∧
      Homed answer.1 (l.map f) (a :: used) nodes free [] regions ∧
      ∀ y ∈ l, (f y).1 = y.1 ∧ (f y).2.start = y.2.start ∧ (y.2.flags ≠ vmaHeap → f y = y)

theorem Homed.kmalloc_node (h : Homed s l used nodes free [] regions)
    (hEnds : s.heap.Stocked nodeExp ∨ HeapGap l (2 ^ pnodeAlloc)) :
    ∃ k answer, (∀ n, k ≤ n → kmalloc phys n sizeofVma s = some answer) ∧
      NodeAnswered l used answer := by
  have hExp : pnodeExp (Word.add sizeofVma sizeofPnode) = some nodeExp := rfl
  by_cases hStock : s.heap.Stocked nodeExp
  · obtain ⟨t, a, free', hCall, hHomed⟩ : ∃ t a free',
        (∀ k, kmalloc phys (k + 1) sizeofVma s = some (t, some (a + sizeofPnode))) ∧ _ :=
      h.kmalloc_stocked (by decide) hExp hStock
    refine ⟨1, (t, some (a + sizeofPnode)), fun n hn => ?_,
      Or.inr ⟨a, id, nodes, free', regions, rfl, ?_, fun _ _ => ⟨rfl, rfl, fun _ => rfl⟩⟩⟩
    · obtain ⟨n, rfl⟩ := Nat.exists_eq_add_of_le' hn
      exact hCall n
    · rw [List.map_id]
      exact hHomed
  · have hGap := hEnds.resolve_left hStock
    have hMax : max nodeExp pnodeAlloc = nodeExp + (pnodeAlloc - nodeExp) := rfl
    obtain ⟨answer, hPalloc, hSupplied⟩ : ∃ answer, palloc phys (kmalloc phys (l.length + 2))
        (l.length + 2) (1 <<< max nodeExp pnodeAlloc) s = some answer ∧
        Supplied used (max nodeExp pnodeAlloc) answer := h.palloc_gap (by decide) hGap le_rfl
    have hCall : kmalloc phys (l.length + 3) sizeofVma s = _ := kmalloc_empty (by decide) hExp hStock
    rw [hPalloc, Option.map_some] at hCall
    refine ⟨l.length + 3, _, fun n hn => kmalloc_mono hn _ hCall, ?_⟩
    rw [hMax] at hSupplied
    rcases hSupplied.stamp (by decide) with hNone | ⟨a, hAddr, l', nodes', free', regions', hHomed⟩
    · exact Or.inl hNone
    · generalize stampAnswer nodeExp _ = final at hCall hAddr hHomed ⊢
      obtain ⟨t, _⟩ := final
      obtain rfl := hAddr
      obtain ⟨e, hGrows, hHeap, _, hList⟩ := kmalloc_grown h.spells h.below hStock hCall
      obtain rfl := hHomed.spells.unique hList
      refine Or.inr ⟨a, _, nodes', free', regions', rfl, hHomed, fun y hy => ?_⟩
      refine ⟨enlarge_fst, enlarge_start, fun hFlags => if_neg fun hSame => hFlags ?_⟩
      have hEntry : y = e :=
        List.inj_on_of_nodup_map h.spells.nodup hy (hGrows.mem h.below) hSame
      rw [hEntry]
      exact hHeap

/-- A new area of the heap. -/
def newArea (r size : Nat) : Area := { start := r, endAddr := r + size, flags := vmaHeap }

/-- A new area goes into the gap, with a node that `kmalloc` has found meanwhile. -/
theorem Homed.palloc_insert {answer : Mm Env × Option Nat} (h : Homed s l used nodes free [] regions)
    (hm : pnodeAlloc ≤ m ∧ m < pnodeMax)
    (hGap : firstGap (fitsGap .kernel (2 ^ m)) none l = some (pred, succ))
    (hFlags : ∀ e ∈ pred, e.2.flags ≠ vmaHeap) (hNode : kmalloc' sizeofVma s = some answer)
    (hAnswer : NodeAnswered l used answer) (hFuel : l.length + 2 ≤ fuel) :
    ∃ answer, palloc phys kmalloc' fuel (1 <<< m) s = some answer ∧ Supplied used m answer := by
  have hSpells : s.vmas.Spells (Space.of vmaHeap) l := h.spells
  have hSize : 2 ^ m ≤ 2 ^ 31 := Nat.pow_le_pow_right (by decide) (Nat.le_of_lt_succ hm.2)
  obtain ⟨left, right, rfl, rfl, rfl, hRoom, hAdd⟩ := room_of_gap h.below hSize hGap
  have hMem : ∀ e ∈ left.getLast?, e ∈ left ++ right := fun e he =>
    List.mem_append_left _ (List.mem_of_getLast? he)
  obtain ⟨r, hr⟩ : ∃ r, r = gapStart vmaKernMin (left.getLast?.map Prod.snd) := ⟨_, rfl⟩
  rw [← hr] at hRoom hAdd
  have hAlloc : vmaAlloc kmalloc' fuel (2 ^ m) vmaHeap s = withNode kmalloc' 0 (fun new s =>
      ({ s with
        vmas := s.vmas.insert .kernel new (newArea r (2 ^ m)) (left.getLast?.map Prod.fst)
          (right.head?.map Prod.fst) }, r)) s := by
    rw [vmaAlloc_insert hSpells hFuel hGap hMem hFlags, newArea, ← hAdd, hr]
    rfl
  obtain ⟨u, new⟩ := answer
  rw [withNode, hNode, Option.map_some] at hAlloc
  rcases hAnswer with ⟨rfl, hHome⟩ | ⟨a, f, nodes', free', regions', rfl, hHomed, hSame⟩
  · rw [palloc_eq hm, hAlloc]
    exact ⟨(u, none), rfl, Or.inl ⟨rfl, hHome⟩⟩
  · have hFst : ∀ part : List Entry, part ⊆ left ++ right →
        part.map (Prod.fst ∘ f) = part.map Prod.fst :=
      fun part hPart => List.map_congr_left fun y hy => (hSame y (hPart hy)).1
    have hLast : (left.map f).getLast?.map Prod.fst = left.getLast?.map Prod.fst := by
      rw [List.getLast?_map, Option.map_map, ← List.getLast?_map,
        hFst left (List.subset_append_left _ _), List.getLast?_map]
    have hHead : (right.map f).head?.map Prod.fst = right.head?.map Prod.fst := by
      rw [List.head?_map, Option.map_map, ← List.head?_map,
        hFst right (List.subset_append_right _ _), List.head?_map]
    have hRoom' : GapRoom (left.map f) (right.map f) r (2 ^ m) := by
      refine ⟨hRoom.base, hRoom.top, ?_, ?_⟩
      · intro y hy
        rw [List.getLast?_map] at hy
        obtain ⟨x, hx, rfl⟩ := Option.map_eq_some_iff.mp hy
        rw [(hSame x (hMem x hx)).2.2 (hFlags x hx)]
        exact hRoom.last x hx
      · intro y hy
        rw [List.head?_map] at hy
        obtain ⟨x, hx, rfl⟩ := Option.map_eq_some_iff.mp hy
        rw [(hSame x (List.mem_append_right _ (List.mem_of_head? hx))).2.1]
        exact hRoom.first x hx
    rw [List.map_append] at hHomed
    have hClaimed := hHomed.insert hRoom' (show (newArea r (2 ^ m)).start = r from rfl) rfl
    rw [hLast, hHead] at hClaimed
    refine hClaimed.palloc hm hAlloc ?_
    simp only [List.length_append, List.length_cons, List.length_map] at hFuel ⊢
    omega

end ArtOS
