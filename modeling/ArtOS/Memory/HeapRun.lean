import ArtOS.Memory.HeapBlocks
import Mathlib.Logic.Relation

/-! Runs of `kmalloc` and `kfree`. A run of depth `n + 1` may call `palloc`
functions that make calls of depth `n` themselves before they answer `NULL` or
a fresh region. The environment of a state is a ledger of the blocks in use
and of the regions obtained so far. -/
namespace ArtOS

open LinkedList Tiling

structure Ledger where
  live : List Nat
  regions : List (Nat × Nat)

abbrev HeapRun : Type := Mm Ledger

namespace HeapRun

/-- The block of the address that `kmalloc` returned is in use. -/
def record (s : HeapRun) (addr : Option Nat) : HeapRun :=
  match addr with
  | none => s
  | some addr => { s with env := { s.env with live := Word.sub addr sizeofPnode :: s.env.live } }

/-- What `palloc` may answer in the state `s`: `NULL` without touching the heap, or a region of
the requested size that overlaps no earlier one, with any contents. -/
def Supplies (s : HeapRun) (sz : Nat) (t : HeapRun) : Option Nat → Prop
  | none => t.heap = s.heap ∧ t.env = s.env
  | some p =>
      0 < p ∧ p + sz ≤ 2 ^ 32 ∧ Disjoint (Set.Ico p (p + sz)) (territory s.env.regions) ∧
        t.heap.lists = s.heap.lists ∧ (∀ x, ¬ (p ≤ x ∧ x < p + sz) → t.heap.mem x = s.heap.mem x) ∧
        t.env = { s.env with regions := (p, sz) :: s.env.regions }

/-- Every answer of `palloc` comes after some calls that `nested` allows. -/
def Lawful (nested : HeapRun → HeapRun → Prop) (palloc : Allocator Ledger) : Prop :=
  ∀ sz s t r, palloc sz s = some (t, r) → ∃ u, nested s u ∧ u.Supplies sz t r

/-- One call, or one byte written by the user of a block. -/
inductive Step (nested : HeapRun → HeapRun → Prop) : HeapRun → HeapRun → Prop where
  | kmalloc {s t : HeapRun} {r : Option Nat} (palloc : Allocator Ledger) (sz : Nat)
      (hLawful : Lawful nested palloc) (hCall : kmallocWith palloc sz s = some (t, r)) :
      Step nested s (t.record r)
  | kfree {s t : HeapRun} (a : Nat) (hLive : a ∈ s.env.live)
      (hCall : kfree (Word.add a sizeofPnode) s = some t) :
      Step nested s { t with env := { t.env with live := t.env.live.erase a } }
  | use {s : HeapRun} (a x : Nat) (v : BitVec 8) (hLive : a ∈ s.env.live)
      (hInside : a + sizeofPnode ≤ x ∧ x < a + 2 ^ s.heap.exponent a) :
      Step nested s (s.mapHeap fun h => { h with mem := Function.update h.mem x v })

/-- Runs in which `palloc` functions call each other to a depth of at most `n`. -/
def Calls : Nat → HeapRun → HeapRun → Prop
  | 0 => Eq
  | n + 1 => Relation.ReflTransGen (Step (Calls n))

/-- Nothing is in use, on a list or obtained from `palloc`. -/
def Initial (s : HeapRun) : Prop :=
  (∀ i < pnodeLists, s.heap.lists i = none) ∧ s.env.live = [] ∧ s.env.regions = []

/-- The blocks in use and on the lists tile the regions. -/
def Sound (s : HeapRun) : Prop :=
  ∃ free, s.heap.Sound free s.env.live [] s.env.regions

/-- The same with some blocks that nobody frees, each with its exponent. -/
def Pinned (pins : List (Nat × Nat)) (s : HeapRun) : Prop :=
  ∃ free, s.heap.Sound free s.env.live pins s.env.regions

variable {s t u : HeapRun} {nested : HeapRun → HeapRun → Prop} {palloc : Allocator Ledger}
variable {r : Option Nat} {exp sz : Nat} {pins : List (Nat × Nat)}

theorem Initial.sound (h : s.Initial) : s.Sound := by
  obtain ⟨hLists, hLive, hRegions⟩ := h
  refine ⟨fun _ => [], fun i hi => hLists i hi, by simp [hLive], by simp, ?_, by simp [hRegions]⟩
  have hNothing : territory [] = ∅ := by simp [territory]
  have hFree : freeBlocks (fun _ => []) = [] := List.flatMap_eq_nil_iff.mpr fun i _ => rfl
  rw [hLive, hRegions, hNothing, hFree]
  exact exact_nil

/-- What `pnode_get` returns: a block that is neither in use nor on a list. -/
def Held (pins : List (Nat × Nat)) (s : HeapRun) (exp : Nat) (pnode : Option Nat) : Prop :=
  ∃ free, s.heap.Sound free s.env.live ((pnode.map fun p => (p, exp)).toList ++ pins) s.env.regions

/-- A fresh region is a block of its own. -/
theorem Pinned.supply (h : s.Pinned pins) (hExp : pnodeMin ≤ exp ∧ exp < pnodeMax)
    (hSupply : s.Supplies (1 <<< exp) t r) : t.Held pins exp r := by
  obtain ⟨free, hs⟩ := h
  cases r with
  | none =>
      obtain ⟨hHeap, hEnv⟩ := hSupply
      refine ⟨free, ?_⟩
      rw [hHeap, hEnv]
      exact hs
  | some p =>
      obtain ⟨hPos, hTop, hFresh, hLists, hMem, hEnv⟩ := hSupply
      rw [Nat.one_shiftLeft] at hTop hFresh hMem hEnv
      have hWritten := (hs.grow hExp ⟨hPos, hTop⟩ hFresh).write hMem
      refine ⟨free, ?_⟩
      have hHeap : t.heap = { mem := t.heap.mem, lists := s.heap.lists } := by rw [← hLists]
      rw [hEnv, hHeap]
      exact hWritten

theorem Held.split {n : Nat} (h : t.Held pins (exp + n) r) (hExp : pnodeMin ≤ exp) :
    Held pins (splitAnswer exp n (t, r)).1 exp (splitAnswer exp n (t, r)).2 := by
  obtain ⟨free, hs⟩ := h
  cases r with
  | none => exact ⟨free, hs⟩
  | some p => exact hs.splitDown hExp

theorem Held.stamp (h : t.Held pins exp r) :
    Pinned pins (record (stampAnswer exp (t, r)).1 (stampAnswer exp (t, r)).2) := by
  obtain ⟨free, hs⟩ := h
  cases r with
  | none => exact ⟨free, hs⟩
  | some p =>
      have hEight : 8 ≤ 2 ^ exp := Heap.eight_le_two_pow (hs.size (p, exp) (by simp)).1
      have hTop := hs.fits_flight.2
      have hPointer : Word.sub (Word.add p sizeofPnode) sizeofPnode = p := by
        have hWord : sizeofPnode = 4 := rfl
        rw [Word.add_eq (by omega), Word.sub_eq (by omega) (by omega)]
        omega
      refine ⟨free, ?_⟩
      show Heap.Sound _ free (Word.sub (Word.add p sizeofPnode) sizeofPnode :: t.env.live) pins _
      rw [hPointer]
      exact hs.stamped

/-- The block of an answer, marked with its prefix, stays one that nobody frees. -/
theorem Held.pin {p : Nat} (h : t.Held pins exp (some p)) :
    Pinned ((p, exp) :: pins) (stampAnswer exp (t, some p)).1 ∧
      (stampAnswer exp (t, some p)).2 = some (p + sizeofPnode) := by
  obtain ⟨free, hs⟩ := h
  have hEight : 8 ≤ 2 ^ exp := Heap.eight_le_two_pow (hs.size (p, exp) (by simp)).1
  have hTop := hs.fits_flight.2
  have hWord : sizeofPnode = 4 := rfl
  refine ⟨⟨free, hs.write fun x hx => ?_⟩, congrArg some (Word.add_eq (by omega))⟩
  exact Heap.mem_setPrefix (by omega)

/-- `pnode_get` returns a block, or `NULL`, if the nested calls keep the heap sound. -/
theorem Pinned.pnodeGet (h : s.Pinned pins) (hNested : ∀ u, nested s u → u.Pinned pins)
    (hLawful : Lawful nested palloc) (hExp : pnodeMin ≤ exp ∧ exp < pnodeMax)
    (hGet : pnodeGet palloc (pnodeMax + 1) exp s = some (t, r)) : t.Held pins exp r := by
  by_cases hStock : s.heap.Stocked exp
  · obtain ⟨n, p, hBelow, hHead, hTop⟩ := hStock.least
    rw [pnodeGet_stocked hBelow hHead hTop (by omega)] at hGet
    obtain ⟨free, hs⟩ := h
    have hIndex : exp + n - pnodeMin < pnodeMax - pnodeMin := by omega
    obtain ⟨rest, _, hPop⟩ := hs.pop hIndex hHead
    rw [Nat.sub_add_cancel (hExp.1.trans (Nat.le_add_right _ _))] at hPop
    have hHeld : Held pins (s.mapHeap fun h => h.setList (exp + n - pnodeMin) (h.next p)) (exp + n) (some p) :=
      ⟨_, hPop⟩
    have hSplit := hHeld.split hExp.1
    rw [Option.some.inj hGet] at hSplit
    exact hSplit
  · rw [pnodeGet_empty hStock hExp.2 (Nat.lt_succ_of_le ((Nat.sub_le _ _).trans (by decide)))] at hGet
    obtain ⟨⟨u, r'⟩, hCall, hAnswer⟩ := Option.map_eq_some_iff.mp hGet
    obtain ⟨v, hRun, hSupply⟩ := hLawful _ _ _ _ hCall
    have hLevels : exp + (pnodeAlloc - exp) = max exp pnodeAlloc := by omega
    have hHeld : Held pins u (max exp pnodeAlloc) r' :=
      (hNested v hRun).supply ⟨hExp.1.trans (le_max_left _ _), max_lt hExp.2 (by decide)⟩ hSupply
    rw [← hLevels] at hHeld
    have hSplit := hHeld.split hExp.1
    rw [hAnswer] at hSplit
    exact hSplit

theorem Pinned.kmalloc (h : s.Pinned pins) (hNested : ∀ u, nested s u → u.Pinned pins)
    (hLawful : Lawful nested palloc) (hCall : kmallocWith palloc sz s = some (t, r)) :
    (t.record r).Pinned pins := by
  by_cases hSize : sz = 0
  · rw [kmallocWith, if_pos hSize] at hCall
    cases hCall
    exact h
  · cases hExp : pnodeExp (Word.add sz sizeofPnode) with
    | none =>
        rw [kmallocWith, if_neg hSize, hExp] at hCall
        cases hCall
    | some exp =>
        rw [kmallocWith_eq hSize hExp] at hCall
        obtain ⟨⟨u, p⟩, hGet, hAnswer⟩ := Option.map_eq_some_iff.mp hCall
        have hSpec := pnodeExp_spec hExp
        have hHeld := h.pnodeGet hNested hLawful ⟨hSpec.1, hSpec.2.1⟩ hGet
        have hStamped := hHeld.stamp
        rw [hAnswer] at hStamped
        exact hStamped

/-- `kmalloc` for a block that nobody will free. -/
theorem Pinned.kmalloc_pin {addr : Nat} (h : s.Pinned pins)
    (hNested : ∀ u, nested s u → u.Pinned pins) (hLawful : Lawful nested palloc) (hSize : sz ≠ 0)
    (hExp : pnodeExp (Word.add sz sizeofPnode) = some exp)
    (hCall : kmallocWith palloc sz s = some (t, some addr)) :
    ∃ p, addr = p + sizeofPnode ∧ t.Pinned ((p, exp) :: pins) := by
  rw [kmallocWith_eq hSize hExp] at hCall
  obtain ⟨⟨u, answer⟩, hGet, hAnswer⟩ := Option.map_eq_some_iff.mp hCall
  have hSpec := pnodeExp_spec hExp
  have hHeld := h.pnodeGet hNested hLawful ⟨hSpec.1, hSpec.2.1⟩ hGet
  cases answer with
  | none => cases hAnswer
  | some p =>
      obtain ⟨hPinned, hAddr⟩ := hHeld.pin
      rw [hAnswer] at hPinned hAddr
      exact ⟨p, Option.some.inj hAddr, hPinned⟩

/-- A block that nobody frees may be written to. -/
theorem Pinned.write {p : Nat} {m : Nat → BitVec 8} (h : s.Pinned pins) (hp : (p, exp) ∈ pins)
    (hMem : ∀ x, ¬ (p ≤ x ∧ x < p + 2 ^ exp) → m x = s.heap.mem x) :
    Pinned pins (s.mapHeap fun h => { h with mem := m }) := by
  obtain ⟨free, hs⟩ := h
  have hPerm := List.perm_cons_erase hp
  exact ⟨free, ((hs.reorder (List.Perm.refl _) hPerm).write hMem).reorder (List.Perm.refl _) hPerm.symm⟩

/-- `kfree` of a block in use comes back and keeps the heap sound. -/
theorem Pinned.kfree {a : Nat} (h : s.Pinned pins) (ha : a ∈ s.env.live) :
    ∃ t, kfree (Word.add a sizeofPnode) s = some t ∧
      Pinned pins { t with env := { t.env with live := t.env.live.erase a } } := by
  obtain ⟨free, hs⟩ := h
  have hTop : a + 2 ^ s.heap.exponent a ≤ 2 ^ 32 :=
    (hs.fits (b := (a, s.heap.exponent a)) (by simp [Heap.liveBlocks, ha])).2
  have hEight : 8 ≤ 2 ^ s.heap.exponent a := Heap.eight_le_two_pow (hs.stamp a ha).1
  have hWord : sizeofPnode = 4 := rfl
  obtain ⟨h', free', hCall, hs'⟩ := hs.kfree ha
  rw [Word.add_eq (by omega)]
  exact ⟨{ s with heap := h' }, hCall, free', hs'⟩

theorem Pinned.step (h : s.Pinned pins) (hNested : ∀ u, nested s u → u.Pinned pins)
    (hStep : Step nested s t) : t.Pinned pins := by
  cases hStep with
  | kmalloc palloc sz hLawful hCall => exact h.kmalloc hNested hLawful hCall
  | kfree a hLive hCall =>
      obtain ⟨t', hCall', hSound⟩ := h.kfree hLive
      obtain rfl := Option.some.inj (hCall.symm.trans hCall')
      exact hSound
  | use a x v hLive hInside =>
      obtain ⟨free, hs⟩ := h
      exact ⟨free, hs.use hLive hInside⟩

/-- Induction on the depth, and on the length of the run at each depth. -/
theorem Calls.pinned {n : Nat} (hCalls : Calls n s t) (h : s.Pinned pins) : t.Pinned pins := by
  induction n generalizing s t with
  | zero => exact hCalls ▸ h
  | succ n ih =>
      induction hCalls with
      | refl => exact h
      | tail _ hStep hPrior => exact hPrior.step (fun _ hNested => ih hNested hPrior) hStep

/-- In every state of every run the blocks in use and on the lists are disjoint and cover
exactly the regions obtained from `palloc`; and every block in use can be freed. -/
theorem calls_tile {n : Nat} (hStart : s.Initial) (hCalls : Calls n s t) :
    (∃ free : Nat → List Nat,
      (∀ i < pnodeLists, Chain t.heap.next (t.heap.lists i) (free i)) ∧
      Exact ((t.heap.liveBlocks t.env.live ++ freeBlocks free).map block) (territory t.env.regions)) ∧
    ∀ a ∈ t.env.live, ∃ u, kfree (Word.add a sizeofPnode) t = some u := by
  have hSound : t.Pinned [] := hCalls.pinned hStart.sound
  refine ⟨?_, fun a ha => (hSound.kfree ha).imp fun u hu => hu.1⟩
  obtain ⟨free, hs⟩ := hSound
  exact ⟨free, hs.chain, hs.exact⟩

/-- Before the first call. -/
def unused : HeapRun where
  vmas := { vmaList := none, taskVmaList := none, node := fun _ => vmaBoot }
  heap := { mem := fun _ => 0, lists := fun _ => none }
  env := { live := [], regions := [] }

theorem unused_initial : unused.Initial := ⟨fun _ _ => rfl, rfl, rfl⟩

/-- A `palloc` that offers one place. -/
def offer (base : Nat) : Allocator Ledger := fun sz s =>
  if 0 < base ∧ base + sz ≤ 2 ^ 32 ∧ ∀ r ∈ s.env.regions, r.1 + r.2 ≤ base then
    some ({ s with env := { s.env with regions := (base, sz) :: s.env.regions } }, some base)
  else some (s, none)

/-- A `palloc` that calls `kmalloc` before it offers a place. -/
def offerNested (inner outer : Nat) : Allocator Ledger := fun sz s =>
  (kmallocWith (offer inner) sizeofVma s).bind fun (s, r) => offer outer sz (record s r)

theorem offer_supplies {base : Nat} (h : offer base sz s = some (t, r)) : s.Supplies sz t r := by
  rw [offer] at h
  split at h
  · rename_i hFree
    cases h
    refine ⟨hFree.1, hFree.2.1, Set.disjoint_left.mpr ?_, rfl, fun _ _ => rfl, rfl⟩
    rintro x hx ⟨r, hr, _, hHi⟩
    exact absurd (hHi.trans_le (hFree.2.2 r hr)) (not_lt.mpr hx.1)
  · cases h
    exact ⟨rfl, rfl⟩

theorem offer_lawful {base : Nat} : Lawful (Calls 0) (offer base) := fun _ s _ _ h =>
  ⟨s, rfl, offer_supplies h⟩

theorem offerNested_lawful {inner outer : Nat} : Lawful (Calls 1) (offerNested inner outer) := by
  intro sz s t r h
  obtain ⟨⟨u, a⟩, hInner, hOuter⟩ := Option.bind_eq_some_iff.mp h
  exact ⟨record u a, Relation.ReflTransGen.single (Step.kmalloc _ _ offer_lawful hInner),
    offer_supplies hOuter⟩

/-- `kmalloc(100)` on an empty heap, with a `kmalloc(sizeof(vma_t))` nested in `palloc`. -/
theorem calls_tile_example : ∃ (s t : HeapRun) (free : Nat → List Nat), Calls 2 s t ∧
    t.env.live = [0x200000, 0x100000] ∧ t.heap.lists 4 = some 0x200080 ∧
    Exact ((t.heap.liveBlocks t.env.live ++ freeBlocks free).map block) (territory t.env.regions) := by
  let start : HeapRun :=
    { vmas := { vmaList := none, taskVmaList := none, node := fun _ => vmaBoot }
      heap := { mem := fun _ => 0, lists := fun _ => none }
      env := { live := [], regions := [] } }
  have hView : (kmallocWith (offerNested 0x100000 0x200000) 100 start).map
      (fun a => ((record a.1 a.2).env.live, (record a.1 a.2).heap.lists 4)) =
      some ([0x200000, 0x100000], some 0x200080) := by decide
  obtain ⟨⟨u, r⟩, hCall, hFields⟩ := Option.map_eq_some_iff.mp hView
  have hCalls : Calls 2 start (record u r) :=
    Relation.ReflTransGen.single (Step.kmalloc _ _ offerNested_lawful hCall)
  obtain ⟨free, _, hExact⟩ := (calls_tile ⟨fun _ _ => rfl, rfl, rfl⟩ hCalls).1
  exact ⟨start, _, free, hCalls, congrArg Prod.fst hFields, congrArg Prod.snd hFields, hExact⟩

end HeapRun
end ArtOS
