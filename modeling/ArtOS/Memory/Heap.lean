import ArtOS.Library.ByteMemory
import ArtOS.Memory.Vma

/-! The kernel heap of `mm/malloc.c`. A free block keeps the link of its list
in its first word; an allocated one keeps its prefix there. The calls of
`palloc` may change the whole state. -/
namespace ArtOS

open ByteMemory

namespace Heap

/-- `pnode->next`. -/
def next (h : Heap) (p : Nat) : Option Nat :=
  if load32 h.mem p = 0 then none else some (load32 h.mem p)

/-- `pnode->next = link`. -/
def setNext (h : Heap) (p : Nat) (link : Option Nat) : Heap :=
  { h with mem := store32 h.mem p (link.getD 0) }

/-- `pnode->prefix.exponent`. -/
def exponent (h : Heap) (p : Nat) : Nat := (h.mem p).toNat

/-- `pnode->prefix.magic`. -/
def magic (h : Heap) (p : Nat) : BitVec 16 := h.mem (p + 3) ++ h.mem (p + 2)

/-- `pnode->prefix.magic = PNODE_MAGIC; pnode->prefix.exponent = exp`. -/
def setPrefix (h : Heap) (p exp : Nat) : Heap :=
  let mem := Function.update h.mem (p + 2) (pnodeMagic.extractLsb' 0 8)
  let mem := Function.update mem (p + 3) (pnodeMagic.extractLsb' 8 8)
  { h with mem := Function.update mem p (BitVec.ofNat 8 exp) }

/-- `pnode_lists[i] = head`. -/
def setList (h : Heap) (i : Nat) (head : Option Nat) : Heap :=
  { h with lists := Function.update h.lists i head }

/-- `pnode->next = *list; *list = pnode`. -/
def push (h : Heap) (i p : Nat) : Heap := (h.setNext p (h.lists i)).setList i (some p)

def largeAvailLoop (h : Heap) : Nat → Nat → Nat
  | 0, exp => exp
  | fuel + 1, exp =>
      if exp < pnodeMax ∧ h.lists (exp - pnodeMin) = none then h.largeAvailLoop fuel (exp + 1)
      else exp

/-- Some list from `exp` up to `PNODE_MAX - 1` has a block. -/
def pnodeLargeAvail (h : Heap) (exp : Nat) : Bool := h.largeAvailLoop pnodeMax exp ≠ pnodeMax

/-- Put a block on the list of its exponent. An exponent without a list is an access outside
`pnode_lists`. -/
def pnodePut (h : Heap) (p : Nat) : Option Heap :=
  if pnodeMin ≤ h.exponent p ∧ h.exponent p ≤ pnodeMax then some (h.push (h.exponent p - pnodeMin) p)
  else none

section Fields

variable {h : Heap} {i j p exp : Nat} {head : Option Nat}

@[simp] theorem mem_setList : (h.setList i head).mem = h.mem := rfl

@[simp] theorem next_setList : (h.setList i head).next = h.next := rfl

@[simp] theorem lists_setList_self : (h.setList i head).lists i = head := Function.update_self ..

theorem lists_setList_of_ne (hj : j ≠ i) : (h.setList i head).lists j = h.lists j :=
  Function.update_of_ne hj ..

@[simp] theorem lists_setNext : (h.setNext p head).lists = h.lists := rfl

@[simp] theorem lists_setPrefix : (h.setPrefix p exp).lists = h.lists := rfl

@[simp] theorem lists_push_self : (h.push i p).lists i = some p := Function.update_self ..

theorem lists_push_of_ne (hj : j ≠ i) : (h.push i p).lists j = h.lists j :=
  Function.update_of_ne hj ..

end Fields

end Heap

/-- The loop of `pnode_exp`; from 32 on the shift is undefined. -/
def pnodeExpLoop (sz : Nat) : Nat → Nat → Option Nat
  | 0, _ => none
  | fuel + 1, exp => if 1 <<< exp < sz then pnodeExpLoop sz fuel (exp + 1) else some exp

def pnodeExp (sz : Nat) : Option Nat :=
  (pnodeExpLoop sz 32 0).map fun exp =>
    let exp := if pnodeMax < exp then 0 else exp
    if exp < pnodeMin then pnodeMin else exp

variable {Env : Type}

def Mm.mapHeap (f : Heap → Heap) (s : Mm Env) : Mm Env := { s with heap := f s.heap }

/-- Put the second half of a block of twice the size on the list of `exp`. -/
def splitBlock (exp pnode : Nat) (h : Heap) : Heap :=
  h.push (exp - pnodeMin) (Word.add pnode (1 <<< exp))

/-- `pnode_get`, with the calls of itself cut off after `fuel` levels. -/
def pnodeGet (palloc : Allocator Env) : Nat → Nat → Mm Env → Option (Mm Env × Option Nat)
  | 0, _, _ => none
  | fuel + 1, exp, s =>
      match s.heap.lists (exp - pnodeMin) with
      | some pnode =>
          some (s.mapHeap fun h => h.setList (exp - pnodeMin) (h.next pnode), some pnode)
      | none =>
          if pnodeAlloc ≤ exp ∧ ¬ s.heap.pnodeLargeAvail exp then palloc (1 <<< exp) s
          else
            (pnodeGet palloc fuel (exp + 1) s).map fun (s, pnode) =>
              match pnode with
              | none => (s, none)
              | some pnode => (s.mapHeap (splitBlock exp pnode), some pnode)

/-- `kmalloc`, given `palloc`. -/
def kmallocWith (palloc : Allocator Env) : Allocator Env := fun sz s =>
  if sz = 0 then some (s, none)
  else
    (pnodeExp (Word.add sz sizeofPnode)).bind fun exp =>
      if exp = 0 then some (s, none)
      else
        (pnodeGet palloc (pnodeMax + 1) exp s).map fun (s, pnode) =>
          match pnode with
          | none => (s, none)
          | some pnode =>
              (s.mapHeap fun h => h.setPrefix pnode exp, some (Word.add pnode sizeofPnode))

def kfree : Deallocator Env := fun addr s =>
  if addr = 0 then some s
  else
    let pnode := Word.sub addr sizeofPnode
    if s.heap.magic pnode ≠ pnodeMagic then some s
    else (s.heap.pnodePut pnode).map fun h => { s with heap := h }

/-! What `pnode_get` comes to: it takes the smallest block there is, or else what `palloc`
gives it, and halves that down to the size asked for. -/

/-- Halving a block of exponent `exp + n` on the way back through `n` levels. -/
def splitDown (exp pnode : Nat) : Nat → Heap → Heap
  | 0, h => h
  | n + 1, h => splitBlock exp pnode (splitDown (exp + 1) pnode n h)

/-- The answer of `pnode_get` for an answer that is `n` levels up. -/
def splitAnswer (exp n : Nat) (answer : Mm Env × Option Nat) : Mm Env × Option Nat :=
  match answer.2 with
  | none => answer
  | some pnode => (answer.1.mapHeap (splitDown exp pnode n), some pnode)

/-- Some list from `exp` up to `PNODE_MAX - 1` has a block. -/
def Heap.Stocked (h : Heap) (exp : Nat) : Prop :=
  ∃ k, exp ≤ k ∧ k < pnodeMax ∧ h.lists (k - pnodeMin) ≠ none

section PnodeGet

variable {h : Heap} {s : Mm Env} {palloc palloc' : Allocator Env} {fuel fuel' exp n p : Nat}

theorem Heap.lists_of_not_stocked (hEmpty : ¬ h.Stocked exp) (hExp : exp < pnodeMax) :
    h.lists (exp - pnodeMin) = none := by
  by_contra hSome
  exact hEmpty ⟨exp, le_rfl, hExp, hSome⟩

theorem Heap.stocked_succ (hNone : h.lists (exp - pnodeMin) = none) :
    h.Stocked (exp + 1) ↔ h.Stocked exp := by
  constructor
  · rintro ⟨k, hk, hMax, hHead⟩
    exact ⟨k, by omega, hMax, hHead⟩
  · rintro ⟨k, hk, hMax, hHead⟩
    refine ⟨k, Nat.lt_of_le_of_ne hk ?_, hMax, hHead⟩
    rintro rfl
    exact hHead hNone

theorem Heap.largeAvailLoop_ne (hExp : exp ≤ pnodeMax) (hFuel : pnodeMax ≤ exp + fuel) :
    h.largeAvailLoop fuel exp ≠ pnodeMax ↔ h.Stocked exp := by
  induction fuel generalizing exp with
  | zero =>
      obtain rfl : exp = pnodeMax := Nat.le_antisymm hExp hFuel
      refine iff_of_false (fun hne => hne rfl) ?_
      rintro ⟨k, hk, hMax, _⟩
      omega
  | succ fuel ih =>
      rw [largeAvailLoop]
      split
      · rename_i hEmpty
        rw [ih hEmpty.1 (by omega), stocked_succ hEmpty.2]
      · rename_i hEnd
        by_cases hMax : exp < pnodeMax
        · exact iff_of_true (Nat.ne_of_lt hMax) ⟨exp, le_rfl, hMax, fun hNone => hEnd ⟨hMax, hNone⟩⟩
        · refine iff_of_false (fun hne => hne (by omega)) ?_
          rintro ⟨k, hk, hk', _⟩
          omega

theorem Heap.pnodeLargeAvail_iff (hExp : exp ≤ pnodeMax) :
    h.pnodeLargeAvail exp = true ↔ h.Stocked exp := by
  rw [pnodeLargeAvail, decide_eq_true_eq]
  exact largeAvailLoop_ne hExp (Nat.le_add_left _ _)

theorem splitAnswer_zero : splitAnswer exp 0 = (id : Mm Env × Option Nat → _) := by
  funext answer
  obtain ⟨s, _ | p⟩ := answer <;> rfl

theorem splitAnswer_succ :
    splitAnswer exp 1 ∘ splitAnswer (exp + 1) n = (splitAnswer exp (n + 1) : Mm Env × Option Nat → _) := by
  funext answer
  obtain ⟨s, _ | p⟩ := answer <;> rfl

/-- One level of `pnode_get` that asks for a block of twice the size. -/
theorem pnodeGet_succ (hNone : s.heap.lists (exp - pnodeMin) = none)
    (hUp : pnodeAlloc ≤ exp → s.heap.pnodeLargeAvail exp = true) :
    pnodeGet palloc (fuel + 1) exp s = (pnodeGet palloc fuel (exp + 1) s).map (splitAnswer exp 1) := by
  have hGuard : ¬ (pnodeAlloc ≤ exp ∧ ¬ s.heap.pnodeLargeAvail exp = true) := fun h => h.2 (hUp h.1)
  rw [pnodeGet, hNone]
  simp only [if_neg hGuard]
  congr 1
  funext answer
  obtain ⟨s, _ | p⟩ := answer <;> rfl

/-- Without a block in stock `pnode_get` depends on `palloc`. -/
theorem pnodeGet_empty (hEmpty : ¬ s.heap.Stocked exp) (hExp : exp < pnodeMax)
    (hFuel : pnodeAlloc - exp < fuel) :
    pnodeGet palloc fuel exp s =
      (palloc (1 <<< max exp pnodeAlloc) s).map (splitAnswer exp (pnodeAlloc - exp)) := by
  generalize hLevels : pnodeAlloc - exp = n at hFuel ⊢
  induction n generalizing exp fuel with
  | zero =>
      obtain ⟨fuel, rfl⟩ := Nat.exists_eq_add_of_lt hFuel
      have hAlloc : pnodeAlloc ≤ exp := Nat.le_of_sub_eq_zero hLevels
      have hNone := Heap.lists_of_not_stocked hEmpty hExp
      have hGuard : pnodeAlloc ≤ exp ∧ ¬ s.heap.pnodeLargeAvail exp = true :=
        ⟨hAlloc, fun hLarge => hEmpty ((Heap.pnodeLargeAvail_iff hExp.le).mp hLarge)⟩
      rw [pnodeGet, hNone]
      simp only [if_pos hGuard, Nat.max_eq_left hAlloc, splitAnswer_zero, Option.map_id, id]
  | succ n ih =>
      obtain ⟨fuel, rfl⟩ := Nat.exists_eq_add_of_lt hFuel
      have hNone := Heap.lists_of_not_stocked hEmpty hExp
      have hBelow : exp + 1 ≤ pnodeAlloc := Nat.lt_of_sub_eq_succ hLevels
      have hMax : max (exp + 1) pnodeAlloc = max exp pnodeAlloc := by omega
      rw [pnodeGet_succ hNone (fun h => absurd h (by omega)),
        ih (fun h => hEmpty ((Heap.stocked_succ hNone).mp h)) (hBelow.trans_lt (by decide)) (by omega)
          (by omega), hMax, Option.map_map, splitAnswer_succ]

/-- The smallest block in stock is taken. -/
theorem pnodeGet_stocked (hBelow : ∀ k, exp ≤ k → k < exp + n → s.heap.lists (k - pnodeMin) = none)
    (hHead : s.heap.lists (exp + n - pnodeMin) = some p) (hExp : exp + n < pnodeMax)
    (hFuel : n < fuel) :
    pnodeGet palloc fuel exp s = some (splitAnswer exp n
      (s.mapHeap fun h => h.setList (exp + n - pnodeMin) (h.next p), some p)) := by
  induction n generalizing exp fuel with
  | zero =>
      obtain ⟨fuel, rfl⟩ := Nat.exists_eq_add_of_lt hFuel
      rw [Nat.add_zero] at hHead ⊢
      rw [pnodeGet, hHead, splitAnswer_zero]
      rfl
  | succ n ih =>
      obtain ⟨fuel, rfl⟩ := Nat.exists_eq_add_of_lt hFuel
      have hSum : exp + (n + 1) = exp + 1 + n := by omega
      have hStock : s.heap.Stocked exp := ⟨exp + (n + 1), by omega, hExp, by simp [hHead]⟩
      rw [hSum] at hHead hExp hBelow ⊢
      rw [pnodeGet_succ (hBelow exp le_rfl (by omega))
          (fun _ => (Heap.pnodeLargeAvail_iff (by omega)).mpr hStock),
        ih (fun k hk => hBelow k (by omega)) hHead hExp (by omega), Option.map_some]
      exact congrArg some (congrFun splitAnswer_succ _)

/-- Where the smallest block in stock is. -/
theorem Heap.Stocked.least (hStock : h.Stocked exp) :
    ∃ n p, (∀ k, exp ≤ k → k < exp + n → h.lists (k - pnodeMin) = none) ∧
      h.lists (exp + n - pnodeMin) = some p ∧ exp + n < pnodeMax := by
  have hExists : ∃ n, exp + n < pnodeMax ∧ h.lists (exp + n - pnodeMin) ≠ none := by
    obtain ⟨k, hk, hMax, hHead⟩ := hStock
    exact ⟨k - exp, by rw [Nat.add_sub_cancel' hk]; exact ⟨hMax, hHead⟩⟩
  obtain ⟨hMax, hHead⟩ := Nat.find_spec hExists
  obtain ⟨p, hp⟩ := Option.ne_none_iff_exists'.mp hHead
  refine ⟨Nat.find hExists, p, fun k hk hLess => ?_, hp, hMax⟩
  have hBefore := Nat.find_min hExists (m := k - exp) (by omega)
  rw [Nat.add_sub_cancel' hk] at hBefore
  by_contra hSome
  exact hBefore ⟨by omega, hSome⟩

theorem pnodeGet_mono (hPalloc : ∀ sz s, Partial.Le (palloc sz s) (palloc' sz s)) (h : fuel ≤ fuel') :
    Partial.Le (pnodeGet palloc fuel exp s) (pnodeGet palloc' fuel' exp s) := by
  induction fuel generalizing fuel' exp with
  | zero => exact Partial.le_none
  | succ fuel ih =>
      obtain ⟨fuel', rfl⟩ := Nat.exists_eq_add_of_le' (Nat.le_of_add_left_le h)
      rw [pnodeGet, pnodeGet]
      cases s.heap.lists (exp - pnodeMin) with
      | some p => exact Partial.Le.refl
      | none => exact Partial.Le.ite (hPalloc _ _) (ih (by omega)).map

end PnodeGet

/-! What `kmalloc` comes to. -/

section Kmalloc

variable {s : Mm Env} {palloc palloc' : Allocator Env} {fuel exp e sz k : Nat}

theorem pnodeExpLoop_spec (hLoop : pnodeExpLoop sz fuel exp = some e) :
    exp ≤ e ∧ e < exp + fuel ∧ sz ≤ 2 ^ e := by
  induction fuel generalizing exp with
  | zero => cases hLoop
  | succ fuel ih =>
      rw [pnodeExpLoop] at hLoop
      split at hLoop
      · have hRest := ih hLoop
        omega
      · cases hLoop
        rename_i hEnough
        rw [Nat.one_shiftLeft] at hEnough
        omega

theorem pnodeExpLoop_total (hk : exp ≤ k ∧ k < exp + fuel) (hSize : sz ≤ 2 ^ k) :
    ∃ e ≤ k, pnodeExpLoop sz fuel exp = some e := by
  induction fuel generalizing exp with
  | zero => omega
  | succ fuel ih =>
      rw [pnodeExpLoop, Nat.one_shiftLeft]
      split
      · rename_i hMore
        have hne : exp ≠ k := by
          rintro rfl
          omega
        exact ih (by omega)
      · exact ⟨exp, hk.1, rfl⟩

/-- The exponent of a request is one of a list, and the block is large enough. -/
theorem pnodeExp_spec (hExp : pnodeExp sz = some e) :
    pnodeMin ≤ e ∧ e < pnodeMax ∧ sz ≤ 2 ^ e := by
  obtain ⟨e', hLoop, hClamp⟩ := Option.map_eq_some_iff.mp hExp
  obtain ⟨_, hMax, hSize⟩ := pnodeExpLoop_spec hLoop
  have hTop : ¬ pnodeMax < e' := by
    have hLimit : pnodeMax = 32 := rfl
    omega
  simp only [if_neg hTop] at hClamp
  split at hClamp
  · rename_i hSmall
    subst hClamp
    exact ⟨le_rfl, by decide, hSize.trans (Nat.pow_le_pow_right (by omega) hSmall.le)⟩
  · subst hClamp
    exact ⟨by omega, by omega, hSize⟩

theorem pnodeExp_total (hk : k < pnodeMax) (hSize : sz ≤ 2 ^ k) :
    ∃ e ≤ max k pnodeMin, pnodeExp sz = some e := by
  obtain ⟨e, he, hLoop⟩ : ∃ e ≤ k, pnodeExpLoop sz 32 0 = some e :=
    pnodeExpLoop_total ⟨Nat.zero_le k, by omega⟩ hSize
  have hTop : ¬ pnodeMax < e := by omega
  refine ⟨if e < pnodeMin then pnodeMin else e, ?_, ?_⟩
  · split <;> omega
  · simp only [pnodeExp, hLoop, Option.map_some, if_neg hTop]

/-- Marking the block of an answer. -/
def stampAnswer (exp : Nat) (answer : Mm Env × Option Nat) : Mm Env × Option Nat :=
  match answer.2 with
  | none => answer
  | some pnode => (answer.1.mapHeap fun h => h.setPrefix pnode exp, some (Word.add pnode sizeofPnode))

theorem kmallocWith_eq (hSize : sz ≠ 0) (hExp : pnodeExp (Word.add sz sizeofPnode) = some exp) :
    kmallocWith palloc sz s = (pnodeGet palloc (pnodeMax + 1) exp s).map (stampAnswer exp) := by
  have hZero : exp ≠ 0 := by
    have hMin := (pnodeExp_spec hExp).1
    rintro rfl
    exact absurd hMin (by decide)
  rw [kmallocWith, if_neg hSize, hExp, Option.bind_some, if_neg hZero]
  congr 1
  funext answer
  obtain ⟨s, _ | p⟩ := answer <;> rfl

theorem kmallocWith_mono (hPalloc : ∀ sz s, Partial.Le (palloc sz s) (palloc' sz s)) :
    Partial.Le (kmallocWith palloc sz s) (kmallocWith palloc' sz s) :=
  Partial.Le.ite Partial.Le.refl (Partial.Le.bind Partial.Le.refl fun _ =>
    Partial.Le.ite Partial.Le.refl (pnodeGet_mono hPalloc le_rfl).map)

end Kmalloc

end ArtOS
