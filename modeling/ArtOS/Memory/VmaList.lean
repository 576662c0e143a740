import ArtOS.Library.DoublyLinked
import ArtOS.Library.Intervals
import ArtOS.Memory.Vma

/-! The lists of `vma.c` as plain lists of areas. `Spells v sp l` says that the
nodes of `v` spell `l`; the searches of the code are then searches in `l`, and
its edits are edits of `l`. -/
namespace ArtOS

open DoublyLinked Intervals

/-- An area with the address of its node. -/
abbrev Entry : Type := Nat × Area

/-- The areas of a list are in order and do not overlap. -/
abbrev Sorted (l : List Entry) : Prop :=
  Ordered (fun e : Entry => e.2.start) (fun e : Entry => e.2.endAddr) l

namespace Vmas

/-- The list of `sp` consists of these areas, linked in both directions. -/
def Spells (v : Vmas) (sp : Space) (l : List Entry) : Prop :=
  Path v.next v.prev v.area none (v.list sp) l none

variable {v v' : Vmas} {sp : Space} {l left right : List Entry} {e : Entry} {p q new : Nat}
variable {pred succ target : Option Nat} {f : Vma → Vma} {area : Area} {fuel : Nat}

@[simp] theorem list_setNode : (v.setNode p f).list sp = v.list sp := by cases sp <;> rfl

@[simp] theorem list_setList : (v.setList target sp).list sp = target := by cases sp <;> rfl

@[simp] theorem node_setList : (v.setList target sp).node = v.node := by cases sp <;> rfl

theorem node_setNode : (v.setNode p f).node q = if q = p then f (v.node p) else v.node q := by
  show Function.update v.node p _ q = _
  rw [Function.update_apply]

@[simp] theorem list_linkNext : (v.linkNext pred target).list sp = v.list sp := by
  cases pred with
  | none => rfl
  | some p => exact list_setNode

@[simp] theorem list_linkPrev : (v.linkPrev pred target).list sp = v.list sp := by
  cases pred with
  | none => rfl
  | some p => exact list_setNode

theorem node_linkNext : (v.linkNext pred target).node q =
    if pred = some q then { v.node q with next := target } else v.node q := by
  cases pred with
  | none => rfl
  | some p =>
      rw [linkNext, node_setNode]
      by_cases hq : q = p
      · simp [hq]
      · simp [hq, Ne.symm hq]

theorem node_linkPrev : (v.linkPrev pred target).node q =
    if pred = some q then { v.node q with prev := target } else v.node q := by
  cases pred with
  | none => rfl
  | some p =>
      rw [linkPrev, node_setNode]
      by_cases hq : q = p
      · simp [hq]
      · simp [hq, Ne.symm hq]

theorem list_insert : (v.insert sp new area pred succ).list sp =
    if pred.isSome then v.list sp else some new := by
  rw [insert]
  split <;> simp

/-- What `insert` writes into a node. -/
theorem node_insert (hPred : pred ≠ some new) (hSucc : succ ≠ some new) :
    (v.insert sp new area pred succ).node q =
      if q = new then { area with next := succ, prev := pred }
      else { v.node q with
        next := if pred = some q then some new else (v.node q).next
        prev := if succ = some q then some new else (v.node q).prev } := by
  have hNode : (v.insert sp new area pred succ).node q =
      (((v.setNode new fun _ => { area with next := succ, prev := pred }).linkPrev succ
        (some new)).linkNext pred (some new)).node q := by
    rw [insert]
    cases pred with
    | none => simp [linkNext]
    | some p => rfl
  rw [hNode, node_linkNext, node_linkPrev, node_setNode]
  by_cases hq : q = new
  · subst hq
    simp [hPred, hSucc]
  · by_cases hp : pred = some q <;> by_cases hs : succ = some q <;> simp [hq, hp, hs]

theorem Spells.unique {l' : List Entry} (h : v.Spells sp l) (h' : v.Spells sp l') : l = l' :=
  Path.unique h h'

theorem Spells.nodup (h : v.Spells sp l) : (l.map Prod.fst).Nodup := Path.nodup h

theorem Spells.area_eq (h : v.Spells sp l) (he : e ∈ l) : v.area e.1 = e.2 := Path.data_eq h he

theorem Spells.list_eq (h : v.Spells sp l) : v.list sp = first l := Path.start_eq h

/-- Only the nodes of the list are read. -/
theorem Spells.congr (h : v.Spells sp l) (hList : v'.list sp = v.list sp)
    (hNode : ∀ p ∈ l.map Prod.fst, v'.node p = v.node p) : v'.Spells sp l := by
  rw [Spells, hList]
  refine Path.congr h fun p hp => ?_
  simp only [next, prev, Vmas.area, hNode p hp, and_self]

/-- Linking a new node between two neighbours. -/
theorem Spells.insert (h : v.Spells sp (left ++ right)) (hNew : new ∉ (left ++ right).map Prod.fst) :
    (v.insert sp new area (left.getLast?.map Prod.fst) (right.head?.map Prod.fst)).Spells sp
      (left ++ (new, area) :: right) := by
  rw [← last_none, ← first_eq]
  have hPred : last none left ≠ some new := fun he => hNew (by
    have hm := last_eq_some he
    simp at hm
    simp [hm])
  have hSucc : first right ≠ some new := fun he => hNew (by
    have hm := first_eq_some he
    simp at hm
    simp [hm])
  refine Path.splice [] [(new, area)] (some new) h ?_ ?_ fun c hc => ?_
  · rw [path_cons, next, prev, Vmas.area, node_insert hPred hSucc, if_pos rfl]
    exact ⟨rfl, rfl, rfl, rfl⟩
  · rw [list_insert]
    cases left using List.reverseRecOn with
    | nil => rfl
    | append_singleton l e => simp
  · have hne : c ≠ new := fun he => hNew (he ▸ hc)
    refine ⟨?_, ?_, ?_⟩
    · rw [next, node_insert hPred hSucc, if_neg hne, next]
    · rw [prev, node_insert hPred hSucc, if_neg hne, prev]
      rfl
    · rw [Vmas.area, node_insert hPred hSucc, if_neg hne, Vmas.area]

/-- Rewriting the area of one node. -/
theorem Spells.modify (h : v.Spells sp (left ++ e :: right))
    (hNext : (f (v.node e.1)).next = (v.node e.1).next)
    (hPrev : (f (v.node e.1)).prev = (v.node e.1).prev) (hArea : (f (v.node e.1)).toArea = area) :
    (v.setNode e.1 f).Spells sp (left ++ (e.1, area) :: right) := by
  have hNext' : (v.setNode e.1 f).next = v.next := by
    funext c
    rw [next, node_setNode]
    split
    · rename_i hc
      rw [hNext, hc, next]
    · rfl
  have hPrev' : (v.setNode e.1 f).prev = v.prev := by
    funext c
    rw [prev, node_setNode]
    split
    · rename_i hc
      rw [hPrev, hc, prev]
    · rfl
  have hNodup := h.nodup
  rw [List.map_append, List.map_cons, List.nodup_append, List.nodup_cons] at hNodup
  have hOther : ∀ c ∈ left.map Prod.fst ++ right.map Prod.fst,
      (v.setNode e.1 f).area c = v.area c := by
    intro c hc
    have hne : c ≠ e.1 := by
      rintro rfl
      cases List.mem_append.mp hc with
      | inl hl => exact hNodup.2.2 _ hl _ (by simp) rfl
      | inr hr => exact hNodup.2.1.1 hr
    rw [Vmas.area, node_setNode, if_neg hne, Vmas.area]
  obtain ⟨middle, hLeft, hStart, hBack, _, hRight⟩ := path_append.mp h
  rw [Spells, list_setNode]
  refine path_append.mpr ⟨middle, ?_, hStart, ?_, ?_, ?_⟩
  · rw [hNext', hPrev']
    exact hLeft.congr fun c hc => ⟨rfl, rfl, hOther c (by simp at hc; simp [hc])⟩
  · rw [hPrev']
    exact hBack
  · rw [Vmas.area, node_setNode, if_pos rfl, hArea]
  · rw [hNext', hPrev']
    exact hRight.congr fun c hc => ⟨rfl, rfl, hOther c (by simp at hc; simp [hc])⟩

/-- Taking a node out links its neighbours. -/
theorem Spells.unlink_eq (h : v.Spells sp (left ++ e :: right)) : v.unlink sp e.1 =
    ((if left = [] then v.setList (first right) sp else v).linkNext (last none left)
      (first right)).linkPrev (first right) (last none left) := by
  obtain ⟨middle, hLeft, hStart, hPrev, _, hRight⟩ := path_append.mp h
  have hNext : v.next e.1 = first right := hRight.start_eq
  have hNodup := h.nodup
  rw [List.map_append, List.map_cons, List.nodup_append, List.nodup_cons] at hNodup
  have hOff : last none left ≠ some e.1 := fun he => hNodup.2.2 e.1 (last_eq_some he) e.1 (by simp) rfl
  have hHead : v.list sp = some e.1 ↔ left = [] := by
    rw [h.list_eq]
    cases left with
    | nil => simp
    | cons a r =>
        have hne : a.1 ≠ e.1 := hNodup.2.2 a.1 (by simp) e.1 (by simp)
        simp [hne]
  rw [Vmas.unlink, hNext]
  simp only [hHead]
  generalize hw : (if left = [] then v.setList (first right) sp else v) = w
  have hNode : w.node = v.node := by
    rw [← hw]
    split <;> simp
  have hPrevW : w.prev e.1 = last none left := by rw [prev, hNode, ← prev, hPrev]
  have hNextW : w.next e.1 = first right := by rw [next, hNode, ← next, hNext]
  have hPrevX : (w.linkNext (last none left) (first right)).prev e.1 = last none left := by
    rw [prev, node_linkNext, if_neg hOff, ← prev, hPrevW]
  have hNextX : (w.linkNext (last none left) (first right)).next e.1 = first right := by
    rw [next, node_linkNext, if_neg hOff, ← next, hNextW]
  rw [hPrevW, hNextW, hPrevX, hNextX]

theorem Spells.node_unlink (h : v.Spells sp (left ++ e :: right)) (c : Nat) :
    (v.unlink sp e.1).node c = { v.node c with
      next := if last none left = some c then first right else (v.node c).next
      prev := if first right = some c then last none left else (v.node c).prev } := by
  have hNode : (if left = [] then v.setList (first right) sp else v).node = v.node := by
    split <;> simp
  rw [h.unlink_eq, node_linkPrev, node_linkNext, hNode]
  by_cases hl : last none left = some c <;> by_cases hr : first right = some c <;> simp [hl, hr]

/-- Taking a node out. -/
theorem Spells.unlink (h : v.Spells sp (left ++ e :: right)) :
    (v.unlink sp e.1).Spells sp (left ++ right) := by
  refine Path.splice [e] [] (first right) h ?_ ?_ fun c _ => ?_
  · exact path_nil.mpr rfl
  · rw [h.unlink_eq, list_linkPrev, list_linkNext]
    split
    · exact list_setList
    · rfl
  · refine ⟨?_, ?_, ?_⟩
    · rw [next, h.node_unlink c, next]
    · rw [prev, h.node_unlink c, prev]
      rfl
    · rw [Vmas.area, h.node_unlink c, Vmas.area]

/-- The other list is not concerned. -/
theorem Spells.unlink_other {sp' : Space} {l' : List Entry} (h : v.Spells sp (left ++ e :: right))
    (h' : v.Spells sp' l') (hSpace : sp' ≠ sp)
    (hApart : ∀ p ∈ l'.map Prod.fst, p ∉ (left ++ e :: right).map Prod.fst) :
    (v.unlink sp e.1).Spells sp' l' := by
  refine h'.congr ?_ fun c hc => ?_
  · rw [h.unlink_eq, list_linkPrev, list_linkNext]
    split
    · cases sp <;> cases sp' <;> first | rfl | exact absurd rfl hSpace
    · rfl
  · have hOff := hApart c hc
    rw [List.map_append, List.map_cons, List.mem_append, List.mem_cons] at hOff
    have hLast : last none left ≠ some c := fun hl => hOff (Or.inl (last_eq_some hl))
    have hFirst : first right ≠ some c := fun hr => hOff (Or.inr (Or.inr (first_eq_some hr)))
    rw [h.node_unlink c, if_neg hLast, if_neg hFirst]

theorem list_split {a b : Nat} : (v.split p new a b).list sp = v.list sp := by
  simp only [split, list_setNode]

/-- What a split writes into a node. -/
theorem node_split {a b : Nat} (hne : p ≠ new) : (v.split p new a b).node q =
    if q = new then
      { start := b, endAddr := (v.node p).endAddr, flags := (v.node new).flags
        next := (v.node p).next, prev := some p }
    else if q = p then { v.node p with endAddr := a, next := some new }
    else v.node q := by
  simp only [split, next, node_setNode]
  by_cases hq : q = new
  · simp [hq, hne, Ne.symm hne]
  · by_cases hp : q = p <;> simp [hq, hp, hne]

/-- Splitting the last area. -/
theorem Spells.split_last {a b : Nat} (h : v.Spells sp (left ++ [e]))
    (hNew : new ∉ (left ++ [e]).map Prod.fst) :
    (v.split e.1 new a b).Spells sp (left ++ [(e.1, { e.2 with endAddr := a }),
      (new, { start := b, endAddr := e.2.endAddr, flags := (v.node new).flags })]) := by
  have hne : e.1 ≠ new := fun he => hNew (by simp [he])
  obtain ⟨middle, hLeft, hStart, hPrev, hData, hNext⟩ := path_append.mp h
  have hArea : (v.node e.1).toArea = e.2 := hData
  have hNodup := h.nodup
  rw [List.map_append, List.nodup_append] at hNodup
  rw [Spells, list_split]
  refine path_append.mpr ⟨middle, hLeft.congr fun c hc => ?_, hStart, ?_, ?_, ?_⟩
  · have hc₁ : c ≠ e.1 := hNodup.2.2 c hc e.1 (by simp)
    have hc₂ : c ≠ new := fun he => hNew (by simp at hc; simp [← he, hc])
    have hNode : (v.split e.1 new a b).node c = v.node c := by
      rw [node_split hne, if_neg hc₂, if_neg hc₁]
    simp only [next, prev, Vmas.area, hNode, and_self]
  · rw [prev, node_split hne, if_neg hne, if_pos rfl]
    exact hPrev
  · rw [Vmas.area, node_split hne, if_neg hne, if_pos rfl, ← hArea]
  · rw [next, node_split hne, if_neg hne, if_pos rfl]
    refine ⟨rfl, ?_, ?_, ?_⟩
    · rw [prev, node_split hne, if_pos rfl]
    · rw [Vmas.area, node_split hne, if_pos rfl, ← hArea]
    · rw [next, node_split hne, if_pos rfl]
      exact hNext

/-- A split as the forward links see it: this holds whether or not the area was the last. -/
theorem Spells.chain_split {a b : Nat} (h : v.Spells sp (left ++ e :: right))
    (hNew : new ∉ (left ++ e :: right).map Prod.fst) :
    LinkedList.Chain (v.split e.1 new a b).next (v.list sp)
      (left.map Prod.fst ++ e.1 :: new :: right.map Prod.fst) := by
  have hne : e.1 ≠ new := fun he => hNew (by simp [he])
  have hNodup := h.nodup
  rw [List.map_append, List.map_cons, List.nodup_append, List.nodup_cons] at hNodup
  have hOther : ∀ c ∈ left.map Prod.fst ++ right.map Prod.fst,
      (v.split e.1 new a b).next c = v.next c := by
    intro c hc
    have hc₁ : c ≠ e.1 := by
      rintro rfl
      cases List.mem_append.mp hc with
      | inl hl => exact hNodup.2.2 _ hl _ (by simp) rfl
      | inr hr => exact hNodup.2.1.1 hr
    have hc₂ : c ≠ new := fun he => hNew (by simp at hc; simp only [← he]; simp; tauto)
    rw [next, node_split hne, if_neg hc₂, if_neg hc₁, next]
  obtain ⟨middle, hLeft, hStart, _, _, hRight⟩ := path_append.mp h
  refine LinkedList.segment_append.mpr ⟨middle, ?_, hStart, ?_⟩
  · exact hLeft.segment.congr fun c hc => hOther c (List.mem_append_left _ hc)
  · rw [next, node_split hne, if_neg hne, if_pos rfl]
    refine ⟨rfl, ?_⟩
    rw [next, node_split hne, if_pos rfl]
    exact hRight.segment.congr fun c hc => hOther c (List.mem_append_right _ hc)

/-- A split in front of a successor leaves the successor's back link behind. -/
theorem Spells.not_split {a b : Nat} {x : Entry} (h : v.Spells sp (left ++ e :: x :: right))
    (hNew : new ∉ (left ++ e :: x :: right).map Prod.fst) (l' : List Entry) :
    ¬ (v.split e.1 new a b).Spells sp l' := by
  intro h'
  have hne : e.1 ≠ new := fun he => hNew (by simp [he])
  have hx : x.1 ≠ new ∧ x.1 ≠ e.1 := by
    refine ⟨fun he => hNew (by simp [he]), fun he => ?_⟩
    have hNodup := h.nodup
    rw [List.map_append, List.nodup_append] at hNodup
    simp [he] at hNodup
  obtain ⟨hChain, _, hBack, _⟩ := path_iff.mp h'
  have hNodes := LinkedList.Chain.unique hChain (by
    rw [list_split]
    exact h.chain_split hNew)
  obtain ⟨middle, _, hStart, _, _, hRest⟩ := path_append.mp h
  have hNext : (v.split e.1 new a b).next new = some x.1 := by
    rw [next, node_split hne, if_pos rfl]
    exact hRest.1
  have hPrev := hBack new (by simp [hNodes]) x.1 hNext
  rw [prev, node_split hne, if_neg hx.1, if_neg hx.2] at hPrev
  exact hne (Option.some.inj (hRest.2.1.symm.trans hPrev))

/-- The loop over the gaps is the search for the first gap of the list that passes the test. -/
theorem gapLoop_eq {T : Option Area → Option Area → Bool} (before : Option Entry)
    (h : Path v.next v.prev v.area (before.map Prod.fst) (first l) l none)
    (hBefore : ∀ e ∈ before, v.area e.1 = e.2) (hStart : before ≠ none ∨ l ≠ [])
    (hFuel : l.length + 2 ≤ fuel) :
    v.gapLoop (fun p q => T (p.map v.area) (q.map v.area)) fuel (before.map Prod.fst) (first l) =
      some ((firstGap (fun p q => T (p.map Prod.snd) (q.map Prod.snd)) before l).map fun g =>
        (g.1.map Prod.fst, g.2.map Prod.fst)) := by
  have hPred : (before.map Prod.fst).map v.area = before.map Prod.snd := by
    cases before with
    | none => rfl
    | some e => exact congrArg some (hBefore e rfl)
  induction l generalizing before fuel with
  | nil =>
      obtain ⟨fuel, rfl⟩ := Nat.exists_eq_add_of_le' (hFuel.trans' (by simp : 2 ≤ _))
      have hne : before ≠ none := hStart.resolve_right (by simp)
      have hGuard : ¬ (before.map Prod.fst = none ∧ (none : Option Nat) = none) := by simpa using hne
      rw [first_nil, gapLoop, if_neg hGuard, hPred, firstGap, Option.map_none, Option.map_none]
      split
      · rfl
      · rw [gapLoop, if_pos ⟨rfl, rfl⟩]
        rfl
  | cons e rest ih =>
      obtain ⟨fuel, rfl⟩ := Nat.exists_eq_add_of_le' (hFuel.trans' (by simp : 1 ≤ _))
      have hArea : (some e.1).map v.area = (some e).map Prod.snd := congrArg some h.2.2.1
      have hRest : v.next e.1 = first rest := h.2.2.2.start_eq
      have hGuard : ¬ (before.map Prod.fst = none ∧ some e.1 = none) := by simp
      rw [first_cons, gapLoop, if_neg hGuard, hPred, hArea, firstGap]
      split
      · rfl
      · have hFuel' : rest.length + 2 ≤ fuel := by
          rw [List.length_cons] at hFuel
          omega
        rw [Option.bind_some, hRest]
        refine ih (some e) ?_ ?_ (Or.inl (by simp)) hFuel' hArea
        · exact hRest ▸ h.2.2.2
        · rintro _ ⟨⟩
          exact h.2.2.1

theorem findVma_eq {a b : Nat} {before : Option Nat}
    (h : Path v.next v.prev v.area before (first l) l none) (hFuel : l.length < fuel) :
    v.findVma a b fuel (first l) =
      some ((l.find? fun e => e.2.start ≤ a ∧ b ≤ e.2.endAddr).map Prod.fst) := by
  induction l generalizing before fuel with
  | nil =>
      obtain ⟨fuel, rfl⟩ := Nat.exists_eq_add_of_lt hFuel
      rfl
  | cons e rest ih =>
      obtain ⟨fuel, rfl⟩ := Nat.exists_eq_add_of_lt hFuel
      have hArea : (v.node e.1).toArea = e.2 := h.2.2.1
      have hRest : v.next e.1 = first rest := h.2.2.2.start_eq
      rw [first_cons, findVma, hArea]
      by_cases hHit : e.2.start ≤ a ∧ b ≤ e.2.endAddr
      · rw [if_pos hHit, List.find?_cons_of_pos (by simpa using hHit)]
        rfl
      · rw [if_neg hHit, List.find?_cons_of_neg (by simpa using hHit), hRest]
        refine ih (hRest ▸ h.2.2.2) ?_
        rw [List.length_cons]
        omega

end Vmas

/-! The three operations on a state whose list spells `l`. -/

/-- The test of `vma_alloc` on entries. -/
abbrev fitsGap (sp : Space) (size : Nat) (pred succ : Option Entry) : Bool :=
  fits sp size (pred.map Prod.snd) (succ.map Prod.snd)

/-- The test of `vma_add` on entries. -/
abbrev betweenGap (start endAddr : Nat) (pred succ : Option Entry) : Bool :=
  between start endAddr (pred.map Prod.snd) (succ.map Prod.snd)

theorem betweenGap_iff {start endAddr : Nat} {pred succ : Option Entry} :
    betweenGap start endAddr pred succ = true ↔
      (∀ p ∈ pred, p.2.endAddr ≤ start) ∧ ∀ q ∈ succ, endAddr ≤ q.2.start := by
  cases pred <;> cases succ <;> simp [between]

/-- A gap that fits ends before its right neighbour starts, and starts where its left one ends. -/
theorem fitsGap_spec {sp : Space} {size : Nat} {pred succ : Option Entry}
    (h : fitsGap sp size pred succ = true) :
    (∀ p ∈ pred, p.2.endAddr ≤ gapStart sp.base (pred.map Prod.snd)) ∧
      ∀ q ∈ succ, Word.add (gapStart sp.base (pred.map Prod.snd)) size ≤ q.2.start := by
  simp only [fits, decide_eq_true_eq] at h
  constructor
  · rintro p rfl
    exact le_refl _
  · rintro q rfl
    exact h.1.le

section Operations

variable {Env : Type} {kmalloc : Allocator Env} {kfree : Deallocator Env} {s : Mm Env}
variable {l left right : List Entry} {e : Entry} {pred succ : Option Entry}
variable {fuel size start endAddr : Nat} {flags : BitVec 32}

theorem vmaAlloc_search (h : s.vmas.Spells (Space.of flags) l) (hFuel : l.length + 2 ≤ fuel) :
    (if fits (Space.of flags) size ((none : Option Nat).map s.vmas.area)
          ((s.vmas.list (Space.of flags)).map s.vmas.area)
      then some (some (none, s.vmas.list (Space.of flags)))
      else s.vmas.gapLoop (fun p q => fits (Space.of flags) size (p.map s.vmas.area) (q.map s.vmas.area))
        fuel (s.vmas.list (Space.of flags)) ((s.vmas.list (Space.of flags)).bind s.vmas.next)) =
      some ((firstGap (fitsGap (Space.of flags) size) none l).map fun g =>
        (g.1.map Prod.fst, g.2.map Prod.fst)) := by
  rw [h.list_eq, Option.map_none]
  cases l with
  | nil =>
      obtain ⟨fuel, rfl⟩ := Nat.exists_eq_add_of_le' (hFuel.trans' (by simp : 1 ≤ _))
      rw [first_nil, firstGap, Option.map_none]
      split
      · rw [if_pos (by assumption)]
        rfl
      · rw [if_neg (by assumption)]
        rfl
  | cons e rest =>
      have hArea : (some e.1).map s.vmas.area = (some e).map Prod.snd :=
        congrArg some (h.area_eq (by simp))
      have hRest := h.2.2.2
      rw [first_cons, firstGap, hArea, Option.bind_some, hRest.start_eq]
      split
      · rw [if_pos (by assumption)]
        rfl
      · rw [if_neg (by assumption)]
        refine Vmas.gapLoop_eq (some e) (hRest.start_eq ▸ hRest) ?_ (Or.inl (by simp)) ?_
        · rintro _ ⟨⟩
          exact h.area_eq (by simp)
        · rw [List.length_cons] at hFuel
          omega

/-- No gap is large enough. -/
theorem vmaAlloc_full (h : s.vmas.Spells (Space.of flags) l) (hFuel : l.length + 2 ≤ fuel)
    (hGap : firstGap (fitsGap (Space.of flags) size) none l = none) :
    vmaAlloc kmalloc fuel size flags s = some (s, 0) := by
  rw [vmaAlloc]
  simp only [vmaAlloc_search h hFuel, hGap]
  rfl

/-- The area in front of the gap has the same flags and grows. -/
theorem vmaAlloc_extend (h : s.vmas.Spells (Space.of flags) l) (hFuel : l.length + 2 ≤ fuel)
    (hGap : firstGap (fitsGap (Space.of flags) size) none l = some (some e, succ)) (he : e ∈ l)
    (hFlags : e.2.flags = flags) :
    vmaAlloc kmalloc fuel size flags s =
      some ({ s with vmas := s.vmas.setNode e.1 fun n =>
        { n with endAddr := Word.add e.2.endAddr size } }, e.2.endAddr) := by
  have hArea := h.area_eq he
  have hNode : (s.vmas.node e.1).flags = flags := (congrArg Area.flags hArea).trans hFlags
  rw [vmaAlloc]
  simp only [vmaAlloc_search h hFuel, hGap, Option.map_some, Option.bind_some, Option.filter_some,
    hNode, decide_true, if_true, gapStart, hArea, Option.getD_some]

/-- A new area goes into the gap. -/
theorem vmaAlloc_insert (h : s.vmas.Spells (Space.of flags) l) (hFuel : l.length + 2 ≤ fuel)
    (hGap : firstGap (fitsGap (Space.of flags) size) none l = some (pred, succ))
    (hMem : ∀ e ∈ pred, e ∈ l) (hFlags : ∀ e ∈ pred, e.2.flags ≠ flags) :
    vmaAlloc kmalloc fuel size flags s =
      let start := gapStart (Space.of flags).base (pred.map Prod.snd)
      let area := { start := start, endAddr := Word.add start size, flags := flags }
      withNode kmalloc 0 (fun new s =>
        let vmas := s.vmas.insert (Space.of flags) new area (pred.map Prod.fst) (succ.map Prod.fst)
        ({ s with vmas := vmas }, start)) s := by
  have hStart : (pred.map Prod.fst).map s.vmas.area = pred.map Prod.snd := by
    cases pred with
    | none => rfl
    | some e => exact congrArg some (h.area_eq (hMem e rfl))
  have hFilter : ((pred.map Prod.fst).filter fun p => (s.vmas.node p).flags = flags) = none := by
    cases pred with
    | none => rfl
    | some e =>
        have hNode : (s.vmas.node e.1).flags = e.2.flags :=
          congrArg Area.flags (h.area_eq (hMem e rfl))
        simp [hNode, hFlags e rfl]
  rw [vmaAlloc]
  simp only [vmaAlloc_search h hFuel, hGap, Option.map_some, Option.bind_some, hFilter, hStart]

/-- A call that gives memory has found a gap, and does the same with more fuel. -/
theorem vmaAlloc_gap {t : Mm Env} {r : Nat} (h : s.vmas.Spells (Space.of flags) l)
    (hRun : vmaAlloc kmalloc fuel size flags s = some (t, r)) (hr : r ≠ 0) :
    ∃ pred succ ample, firstGap (fitsGap (Space.of flags) size) none l = some (pred, succ) ∧
      l.length + 2 ≤ ample ∧ vmaAlloc kmalloc ample size flags s = some (t, r) := by
  have hMore := vmaAlloc_mono (fun _ _ => Partial.Le.refl) (le_max_left fuel (l.length + 2)) _ hRun
  have hAmple : l.length + 2 ≤ max fuel (l.length + 2) := le_max_right _ _
  cases hGap : firstGap (fitsGap (Space.of flags) size) none l with
  | none =>
      rw [vmaAlloc_full h hAmple hGap] at hMore
      cases hMore
      exact absurd rfl hr
  | some gap => exact ⟨gap.1, gap.2, _, rfl, hAmple, hMore⟩

/-- The arguments `vma_add` accepts. -/
structure Addable (start endAddr : Nat) (flags : BitVec 32) : Prop where
  proper : start < endAddr
  user : Space.of flags = .user → vmaKernMax ≤ start
  kernel : Space.of flags = .kernel → endAddr < vmaKernMax

theorem vmaAdd_reject (h : ¬ Addable start endAddr flags) :
    vmaAdd kmalloc fuel start endAddr flags s = some (s, -einval) := by
  rw [vmaAdd]
  split
  · rfl
  · split
    · rfl
    · split
      · rfl
      · rename_i hProper hUser hKernel
        refine absurd ⟨by omega, fun hu => ?_, fun hk => ?_⟩ h
        · exact Nat.le_of_not_lt fun hlt => hUser ⟨hu, hlt⟩
        · exact Nat.lt_of_not_le fun hle => hKernel ⟨hk, hle⟩

theorem vmaAdd_search (h : s.vmas.Spells (Space.of flags) l) (hFuel : l.length + 2 ≤ fuel)
    (hAdd : Addable start endAddr flags) :
    vmaAdd kmalloc fuel start endAddr flags s =
      (firstGap (betweenGap start endAddr) none l).elim (some (s, -einval)) fun (pred, succ) =>
        let area := { start := start, endAddr := endAddr, flags := flags }
        withNode kmalloc (-enomem) (fun new s =>
          let vmas := s.vmas.insert (Space.of flags) new area (pred.map Prod.fst) (succ.map Prod.fst)
          ({ s with vmas := vmas }, 0)) s := by
  have hUser : ¬ (Space.of flags = .user ∧ start < vmaKernMax) := fun hu =>
    absurd hu.2 (not_lt.mpr (hAdd.user hu.1))
  have hKernel : ¬ (Space.of flags = .kernel ∧ vmaKernMax ≤ endAddr) := fun hk =>
    absurd hk.2 (not_le.mpr (hAdd.kernel hk.1))
  rw [vmaAdd]
  simp only [if_neg (not_le.mpr hAdd.proper), if_neg hUser, if_neg hKernel, h.list_eq]
  cases l with
  | nil =>
      obtain ⟨fuel, rfl⟩ := Nat.exists_eq_add_of_le' (hFuel.trans' (by simp : 1 ≤ _))
      simp [firstGap, betweenGap, between, Vmas.gapLoop]
  | cons e rest =>
      have hPath := h
      rw [Vmas.Spells, h.list_eq] at hPath
      have hLoop := Vmas.gapLoop_eq (T := between start endAddr) none hPath (by simp)
        (Or.inr (by simp)) hFuel
      rw [Option.map_none] at hLoop
      rw [hLoop]
      cases firstGap (betweenGap start endAddr) none (e :: rest) with
      | none => simp
      | some gap => simp

theorem vmaAdd_full (h : s.vmas.Spells (Space.of flags) l) (hFuel : l.length + 2 ≤ fuel)
    (hAdd : Addable start endAddr flags) (hGap : firstGap (betweenGap start endAddr) none l = none) :
    vmaAdd kmalloc fuel start endAddr flags s = some (s, -einval) := by
  rw [vmaAdd_search h hFuel hAdd, hGap, Option.elim_none]

theorem vmaAdd_insert (h : s.vmas.Spells (Space.of flags) l) (hFuel : l.length + 2 ≤ fuel)
    (hAdd : Addable start endAddr flags)
    (hGap : firstGap (betweenGap start endAddr) none l = some (pred, succ)) :
    vmaAdd kmalloc fuel start endAddr flags s =
      let area := { start := start, endAddr := endAddr, flags := flags }
      withNode kmalloc (-enomem) (fun new s =>
        let vmas := s.vmas.insert (Space.of flags) new area (pred.map Prod.fst) (succ.map Prod.fst)
        ({ s with vmas := vmas }, 0)) s := by
  rw [vmaAdd_search h hFuel hAdd, hGap, Option.elim_some]

theorem vmaFree_reject (h : start < endAddr → freeSpace start endAddr = none) :
    vmaFree kmalloc kfree fuel start endAddr s = some (s, -einval) := by
  rw [vmaFree]
  split
  · rfl
  · rw [h (by omega)]

theorem vmaFree_search {sp : Space} (h : s.vmas.Spells sp l) (hFuel : l.length < fuel)
    (hLt : start < endAddr) (hSpace : freeSpace start endAddr = some sp) :
    vmaFree kmalloc kfree fuel start endAddr s =
      (l.find? fun e => e.2.start ≤ start ∧ endAddr ≤ e.2.endAddr).elim (some (s, -einval))
        fun e => vmaRelease kmalloc kfree sp e.1 start endAddr s := by
  rw [vmaFree, if_neg (not_le.mpr hLt), hSpace]
  have hPath := h
  rw [Vmas.Spells, h.list_eq] at hPath
  simp only [h.list_eq, Vmas.findVma_eq hPath hFuel]
  cases l with
  | nil => rfl
  | cons e rest =>
      rw [if_neg (by simp)]
      cases (e :: rest).find? fun e => e.2.start ≤ start ∧ endAddr ≤ e.2.endAddr with
      | none => rfl
      | some e => rfl

/-- In a sorted list only one area can hold a non-empty range. -/
theorem Sorted.find (h : Sorted (left ++ e :: right)) (hLt : start < endAddr)
    (hStart : e.2.start ≤ start) (hEnd : endAddr ≤ e.2.endAddr) :
    (left ++ e :: right).find? (fun e => e.2.start ≤ start ∧ endAddr ≤ e.2.endAddr) = some e := by
  have hLeft : left.find? (fun e => e.2.start ≤ start ∧ endAddr ≤ e.2.endAddr) = none := by
    rw [List.find?_eq_none]
    intro x hx hHit
    have hBelow := h.middle.1 x hx
    simp only [decide_eq_true_eq] at hHit
    omega
  rw [List.find?_append, hLeft, List.find?_cons_of_pos (by simp [hStart, hEnd])]
  rfl

end Operations
end ArtOS
