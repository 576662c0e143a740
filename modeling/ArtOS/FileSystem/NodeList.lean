import ArtOS.Library.DoublyLinked
import Mathlib.Data.List.Infix

/-! The lists of `fs/list.c`. The nodes belong to the callers; a null pointer is `none`. -/
namespace ArtOS

namespace ListMemory

/-- `struct list_node`. -/
structure Node (Ptr Handle : Type*) where
  next : Option Ptr
  prev : Option Ptr
  list : Option Handle
  priority : Int

/-- `struct list`. -/
structure Ends (Ptr : Type*) where
  head : Option Ptr
  tail : Option Ptr

end ListMemory

/-- The memory in which the lists and the nodes lie. -/
structure ListMemory (Ptr Handle : Type*) where
  node : Ptr → ListMemory.Node Ptr Handle
  list : Handle → ListMemory.Ends Ptr

namespace ListMemory

variable {Ptr Handle : Type*}

section Operations

variable [DecidableEq Ptr] [DecidableEq Handle]

/-- A store into the fields of a node. -/
def setNode (s : ListMemory Ptr Handle) (p : Ptr) (f : Node Ptr Handle → Node Ptr Handle) :
    ListMemory Ptr Handle :=
  { s with node := Function.update s.node p (f (s.node p)) }

/-- A store into the ends of a list. -/
def setList (s : ListMemory Ptr Handle) (l : Handle) (f : Ends Ptr → Ends Ptr) : ListMemory Ptr Handle :=
  { s with list := Function.update s.list l (f (s.list l)) }

/-- `list_push_head`; a list without a tail gets the node as its tail. -/
def pushHead (s : ListMemory Ptr Handle) (list : Handle) (node : Ptr) : ListMemory Ptr Handle :=
  let s := s.setNode node fun x => { x with next := (s.list list).head, prev := none, priority := 0 }
  let s := match (s.list list).head with
    | some head => s.setNode head fun x => { x with prev := some node }
    | none => s
  let s := s.setList list fun x => { x with head := some node }
  let s := match (s.list list).tail with
    | some _ => s
    | none => s.setList list fun x => { x with tail := some node }
  s.setNode node fun x => { x with list := some list }

/-- `list_push_tail`; a list without a head gets the node as its head. -/
def pushTail (s : ListMemory Ptr Handle) (list : Handle) (node : Ptr) : ListMemory Ptr Handle :=
  let s := s.setNode node fun x => { x with prev := (s.list list).tail, next := none, priority := 0 }
  let s := match (s.list list).tail with
    | some tail => s.setNode tail fun x => { x with next := some node }
    | none => s
  let s := s.setList list fun x => { x with tail := some node }
  let s := match (s.list list).head with
    | some _ => s
    | none => s.setList list fun x => { x with head := some node }
  s.setNode node fun x => { x with list := some list }

/-- The loop of `list_push_priority`; `i` is still `left` steps from the limit. -/
def findPlace (s : ListMemory Ptr Handle) (pri : Int) : Nat → Option Ptr → Option Ptr
  | _, none => none
  | 0, some n => some n
  | left + 1, some n =>
      if pri > (s.node n).priority then some n else findPlace s pri left (s.node n).next

/-- The loop ends where `i > 5000`. -/
abbrev placeLimit : Nat := 5001

/-- `list_push_priority`: the node goes before the first one of lower priority. In an empty list, or
behind all the others, it gets priority 0. -/
def pushPriority (s : ListMemory Ptr Handle) (list : Handle) (node : Ptr) (pri : Int) : ListMemory Ptr Handle :=
  match (s.list list).head with
  | none => s.pushHead list node
  | some head =>
      match s.findPlace pri placeLimit (some head) with
      | none => s.pushTail list node
      | some n =>
          let s := s.setNode node fun x => { x with next := some n, prev := (s.node n).prev, priority := pri }
          let s := match (s.node n).prev with
            | some before => s.setNode before fun x => { x with next := some node }
            | none => s.setList list fun x => { x with head := some node }
          let s := s.setNode n fun x => { x with prev := some node }
          s.setNode node fun x => { x with list := some list }

/-- `list_pop_head`; a null pointer for the empty list. -/
def popHead (s : ListMemory Ptr Handle) (list : Handle) : ListMemory Ptr Handle × Option Ptr :=
  match (s.list list).head with
  | none => (s, none)
  | some result =>
      let s := s.setList list fun x => { x with head := (s.node result).next }
      let s := match (s.list list).head with
        | some head => s.setNode head fun x => { x with prev := none }
        | none => s.setList list fun x => { x with tail := none }
      (s.setNode result fun x => { x with next := none, prev := none, list := none }, some result)

/-- `list_pop_tail`. -/
def popTail (s : ListMemory Ptr Handle) (list : Handle) : ListMemory Ptr Handle × Option Ptr :=
  match (s.list list).tail with
  | none => (s, none)
  | some result =>
      let s := s.setList list fun x => { x with tail := (s.node result).prev }
      let s := match (s.list list).tail with
        | some tail => s.setNode tail fun x => { x with next := none }
        | none => s.setList list fun x => { x with head := none }
      (s.setNode result fun x => { x with next := none, prev := none, list := none }, some result)

/-- `none` stands for an access through a null pointer. -/
def remove (s : ListMemory Ptr Handle) (node : Ptr) : Option (ListMemory Ptr Handle) :=
  match (s.node node).list with
  | none => some s
  | some list =>
      if (s.list list).head = some node then some (s.popHead list).1
      else if (s.list list).tail = some node then some (s.popTail list).1
      else
        (s.node node).next.bind fun next =>
          let s := s.setNode next fun x => { x with prev := (s.node node).prev }
          (s.node node).prev.map fun prev =>
            let s := s.setNode prev fun x => { x with next := (s.node node).next }
            s.setNode node fun x => { x with next := none, prev := none, list := none }

end Operations

/-- What the lists contain: the nodes with their priorities. -/
abbrev Contents (Ptr Handle : Type*) := Handle → List (Ptr × Int)

def next (s : ListMemory Ptr Handle) (p : Ptr) : Option Ptr := (s.node p).next

def prev (s : ListMemory Ptr Handle) (p : Ptr) : Option Ptr := (s.node p).prev

/-- The other fields of a node. -/
def data (s : ListMemory Ptr Handle) (p : Ptr) : Option Handle × Int := ((s.node p).list, (s.node p).priority)

/-- The entries as the nodes of the list `l` have them. -/
def tagged (l : Handle) (entries : List (Ptr × Int)) : List (Ptr × (Option Handle × Int)) :=
  entries.map fun e => (e.1, (some l, e.2))

/-- The memory holds these lists, and no other node claims to be in one. -/
structure Holds (s : ListMemory Ptr Handle) (c : Contents Ptr Handle) : Prop where
  path : ∀ l, DoublyLinked.Path s.next s.prev s.data none (s.list l).head (tagged l (c l)) none
  tail : ∀ l, (s.list l).tail = DoublyLinked.last none (c l)
  owned : ∀ p l, (s.node p).list = some l → p ∈ (c l).map Prod.fst

open DoublyLinked

variable {s s' : ListMemory Ptr Handle} {c : Contents Ptr Handle} {l : Handle} {p m : Ptr} {pri : Int}
  {entries left mid mid' right : List (Ptr × Int)} {before into : Option Ptr}

@[simp] theorem tagged_fst : (tagged l entries).map Prod.fst = entries.map Prod.fst := by
  rw [tagged, List.map_map]
  rfl

@[simp] theorem tagged_append : tagged l (left ++ right) = tagged l left ++ tagged l right := List.map_append

@[simp] theorem first_tagged : first (tagged l entries) = first entries := by
  cases entries <;> rfl

@[simp] theorem last_tagged : last before (tagged l entries) = last before entries := by
  induction entries generalizing before with
  | nil => rfl
  | cons e rest ih => exact ih

/-- A node of a list names it. -/
theorem Holds.list_eq (h : s.Holds c) (hp : p ∈ (c l).map Prod.fst) : (s.node p).list = some l := by
  obtain ⟨e, he, rfl⟩ := List.mem_map.mp hp
  have hTagged : (e.1, (some l, e.2)) ∈ tagged l (c l) := List.mem_map.mpr ⟨e, he, rfl⟩
  exact congrArg Prod.fst ((h.path l).data_eq hTagged)

/-- The head is the first node. -/
theorem Holds.head_eq (h : s.Holds c) (l : Handle) : (s.list l).head = first (c l) :=
  (h.path l).start_eq.trans first_tagged

/-- No node is twice in a list. -/
theorem Holds.nodup (h : s.Holds c) (l : Handle) : ((c l).map Prod.fst).Nodup := by
  have hNodup := (h.path l).nodup
  rwa [tagged_fst] at hNodup

/-- A node that names no list is in none. -/
theorem Holds.unlisted (h : s.Holds c) (hp : (s.node p).list = none) (l : Handle) : p ∉ (c l).map Prod.fst :=
  fun hMem => Option.some_ne_none l ((h.list_eq hMem).symm.trans hp)

/-- The lists read from the other end. -/
def mirror (s : ListMemory Ptr Handle) : ListMemory Ptr Handle where
  node p := { s.node p with next := s.prev p, prev := s.next p }
  list l := ⟨(s.list l).tail, (s.list l).head⟩

@[simp] theorem mirror_mirror : s.mirror.mirror = s := rfl

theorem tagged_reverse : tagged l entries.reverse = (tagged l entries).reverse := List.map_reverse

/-- Read from the other end, the memory holds the reversed lists. -/
theorem Holds.mirror (h : s.Holds c) : s.mirror.Holds fun l => (c l).reverse := by
  refine ⟨fun l => ?_, fun l => ?_, fun p l hp => ?_⟩
  · have hReverse := (h.path l).reverse
    rw [last_tagged, ← h.tail l, ← tagged_reverse] at hReverse
    exact hReverse
  · refine (h.head_eq l).trans ?_
    rw [last_none, List.getLast?_reverse]
    rfl
  · rw [List.map_reverse, List.mem_reverse]
    exact h.owned p l hp

/-- A node between two others points to both. -/
theorem Holds.next_eq (h : s.Holds c) {e : Ptr × Int} (hc : c l = left ++ e :: right) :
    (s.node e.1).next = first right ∧ (s.node e.1).prev = last none left := by
  have hPath := h.path l
  rw [hc, tagged_append] at hPath
  obtain ⟨middle, -, -, hPrev, -, hRight⟩ := path_append.mp hPath
  exact ⟨hRight.start_eq.trans first_tagged, hPrev.trans last_tagged⟩

/-- The fields of a node the other way round. -/
def Node.mirror (x : Node Ptr Handle) : Node Ptr Handle := { x with next := x.prev, prev := x.next }

theorem mirror_setNode [DecidableEq Ptr] (f : Node Ptr Handle → Node Ptr Handle) :
    (s.setNode p f).mirror = s.mirror.setNode p fun x => (f x.mirror).mirror := by
  simp only [setNode, mirror, ListMemory.mk.injEq, and_true, next, prev, Node.mirror]
  funext q
  simp only [Function.update_apply]
  split <;> rfl

theorem mirror_setList [DecidableEq Handle] (f : Ends Ptr → Ends Ptr) :
    (s.setList l f).mirror =
      s.mirror.setList l fun x => ⟨(f ⟨x.tail, x.head⟩).tail, (f ⟨x.tail, x.head⟩).head⟩ := by
  simp only [setList, mirror, ListMemory.mk.injEq, true_and, next, prev]
  funext q
  simp only [Function.update_apply]
  split <;> rfl

@[simp] theorem setNode_list [DecidableEq Ptr] (f : Node Ptr Handle → Node Ptr Handle) : (s.setNode p f).list = s.list := rfl

@[simp] theorem setList_list [DecidableEq Handle] (f : Ends Ptr → Ends Ptr) : (s.setList l f).list l = f (s.list l) :=
  Function.update_self ..

@[simp] theorem mirror_list : s.mirror.list l = ⟨(s.list l).tail, (s.list l).head⟩ := rfl

@[simp] theorem mirror_next : (s.mirror.node p).next = (s.node p).prev := rfl

variable [DecidableEq Ptr] [DecidableEq Handle]

/-- The list `l` has got another middle; all other lists are as before. -/
theorem Holds.splice (h : s.Holds c) (mid mid' : List (Ptr × Int)) (into : Option Ptr)
    (hc : c l = left ++ (mid ++ right))
    (hMid : Path s'.next s'.prev s'.data (last none left) into (tagged l mid') (first right))
    (hFresh : ∀ p ∈ mid'.map Prod.fst, (s.node p).list = none ∨ p ∈ mid.map Prod.fst)
    (hGone : ∀ p ∈ mid.map Prod.fst, p ∉ mid'.map Prod.fst → (s'.node p).list = none)
    (hNode : ∀ p, p ∉ mid.map Prod.fst → p ∉ mid'.map Prod.fst → s'.node p =
      { s.node p with
        next := if last none left = some p then into else s.next p
        prev := if first right = some p then last (last none left) mid' else s.prev p })
    (hHead : (s'.list l).head = if left = [] then into else (s.list l).head)
    (hTail : (s'.list l).tail = last none (left ++ (mid' ++ right)))
    (hOthers : ∀ l', l' ≠ l → s'.list l' = s.list l') :
    s'.Holds (Function.update c l (left ++ (mid' ++ right))) := by
  have hIn : ∀ p ∈ (left ++ (mid ++ right)).map Prod.fst, (s.node p).list = some l := fun p hp =>
    h.list_eq (hc ▸ hp)
  have hNodup := h.nodup l
  rw [hc, List.map_append, List.map_append] at hNodup
  obtain ⟨-, hRest, hLeft⟩ := List.nodup_append.mp hNodup
  have hKept : ∀ p ∈ (left ++ right).map Prod.fst, p ∉ mid.map Prod.fst ∧ p ∉ mid'.map Prod.fst := by
    intro p hp
    have hMem : p ∉ mid.map Prod.fst := by
      rw [List.map_append] at hp
      rcases List.mem_append.mp hp with hp | hp
      · exact fun hm => hLeft p hp p (List.mem_append_left _ hm) rfl
      · exact fun hm => (List.nodup_append.mp hRest).2.2 p hm p hp rfl
    refine ⟨hMem, fun hm => (hFresh p hm).elim (fun hNone => ?_) hMem⟩
    have hp' : p ∈ (left ++ (mid ++ right)).map Prod.fst := by
      simp only [List.map_append, List.mem_append] at hp ⊢
      tauto
    exact Option.some_ne_none l ((hIn p hp').symm.trans hNone)
  have hOther : ∀ p l', l' ≠ l → (s.node p).list = some l' → s'.node p = s.node p := by
    intro p l' hl' hp
    have hOut : p ∉ (left ++ (mid ++ right)).map Prod.fst := fun hm =>
      hl' (Option.some.inj (hp.symm.trans (hIn p hm)))
    simp only [List.map_append, List.mem_append, not_or] at hOut
    have hNew : p ∉ mid'.map Prod.fst := fun hm =>
      (hFresh p hm).elim (fun hNone => Option.some_ne_none l' (hp.symm.trans hNone)) hOut.2.1
    rw [hNode p hOut.2.1 hNew, if_neg fun hl => hOut.1 (last_eq_some hl),
      if_neg fun hf => hOut.2.2 (first_eq_some hf)]
    rfl
  refine ⟨fun l' => ?_, fun l' => ?_, fun p l' hp => ?_⟩
  · by_cases hl : l' = l
    · subst hl
      rw [Function.update_self, tagged_append, tagged_append]
      have hOld := h.path l'
      rw [hc, tagged_append, tagged_append] at hOld
      refine hOld.splice (tagged l' mid) (tagged l' mid') into ?_ ?_ fun p hp => ?_
      · rw [last_tagged, first_tagged]
        exact hMid
      · rw [hHead]
        exact if_congr List.map_eq_nil_iff.symm rfl rfl
      · rw [← tagged_append, tagged_fst] at hp
        obtain ⟨hMem, hNew⟩ := hKept p hp
        rw [last_tagged, last_tagged, first_tagged]
        simp only [next, prev, data, hNode p hMem hNew, and_self]
    · rw [Function.update_of_ne hl, hOthers l' hl]
      refine (h.path l').congr fun p hp => ?_
      rw [tagged_fst] at hp
      simp only [next, prev, data, hOther p l' hl (h.list_eq hp), and_self]
  · by_cases hl : l' = l
    · rw [hl, Function.update_self, hTail]
    · rw [Function.update_of_ne hl, hOthers l' hl, h.tail]
  · by_cases hNew : p ∈ mid'.map Prod.fst
    · obtain ⟨e, he, rfl⟩ := List.mem_map.mp hNew
      have hTagged : (e.1, (some l, e.2)) ∈ tagged l mid' := List.mem_map.mpr ⟨e, he, rfl⟩
      have hl : l' = l := Option.some.inj (hp.symm.trans (congrArg Prod.fst (hMid.data_eq hTagged)))
      rw [hl, Function.update_self]
      simp only [List.map_append, List.mem_append]
      exact Or.inr (Or.inl hNew)
    · have hMem : p ∉ mid.map Prod.fst := fun hm =>
        Option.some_ne_none l' (hp.symm.trans (hGone p hm hNew))
      rw [hNode p hMem hNew] at hp
      have hOld := h.owned p l' hp
      by_cases hl : l' = l
      · rw [hl, hc] at hOld
        rw [hl, Function.update_self]
        simp only [List.map_append, List.mem_append] at hOld ⊢
        exact hOld.imp_right fun hRight => Or.inr (hRight.resolve_left hMem)
      · rwa [Function.update_of_ne hl]

/-- A node has been put between two others. -/
theorem Holds.insert (h : s.Holds c) (hm : (s.node m).list = none) (hc : c l = left ++ right)
    (hNew : s'.node m = ⟨first right, last none left, some l, pri⟩)
    (hNode : ∀ p, p ≠ m → s'.node p =
      { s.node p with
        next := if last none left = some p then some m else s.next p
        prev := if first right = some p then some m else s.prev p })
    (hEnds : s'.list = Function.update s.list l
      ⟨if left = [] then some m else (s.list l).head, last none (left ++ (m, pri) :: right)⟩) :
    s'.Holds (Function.update c l (left ++ (m, pri) :: right)) := by
  refine h.splice [] [(m, pri)] (some m) hc ?_ ?_ (by simp) ?_ ?_ ?_ ?_
  · refine ⟨rfl, ?_, ?_, ?_⟩
    · rw [prev, hNew]
    · rw [data, hNew]
    · rw [next, hNew]
      rfl
  · intro p hp
    rw [List.mem_singleton.mp hp]
    exact Or.inl hm
  · intro p _ hp
    exact hNode p fun h => hp (List.mem_singleton.mpr h)
  · rw [hEnds, Function.update_self]
  · rw [hEnds, Function.update_self]
    rfl
  · intro l' hl
    rw [hEnds, Function.update_of_ne hl]

/-- A node has been taken out. -/
theorem Holds.delete (h : s.Holds c) (hc : c l = left ++ (m, pri) :: right)
    (hOld : (s'.node m).list = none)
    (hNode : ∀ p, p ≠ m → s'.node p =
      { s.node p with
        next := if last none left = some p then first right else s.next p
        prev := if first right = some p then last none left else s.prev p })
    (hEnds : s'.list = Function.update s.list l
      ⟨if left = [] then first right else (s.list l).head, last none (left ++ right)⟩) :
    s'.Holds (Function.update c l (left ++ right)) := by
  refine h.splice [(m, pri)] [] (first right) hc ?_ (by simp) ?_ ?_ ?_ ?_ ?_
  · exact path_nil.mpr rfl
  · intro p hp _
    rw [List.mem_singleton.mp hp]
    exact hOld
  · intro p hp _
    exact hNode p fun h => hp (List.mem_singleton.mpr h)
  · rw [hEnds, Function.update_self]
  · rw [hEnds, Function.update_self]
    rfl
  · intro l' hl
    rw [hEnds, Function.update_of_ne hl]

theorem pushHead_of_none (hHead : (s.list l).head = none) (hTail : (s.list l).tail = none) :
    s.pushHead l m = ⟨Function.update s.node m ⟨none, none, some l, 0⟩, Function.update s.list l ⟨some m, some m⟩⟩ := by
  simp [pushHead, setNode, setList, hHead, hTail]

theorem pushHead_of_some {a z : Ptr} (hHead : (s.list l).head = some a) (hTail : (s.list l).tail = some z)
    (hne : a ≠ m) : s.pushHead l m =
      ⟨Function.update (Function.update s.node a { s.node a with prev := some m }) m ⟨some a, none, some l, 0⟩,
        Function.update s.list l ⟨some m, some z⟩⟩ := by
  simp [pushHead, setNode, setList, hHead, hTail, hne, hne.symm, Function.update_comm hne]

/-- Pushed at the head, the node is first, with priority 0. -/
theorem Holds.pushHead (h : s.Holds c) (hm : (s.node m).list = none) :
    (s.pushHead l m).Holds (Function.update c l ((m, 0) :: c l)) := by
  have hHead := h.head_eq l
  have hTail := h.tail l
  have hOff := h.unlisted hm l
  cases hc : c l with
  | nil =>
      rw [hc, first_nil] at hHead
      rw [hc, last_nil] at hTail
      rw [pushHead_of_none hHead hTail]
      refine h.insert hm (show c l = [] ++ [] from hc) (Function.update_self ..)
        (fun p hp => ?_) rfl
      exact Function.update_of_ne hp _ _
  | cons e rest =>
      have hne : e.1 ≠ m := fun h => hOff (by simp [hc, h])
      obtain ⟨z, hz⟩ := last_ne_none (List.cons_ne_nil e rest)
      rw [hc, first_cons] at hHead
      rw [hc, hz] at hTail
      rw [pushHead_of_some hHead hTail hne]
      refine h.insert hm (show c l = [] ++ e :: rest from hc) (Function.update_self ..)
        (fun p hp => ?_) ?_
      · dsimp only
        rw [Function.update_of_ne hp, Function.update_apply]
        by_cases hpe : p = e.1
        · subst hpe
          simp [next]
        · simp [next, prev, hpe, Ne.symm hpe]
      · rw [List.nil_append, last_cons, ← hz, last_cons]
        rfl

/-- The two ends of a list are treated alike. -/
theorem mirror_pushTail : (s.pushTail l m).mirror = s.mirror.pushHead l m := by
  cases hHead : (s.list l).head <;> cases hTail : (s.list l).tail <;>
    simp only [pushTail, pushHead, setNode_list, setList_list, mirror_list, mirror_setNode,
      mirror_setList, hHead, hTail] <;> rfl

theorem mirror_popTail : ((s.popTail l).1.mirror, (s.popTail l).2) = s.mirror.popHead l := by
  cases hTail : (s.list l).tail with
  | none => simp only [popTail, popHead, mirror_list, hTail]
  | some result =>
      cases hPrev : (s.node result).prev <;>
        simp only [popTail, popHead, setList_list, mirror_list, mirror_next, mirror_setNode,
          mirror_setList, hTail, hPrev] <;> rfl

/-- Pushed at the tail, the node is last; from `Holds.pushHead` on the mirrored memory. -/
theorem Holds.pushTail (h : s.Holds c) (hm : (s.node m).list = none) :
    (s.pushTail l m).Holds (Function.update c l (c l ++ [(m, 0)])) := by
  have hPush := (h.mirror.pushHead (l := l) hm).mirror
  rw [← mirror_pushTail, mirror_mirror] at hPush
  convert hPush using 1
  funext l'
  by_cases hl : l' = l
  · rw [hl, Function.update_self, Function.update_self, List.reverse_cons, List.reverse_reverse]
  · rw [Function.update_of_ne hl, Function.update_of_ne hl, List.reverse_reverse]

theorem popHead_of_last {a : Ptr} (hHead : (s.list l).head = some a) (hNext : (s.node a).next = none) :
    s.popHead l =
      (⟨Function.update s.node a { s.node a with next := none, prev := none, list := none },
        Function.update s.list l ⟨none, none⟩⟩, some a) := by
  simp [popHead, setNode, setList, hHead, hNext]

theorem popHead_of_next {a b : Ptr} (hHead : (s.list l).head = some a) (hNext : (s.node a).next = some b)
    (hne : b ≠ a) : s.popHead l =
      (⟨Function.update (Function.update s.node b { s.node b with prev := none }) a
          { s.node a with next := none, prev := none, list := none },
        Function.update s.list l ⟨some b, (s.list l).tail⟩⟩, some a) := by
  simp [popHead, setNode, setList, hHead, hNext, hne.symm]

/-- The first node is handed out and in no list any more. -/
theorem Holds.popHead (h : s.Holds c) : (s.popHead l).1.Holds (Function.update c l (c l).tail) ∧
    (s.popHead l).2 = first (c l) := by
  have hHead := h.head_eq l
  have hPath := h.path l
  have hTail := h.tail l
  have hNodup := h.nodup l
  cases hc : c l with
  | nil =>
      rw [hc, first_nil] at hHead
      simp only [ListMemory.popHead, hHead, List.tail_nil, first_nil, and_true]
      rwa [← hc, Function.update_eq_self]
  | cons e rest =>
      rw [hc, first_cons] at hHead
      rw [hc] at hPath hNodup hTail
      obtain ⟨-, -, -, hRest⟩ := hPath
      have hNext : (s.node e.1).next = first rest := by
        exact hRest.start_eq.trans first_tagged
      cases rest with
      | nil =>
          rw [popHead_of_last hHead hNext]
          refine ⟨h.delete (show c l = [] ++ e :: [] from hc) ?_ (fun p hp => ?_) rfl, rfl⟩
          · dsimp only
            rw [Function.update_self]
          · exact Function.update_of_ne hp _ _
      | cons f r =>
          have hne : f.1 ≠ e.1 := by
            rintro hfe
            simp [hfe] at hNodup
          rw [popHead_of_next hHead hNext hne]
          refine ⟨h.delete (show c l = [] ++ e :: f :: r from hc) ?_ (fun p hp => ?_) ?_, rfl⟩
          · dsimp only
            rw [Function.update_self]
          · dsimp only
            rw [Function.update_of_ne hp, Function.update_apply]
            by_cases hpf : p = f.1
            · subst hpf
              simp [next]
            · simp [next, prev, hpf, Ne.symm hpf]
          · rw [hTail]
            rfl

/-- The last node is handed out; again by the mirror. -/
theorem Holds.popTail (h : s.Holds c) : (s.popTail l).1.Holds (Function.update c l (c l).dropLast) ∧
    (s.popTail l).2 = last none (c l) := by
  obtain ⟨hPop, hResult⟩ := h.mirror.popHead (l := l)
  rw [← mirror_popTail] at hPop hResult
  refine ⟨?_, hResult.trans ?_⟩
  · have hBack := hPop.mirror
    rw [mirror_mirror] at hBack
    convert hBack using 1
    funext l'
    by_cases hl : l' = l
    · rw [hl, Function.update_self, Function.update_self, List.tail_reverse, List.reverse_reverse]
    · rw [Function.update_of_ne hl, Function.update_of_ne hl, List.reverse_reverse]
  · rw [last_none, ← List.head?_reverse]
    rfl

/-- The memory behind `list_remove` in the middle of a list. -/
theorem remove_of_middle {a b : Ptr} (hList : (s.node m).list = some l) (hHead : (s.list l).head ≠ some m)
    (hTail : (s.list l).tail ≠ some m) (hNext : (s.node m).next = some b) (hPrev : (s.node m).prev = some a)
    (hab : a ≠ b) (ham : a ≠ m) (hbm : b ≠ m) : s.remove m =
      some ⟨Function.update (Function.update (Function.update s.node b { s.node b with prev := some a }) a
          { s.node a with next := some b }) m { s.node m with next := none, prev := none, list := none }, s.list⟩ := by
  simp [remove, setNode, hList, hHead, hTail, hNext, hPrev, hab, ham.symm, hbm.symm]

theorem remove_unlisted (hm : (s.node m).list = none) : s.remove m = some s := by
  rw [remove, hm]

/-- A node with neighbours on both sides is unlinked from them. -/
theorem Holds.remove_between (h : s.Holds c) (hc : c l = left ++ (m, pri) :: right)
    (hLeft : left ≠ []) (hRight : right ≠ []) :
    ∃ s', s.remove m = some s' ∧ s'.Holds (Function.update c l (left ++ right)) := by
  have hList : (s.node m).list = some l := h.list_eq (by simp [hc])
  have hHead := h.head_eq l
  have hTail := h.tail l
  obtain ⟨hNext, hPrev⟩ := h.next_eq hc
  have hNodup := h.nodup l
  obtain ⟨e, rest, rfl⟩ := List.exists_cons_of_ne_nil hLeft
  obtain ⟨f, r, rfl⟩ := List.exists_cons_of_ne_nil hRight
  obtain ⟨a, ha⟩ := last_ne_none hLeft
  obtain ⟨z, hz⟩ := last_ne_none hRight
  have haMem := last_eq_some ha
  have hzMem := last_eq_some hz
  have hLast : ∀ before : Option Ptr, last before (f :: r) = some z := fun before => hz
  rw [hc, List.cons_append, first_cons] at hHead
  rw [hc, last_append, last_cons, hLast] at hTail
  rw [hc, List.map_append, List.map_cons] at hNodup
  obtain ⟨-, hRest, hApart⟩ := List.nodup_append.mp hNodup
  have hm : m ∉ (f :: r).map Prod.fst := (List.nodup_cons.mp hRest).1
  have hf : f.1 ∈ m :: (f :: r).map Prod.fst := by simp
  rw [ha] at hPrev
  refine ⟨_, remove_of_middle hList ?_ ?_ hNext hPrev ?_ ?_ ?_, h.delete hc ?_ (fun p hp => ?_) ?_⟩
  · rw [hHead]
    exact fun he => hApart e.1 (by simp) m (by simp) (Option.some.inj he)
  · rw [hTail]
    exact fun he => hm (Option.some.inj he ▸ hzMem)
  · exact hApart a haMem f.1 hf
  · exact hApart a haMem m (by simp)
  · exact fun he => hm (he ▸ by simp)
  · dsimp only
    rw [Function.update_self]
  · dsimp only
    rw [Function.update_of_ne hp, ha, first_cons, Function.update_apply, Function.update_apply]
    have hne := hApart a haMem f.1 hf
    by_cases hpa : p = a
    · subst hpa
      simp [prev, Ne.symm hne]
    · by_cases hpf : p = f.1
      · subst hpf
        simp [next, hpa, Ne.symm hpa]
      · simp [next, prev, hpa, hpf, Ne.symm hpa, Ne.symm hpf]
  · dsimp only
    rw [if_neg hLeft, last_append, hLast, ← hTail]
    exact (Function.update_eq_self l s.list).symm

/-- `list_remove` never follows a null pointer. -/
theorem Holds.remove (h : s.Holds c) (hc : c l = left ++ (m, pri) :: right) :
    ∃ s', s.remove m = some s' ∧ s'.Holds (Function.update c l (left ++ right)) := by
  have hList : (s.node m).list = some l := h.list_eq (by simp [hc])
  have hHead := h.head_eq l
  have hTail := h.tail l
  have hNodup := h.nodup l
  by_cases hLeft : left = []
  · subst hLeft
    have hPop := (h.popHead (l := l)).1
    rw [hc, List.nil_append, first_cons] at hHead
    rw [hc, List.nil_append, List.tail_cons] at hPop
    refine ⟨(s.popHead l).1, ?_, hPop⟩
    rw [ListMemory.remove, hList]
    exact if_pos hHead
  by_cases hRight : right = []
  · subst hRight
    have hPop := (h.popTail (l := l)).1
    obtain ⟨e, rest, rfl⟩ := List.exists_cons_of_ne_nil hLeft
    rw [hc, List.cons_append, first_cons] at hHead
    rw [hc, last_concat] at hTail
    rw [hc, List.dropLast_concat, ← List.append_nil (e :: rest)] at hPop
    have hne : e.1 ≠ m := fun he => by simp [hc, he] at hNodup
    have hOther : (s.list l).head ≠ some m := fun h' => hne (Option.some.inj (hHead.symm.trans h'))
    refine ⟨(s.popTail l).1, ?_, hPop⟩
    rw [ListMemory.remove, hList]
    simp only [if_neg hOther, if_pos hTail]
  · exact h.remove_between hc hLeft hRight

end ListMemory
end ArtOS
