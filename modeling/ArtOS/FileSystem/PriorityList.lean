import ArtOS.FileSystem.NodeList

/-! Runs of the functions of `fs/list.c` on lists that start empty. `list_push_priority` looks at the
priorities that are stored; a node that comes to the end of a list gets 0, whatever was asked for. -/
namespace ArtOS
namespace ListMemory

open DoublyLinked

variable {Ptr Handle : Type*}

/-- How many entries stay before a new one. -/
def spot (pri : Int) (limit : Nat) (entries : List (Ptr × Int)) : Nat :=
  ((entries.take limit).takeWhile fun e => pri ≤ e.2).length

/-- What `list_push_priority` makes of a list. -/
def placed (pri : Int) (m : Ptr) (entries : List (Ptr × Int)) : List (Ptr × Int) :=
  let k := spot pri placeLimit entries
  if k < entries.length then entries.take k ++ (m, pri) :: entries.drop k else entries ++ [(m, 0)]

/-- A call. -/
inductive Call (Ptr Handle : Type*) where
  | pushHead (list : Handle) (node : Ptr)
  | pushTail (list : Handle) (node : Ptr)
  | pushPriority (list : Handle) (node : Ptr) (pri : Int)
  | popHead (list : Handle)
  | popTail (list : Handle)
  | remove (node : Ptr)

/-- A node is only pushed while it is in no list. -/
def Allowed (c : Contents Ptr Handle) : Call Ptr Handle → Prop
  | .pushHead _ node | .pushTail _ node | .pushPriority _ node _ => ∀ l, node ∉ (c l).map Prod.fst
  | .popHead _ | .popTail _ | .remove _ => True

/-- The node that a call pushes. -/
def Call.pushed : Call Ptr Handle → Option Ptr
  | .pushHead _ node | .pushTail _ node | .pushPriority _ node _ => some node
  | .popHead _ | .popTail _ | .remove _ => none

section Runs

variable [DecidableEq Ptr] [DecidableEq Handle]

def act (s : ListMemory Ptr Handle) : Call Ptr Handle → Option (ListMemory Ptr Handle × Option Ptr)
  | .pushHead list node => some (s.pushHead list node, none)
  | .pushTail list node => some (s.pushTail list node, none)
  | .pushPriority list node pri => some (s.pushPriority list node pri, none)
  | .popHead list => some (s.popHead list)
  | .popTail list => some (s.popTail list)
  | .remove node => (s.remove node).map fun s => (s, none)

/-- What a call does to the lists, and the node it gives back. -/
def expect (c : Contents Ptr Handle) : Call Ptr Handle → Contents Ptr Handle × Option Ptr
  | .pushHead list node => (Function.update c list ((node, 0) :: c list), none)
  | .pushTail list node => (Function.update c list (c list ++ [(node, 0)]), none)
  | .pushPriority list node pri => (Function.update c list (placed pri node (c list)), none)
  | .popHead list => (Function.update c list (c list).tail, DoublyLinked.first (c list))
  | .popTail list => (Function.update c list (c list).dropLast, DoublyLinked.last none (c list))
  | .remove node => (fun l => (c l).filter fun e => e.1 ≠ node, none)

/-- The calls one after another, with the nodes they give back. -/
def run : List (Call Ptr Handle) → ListMemory Ptr Handle → Option (ListMemory Ptr Handle × List (Option Ptr))
  | [], s => some (s, [])
  | call :: calls, s => (s.act call).bind fun r => (run calls r.1).map fun rest => (rest.1, r.2 :: rest.2)

def expectRun : List (Call Ptr Handle) → Contents Ptr Handle → Contents Ptr Handle × List (Option Ptr)
  | [], c => (c, [])
  | call :: calls, c =>
      let r := expect c call
      let rest := expectRun calls r.1
      (rest.1, r.2 :: rest.2)

/-- All calls of the run are allowed. -/
def AllAllowed : List (Call Ptr Handle) → Contents Ptr Handle → Prop
  | [], _ => True
  | call :: calls, c => Allowed c call ∧ AllAllowed calls (expect c call).1

end Runs

variable {s : ListMemory Ptr Handle} {c : Contents Ptr Handle} {l : Handle} {m : Ptr} {pri : Int}
  {entries left right : List (Ptr × Int)} {before start : Option Ptr} {limit : Nat} {e : Ptr × Int}

theorem spot_nil : spot pri limit ([] : List (Ptr × Int)) = 0 := by
  rw [spot, List.take_nil]
  rfl

theorem spot_zero : spot pri 0 entries = 0 := by
  rw [spot, List.take_zero]
  rfl

theorem spot_cons : spot pri (limit + 1) (e :: entries) =
    if pri ≤ e.2 then spot pri limit entries + 1 else 0 := by
  rw [spot, List.take_succ_cons, List.takeWhile_cons]
  simp only [decide_eq_true_eq]
  split <;> rfl

/-- The loop finds the first entry with a lower priority, or stops at its limit. -/
theorem findPlace_eq (pri : Int) (limit : Nat)
    (h : Path s.next s.prev s.data before start (tagged l entries) none) :
    s.findPlace pri limit start = first (entries.drop (spot pri limit entries)) := by
  induction limit generalizing before start entries with
  | zero =>
      rw [spot_zero, List.drop_zero]
      obtain rfl := h.start_eq
      cases entries <;> rfl
  | succ limit ih =>
      cases entries with
      | nil =>
          obtain rfl := h.start_eq
          rfl
      | cons e rest =>
          obtain ⟨rfl, -, hData, hRest⟩ := h
          have hPri : (s.node e.1).priority = e.2 := congrArg Prod.snd hData
          rw [findPlace, spot_cons, hPri]
          by_cases hLower : pri > e.2
          · rw [if_pos hLower, if_neg (Int.not_le.mpr hLower)]
            rfl
          · rw [if_neg hLower, if_pos (Int.not_lt.mp hLower)]
            exact ih hRest

theorem Holds.unowned (h : s.Holds c) (hm : ∀ l, m ∉ (c l).map Prod.fst) : (s.node m).list = none := by
  rw [Option.eq_none_iff_forall_ne_some]
  exact fun l hl => hm l (h.owned m l hl)

section Operations

variable [DecidableEq Ptr] [DecidableEq Handle] {head n b : Ptr}

theorem pushPriority_of_none (hHead : (s.list l).head = some head)
    (hPlace : s.findPlace pri placeLimit (some head) = none) : s.pushPriority l m pri = s.pushTail l m := by
  simp [pushPriority, hHead, hPlace]

theorem pushPriority_front (hHead : (s.list l).head = some head)
    (hPlace : s.findPlace pri placeLimit (some head) = some n) (hne : n ≠ m) (hPrev : (s.node n).prev = none) :
    s.pushPriority l m pri =
      ⟨Function.update (Function.update s.node n { s.node n with prev := some m }) m ⟨some n, none, some l, pri⟩,
        Function.update s.list l ⟨some m, (s.list l).tail⟩⟩ := by
  simp [pushPriority, hHead, hPlace, setNode, setList, hne, hne.symm, hPrev, Function.update_comm hne]

theorem pushPriority_between (hHead : (s.list l).head = some head)
    (hPlace : s.findPlace pri placeLimit (some head) = some n) (hne : n ≠ m)
    (hPrev : (s.node n).prev = some b) (hbm : b ≠ m) (hbn : b ≠ n) :
    s.pushPriority l m pri =
      ⟨Function.update (Function.update (Function.update s.node b { s.node b with next := some m }) n
          { s.node n with prev := some m }) m ⟨some n, some b, some l, pri⟩, s.list⟩ := by
  simp [pushPriority, hHead, hPlace, setNode, hne, hne.symm, hPrev, hbm, hbm.symm, hbn.symm]
  funext q
  by_cases hq : q = m
  · rw [hq, Function.update_self, Function.update_self]
  · simp only [Function.update_apply, hq, if_false]

theorem Holds.pushPriority_before (h : s.Holds c) (hm : (s.node m).list = none) (hc : c l = left ++ e :: right)
    (hHead : (s.list l).head = some head) (hPlace : s.findPlace pri placeLimit (some head) = some e.1) :
    (s.pushPriority l m pri).Holds (Function.update c l (left ++ (m, pri) :: e :: right)) := by
  have hOff := h.unlisted hm l
  have hTail := h.tail l
  have hNodup := h.nodup l
  obtain ⟨-, hPrev⟩ := h.next_eq hc
  have hne : e.1 ≠ m := fun he => hOff (by simp [hc, ← he])
  rw [hc, last_append, last_cons] at hTail
  have hLast : last none (left ++ (m, pri) :: e :: right) = (s.list l).tail := by
    rw [hTail, last_append, last_cons, last_cons]
  by_cases hLeft : left = []
  · subst hLeft
    rw [pushPriority_front hHead hPlace hne hPrev]
    refine h.insert hm hc (Function.update_self ..) (fun p hp => ?_) ?_
    · dsimp only
      rw [Function.update_of_ne hp, Function.update_apply]
      by_cases hpe : p = e.1
      · subst hpe
        simp [next]
      · simp [next, prev, hpe, Ne.symm hpe]
    · rw [hLast]
      rfl
  · obtain ⟨b, hb⟩ := last_ne_none hLeft
    have hbMem := last_eq_some hb
    rw [hb] at hPrev
    rw [hc, List.map_append, List.map_cons] at hNodup
    have hbe : b ≠ e.1 := (List.nodup_append.mp hNodup).2.2 b hbMem e.1 (by simp)
    have hbm : b ≠ m := fun he => hOff (by rw [hc, List.map_append, ← he]; exact List.mem_append_left _ hbMem)
    rw [pushPriority_between hHead hPlace hne hPrev hbm hbe]
    refine h.insert hm hc ?_ (fun p hp => ?_) ?_
    · rw [hb]
      exact Function.update_self ..
    · dsimp only
      rw [Function.update_of_ne hp, hb, first_cons, Function.update_apply, Function.update_apply]
      by_cases hpe : p = e.1
      · subst hpe
        simp [next, hbe]
      · by_cases hpb : p = b
        · subst hpb
          simp [prev, hpe, Ne.symm hbe]
        · simp [next, prev, hpe, hpb, Ne.symm hpe, Ne.symm hpb]
    · dsimp only
      rw [if_neg hLeft, hLast]
      exact (Function.update_eq_self l s.list).symm

theorem Holds.pushPriority (h : s.Holds c) (hm : (s.node m).list = none) :
    (s.pushPriority l m pri).Holds (Function.update c l (placed pri m (c l))) := by
  have hHead := h.head_eq l
  cases hc : c l with
  | nil =>
      have hPush := h.pushHead (l := l) hm
      rw [hc, first_nil] at hHead
      rw [hc] at hPush
      rw [ListMemory.pushPriority, hHead]
      exact hPush
  | cons e rest =>
      rw [← hc]
      have hPath := h.path l
      have hPlace := findPlace_eq pri placeLimit hPath
      rw [hc, first_cons] at hHead
      rw [hHead] at hPlace
      rw [placed]
      split
      · rename_i hk
        have hSplit := List.take_append_drop (spot pri placeLimit (c l)) (c l)
        obtain ⟨f, r, hr⟩ := List.exists_cons_of_ne_nil (mt List.drop_eq_nil_iff.mp (Nat.not_le.mpr hk))
        rw [hr] at hPlace hSplit ⊢
        exact h.pushPriority_before hm hSplit.symm hHead hPlace
      · rename_i hk
        rw [List.drop_eq_nil_of_le (Nat.not_lt.mp hk), first_nil] at hPlace
        rw [pushPriority_of_none hHead hPlace]
        exact h.pushTail hm

/-- Taking a node out of the list that has it leaves the others alone. -/
theorem Holds.filter_eq (h : s.Holds c) (hc : c l = left ++ (m, pri) :: right) :
    (fun l' => (c l').filter fun e => e.1 ≠ m) = Function.update c l (left ++ right) := by
  have hNodup := h.nodup l
  rw [hc, List.map_append, List.map_cons] at hNodup
  obtain ⟨-, hRest, hApart⟩ := List.nodup_append.mp hNodup
  have hLeft : ∀ e ∈ left, e.1 ≠ m := fun e he => hApart e.1 (List.mem_map_of_mem he) m (by simp)
  have hRight : ∀ e ∈ right, e.1 ≠ m := by
    rintro e he rfl
    have hMem : e.1 ∈ right.map Prod.fst := List.mem_map_of_mem he
    exact (List.nodup_cons.mp hRest).1 hMem
  funext l'
  by_cases hl : l' = l
  · rw [hl, Function.update_self, hc, List.filter_append, List.filter_cons_of_neg (by simp),
      List.filter_eq_self.mpr (by simpa using hLeft), List.filter_eq_self.mpr (by simpa using hRight)]
  · rw [Function.update_of_ne hl, List.filter_eq_self]
    intro e he
    have hList := h.list_eq (List.mem_map_of_mem he)
    have hm : (s.node m).list = some l := h.list_eq (by simp [hc])
    simp only [decide_eq_true_eq]
    rintro rfl
    exact hl (Option.some.inj (hList.symm.trans hm))

/-- What one call does. -/
theorem act_refines (h : s.Holds c) {call : Call Ptr Handle} (hAllowed : Allowed c call) :
    ∃ s', s.act call = some (s', (expect c call).2) ∧ s'.Holds (expect c call).1 := by
  cases call with
  | pushHead list node => exact ⟨_, rfl, h.pushHead (h.unowned hAllowed)⟩
  | pushTail list node => exact ⟨_, rfl, h.pushTail (h.unowned hAllowed)⟩
  | pushPriority list node pri => exact ⟨_, rfl, h.pushPriority (h.unowned hAllowed)⟩
  | popHead list =>
      obtain ⟨hHolds, hResult⟩ := h.popHead (l := list)
      exact ⟨_, congrArg some (Prod.ext rfl hResult), hHolds⟩
  | popTail list =>
      obtain ⟨hHolds, hResult⟩ := h.popTail (l := list)
      exact ⟨_, congrArg some (Prod.ext rfl hResult), hHolds⟩
  | remove node =>
      by_cases hm : ∃ l, node ∈ (c l).map Prod.fst
      · obtain ⟨l, hMem⟩ := hm
        obtain ⟨⟨_, pri⟩, hEntry, rfl⟩ := List.mem_map.mp hMem
        obtain ⟨left, right, hc⟩ := List.append_of_mem hEntry
        obtain ⟨s', hRemove, hHolds⟩ := h.remove hc
        refine ⟨s', ?_, ?_⟩
        · rw [act, hRemove]
          rfl
        · rw [expect, h.filter_eq hc]
          exact hHolds
      · have hOut := not_exists.mp hm
        refine ⟨s, ?_, ?_⟩
        · rw [act, remove_unlisted (h.unowned hOut)]
          rfl
        · have hSame : (fun l => (c l).filter fun e => e.1 ≠ node) = c := by
            funext l
            rw [List.filter_eq_self]
            intro e he
            simp only [decide_eq_true_eq]
            rintro rfl
            exact hOut l (List.mem_map_of_mem he)
          rw [expect, hSame]
          exact h

theorem run_refines {calls : List (Call Ptr Handle)} (h : s.Holds c) (hAllowed : AllAllowed calls c) :
    ∃ s', run calls s = some (s', (expectRun calls c).2) ∧ s'.Holds (expectRun calls c).1 := by
  induction calls generalizing s c with
  | nil => exact ⟨s, rfl, h⟩
  | cons call calls ih =>
      obtain ⟨s₁, hAct, hHolds⟩ := act_refines h hAllowed.1
      obtain ⟨s', hRun, hLast⟩ := ih hHolds hAllowed.2
      refine ⟨s', ?_, hLast⟩
      rw [run, hAct, Option.bind_some, hRun]
      rfl

end Operations

/-- The priorities that are stored do not rise along the list, and none is negative. -/
structure Ranked (entries : List (Ptr × Int)) : Prop where
  sorted : entries.Pairwise fun a b => b.2 ≤ a.2
  nonneg : ∀ e ∈ entries, 0 ≤ e.2

theorem Ranked.sublist (h : Ranked right) (hSub : left.Sublist right) : Ranked left :=
  ⟨h.sorted.sublist hSub, fun e he => h.nonneg e (hSub.subset he)⟩

theorem spot_upper (pri : Int) (limit : Nat) (entries : List (Ptr × Int)) :
    ∀ e ∈ entries.take (spot pri limit entries), pri ≤ e.2 := by
  induction entries generalizing limit with
  | nil => simp
  | cons e rest ih =>
      cases limit with
      | zero => simp [spot_zero]
      | succ limit =>
          rw [spot_cons]
          by_cases hUpper : pri ≤ e.2
          · rw [if_pos hUpper, List.take_succ_cons]
            exact List.forall_mem_cons.mpr ⟨hUpper, ih limit⟩
          · rw [if_neg hUpper, List.take_zero]
            exact fun e he => absurd he List.not_mem_nil

/-- If the loop does not reach its limit, it stops at the first entry with a lower priority. -/
theorem spot_lower (pri : Int) (hShort : entries.length ≤ limit) :
    ∀ f ∈ (entries.drop (spot pri limit entries)).head?, f.2 < pri := by
  induction entries generalizing limit with
  | nil => simp [spot_nil]
  | cons e rest ih =>
      obtain ⟨limit, rfl⟩ := Nat.exists_eq_succ_of_ne_zero (Nat.ne_zero_of_lt hShort)
      rw [spot_cons]
      by_cases hUpper : pri ≤ e.2
      · rw [if_pos hUpper, List.drop_succ_cons]
        exact ih (Nat.le_of_succ_le_succ hShort)
      · rw [if_neg hUpper, List.drop_zero, List.head?_cons]
        intro f hf
        obtain rfl := Option.some.inj hf
        exact Int.not_le.mp hUpper

/-- As long as the loop does not reach its limit, the order is kept. -/
theorem Ranked.placed (h : Ranked entries) (hShort : entries.length ≤ placeLimit) :
    Ranked (placed pri m entries) := by
  have hTake := spot_upper pri placeLimit entries
  have hDrop := spot_lower pri hShort
  have hSplit := List.take_append_drop (spot pri placeLimit entries) entries
  rw [ListMemory.placed]
  split
  · rename_i hk
    obtain ⟨f, r, hr⟩ := List.exists_cons_of_ne_nil (mt List.drop_eq_nil_iff.mp (Nat.not_le.mpr hk))
    rw [hr] at hDrop hSplit ⊢
    have hSorted := h.sorted
    have hNonneg := h.nonneg
    rw [← hSplit] at hSorted hNonneg
    obtain ⟨hLeft, hRight, hApart⟩ := List.pairwise_append.mp hSorted
    have hLower : f.2 < pri := hDrop f rfl
    have hBelow : ∀ e ∈ f :: r, e.2 ≤ pri := by
      rintro e (_ | ⟨_, he⟩)
      · exact Int.le_of_lt hLower
      · exact Int.le_trans ((List.pairwise_cons.mp hRight).1 e he) (Int.le_of_lt hLower)
    have hPri : 0 ≤ pri := Int.le_trans (hNonneg f (by simp)) (Int.le_of_lt hLower)
    refine ⟨List.pairwise_append.mpr ⟨hLeft, List.pairwise_cons.mpr ⟨hBelow, hRight⟩, fun a ha => ?_⟩, ?_⟩
    · exact List.forall_mem_cons.mpr ⟨hTake a ha, hApart a ha⟩
    · intro e he
      rcases List.mem_append.mp he with he | he
      · exact hNonneg e (List.mem_append_left _ he)
      · rcases List.mem_cons.mp he with rfl | he
        · exact hPri
        · exact hNonneg e (List.mem_append_right _ he)
  · refine ⟨List.pairwise_append.mpr ⟨h.sorted, List.pairwise_singleton _ _, fun a ha => ?_⟩, ?_⟩
    · exact List.forall_mem_singleton.mpr (h.nonneg a ha)
    · intro e he
      rcases List.mem_append.mp he with he | he
      · exact h.nonneg e he
      · obtain rfl := List.mem_singleton.mp he
        exact Int.le_refl 0

/-- The lists are empty, as behind `LIST_INIT`, and no node is in one. -/
structure Empty (s : ListMemory Ptr Handle) : Prop where
  ends : ∀ l, s.list l = ⟨none, none⟩
  unlisted : ∀ p, (s.node p).list = none

theorem Empty.holds (h : s.Empty) : s.Holds fun _ => [] := by
  refine ⟨fun l => ?_, fun l => ?_, fun p l hp => ?_⟩
  · rw [h.ends]
    rfl
  · rw [h.ends]
    rfl
  · exact absurd (hp.symm.trans (h.unlisted p)) (Option.some_ne_none l)

theorem Holds.priority_eq (h : s.Holds c) (he : e ∈ c l) : (s.node e.1).priority = e.2 := by
  have hTagged : (e.1, (some l, e.2)) ∈ tagged l (c l) := List.mem_map.mpr ⟨e, he, rfl⟩
  exact congrArg Prod.snd ((h.path l).data_eq hTagged)

variable [DecidableEq Ptr] [DecidableEq Handle]

/-- The list `l` is only filled by `list_push_priority`, and stays short enough for its loop. -/
def Prioritised (l : Handle) : List (Call Ptr Handle) → Contents Ptr Handle → Prop
  | [], _ => True
  | call :: calls, c =>
      (match call with
        | .pushHead list _ | .pushTail list _ => list ≠ l
        | .pushPriority list _ _ => list = l → (c l).length ≤ placeLimit
        | .popHead _ | .popTail _ | .remove _ => True) ∧
      Prioritised l calls (expect c call).1

theorem Ranked.expect (h : Ranked (c l)) {call : Call Ptr Handle} {calls : List (Call Ptr Handle)}
    (hCall : Prioritised l (call :: calls) c) : Ranked ((expect c call).1 l) := by
  cases call with
  | pushHead list node =>
      rw [ListMemory.expect]
      dsimp only
      rwa [Function.update_of_ne (Ne.symm hCall.1)]
  | pushTail list node =>
      rw [ListMemory.expect]
      dsimp only
      rwa [Function.update_of_ne (Ne.symm hCall.1)]
  | pushPriority list node pri =>
      rw [ListMemory.expect]
      dsimp only
      by_cases hl : list = l
      · subst hl
        rw [Function.update_self]
        exact h.placed (hCall.1 rfl)
      · rwa [Function.update_of_ne (Ne.symm hl)]
  | popHead list =>
      rw [ListMemory.expect]
      dsimp only
      rw [Function.update_apply]
      split
      · rename_i hl
        exact (hl ▸ h).sublist (List.tail_sublist _)
      · exact h
  | popTail list =>
      rw [ListMemory.expect]
      dsimp only
      rw [Function.update_apply]
      split
      · rename_i hl
        exact (hl ▸ h).sublist (List.dropLast_sublist _)
      · exact h
  | remove node => exact h.sublist List.filter_sublist

theorem Ranked.expectRun {calls : List (Call Ptr Handle)} (h : Ranked (c l)) (hCalls : Prioritised l calls c) :
    Ranked ((expectRun calls c).1 l) := by
  induction calls generalizing c with
  | nil => exact h
  | cons call calls ih => exact ih (h.expect hCalls) hCalls.2

/-- The functions never follow a null pointer, give back the nodes that a list in the mathematical sense
gives back, and leave all links in order. -/
theorem calls_refine (h : s.Empty) {calls : List (Call Ptr Handle)} (hAllowed : AllAllowed calls fun _ => []) :
    ∃ s', run calls s = some (s', (expectRun calls fun _ => []).2) ∧
      s'.Holds (expectRun calls fun _ => []).1 :=
  run_refines h.holds hAllowed

/-- Two nodes of one list. -/
def exampleMemory : ListMemory Nat Unit := ⟨fun _ => ⟨none, none, none, 0⟩, fun _ => ⟨none, none⟩⟩

theorem exampleMemory_empty : exampleMemory.Empty := ⟨fun _ => rfl, fun _ => rfl⟩

theorem examplePushes_allowed (rest : List (Call Nat Unit)) (h : ∀ c, AllAllowed rest c) :
    AllAllowed (.pushPriority () 1 7 :: .pushPriority () 2 3 :: rest) fun _ => [] :=
  ⟨fun () => by decide, fun () => by decide, h _⟩

theorem calls_refine_example : ∃ s',
    run [.pushPriority () 1 7, .pushPriority () 2 3, .remove 1, .popHead ()] exampleMemory =
      some (s', [none, none, none, some 2]) := by
  obtain ⟨s', hRun, -⟩ := calls_refine exampleMemory_empty
    (examplePushes_allowed [.remove 1, .popHead ()] fun _ => ⟨trivial, trivial, trivial⟩)
  exact ⟨s', hRun⟩

section Overtaking

variable {a b : Ptr} {pri' : Int} {calls rest : List (Call Ptr Handle)} {call : Call Ptr Handle}

theorem expectRun_append : (expectRun (calls ++ rest) c).1 = (expectRun rest (expectRun calls c).1).1 := by
  induction calls generalizing c with
  | nil => rfl
  | cons call calls ih => exact ih

theorem allAllowed_append :
    AllAllowed (calls ++ rest) c ↔ AllAllowed calls c ∧ AllAllowed rest (expectRun calls c).1 := by
  induction calls generalizing c with
  | nil => exact (and_iff_right trivial).symm
  | cons call calls ih =>
      rw [List.cons_append, AllAllowed, AllAllowed, ih, and_assoc]
      rfl

/-- Where the two nodes stand among each other. -/
def among (a b : Ptr) (entries : List (Ptr × Int)) : List Ptr :=
  (entries.map Prod.fst).filter fun q => q = a ∨ q = b

theorem among_append : among a b (left ++ right) = among a b left ++ among a b right := by
  rw [among, List.map_append, List.filter_append]
  rfl

theorem among_cons_of_ne (ha : e.1 ≠ a) (hb : e.1 ≠ b) : among a b (e :: entries) = among a b entries := by
  rw [among, List.map_cons, List.filter_cons_of_neg (by simp [ha, hb])]
  rfl

theorem among_sublist (h : left.Sublist right) : (among a b left).Sublist (among a b right) :=
  (h.map Prod.fst).filter _

theorem among_placed (ha : m ≠ a) (hb : m ≠ b) : among a b (placed pri m entries) = among a b entries := by
  rw [placed]
  split
  · rw [among_append, among_cons_of_ne ha hb, ← among_append, List.take_append_drop]
  · rw [among_append, among_cons_of_ne ha hb]
    exact List.append_nil _

/-- A call that pushes neither of them leaves them in their order. -/
theorem among_expect (ha : call.pushed ≠ some a) (hb : call.pushed ≠ some b) :
    (among a b ((expect c call).1 l)).Sublist (among a b (c l)) := by
  have hList (list : Handle) (entries : List (Ptr × Int)) (h : (among a b entries).Sublist (among a b (c list))) :
      (among a b (Function.update c list entries l)).Sublist (among a b (c l)) := by
    by_cases hl : l = list
    · rw [hl, Function.update_self]
      exact h
    · rw [Function.update_of_ne hl]
  cases call with
  | pushHead list node =>
      refine hList list _ ?_
      rw [among_cons_of_ne (fun h => ha (congrArg some h)) fun h => hb (congrArg some h)]
  | pushTail list node =>
      refine hList list _ ?_
      rw [among_append, among_cons_of_ne (fun h => ha (congrArg some h)) fun h => hb (congrArg some h)]
      rw [show among a b ([] : List (Ptr × Int)) = [] from rfl, List.append_nil]
  | pushPriority list node pri =>
      refine hList list _ ?_
      rw [among_placed (fun h => ha (congrArg some h)) fun h => hb (congrArg some h)]
  | popHead list => exact hList list _ (among_sublist (List.tail_sublist _))
  | popTail list => exact hList list _ (among_sublist (List.dropLast_sublist _))
  | remove node => exact among_sublist List.filter_sublist

theorem among_expectRun (h : ∀ call ∈ calls, call.pushed ≠ some a ∧ call.pushed ≠ some b) :
    (among a b ((expectRun calls c).1 l)).Sublist (among a b (c l)) := by
  induction calls generalizing c with
  | nil => exact List.Sublist.refl _
  | cons call calls ih =>
      obtain ⟨ha, hb⟩ := h call List.mem_cons_self
      exact (ih fun call' h' => h call' (List.mem_cons_of_mem _ h')).trans (among_expect ha hb)

/-- What is stored with a node that is not pushed, stays with it. -/
theorem stored_expect (ha : call.pushed ≠ some a) (h : (a, pri) ∈ (expect c call).1 l) : (a, pri) ∈ c l := by
  have hList (list : Handle) (entries : List (Ptr × Int)) (h : (a, pri) ∈ Function.update c list entries l)
      (hSub : (a, pri) ∈ entries → (a, pri) ∈ c list) : (a, pri) ∈ c l := by
    by_cases hl : l = list
    · rw [hl, Function.update_self] at h
      exact hl ▸ hSub h
    · rwa [Function.update_of_ne hl] at h
  cases call with
  | pushHead list node =>
      refine hList list _ h fun hMem => (List.mem_cons.mp hMem).resolve_left fun hEq => ha ?_
      exact congrArg some (congrArg Prod.fst hEq).symm
  | pushTail list node =>
      refine hList list _ h fun hMem => (List.mem_append.mp hMem).resolve_right fun hEq => ha ?_
      exact congrArg some (congrArg Prod.fst (List.mem_singleton.mp hEq)).symm
  | pushPriority list node pri' =>
      refine hList list _ h fun hMem => ?_
      have hNode : ∀ x : Int, (a, pri) ≠ (node, x) := fun x hEq =>
        ha (congrArg some (congrArg Prod.fst hEq).symm)
      rw [placed] at hMem
      split at hMem
      · rw [← List.take_append_drop (spot pri' placeLimit (c list)) (c list)]
        rcases List.mem_append.mp hMem with hMem | hMem
        · exact List.mem_append_left _ hMem
        · exact List.mem_append_right _ ((List.mem_cons.mp hMem).resolve_left (hNode pri'))
      · exact (List.mem_append.mp hMem).resolve_right fun hEq => hNode 0 (List.mem_singleton.mp hEq)
  | popHead list => exact hList list _ h fun hMem => List.mem_of_mem_tail hMem
  | popTail list => exact hList list _ h fun hMem => (List.dropLast_sublist _).subset hMem
  | remove node => exact (List.mem_filter.mp h).1

theorem stored_expectRun (ha : ∀ call ∈ calls, call.pushed ≠ some a) (h : (a, pri) ∈ (expectRun calls c).1 l) :
    (a, pri) ∈ c l := by
  induction calls generalizing c with
  | nil => exact h
  | cons call calls ih =>
      exact stored_expect (ha call List.mem_cons_self)
        (ih (fun call' h' => ha call' (List.mem_cons_of_mem _ h')) h)

/-- A node of positive priority comes before one that is stored with 0. -/
theorem among_overtakes (hNodup : (entries.map Prod.fst).Nodup) (hNew : b ∉ entries.map Prod.fst)
    (hZero : ∀ pri, (a, pri) ∈ entries → pri = 0) (hPos : 0 < pri') :
    (among a b (placed pri' b entries)).Sublist [b, a] := by
  have hFront : among a b (entries.take (spot pri' placeLimit entries)) = [] := by
    rw [among, List.filter_eq_nil_iff]
    intro q hq hEq
    obtain ⟨⟨q, pri⟩, he, rfl⟩ := List.mem_map.mp hq
    have hMem := List.mem_of_mem_take he
    rcases of_decide_eq_true hEq with rfl | rfl
    · have hUpper := spot_upper pri' placeLimit entries _ he
      rw [hZero pri hMem] at hUpper
      exact Int.not_lt.mpr hUpper hPos
    · exact hNew (List.mem_map_of_mem hMem)
  have hAlone : (among a b entries).Sublist [a] := by
    have hSame : among a b entries = (entries.map Prod.fst).filter (· = a) := by
      refine List.filter_congr fun q hq => decide_eq_decide.mpr (or_iff_left ?_)
      rintro rfl
      exact hNew hq
    rw [hSame, List.filter_eq]
    exact (List.replicate_sublist_replicate a).mpr (List.nodup_iff_count_le_one.mp hNodup a)
  rw [placed]
  split
  · rw [among_append, hFront, List.nil_append]
    have hHere : among a b ((b, pri') :: entries.drop (spot pri' placeLimit entries)) =
        b :: among a b (entries.drop (spot pri' placeLimit entries)) := by
      rw [among, List.map_cons, List.filter_cons_of_pos (by simp)]
      rfl
    rw [hHere]
    exact ((among_sublist (List.drop_sublist _ _)).trans hAlone).cons_cons b
  · rename_i hk
    rw [List.take_of_length_le (Nat.not_lt.mp hk)] at hFront
    rw [among_append, hFront, List.nil_append]
    refine List.Sublist.trans ?_ (List.sublist_append_left [b] [a])
    exact (List.filter_sublist (l := [b]))

omit [DecidableEq Handle] in
/-- While `b` is in the list, `a` is not given back. -/
theorem not_first (h : (among a b (c l)).Sublist [b, a]) (hab : a ≠ b) (hb : b ∈ (c l).map Prod.fst) :
    first (c l) ≠ some a := by
  cases hc : c l with
  | nil => simp
  | cons e rest =>
      rw [hc] at h hb
      intro hFirst
      obtain rfl : e.1 = a := Option.some.inj hFirst
      have hCons : among e.1 b (e :: rest) = e.1 :: among e.1 b rest := by
        rw [among, List.map_cons, List.filter_cons_of_pos (by simp)]
        rfl
      rw [hCons] at h
      have hRest : b ∈ among e.1 b rest :=
        List.mem_filter.mpr ⟨(List.mem_cons.mp hb).resolve_left (Ne.symm hab), by simp⟩
      have hTail := List.Sublist.of_cons_of_ne hab h
      have hShort := hTail.length_le
      rw [List.length_cons, List.length_singleton] at hShort
      have hNil : among e.1 b rest = [] := List.eq_nil_of_length_eq_zero (by omega)
      rw [hNil] at hRest
      exact absurd hRest List.not_mem_nil

end Overtaking

/-- In a ranked list no node has a higher priority than the first. -/
theorem Ranked.first (h : Ranked (c l)) (hHolds : s.Holds c) {p q : Ptr} (hp : (s.popHead l).2 = some p)
    (hq : (s.node q).list = some l) :
    0 ≤ (s.node q).priority ∧ (s.node q).priority ≤ (s.node p).priority := by
  rw [hHolds.popHead.2] at hp
  obtain ⟨⟨_, qPri⟩, he, rfl⟩ := List.mem_map.mp (hHolds.owned q l hq)
  rw [hHolds.priority_eq he]
  refine ⟨h.nonneg _ he, ?_⟩
  cases hList : c l with
  | nil =>
      rw [hList] at hp
      cases hp
  | cons f r =>
      have hf : f ∈ c l := by
        rw [hList]
        exact List.mem_cons_self
      have hSorted := h.sorted
      rw [hList] at hp he hSorted
      obtain rfl : f.1 = p := Option.some.inj hp
      rw [hHolds.priority_eq hf]
      rcases List.mem_cons.mp he with rfl | hRest
      · exact Int.le_refl _
      · exact (List.pairwise_cons.mp hSorted).1 _ hRest

/-- A node `a` comes to an empty list, and later `b` with a positive priority. -/
structure Overtakes (s : ListMemory Ptr Handle) (l : Handle) (a b : Ptr) (calls : List (Call Ptr Handle))
    (before between behind : List (Call Ptr Handle)) (pri pri' : Int) : Prop where
  split : calls = before ++ .pushPriority l a pri :: (between ++ .pushPriority l b pri' :: behind)
  empty : ∃ s₁ answers, run before s = some (s₁, answers) ∧ (s₁.list l).head = none
  positive : 0 < pri'
  first_once : ∀ call ∈ between ++ .pushPriority l b pri' :: behind, call.pushed ≠ some a
  second_once : ∀ call ∈ behind, call.pushed ≠ some b

section Overtakes

variable {a b : Ptr} {calls before between behind : List (Call Ptr Handle)} {pri' : Int}

theorem Overtakes.ne (h : s.Overtakes l a b calls before between behind pri pri') : a ≠ b := by
  rintro rfl
  exact h.first_once _ (List.mem_append_right _ List.mem_cons_self) rfl

theorem Overtakes.among (h : s.Empty) (hOver : s.Overtakes l a b calls before between behind pri pri')
    (hAllowed : AllAllowed calls fun _ => []) :
    (among a b ((expectRun calls fun _ => []).1 l)).Sublist [b, a] := by
  obtain ⟨rfl, ⟨s₁, answers, hBefore, hHead⟩, hPos, hFirst, hSecond⟩ := hOver
  rw [allAllowed_append] at hAllowed
  obtain ⟨hAllowedBefore, hPushA, hAllowed⟩ := hAllowed
  -- What is in the lists when `a` comes.
  obtain ⟨s₂, hRun, hHolds⟩ := run_refines h.holds hAllowedBefore
  obtain rfl : s₁ = s₂ := congrArg Prod.fst (Option.some.inj (hBefore.symm.trans hRun))
  rw [expectRun_append]
  generalize (expectRun before fun _ => []).1 = c at hHolds hPushA hAllowed ⊢
  have hEmpty : c l = [] := by
    have hNone := (hHolds.head_eq l).symm.trans hHead
    cases hc : c l with
    | nil => rfl
    | cons e rest =>
        rw [hc] at hNone
        cases hNone
  obtain ⟨s₃, -, hHolds⟩ := act_refines hHolds hPushA
  have hStored : (expect c (.pushPriority l a pri)).1 l = [(a, 0)] := by
    rw [expect]
    dsimp only
    rw [Function.update_self, hEmpty]
    rfl
  rw [expectRun]
  dsimp only
  generalize (expect c (.pushPriority l a pri)).1 = c₁ at hHolds hAllowed hStored ⊢
  -- And when `b` comes.
  rw [allAllowed_append] at hAllowed
  obtain ⟨hAllowedBetween, hPushB, -⟩ := hAllowed
  obtain ⟨s₄, -, hHolds⟩ := run_refines hHolds hAllowedBetween
  have hZero : ∀ p, (a, p) ∈ (expectRun between c₁).1 l → p = 0 := by
    intro p hMem
    have hOld := stored_expectRun (fun call hCall => hFirst call (List.mem_append_left _ hCall)) hMem
    rw [hStored] at hOld
    exact congrArg Prod.snd (List.mem_singleton.mp hOld)
  rw [expectRun_append, expectRun]
  dsimp only
  refine (among_expectRun fun call hCall => ⟨hFirst call ?_, hSecond call hCall⟩).trans ?_
  · exact List.mem_append_right _ (List.mem_cons_of_mem _ hCall)
  · rw [expect]
    dsimp only
    rw [Function.update_self]
    exact among_overtakes (hHolds.nodup l) (hPushB l) hZero hPos

end Overtakes

/-- A list that only `list_push_priority` fills gives back a node with the highest stored priority. Yet a
node that has come to an empty list is overtaken by all nodes of positive priority that come later: it is
not given back while one of them is in the list. -/
theorem priorities_served (h : s.Empty) {calls : List (Call Ptr Handle)}
    (hAllowed : AllAllowed calls fun _ => []) :
    ∃ s' answers, run calls s = some (s', answers) ∧
      (Prioritised l calls (fun _ => []) → ∀ p, (s'.popHead l).2 = some p → ∀ q, (s'.node q).list = some l →
        0 ≤ (s'.node q).priority ∧ (s'.node q).priority ≤ (s'.node p).priority) ∧
      ∀ a b before between behind pri pri', s.Overtakes l a b calls before between behind pri pri' →
        (s'.node b).list = some l → (s'.popHead l).2 ≠ some a := by
  obtain ⟨s', hRun, hHolds⟩ := run_refines h.holds hAllowed
  refine ⟨s', _, hRun, fun hCalls p hp q hq => ?_, fun a b before between behind pri pri' hOver hb => ?_⟩
  · have hEmpty : Ranked ((fun _ => []) l : List (Ptr × Int)) :=
      ⟨List.Pairwise.nil, fun e he => absurd he List.not_mem_nil⟩
    exact (hEmpty.expectRun hCalls).first hHolds hp hq
  · rw [hHolds.popHead.2]
    exact not_first (hOver.among h hAllowed) hOver.ne (hHolds.owned b l hb)

/-- The first node has asked for more, and has to wait. -/
theorem priorities_served_example : ∃ s',
    run [.pushPriority () 1 7, .pushPriority () 2 3] exampleMemory = some (s', [none, none]) ∧
      (s'.node 1).priority ≤ (s'.node 2).priority ∧ (s'.popHead ()).2 ≠ some 1 := by
  have hAllowed := examplePushes_allowed [] fun _ => trivial
  have hCalls : Prioritised () [.pushPriority () 1 7, .pushPriority () 2 3] (fun _ => [] : Contents Nat Unit) :=
    ⟨by decide, by decide, trivial⟩
  have hOver : exampleMemory.Overtakes () 1 2 [.pushPriority () 1 7, .pushPriority () 2 3] [] [] [] 7 3 :=
    ⟨rfl, ⟨_, _, rfl, rfl⟩, by decide, by simp [Call.pushed], by simp⟩
  obtain ⟨s', answers, hRun, hHighest, hOvertaken⟩ := priorities_served (l := ()) exampleMemory_empty hAllowed
  have hNodes : (run [.pushPriority () 1 7, .pushPriority () 2 3] exampleMemory).map
      (fun r => (r.2, (r.1.popHead ()).2, (r.1.node 1).list, (r.1.node 2).list)) =
        some ([none, none], some 2, some (), some ()) := by decide
  rw [hRun] at hNodes
  simp only [Option.map_some, Option.some.injEq, Prod.mk.injEq] at hNodes
  obtain ⟨rfl, hPop, hList, hList'⟩ := hNodes
  exact ⟨s', hRun, (hHighest hCalls 2 hPop 1 hList).2, hOvertaken _ _ _ _ _ _ _ hOver hList'⟩

end ListMemory
end ArtOS
