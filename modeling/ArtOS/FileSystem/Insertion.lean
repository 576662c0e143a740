import ArtOS.FileSystem.Directory

/-! Creating entries, with every call of `kmalloc`. `initrd_open`, `initrd_mkdir`, `kmsg_init` and
`initrd_init` look for a free entry in loops of their own; a directory without one never gets another
block of entries, whatever `kmalloc` answers. -/
namespace ArtOS

open CString FirstPlace

/-- The answers of `kmalloc`, in the order of the calls. -/
abbrev KmallocAnswers : Type := Nat → Option Nat

/-- What a function comes to. `node` is the new node it created, as far as it says so. -/
structure Insertion where
  dir : Directory
  success : Bool
  node : Option Nat
  calls : Nat

namespace Insertion

section Code

variable (mem : Nat → BitVec 8) (name : Nat) (kmalloc : KmallocAnswers)

/-- The block lists behind this one, after a new one has been hung on the last. -/
def nextLists (behind : List BlockList) (calls : Nat) : List BlockList × Nat :=
  match behind with
  | [] => ((kmalloc calls).elim [] fun _ => [BlockList.zero], calls + 1)
  | next :: behind => (next :: behind, calls)

/-- The loop that goes on to the next block list, from the first of these lists on. -/
def insertLoop (new : Nat) : Nat → List BlockList → Nat → Option (List BlockList × Bool × Nat)
  | 0, _, _ => none
  | _ + 1, [], calls => some ([], false, calls)
  | fuel + 1, blist :: behind, calls =>
      match modifyFirst (Directory.fillBlock mem name new) blist with
      | some blist => some (blist :: behind, true, calls)
      | none =>
          let (behind, calls) := nextLists kmalloc behind calls
          (insertLoop new fuel behind calls).map fun x => (blist :: x.1, x.2)

/-- The loop of `kmsg_init`, which stays at the first block list. -/
def kmsgLoop (new : Nat) : Nat → List BlockList → Nat → Option (List BlockList × Bool × Nat)
  | 0, _, _ => none
  | _ + 1, [], calls => some ([], false, calls)
  | fuel + 1, blist :: behind, calls =>
      match modifyFirst (Directory.fillBlock mem name new) blist with
      | some blist => some (blist :: behind, true, calls)
      | none =>
          let (behind, calls) := nextLists kmalloc behind calls
          kmsgLoop new fuel (blist :: behind) calls

variable (fuel : Nat) (d : Directory)

/-- `initrd_open` on a directory. -/
def initrdOpen (flags : BitVec 32) : Option Insertion :=
  if mem name = 0 then some ⟨d, true, none, 0⟩
  else if flags &&& oCreat = 0 then some ⟨d, false, none, 0⟩
  else
    match kmalloc 0 with
    | none => some ⟨d, false, none, 1⟩
    | some new => (insertLoop mem name kmalloc new fuel d.lists 1).map fun x =>
        ⟨⟨x.1⟩, true, some new, x.2.2⟩

def initrdMkdir : Option Insertion :=
  if (d.initrdFinddir mem name).isSome then some ⟨d, false, none, 0⟩
  else
    match kmalloc 0, kmalloc 1 with
    | none, _ => some ⟨d, false, none, 1⟩
    | some _, none => some ⟨d, false, none, 2⟩
    | some new, some _ => (insertLoop mem name kmalloc new fuel d.lists 2).map fun x =>
        ⟨⟨x.1⟩, x.2.1, if x.2.1 then some new else none, x.2.2⟩

def kmsgInit : Option Insertion :=
  if (d.initrdFinddir mem name).isSome then some ⟨d, false, none, 0⟩
  else
    match kmalloc 0 with
    | none => some ⟨d, false, none, 1⟩
    | some new => (kmsgLoop mem name kmalloc new fuel d.lists 1).map fun x =>
        ⟨⟨x.1⟩, x.2.1, if x.2.1 then some new else none, x.2.2⟩

/-- One file of a module in `initrd_init`. -/
def mountFile : Option Insertion :=
  if (d.initrdFinddir mem name).isSome then some ⟨d, false, none, 0⟩
  else
    match kmalloc 0 with
    | none => some ⟨d, false, none, 1⟩
    | some new => (insertLoop mem name kmalloc new fuel d.lists 1).map fun x =>
        ⟨⟨x.1⟩, x.2.1, if x.2.1 then some new else none, x.2.2⟩

end Code

/-- The functions that create an entry; `initrd_open` does so with `O_CREAT`. -/
inductive Function where
  | mkdir
  | openCreat (flags : BitVec 32) (creates : flags &&& oCreat ≠ 0)
  | kmsg
  | mount

def Function.exec (f : Function) (mem : Nat → BitVec 8) (name : Nat) (kmalloc : KmallocAnswers)
    (fuel : Nat) (d : Directory) : Option Insertion :=
  match f with
  | .mkdir => initrdMkdir mem name kmalloc fuel d
  | .openCreat flags _ => initrdOpen mem name kmalloc fuel d flags
  | .kmsg => kmsgInit mem name kmalloc fuel d
  | .mount => mountFile mem name kmalloc fuel d

/-- The directories that any of these calls can lead to. -/
inductive Reachable : Directory → Prop
  | fresh (node parent : Nat) : Reachable (Directory.fresh node parent)
  | call {f : Function} {d : Directory} {r : Insertion} {mem : Nat → BitVec 8} {name fuel : Nat}
      {kmalloc : KmallocAnswers} {s : List (BitVec 8)} (h : Reachable d) (hName : Holds mem name s)
      (hs : s.length < maxFilename) (hCall : f.exec mem name kmalloc fuel d = some r) : Reachable r.dir

variable {d : Directory} {mem : Nat → BitVec 8} {name new fuel grown calls calls' c : Nat}
variable {kmalloc : KmallocAnswers} {s : List (BitVec 8)} {lists lists' : List BlockList} {created : Bool}
variable {f : Function} {r : Insertion}

/-- These strings are found where they were before. -/
def SameLookups (d d' : Directory) (strings : Set (List (BitVec 8))) : Prop :=
  ∀ mem name t, Holds mem name t → t ∈ strings → d'.initrdFinddir mem name = d.initrdFinddir mem name

/-- At most `c` calls of `kmalloc` and one for each block list. Where success is reported the name leads
to the new node and nothing else has changed; where failure is reported nothing has. -/
def Promised (c : Nat) (mem : Nat → BitVec 8) (name : Nat) (s : List (BitVec 8)) (d : Directory)
    (r : Insertion) : Prop :=
  r.calls ≤ c + d.lists.length ∧
    if r.success then
      (∃ node, r.node = some node ∧ r.dir.initrdFinddir mem name = some node) ∧
        SameLookups d r.dir {t | t ≠ s}
    else SameLookups d r.dir Set.univ

/-- With any answers of `kmalloc` the call comes back and keeps the promise. -/
def Function.Works (f : Function) (c : Nat) (mem : Nat → BitVec 8) (name : Nat) (s : List (BitVec 8))
    (d : Directory) : Prop :=
  ∀ kmalloc, ∃ fuel r, f.exec mem name kmalloc fuel d = some r ∧ Promised c mem name s d r

/-- `initrd_open` takes an empty name for a call of `opendir`. -/
def Function.Takes (f : Function) (s : List (BitVec 8)) : Prop :=
  match f with
  | .openCreat _ _ => s ≠ []
  | _ => True

/-- There is a free entry. -/
def HasRoom (d : Directory) : Prop := ∃ e ∈ d.entries, e.vfsNode = none

instance (d : Directory) : Decidable (HasRoom d) :=
  inferInstanceAs (Decidable (∃ e ∈ d.entries, e.vfsNode = none))

/-- The search of the loops fails exactly without a free entry. -/
theorem search_eq_none :
    modifyFirst (modifyFirst (Directory.fillBlock mem name new)) d.lists = none ↔ ¬ HasRoom d := by
  rw [HasRoom]
  constructor
  · rintro h ⟨e, he, hFree⟩
    have hBlocks : ∀ list : BlockList, modifyFirst (Directory.fillBlock mem name new) list = none →
        ∀ e ∈ list.flatMap fun block => block.getD [], ¬ e.vfsNode = none :=
      fun list hList => modifyFirst_none_view (fun _ => Directory.fillBlock_none) hList
    exact modifyFirst_none_view hBlocks h e he hFree
  · intro h
    rw [modifyFirst_eq_none]
    intro list hList
    rw [modifyFirst_eq_none]
    intro block hBlock
    cases block with
    | none => rfl
    | some entries =>
        apply Option.map_eq_none_iff.mpr
        rw [modifyFirst_eq_none]
        intro e he
        rw [Directory.fillEntry_eq_none]
        intro hFree
        exact h ⟨e, List.mem_flatMap.mpr ⟨list, hList, List.mem_flatMap.mpr ⟨some entries, hBlock, he⟩⟩,
          hFree⟩

/-- An entry is created exactly if there is a free one. -/
theorem createEntry_created : (d.createEntry mem name new grown).2 = true ↔ HasRoom d := by
  have hNone : modifyFirst (modifyFirst (Directory.fillBlock mem name new)) d.lists = none ↔ ¬ HasRoom d :=
    search_eq_none
  rw [← not_iff_not, ← hNone, Directory.createEntry]
  cases modifyFirst (modifyFirst (Directory.fillBlock mem name new)) d.lists with
  | none => exact iff_of_true (by simp) rfl
  | some lists => exact iff_of_false (by simp) (Option.some_ne_none lists)


theorem zero_none : modifyFirst (Directory.fillBlock mem name new) BlockList.zero = none := by
  rw [modifyFirst_eq_none]
  intro block hBlock
  rw [(List.mem_replicate.mp hBlock).2]
  rfl

section Loop

/-- The search from one block list on. -/
theorem search_cons {blist : BlockList} {behind : List BlockList}
    (h : modifyFirst (Directory.fillBlock mem name new) blist = none) :
    modifyFirst (modifyFirst (Directory.fillBlock mem name new)) (blist :: behind) =
      (modifyFirst (modifyFirst (Directory.fillBlock mem name new)) behind).map (blist :: ·) := by
  rw [modifyFirst, h]

theorem createEntry_cons {blist : BlockList} {behind : List BlockList}
    (h : modifyFirst (Directory.fillBlock mem name new) blist = none) :
    Directory.createEntry mem name new grown ⟨blist :: behind⟩ =
      (⟨blist :: (Directory.createEntry mem name new grown ⟨behind⟩).1.lists⟩,
        (Directory.createEntry mem name new grown ⟨behind⟩).2) := by
  rw [Directory.createEntry, Directory.createEntry]
  dsimp only
  rw [search_cons h]
  cases modifyFirst (modifyFirst (Directory.fillBlock mem name new)) behind with
  | none => rfl
  | some lists => rfl

/-- A new block list has no block. -/
theorem createEntry_zero : Directory.createEntry mem name new grown ⟨[BlockList.zero]⟩ =
    (⟨List.replicate (grown + 1) BlockList.zero⟩, false) := by
  rw [createEntry_cons zero_none]
  rfl

/-- With a free entry somewhere, the loop asks `kmalloc` for nothing. -/
theorem insertLoop_found
    (h : modifyFirst (modifyFirst (Directory.fillBlock mem name new)) lists = some lists')
    (hFuel : lists.length < fuel) :
    insertLoop mem name kmalloc new fuel lists calls = some (lists', true, calls) := by
  induction lists generalizing lists' fuel with
  | nil => exact absurd h (by simp [modifyFirst])
  | cons blist behind ih =>
      obtain ⟨fuel, rfl⟩ := Nat.exists_eq_succ_of_ne_zero (Nat.ne_zero_of_lt hFuel)
      rw [insertLoop]
      cases hList : modifyFirst (Directory.fillBlock mem name new) blist with
      | some blist' =>
          rw [modifyFirst, hList] at h
          obtain rfl := Option.some.inj h
          rfl
      | none =>
          rw [search_cons hList] at h
          obtain ⟨behind', hBehind, rfl⟩ := Option.map_eq_some_iff.mp h
          have hNext : nextLists kmalloc behind calls = (behind, calls) := by
            cases behind with
            | nil => exact absurd hBehind (by simp [modifyFirst])
            | cons next behind => rfl
          dsimp only
          rw [hNext, ih hBehind (Nat.lt_of_succ_lt_succ hFuel)]
          rfl

/-- Whatever `kmalloc` answers, the loop has done what `createEntry` says. Without a free entry it has
ended with a call of `kmalloc` that was answered `NULL`. -/
theorem insertLoop_spec (h : insertLoop mem name kmalloc new fuel lists calls = some (lists', created, calls')) :
    ∃ grown, Directory.createEntry mem name new grown ⟨lists⟩ = (⟨lists'⟩, created) ∧
      (created = false → lists ≠ [] → calls < calls' ∧ kmalloc (calls' - 1) = none) := by
  induction fuel generalizing lists lists' calls with
  | zero => cases h
  | succ fuel ih =>
      cases lists with
      | nil =>
          cases h
          exact ⟨0, rfl, fun _ hNil => absurd rfl hNil⟩
      | cons blist behind =>
          rw [insertLoop] at h
          cases hList : modifyFirst (Directory.fillBlock mem name new) blist with
          | some blist' =>
              rw [hList] at h
              cases h
              refine ⟨0, ?_, fun hFalse => absurd hFalse (by simp)⟩
              rw [Directory.createEntry]
              dsimp only
              rw [modifyFirst, hList]
          | none =>
              rw [hList] at h
              dsimp only at h
              obtain ⟨⟨behind', x⟩, hBehind, hRest⟩ := Option.map_eq_some_iff.mp h
              cases hRest
              cases behind with
              | cons next behind =>
                  rw [nextLists] at hBehind
                  obtain ⟨grown, hCreate, hLast⟩ := ih hBehind
                  refine ⟨grown, ?_, fun hFalse _ => hLast hFalse (by simp)⟩
                  rw [createEntry_cons hList, hCreate]
              | nil =>
                  rw [nextLists] at hBehind
                  cases hAnswer : kmalloc calls with
                  | none =>
                      rw [hAnswer] at hBehind
                      cases fuel with
                      | zero => cases hBehind
                      | succ fuel =>
                          cases hBehind
                          refine ⟨0, ?_, fun _ _ => ⟨Nat.lt_succ_self calls, hAnswer⟩⟩
                          rw [createEntry_cons hList]
                          rfl
                  | some addr =>
                      rw [hAnswer] at hBehind
                      obtain ⟨grown, hCreate, hLast⟩ := ih hBehind
                      cases createEntry_zero.symm.trans hCreate
                      refine ⟨grown + 1, createEntry_cons hList, fun _ _ => ?_⟩
                      have hCalls : calls + 1 < calls' ∧ kmalloc (calls' - 1) = none :=
                        hLast rfl (List.cons_ne_nil _ _)
                      exact ⟨Nat.lt_of_succ_lt hCalls.1, hCalls.2⟩

/-- `initrd_open` of a directory without the count of the calls. -/
theorem initrdOpen_refines {flags : BitVec 32} (h : initrdOpen mem name kmalloc fuel d flags = some r) :
    ∃ grown ret, d.initrdOpen mem name flags (kmalloc 0) grown = (r.dir, r.node, ret) ∧
      (r.success = true ↔ ret = 0) := by
  rw [initrdOpen] at h
  split at h
  next hEmpty =>
    cases h
    exact ⟨0, 0, if_pos hEmpty, by simp⟩
  next hChar =>
    split at h
    next hFlags =>
      cases h
      refine ⟨0, -enoent, ?_, by simp [enoent]⟩
      unfold Directory.initrdOpen
      rw [if_neg hChar, if_pos hFlags]
    next hFlags =>
      cases hNew : kmalloc 0 with
      | none =>
          rw [hNew] at h
          cases h
          refine ⟨0, -einval, ?_, by simp [einval]⟩
          unfold Directory.initrdOpen
          rw [if_neg hChar, if_neg hFlags]
      | some new =>
          rw [hNew] at h
          obtain ⟨x, hx, rfl⟩ := Option.map_eq_some_iff.mp h
          obtain ⟨grown, hCreate, _⟩ := insertLoop_spec hx
          refine ⟨grown, 0, ?_, by simp⟩
          unfold Directory.initrdOpen
          rw [if_neg hChar, if_neg hFlags]
          dsimp only
          rw [hCreate]

/-- `initrd_mkdir` without the count of the calls. -/
theorem initrdMkdir_refines (h : initrdMkdir mem name kmalloc fuel d = some r) :
    ∃ grown, d.initrdMkdir mem name (kmalloc 0) (kmalloc 1) grown = (r.dir, r.node) := by
  rw [initrdMkdir] at h
  split at h
  next hFound =>
    cases h
    exact ⟨0, if_pos hFound⟩
  next hAbsent =>
    cases hFirst : kmalloc 0 with
    | none =>
        rw [hFirst] at h
        cases h
        exact ⟨0, if_neg hAbsent⟩
    | some new =>
        cases hSecond : kmalloc 1 with
        | none =>
            rw [hFirst, hSecond] at h
            cases h
            exact ⟨0, if_neg hAbsent⟩
        | some block =>
            rw [hFirst, hSecond] at h
            obtain ⟨x, hx, rfl⟩ := Option.map_eq_some_iff.mp h
            obtain ⟨grown, hCreate, _⟩ := insertLoop_spec hx
            refine ⟨grown, ?_⟩
            rw [Directory.initrdMkdir, if_neg hAbsent]
            dsimp only
            rw [hCreate]

/-- Where the first block list has no free entry, `kmsg_init` never leaves it. -/
theorem kmsgLoop_none {blist : BlockList} {behind : List BlockList}
    (h : modifyFirst (Directory.fillBlock mem name new) blist = none) :
    kmsgLoop mem name kmalloc new fuel (blist :: behind) calls = none := by
  induction fuel generalizing behind calls with
  | zero => rfl
  | succ fuel ih =>
      rw [kmsgLoop, h]
      exact ih

theorem kmsgLoop_spec (h : kmsgLoop mem name kmalloc new fuel lists calls = some (lists', created, calls'))
    (hLists : lists ≠ []) :
    created = true ∧ calls' = calls ∧
      Directory.createEntry mem name new 0 ⟨lists⟩ = (⟨lists'⟩, true) := by
  obtain ⟨blist, behind, rfl⟩ := List.exists_cons_of_ne_nil hLists
  cases hList : modifyFirst (Directory.fillBlock mem name new) blist with
  | none =>
      rw [kmsgLoop_none hList] at h
      cases h
  | some blist' =>
      cases fuel with
      | zero => cases h
      | succ fuel =>
          rw [kmsgLoop, hList] at h
          cases h
          refine ⟨rfl, rfl, ?_⟩
          rw [Directory.createEntry]
          dsimp only
          rw [modifyFirst, hList]

end Loop

theorem search_empty (empty : Nat) :
    modifyFirst (modifyFirst (Directory.fillBlock mem name new))
      (List.replicate empty BlockList.zero) = none := by
  rw [modifyFirst_eq_none]
  intro list hList
  rw [(List.mem_replicate.mp hList).2]
  exact zero_none

/-- A reachable directory is filled from the front, and the block lists behind the first one are
empty. -/
structure Regular (d : Directory) : Prop where
  sound : d.Sound
  order : d.entries.Pairwise fun e e' => e.vfsNode = none → e'.vfsNode = none
  shape : ∃ first empty, d.lists = first :: List.replicate empty BlockList.zero

section Filled

variable {d' : Directory} (hFilled : FilledFirst (fun e => e.vfsNode = none)
  (fun e => e.vfsNode = some new ∧ e.Named s) d.entries d'.entries)
include hFilled

theorem finddir_new (hName : Holds mem name s) (hNew : d.initrdFinddir mem name = none) :
    d'.initrdFinddir mem name = some new := by
  obtain ⟨left, old, b, right, hBefore, hAfter, hLeft, _, hNode, hNamed⟩ := hFilled
  rw [Directory.initrdFinddir, hBefore, List.find?_append] at hNew
  rw [Directory.initrdFinddir, hAfter, List.find?_append]
  cases hFind : left.find? fun e => strncmp e.name mem 0 name maxFilename = 0 with
  | some e =>
      rw [hFind] at hNew
      exact absurd hNew (hLeft e (List.mem_of_find?_eq_some hFind))
  | none =>
      have hMatch : strncmp b.name mem 0 name maxFilename = 0 :=
        (Directory.strncmp_named hName hNamed).mpr rfl
      rw [Option.none_or, List.find?_cons_of_pos (by simpa using hMatch)]
      exact hNode

theorem finddir_other (h : Regular d) : SameLookups d d' {t | t ≠ s} := by
  intro mem name t hName ht
  obtain ⟨left, old, b, right, hBefore, hAfter, hLeft, hFree, hNode, hNamed⟩ := hFilled
  have hOrder := h.order
  rw [hBefore, List.pairwise_append, List.pairwise_cons] at hOrder
  have hOld : old.Named [] :=
    (h.sound old (hBefore ▸ List.mem_append_right _ List.mem_cons_self)).2 hFree
  have hMiss : ¬ strncmp b.name mem 0 name maxFilename = 0 := by
    rw [Directory.strncmp_named hName hNamed]
    exact fun hEq => ht hEq.symm
  rw [Directory.initrdFinddir, Directory.initrdFinddir, hBefore, hAfter, List.find?_append,
    List.find?_append, List.find?_cons_of_neg (by simpa using hMiss)]
  cases hFind : left.find? fun e => strncmp e.name mem 0 name maxFilename = 0 with
  | some e => rfl
  | none =>
      rw [Option.none_or, Option.none_or]
      by_cases hEmpty : t = []
      · have hMatch : strncmp old.name mem 0 name maxFilename = 0 :=
          (Directory.strncmp_named hName hOld).mpr hEmpty.symm
        rw [List.find?_cons_of_pos (by simpa using hMatch), Option.bind_some, hFree]
        cases hRight : right.find? fun e => strncmp e.name mem 0 name maxFilename = 0 with
        | none => rfl
        | some e => exact hOrder.2.1.1 e (List.mem_of_find?_eq_some hRight) hFree
      · have hOldMiss : ¬ strncmp old.name mem 0 name maxFilename = 0 := by
          rw [Directory.strncmp_named hName hOld]
          exact fun hEq => hEmpty hEq.symm
        rw [List.find?_cons_of_neg (by simpa using hOldMiss)]

end Filled

theorem Regular.createEntry (h : Regular d) (new grown : Nat) (hName : Holds mem name s)
    (hs : s.length < maxFilename) :
    Regular (d.createEntry mem name new grown).1 := by
  obtain ⟨first, empty, hShape⟩ := h.shape
  cases hCreated : (d.createEntry mem name new grown).2 with
  | false =>
      have hSame := Directory.createEntry_full hCreated
      refine ⟨?_, ?_, first, empty + grown, ?_⟩
      · rw [Directory.Sound, hSame]
        exact h.sound
      · rw [hSame]
        exact h.order
      · rw [Directory.createEntry] at hCreated ⊢
        cases hLists : modifyFirst (modifyFirst (Directory.fillBlock mem name new)) d.lists with
        | some lists => simp [hLists] at hCreated
        | none =>
            dsimp only
            rw [hShape, List.cons_append, List.replicate_append_replicate]
  | true =>
      have hFilled := Directory.createEntry_filledFirst hName hs hCreated
      refine ⟨h.sound.filled ?_ hFilled.filled, ?_, ?_⟩
      · rintro e ⟨hNode, hNamed⟩
        exact ⟨⟨s, hNamed⟩, fun hNone => absurd (hNode.symm.trans hNone) (by simp)⟩
      · obtain ⟨left, old, b, right, hBefore, hAfter, hLeft, hFree, hNode, _⟩ := hFilled
        have hOrder := h.order
        rw [hBefore, List.pairwise_append, List.pairwise_cons] at hOrder
        rw [hAfter, List.pairwise_append, List.pairwise_cons]
        refine ⟨hOrder.1, ⟨fun e _ hNone => absurd (hNode.symm.trans hNone) (by simp), hOrder.2.1.2⟩, ?_⟩
        exact fun e he _ _ hNone => absurd hNone (hLeft e he)
      · rw [Directory.createEntry] at hCreated ⊢
        rw [hShape] at hCreated ⊢
        cases hList : modifyFirst (Directory.fillBlock mem name new) first with
        | some first' =>
            rw [modifyFirst, hList]
            exact ⟨first', empty, rfl⟩
        | none =>
            rw [search_cons hList, search_empty] at hCreated
            exact absurd hCreated (by simp)

/-- A call that has been answered leaves the directory as it was, since the name is there or `kmalloc`
has failed at once, or is an `opendir`, or has gone through its loop. -/
theorem Function.exec_cases (hLists : d.lists ≠ []) (hExec : f.exec mem name kmalloc fuel d = some r) :
    (r.dir = d ∧ ((d.initrdFinddir mem name).isSome ∨ kmalloc 0 = none ∨ kmalloc 1 = none)) ∨
      (r = ⟨d, true, none, 0⟩ ∧ mem name = 0) ∨
        ∃ new grown created, d.createEntry mem name new grown = (r.dir, created) ∧
          (created = false → 0 < r.calls ∧ kmalloc (r.calls - 1) = none) := by
  have hLoop : ∀ {new calls lists' created calls'},
      insertLoop mem name kmalloc new fuel d.lists calls = some (lists', created, calls') →
        ∃ grown, d.createEntry mem name new grown = (⟨lists'⟩, created) ∧
          (created = false → 0 < calls' ∧ kmalloc (calls' - 1) = none) := by
    intro new calls lists' created calls' h
    obtain ⟨grown, hCreate, hLast⟩ := insertLoop_spec h
    exact ⟨grown, hCreate, fun hFalse => ⟨Nat.zero_lt_of_lt (hLast hFalse hLists).1, (hLast hFalse hLists).2⟩⟩
  cases f with
  | mkdir =>
      have hMkdir : initrdMkdir mem name kmalloc fuel d = some r := hExec
      rw [initrdMkdir] at hMkdir
      split at hMkdir
      · cases hMkdir
        exact Or.inl ⟨rfl, Or.inl ‹_›⟩
      · split at hMkdir
        · cases hMkdir
          exact Or.inl ⟨rfl, Or.inr (Or.inl ‹_›)⟩
        · cases hMkdir
          exact Or.inl ⟨rfl, Or.inr (Or.inr ‹_›)⟩
        · obtain ⟨x, hx, rfl⟩ := Option.map_eq_some_iff.mp hMkdir
          obtain ⟨grown, hCreate, hLast⟩ := hLoop hx
          exact Or.inr (Or.inr ⟨_, grown, _, hCreate, hLast⟩)
  | openCreat flags hFlags =>
      have hOpen : initrdOpen mem name kmalloc fuel d flags = some r := hExec
      rw [initrdOpen, if_neg hFlags] at hOpen
      split at hOpen
      · cases hOpen
        exact Or.inr (Or.inl ⟨rfl, ‹_›⟩)
      · split at hOpen
        · cases hOpen
          exact Or.inl ⟨rfl, Or.inr (Or.inl ‹_›)⟩
        · obtain ⟨x, hx, rfl⟩ := Option.map_eq_some_iff.mp hOpen
          obtain ⟨grown, hCreate, hLast⟩ := hLoop hx
          exact Or.inr (Or.inr ⟨_, grown, _, hCreate, hLast⟩)
  | kmsg =>
      have hKmsg : kmsgInit mem name kmalloc fuel d = some r := hExec
      rw [kmsgInit] at hKmsg
      split at hKmsg
      · cases hKmsg
        exact Or.inl ⟨rfl, Or.inl ‹_›⟩
      · split at hKmsg
        · cases hKmsg
          exact Or.inl ⟨rfl, Or.inr (Or.inl ‹_›)⟩
        · obtain ⟨x, hx, rfl⟩ := Option.map_eq_some_iff.mp hKmsg
          obtain ⟨_, _, hCreate⟩ := kmsgLoop_spec hx hLists
          exact Or.inr (Or.inr ⟨_, 0, true, hCreate, fun hFalse => absurd hFalse (by simp)⟩)
  | mount =>
      have hMount : mountFile mem name kmalloc fuel d = some r := hExec
      rw [mountFile] at hMount
      split at hMount
      · cases hMount
        exact Or.inl ⟨rfl, Or.inl ‹_›⟩
      · split at hMount
        · cases hMount
          exact Or.inl ⟨rfl, Or.inr (Or.inl ‹_›)⟩
        · obtain ⟨x, hx, rfl⟩ := Option.map_eq_some_iff.mp hMount
          obtain ⟨grown, hCreate, hLast⟩ := hLoop hx
          exact Or.inr (Or.inr ⟨_, grown, _, hCreate, hLast⟩)

theorem Regular.lists_ne_nil (h : Regular d) : d.lists ≠ [] := by
  obtain ⟨first, empty, hShape⟩ := h.shape
  rw [hShape]
  exact List.cons_ne_nil _ _

theorem Regular.fresh (node parent : Nat) : Regular (Directory.fresh node parent) := by
  refine ⟨Directory.fresh_sound node parent, ?_, _, 0, rfl⟩
  rw [Directory.fresh_entries, List.pairwise_cons, List.pairwise_cons]
  refine ⟨fun _ _ hNone => absurd hNone (by simp), fun _ _ hNone => absurd hNone (by simp), ?_⟩
  exact List.pairwise_replicate.mpr (Or.inr fun _ => rfl)

theorem Reachable.regular (h : Reachable d) : Regular d := by
  induction h with
  | fresh node parent => exact Regular.fresh node parent
  | call _ hName hs hCall ih =>
      rcases Function.exec_cases ih.lists_ne_nil hCall with
        ⟨hSame, _⟩ | ⟨rfl, _⟩ | ⟨new, grown, _, hCreate, _⟩
      · exact hSame ▸ ih
      · exact ih
      · have hNext := ih.createEntry new grown hName hs
        rw [hCreate] at hNext
        exact hNext

theorem promised_failure (hc : calls ≤ c) : Promised c mem name s d ⟨d, false, none, calls⟩ :=
  ⟨Nat.le_add_right_of_le hc, fun _ _ _ _ _ => rfl⟩

theorem promised_success (hName : Holds mem name s) (hs : s.length < maxFilename) (h : Regular d)
    (hNew : d.initrdFinddir mem name = none)
    (hCreate : d.createEntry mem name new grown = (⟨lists⟩, true)) (hc : calls ≤ c) :
    Promised c mem name s d ⟨⟨lists⟩, true, some new, calls⟩ := by
  have hFilled := Directory.createEntry_filledFirst hName hs (congrArg Prod.snd hCreate)
  rw [hCreate] at hFilled
  exact ⟨Nat.le_add_right_of_le hc, ⟨new, rfl, finddir_new hFilled hName hNew⟩,
    finddir_other hFilled h⟩

/-- Where there is room, the loops find it in the lists there are. -/
theorem room_found (h : Regular d) (hRoom : HasRoom d) (new : Nat) :
    ∃ lists, d.createEntry mem name new 0 = (⟨lists⟩, true) ∧
      (∀ kmalloc calls, insertLoop mem name kmalloc new (d.lists.length + 1) d.lists calls =
        some (lists, true, calls)) ∧
      ∀ kmalloc calls, kmsgLoop mem name kmalloc new 1 d.lists calls = some (lists, true, calls) := by
  obtain ⟨first, empty, hShape⟩ := h.shape
  cases hLists : modifyFirst (modifyFirst (Directory.fillBlock mem name new)) d.lists with
  | none => exact absurd hRoom (search_eq_none.mp hLists)
  | some lists =>
      refine ⟨lists, ?_, fun kmalloc calls => insertLoop_found hLists (Nat.lt_succ_self _), ?_⟩
      · rw [Directory.createEntry, hLists]
      · intro kmalloc calls
        rw [hShape] at hLists ⊢
        cases hList : modifyFirst (Directory.fillBlock mem name new) first with
        | some first' =>
            rw [modifyFirst, hList] at hLists
            rw [kmsgLoop, hList]
            cases hLists
            rfl
        | none =>
            rw [search_cons hList, search_empty] at hLists
            cases hLists

theorem works_of_room (hName : Holds mem name s) (hs : s.length < maxFilename) (h : Regular d)
    (hNew : d.initrdFinddir mem name = none) (hc : 2 ≤ c) (hRoom : HasRoom d) (hTakes : f.Takes s) :
    f.Works c mem name s d := by
  intro kmalloc
  have hAbsent : ¬ (d.initrdFinddir mem name).isSome = true := by simp [hNew]
  cases hFirst : kmalloc 0 with
  | none =>
      refine ⟨0, ⟨d, false, none, 1⟩, ?_, promised_failure (by omega)⟩
      cases f with
      | mkdir => simp only [Function.exec, initrdMkdir, if_neg hAbsent, hFirst]
      | openCreat flags hFlags =>
          have hChar : ¬ mem name = 0 := fun hZero => hTakes (hName.eq_nil_iff.mpr hZero)
          simp only [Function.exec, initrdOpen, if_neg hChar, if_neg hFlags, hFirst]
      | kmsg => simp only [Function.exec, kmsgInit, if_neg hAbsent, hFirst]
      | mount => simp only [Function.exec, mountFile, if_neg hAbsent, hFirst]
  | some new =>
      obtain ⟨lists, hCreate, hLoop, hKmsg⟩ := room_found h hRoom new
      have hDone : ∀ calls ≤ 2, Promised c mem name s d ⟨⟨lists⟩, true, some new, calls⟩ :=
        fun calls hCalls => promised_success hName hs h hNew hCreate (hCalls.trans hc)
      cases f with
      | mkdir =>
          cases hSecond : kmalloc 1 with
          | none =>
              refine ⟨0, ⟨d, false, none, 2⟩, ?_, promised_failure hc⟩
              simp only [Function.exec, initrdMkdir, if_neg hAbsent, hFirst, hSecond]
          | some block =>
              refine ⟨d.lists.length + 1, _, ?_, hDone 2 le_rfl⟩
              simp only [Function.exec, initrdMkdir, if_neg hAbsent, hFirst, hSecond, hLoop]
              rfl
      | openCreat flags hFlags =>
          have hChar : ¬ mem name = 0 := fun hZero => hTakes (hName.eq_nil_iff.mpr hZero)
          refine ⟨d.lists.length + 1, _, ?_, hDone 1 (by omega)⟩
          simp only [Function.exec, initrdOpen, if_neg hChar, if_neg hFlags, hFirst, hLoop]
          rfl
      | kmsg =>
          refine ⟨1, _, ?_, hDone 1 (by omega)⟩
          simp only [Function.exec, kmsgInit, if_neg hAbsent, hFirst, hKmsg]
          rfl
      | mount =>
          refine ⟨d.lists.length + 1, _, ?_, hDone 1 (by omega)⟩
          simp only [Function.exec, mountFile, if_neg hAbsent, hFirst, hLoop]
          rfl

/-- Without room the loops end only when `kmalloc` has failed, if they end at all. -/
theorem not_works_of_full (h : Regular d) (hNew : d.initrdFinddir mem name = none) (hRoom : ¬ HasRoom d) :
    ¬ f.Works c mem name s d := by
  intro hWorks
  obtain ⟨fuel, r, hExec, hCalls, hKept⟩ :=
    hWorks fun n => if n < c + d.lists.length + 2 then some 1 else none
  rcases Function.exec_cases h.lists_ne_nil hExec with ⟨_, hFound | hFirst | hSecond⟩ | ⟨rfl, _⟩ | hLoop
  · simp [hNew] at hFound
  · simp at hFirst
  · simp at hSecond
  · obtain ⟨⟨node, hNode, _⟩, _⟩ := hKept
    cases hNode
  · obtain ⟨new, grown, created, hCreate, hLast⟩ := hLoop
    have hFull : created = false := by
      rw [Directory.createEntry, search_eq_none.mpr hRoom] at hCreate
      exact (congrArg Prod.snd hCreate).symm
    obtain ⟨hPos, hNull⟩ := hLast hFull
    have hMany : ¬ r.calls - 1 < c + d.lists.length + 2 := by
      intro hFew
      rw [if_pos hFew] at hNull
      cases hNull
    omega

theorem not_works_of_empty (hName : Holds mem name s) (hTakes : ¬ f.Takes s) :
    ¬ f.Works c mem name s d := by
  intro hWorks
  cases f with
  | openCreat flags hFlags =>
      have hEmpty : mem name = 0 := hName.eq_nil_iff.mp (not_not.mp hTakes)
      obtain ⟨fuel, r, hExec, _, hKept⟩ := hWorks fun _ => none
      simp only [Function.exec, initrdOpen, if_pos hEmpty] at hExec
      cases hExec
      obtain ⟨⟨node, hNode, _⟩, _⟩ := hKept
      cases hNode
  | mkdir => exact hTakes trivial
  | kmsg => exact hTakes trivial
  | mount => exact hTakes trivial

/-- A new name can be inserted in bounded time exactly while the directory has a free entry, and the
name is not taken for a call of `opendir`. -/
theorem works_iff (hc : 2 ≤ c) (h : Reachable d) (hName : Holds mem name s) (hs : s.length < maxFilename)
    (hNew : d.initrdFinddir mem name = none) : f.Works c mem name s d ↔ HasRoom d ∧ f.Takes s := by
  constructor
  · intro hWorks
    constructor
    · exact Classical.byContradiction fun hRoom => not_works_of_full h.regular hNew hRoom hWorks
    · exact Classical.byContradiction fun hTakes => not_works_of_empty hName hTakes hWorks
  · exact fun ⟨hRoom, hTakes⟩ => works_of_room hName hs h.regular hNew hc hRoom hTakes

/-- The name of the kernel messages. -/
def logName : List (BitVec 8) := [0x6C, 0x6F, 0x67]

theorem works_iff_log :
    Function.kmsg.Works 2 (fun k => logName.getD k 0) 0 logName (Directory.fresh 2 1) :=
  (works_iff le_rfl (Reachable.fresh 2 1) (holds_getD (by decide)) (by decide)
    (by decide)).mpr ⟨by decide, trivial⟩

/-- A name of one letter. -/
def letter (i : Nat) : List (BitVec 8) := [BitVec.ofNat 8 (0x61 + i)]

/-- `initrd_mkdir` with each of these letters. -/
def mkdirAll (letters : List Nat) (d : Directory) : Option Directory :=
  letters.foldlM (fun d i =>
    (Function.mkdir.exec (fun k => (letter i).getD k 0) 0 (fun _ => some 2) 2 d).map Insertion.dir) d

theorem Reachable.mkdirAll {d' : Directory} {letters : List Nat}
    (hLetters : ∀ i ∈ letters, BitVec.ofNat 8 (0x61 + i) ≠ 0) (h : Reachable d)
    (hRun : mkdirAll letters d = some d') : Reachable d' := by
  induction letters generalizing d with
  | nil => exact Option.some.inj hRun ▸ h
  | cons i letters ih =>
      obtain ⟨next, hFirst, hRest⟩ := Option.bind_eq_some_iff.mp (List.foldlM_cons.symm.trans hRun)
      obtain ⟨r, hExec, rfl⟩ := Option.map_eq_some_iff.mp hFirst
      have hName : Holds (fun k => (letter i).getD k 0) 0 (letter i) :=
        holds_getD (by simpa [letter] using hLetters i List.mem_cons_self)
      have hShort : (letter i).length < maxFilename := show 1 < 128 by decide
      have hNext : Reachable r.dir := h.call hName hShort hExec
      exact ih (fun j hj => hLetters j (List.mem_cons_of_mem _ hj)) hNext hRest

/-- A directory is full after thirty calls. -/
theorem exists_full : ∃ d, Reachable d ∧ ¬ HasRoom d ∧
    d.initrdFinddir (fun k => (letter 30).getD k 0) 0 = none := by
  have hView : (mkdirAll (List.range 30) (Directory.fresh 1 0)).map (fun d => (decide (HasRoom d),
      d.initrdFinddir (fun k => (letter 30).getD k 0) 0)) = some (false, none) := by
    decide +kernel
  obtain ⟨d, hRun, hFull⟩ := Option.map_eq_some_iff.mp hView
  have hReachable := (Reachable.fresh 1 0).mkdirAll (by decide) hRun
  exact ⟨d, hReachable, of_decide_eq_false (congrArg Prod.fst hFull), congrArg Prod.snd hFull⟩

theorem not_works : ¬ ∃ c, ∀ (f : Function) (d : Directory) (mem : Nat → BitVec 8) (name : Nat)
    (s : List (BitVec 8)), Reachable d → Holds mem name s → s.length < maxFilename →
      d.initrdFinddir mem name = none → f.Works c mem name s d := by
  rintro ⟨c, hAll⟩
  obtain ⟨d, hReachable, hFull, hNew⟩ := exists_full
  have hWorks := hAll .mkdir d _ 0 (letter 30) hReachable (holds_getD (by decide)) (by decide) hNew
  exact not_works_of_full hReachable.regular hNew hFull hWorks

end Insertion
end ArtOS
