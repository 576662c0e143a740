import ArtOS.FileSystem.FileData
import ArtOS.FileSystem.Tree
import ArtOS.Library.Allocation

/-! The memory of a regular file: which blocks its pointers lead to, and which ones have been given to
`kfree`. A block goes by the number of the call of `kmalloc` that has answered with it. -/
namespace ArtOS

open Allocation

/-- A `block_list_t`. The first one of a file is part of its node, the others are blocks themselves. -/
structure ListNode where
  address : Option Nat
  data : List (Option Nat)

/-- The blocks that it leads to, and its own one. -/
def ListNode.held (list : ListNode) : List Nat := list.data.flatMap Option.toList ++ list.address.toList

def ListNode.zero (address : Option Nat) : ListNode := ⟨address, List.replicate maxDatablocks none⟩

/-- A node of type `FS_FILE`. -/
structure FileBlocks where
  blockSize : Nat
  lists : List ListNode

def FileBlocks.held (f : FileBlocks) : List Nat := f.lists.flatMap ListNode.held

/-- The data blocks of the first list. -/
def FileBlocks.first (f : FileBlocks) : List Nat :=
  (f.lists.take 1).flatMap fun list => list.data.flatMap Option.toList

/-- A file, the number of calls of `kmalloc` so far, the blocks given to `kfree` in this order, and how
many calls of `kmalloc` had been made when the file was last cut off. -/
structure BlockRun where
  file : FileBlocks
  calls : Nat
  freed : List Nat
  cut : Option Nat

inductive BlockCall where
  | initrdOpen (flags : BitVec 32)
  | initrdWrite (flags : BitVec 32) (offset size : Nat)

namespace BlockRun

section Source

-- If the call number `n` of `kmalloc` has an answer.
variable (answers : Nat → Bool)

/-- It answers with a block that goes by the number of the call. -/
def kmalloc (calls : Nat) : Option Nat := if answers calls then some calls else none

/-- Behind the last block list comes a new one. -/
def orNewList (behind : List ListNode) (calls : Nat) : List ListNode × Nat :=
  match behind with
  | [] => ((kmalloc answers calls).toList.map fun address => ListNode.zero (some address), calls + 1)
  | list :: behind => (list :: behind, calls)

/-- The outer loop. It ends without a block where `kmalloc` has not answered with another list. -/
def walkLists : Nat → List ListNode → Nat → Nat → Option (List ListNode × Nat × Option Nat)
  | 0, _, _, _ => none
  | _ + 1, [], _, calls => some ([], calls, none)
  | fuel + 1, blist :: behind, togo, calls =>
      let (slots, togo, calls, found) := FileNode.walkSlots (kmalloc answers) blist.data togo calls
      let (behind, calls) := orNewList answers behind calls
      match found with
      | some (_, data) => some (⟨blist.address, slots⟩ :: behind, calls, some data)
      | none =>
          (walkLists fuel behind togo calls).map fun (behind, calls, data) =>
            (⟨blist.address, slots⟩ :: behind, calls, data)

/-- `kfree` gets the blocks of the first list, which keeps its pointers, and those of the lists behind it
and these lists themselves. -/
def truncate (r : BlockRun) : BlockRun where
  file := ⟨0, r.file.lists.take 1⟩
  calls := r.calls
  freed := r.freed ++ r.file.first ++ (r.file.lists.drop 1).flatMap ListNode.held
  cut := some r.calls

/-- The second result is the block that a write stores into. A write of bytes has no result where no block
has been found. -/
def exec (fuel : Nat) (r : BlockRun) : BlockCall → Option (BlockRun × Option Nat)
  | .initrdOpen flags =>
      if flags &&& oCreat ≠ 0 ∧ flags &&& oExcl ≠ 0 then some (r, none)
      else if flags &&& oTrunc ≠ 0 then some (r.truncate, none)
      else some (r, none)
  | .initrdWrite flags offset size =>
      let offset := if flags &&& oAppend ≠ 0 then r.file.blockSize else offset
      if 2 ^ 31 ≤ offset then none
      else
        let start := offset % maxDataentries
        let size := FileNode.writeSize offset size
        let top := Word.add offset size
        (walkLists answers fuel r.file.lists (offset / maxDataentries) r.calls).bind
          fun (lists, calls, data) =>
            if size ≠ 0 ∧ (data = none ∨ maxDataentries < start + size) then none
            else
              some ({ r with
                file := ⟨if r.file.blockSize < top then top else r.file.blockSize, lists⟩
                calls := calls }, data)

end Source

/-- No pointer of the file leads to a block that has been given to `kfree`, and no block has been given
to it twice. -/
structure Sound (r : BlockRun) : Prop where
  live : ∀ b ∈ r.file.held, b ∉ r.freed
  once : r.freed.Nodup

variable (answers : Nat → Bool) (fuel : Nat)

/-- The file is sound after every call, and what is written after it has been cut off goes to a block
that is younger. -/
def AllSound : BlockRun → List BlockCall → Prop
  | r, [] => r.Sound
  | r, call :: rest =>
      r.Sound ∧ ∀ r' data, r.exec answers fuel call = some (r', data) →
        (∀ b ∈ data, ∀ cut ∈ r.cut, cut ≤ b) ∧ AllSound r' rest

/-- The open call cuts the file off. -/
def Cuts (flags : BitVec 32) : Prop :=
  ¬ (flags &&& oCreat ≠ 0 ∧ flags &&& oExcl ≠ 0) ∧ flags &&& oTrunc ≠ 0

/-- The file is cut off only while there is no block in its first list. -/
def CutsEmpty : BlockRun → List BlockCall → Prop
  | _, [] => True
  | r, call :: rest =>
      (∀ flags, call = .initrdOpen flags → Cuts flags → r.file.first = []) ∧
        ∀ r' data, r.exec answers fuel call = some (r', data) → CutsEmpty r' rest

/-- A file that has just been created. -/
def created (calls : Nat) : BlockRun := ⟨⟨0, [ListNode.zero none]⟩, calls, [], none⟩

/-- What the file holds are its own blocks. After it has been cut off, they are younger. -/
structure Keeps (r : BlockRun) : Prop where
  owned : Owned r.file.held r.freed r.calls
  young : ∀ cut ∈ r.cut, cut ≤ r.calls ∧ ∀ b ∈ r.file.held, cut ≤ b
  head : ∀ list ∈ r.file.lists.head?, list.address = none

variable {answers fuel}
variable {r r' : BlockRun} {slot data : Option Nat} {slots slots' : List (Option Nat)}
variable {lists lists' behind : List ListNode} {list : ListNode} {togo togo' calls calls' : Nat}
variable {found : Option (Nat × Nat)}

theorem orKmalloc_grows (h : FileNode.orKmalloc (kmalloc answers) slot calls = (data, calls')) :
    Grows slot.toList calls data.toList calls' := by
  cases slot with
  | some block =>
      cases h
      exact Grows.refl _ le_rfl
  | none =>
      rw [FileNode.orKmalloc, kmalloc] at h
      cases h
      split
      · exact Grows.one calls
      · exact Grows.refl _ (Nat.le_succ calls)

/-- The inner loop keeps the blocks and adds new ones. What it finds is one of them. -/
theorem walkSlots_grows
    (h : FileNode.walkSlots (kmalloc answers) slots togo calls = (slots', togo', calls', found)) :
    Grows (slots.flatMap Option.toList) calls (slots'.flatMap Option.toList) calls' ∧
      ∀ x ∈ found, x.2 ∈ slots'.flatMap Option.toList := by
  induction slots generalizing togo calls slots' togo' calls' found with
  | nil =>
      cases h
      exact ⟨Grows.refl _ le_rfl, by simp⟩
  | cons slot slots ih =>
      obtain ⟨block, next, hSlot⟩ : ∃ block next,
        FileNode.orKmalloc (kmalloc answers) slot calls = (block, next) := ⟨_, _, rfl⟩
      have hFirst := orKmalloc_grows hSlot
      by_cases hOn : togo ≠ 0 ∨ block = none
      · obtain ⟨rest, togo'', calls'', found', hWalk⟩ : ∃ rest togo'' calls'' found',
          FileNode.walkSlots (kmalloc answers) slots (togo - 1) next = (rest, togo'', calls'', found') :=
          ⟨_, _, _, _, rfl⟩
        obtain ⟨hRest, hFound⟩ := ih hWalk
        cases (FileNode.walkSlots_on hSlot hOn hWalk).symm.trans h
        rw [List.flatMap_cons, List.flatMap_cons]
        refine ⟨hFirst.append hRest, fun x hx => List.mem_append_right _ ?_⟩
        obtain ⟨y, hy, rfl⟩ := Option.map_eq_some_iff.mp hx
        exact hFound y hy
      · obtain ⟨rfl, hBlock⟩ := not_or.mp hOn |>.imp not_not.mp id
        obtain ⟨data, rfl⟩ := Option.ne_none_iff_exists'.mp hBlock
        cases (FileNode.walkSlots_here hSlot).symm.trans h
        rw [List.flatMap_cons, List.flatMap_cons]
        refine ⟨hFirst.append (Grows.refl _ le_rfl), fun x hx => ?_⟩
        obtain rfl := Option.some.inj hx
        exact List.mem_append_left _ (List.mem_singleton_self _)

theorem orNewList_grows (h : orNewList answers behind calls = (lists, calls')) :
    Grows (behind.flatMap ListNode.held) calls (lists.flatMap ListNode.held) calls' := by
  cases behind with
  | cons list behind =>
      cases h
      exact Grows.refl _ le_rfl
  | nil =>
      rw [orNewList, kmalloc] at h
      cases h
      split
      · have hNew : ((some calls).toList.map fun address => ListNode.zero (some address)).flatMap
            ListNode.held = [calls] := rfl
        rw [hNew]
        exact Grows.one calls
      · exact Grows.refl _ (Nat.le_succ calls)

/-- A write keeps the blocks of the file and adds new ones. It stores into one of them. -/
theorem walkLists_grows (h : walkLists answers fuel lists togo calls = some (lists', calls', data)) :
    Grows (lists.flatMap ListNode.held) calls (lists'.flatMap ListNode.held) calls' ∧
      ∀ b ∈ data, b ∈ lists'.flatMap ListNode.held := by
  induction fuel generalizing lists togo calls lists' calls' data with
  | zero => cases h
  | succ fuel ih =>
      cases lists with
      | nil =>
          cases h
          exact ⟨Grows.refl _ le_rfl, by simp⟩
      | cons blist behind =>
          rw [walkLists] at h
          obtain ⟨slots, togo', next, found, hSlots⟩ : ∃ slots togo' next found,
            FileNode.walkSlots (kmalloc answers) blist.data togo calls = (slots, togo', next, found) :=
            ⟨_, _, _, _, rfl⟩
          obtain ⟨behind', next', hNew⟩ : ∃ behind' next', orNewList answers behind next =
            (behind', next') := ⟨_, _, rfl⟩
          obtain ⟨hData, hFound⟩ := walkSlots_grows hSlots
          have hList : Grows blist.held calls (ListNode.held ⟨blist.address, slots⟩) next :=
            hData.append (Grows.refl _ le_rfl)
          rw [hSlots] at h
          dsimp only at h
          rw [hNew] at h
          cases found with
          | some block =>
              cases h
              rw [List.flatMap_cons, List.flatMap_cons]
              refine ⟨hList.append (orNewList_grows hNew), fun b hb => ?_⟩
              obtain rfl := Option.some.inj hb
              exact List.mem_append_left _ (List.mem_append_left _ (hFound _ rfl))
          | none =>
              obtain ⟨⟨rest, calls'', data'⟩, hRest, hEq⟩ := Option.map_eq_some_iff.mp h
              cases hEq
              obtain ⟨hGrows, hMem⟩ := ih hRest
              rw [List.flatMap_cons, List.flatMap_cons]
              exact ⟨hList.append ((orNewList_grows hNew).trans hGrows),
                fun b hb => List.mem_append_right _ (hMem b hb)⟩

theorem walkLists_head (h : walkLists answers fuel lists togo calls = some (lists', calls', data)) :
    lists'.head?.map ListNode.address = lists.head?.map ListNode.address := by
  cases fuel with
  | zero => cases h
  | succ fuel =>
      cases lists with
      | nil =>
          cases h
          rfl
      | cons blist behind =>
          rw [walkLists] at h
          dsimp only at h
          split at h
          · cases h
            rfl
          · obtain ⟨_, _, hEq⟩ := Option.map_eq_some_iff.mp h
            cases hEq
            rfl

theorem Keeps.sound (h : Keeps r) : r.Sound :=
  ⟨fun _ hb => h.owned.not_freed hb, h.owned.freed_nodup⟩

/-- The first list is no block itself. -/
theorem Keeps.first_eq (h : Keeps r) : (r.file.lists.take 1).flatMap ListNode.held = r.file.first := by
  rw [FileBlocks.first]
  cases hLists : r.file.lists with
  | nil => rfl
  | cons list behind =>
      have hNone := h.head list (by rw [hLists]; rfl)
      rw [List.take_succ_cons, List.take_zero, List.flatMap_singleton, List.flatMap_singleton, ListNode.held,
        hNone, Option.toList_none, List.append_nil]

theorem Keeps.truncate (h : Keeps r) (hEmpty : r.file.first = []) : Keeps r.truncate := by
  have hFirst := h.first_eq.trans hEmpty
  have hHeld : r.truncate.file.held = [] := hFirst
  have hFreed : r.truncate.freed = r.freed ++ r.file.held := by
    rw [BlockRun.truncate, hEmpty, List.append_nil, FileBlocks.held, ← List.take_append_drop 1 r.file.lists,
      List.flatMap_append, hFirst, List.nil_append, List.take_append_drop]
  refine ⟨?_, ?_, ?_⟩
  · rw [hHeld, hFreed]
    exact h.owned.free
  · intro cut hCut
    obtain rfl : r.calls = cut := Option.some.inj hCut
    refine ⟨le_rfl, ?_⟩
    rw [hHeld]
    simp
  · intro list hList
    refine h.head list ?_
    have hHead : (r.file.lists.take 1).head? = some list := hList
    rwa [List.head?_take, if_neg Nat.one_ne_zero] at hHead

/-- Cutting off leaves the pointers to the blocks of the first list, which it frees. -/
theorem not_sound_truncate (h : r.file.first ≠ []) : ¬ r.truncate.Sound := by
  obtain ⟨b, hb⟩ := List.exists_mem_of_ne_nil _ h
  intro hSound
  refine hSound.live b ?_ (List.mem_append_left _ (List.mem_append_right _ hb))
  obtain ⟨list, hList, hData⟩ := List.mem_flatMap.mp hb
  exact List.mem_flatMap.mpr ⟨list, hList, List.mem_append_left _ hData⟩

theorem Keeps.initrdWrite {flags : BitVec 32} {offset size : Nat} (h : Keeps r)
    (hExec : r.exec answers fuel (.initrdWrite flags offset size) = some (r', data)) :
    Keeps r' ∧ ∀ b ∈ data, ∀ cut ∈ r.cut, cut ≤ b := by
  rw [BlockRun.exec] at hExec
  dsimp only at hExec
  generalize (if flags &&& oAppend ≠ 0 then r.file.blockSize else offset) = start at hExec
  split at hExec
  · cases hExec
  · obtain ⟨⟨lists, calls, block⟩, hWalk, hEq⟩ := Option.bind_eq_some_iff.mp hExec
    dsimp only at hEq
    split at hEq
    · cases hEq
    · cases hEq
      obtain ⟨hGrows, hMem⟩ := walkLists_grows hWalk
      have hYoung : ∀ cut ∈ r.cut, ∀ b ∈ lists.flatMap ListNode.held, cut ≤ b := by
        intro cut hCut b hb
        rcases hGrows.mem hb with hOld | hNew
        · exact (h.young cut hCut).2 b hOld
        · exact (h.young cut hCut).1.trans hNew
      refine ⟨⟨h.owned.grow hGrows, fun cut hCut => ⟨(h.young cut hCut).1.trans hGrows.le, hYoung cut hCut⟩,
        fun list hList => ?_⟩, fun b hb cut hCut => ?_⟩
      · have hHead := walkLists_head hWalk
        rw [show lists.head? = some list from hList, Option.map_some, eq_comm, Option.map_eq_some_iff] at hHead
        obtain ⟨list', hList', hSame⟩ := hHead
        rw [← hSame]
        exact h.head list' hList'
      · exact hYoung cut hCut b (hMem b hb)

theorem exec_cuts {flags : BitVec 32} (h : Cuts flags) :
    r.exec answers fuel (.initrdOpen flags) = some (r.truncate, none) := by
  rw [exec, if_neg h.1, if_pos h.2]

theorem exec_not_cuts {flags : BitVec 32} (h : ¬ Cuts flags) :
    r.exec answers fuel (.initrdOpen flags) = some (r, none) := by
  rw [exec]
  split
  · rfl
  next hExists =>
    rw [if_neg fun hTrunc => h ⟨hExists, hTrunc⟩]

/-- A call that does not cut off a file with a block in its first list. -/
theorem Keeps.exec {call : BlockCall} (h : Keeps r)
    (hEmpty : ∀ flags, call = .initrdOpen flags → Cuts flags → r.file.first = [])
    (hExec : r.exec answers fuel call = some (r', data)) :
    Keeps r' ∧ ∀ b ∈ data, ∀ cut ∈ r.cut, cut ≤ b := by
  cases call with
  | initrdWrite flags offset size => exact h.initrdWrite hExec
  | initrdOpen flags =>
      by_cases hCuts : Cuts flags
      · cases (exec_cuts hCuts).symm.trans hExec
        exact ⟨h.truncate (hEmpty flags rfl hCuts), by simp⟩
      · cases (exec_not_cuts hCuts).symm.trans hExec
        exact ⟨h, by simp⟩

theorem AllSound.sound {rest : List BlockCall} (h : AllSound answers fuel r rest) : r.Sound := by
  cases rest with
  | nil => exact h
  | cons call rest => exact h.1

theorem Keeps.stays_iff (h : Keeps r) (run : List BlockCall) :
    AllSound answers fuel r run ↔ CutsEmpty answers fuel r run := by
  induction run generalizing r with
  | nil => exact iff_of_true h.sound trivial
  | cons call rest ih =>
      rw [AllSound, CutsEmpty, and_iff_right h.sound]
      by_cases hEmpty : ∀ flags, call = .initrdOpen flags → Cuts flags → r.file.first = []
      · rw [and_iff_right hEmpty]
        refine forall_congr' fun r' => forall_congr' fun data => forall_congr' fun hExec => ?_
        obtain ⟨hKeeps, hYoung⟩ := h.exec hEmpty hExec
        rw [and_iff_right hYoung, ih hKeeps]
      · refine iff_of_false (fun hAll => ?_) (fun hCuts => hEmpty hCuts.1)
        push Not at hEmpty
        obtain ⟨flags, rfl, hCuts, hFirst⟩ := hEmpty
        exact not_sound_truncate hFirst (hAll _ _ (exec_cuts hCuts)).2.sound

theorem created_keeps (calls : Nat) : Keeps (created calls) := by
  have hHeld : (created calls).file.held = [] := rfl
  refine ⟨⟨?_, ?_⟩, fun cut hCut => absurd hCut (by simp [created]), fun list hList => ?_⟩
  · rw [hHeld]
    exact List.nodup_nil
  · rw [hHeld]
    simp [created]
  · obtain rfl : ListNode.zero none = list := Option.some.inj hList
    rfl

/-- The memory of a new file stays sound over a run exactly if the file is not cut off while there is a
block in its first list. -/
theorem allSound_iff (answers : Nat → Bool) (fuel calls : Nat) (run : List BlockCall) :
    AllSound answers fuel (created calls) run ↔ CutsEmpty answers fuel (created calls) run :=
  (created_keeps calls).stays_iff run

/-- One byte is written, and the file is cut off. -/
theorem not_allSound : ¬ ∀ (answers : Nat → Bool) (fuel calls : Nat) (run : List BlockCall),
    AllSound answers fuel (created calls) run := by
  intro hAll
  have hRun := hAll (fun _ => true) 1 0 [.initrdWrite 0 0 1, .initrdOpen oTrunc]
  obtain ⟨r, hWrite⟩ : ∃ r, (created 0).exec (fun _ => true) 1 (.initrdWrite 0 0 1) = some (r, some 0) :=
    ⟨_, rfl⟩
  refine not_sound_truncate ?_ ((hRun.2 _ _ hWrite).2.2 _ _ rfl).2
  cases hWrite
  decide

end BlockRun
end ArtOS
