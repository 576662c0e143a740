import ArtOS.FileSystem.Directory
import Mathlib.Data.List.Basic

/-! Listing a directory. Both functions go through the entries anew with every call, and count the used
ones until they come to an index. An entry goes by its place among all entries of the directory. -/
namespace ArtOS.Directory

/-- A loop has returned an entry, or it goes on with these values of `count` and of the place. -/
inductive Scan where
  | found (place : Nat)
  | on (count place : Nat)

def scanEntries (index : Nat) : List Dirent → Nat → Nat → Scan
  | [], count, place => .on count place
  | e :: es, count, place =>
      if e.Used then
        if index < count + 1 then .found place else scanEntries index es (count + 1) (place + 1)
      else scanEntries index es count (place + 1)

def scanBlocks (index : Nat) : BlockList → Nat → Nat → Scan
  | [], count, place => .on count place
  | dirblock :: blocks, count, place =>
      match scanEntries index (dirblock.getD []) count place with
      | .found place => .found place
      | .on count place => scanBlocks index blocks count place

/-- The loop along the chain. It sets `count` to 0 in every list. -/
def scanLists (index : Nat) : List BlockList → Nat → Option Nat
  | [], _ => none
  | blist :: lists, place =>
      match scanBlocks index blist 0 place with
      | .found place => some place
      | .on _ place => scanLists index lists place

def initrdReaddir (d : Directory) (index : Nat) : Option Nat := scanLists index d.lists 0

/-- The loop that copies a name: one character, and then those up to the end. -/
def copyName (name : Nat → BitVec 8) : Nat → Nat → Option (List (BitVec 8))
  | 0, _ => none
  | fuel + 1, k =>
      if name (k + 1) = 0 then some [name k] else (copyName name fuel (k + 1)).map (name k :: ·)

/-- The results are the entry and its name, and `file->offset`. A list has at most
`MAX_DATABLOCKS * MAX_DIRENTRIES` entries, and the offset does not go beyond that. -/
def initrdEmuReaddir (fuel offset : Nat) (d : Directory) :
    Option (Except Int (Nat × List (BitVec 8)) × Nat) :=
  match scanLists offset d.lists 0 with
  | none => some (.error (-einval), offset)
  | some place =>
      (copyName (d.entries.getD place Dirent.zero).name fuel 0).map fun bytes =>
        (.ok (place, bytes), offset + 1)

/-- So many calls. -/
def emuCalls (fuel : Nat) (d : Directory) : Nat → Nat → Option (List (Except Int (Nat × List (BitVec 8))))
  | 0, _ => some []
  | n + 1, offset =>
      (d.initrdEmuReaddir fuel offset).bind fun (answer, offset) =>
        (emuCalls fuel d n offset).map (answer :: ·)

/-- The used entries in the order of storage. -/
def places (d : Directory) : List Nat := d.entries.findIdxs Dirent.Used

/-- The entry with this index, or the end. -/
def visit (d : Directory) (index : Nat) : Except Int Nat :=
  match d.places[index]? with
  | some place => .ok place
  | none => .error (-einval)

/-- The copy loop comes to an end in all names. -/
def NamesEnd (d : Directory) (fuel : Nat) : Prop :=
  ∀ e ∈ d.used, ∃ k, 0 < k ∧ k ≤ fuel ∧ e.name k = 0

/-- Both functions come to each used entry once, in the order of storage, and then to the end. -/
structure Enumerates (d : Directory) : Prop where
  readdir : ∀ index, d.initrdReaddir index = d.places[index]?
  emu : ∀ fuel, d.NamesEnd fuel → ∀ n, ∃ answers, emuCalls fuel d n 0 = some answers ∧
    answers.map (Except.map Prod.fst) = (List.range n).map d.visit

/-- The entries of one list. -/
def entriesOf (list : BlockList) : List Dirent := list.flatMap fun block => block.getD []

def NoneUsed (list : BlockList) : Prop := ∀ e ∈ entriesOf list, e.Used = false

/-- Only one list has used entries. -/
def Single (d : Directory) : Prop := d.lists.Pairwise fun list list' => NoneUsed list ∨ NoneUsed list'

variable {d : Directory} {es es' : List Dirent} {list : BlockList} {lists : List BlockList}
variable {index count place : Nat}

/-- What a scan of these entries comes to. -/
def scanned (index : Nat) (es : List Dirent) (count place : Nat) : Scan :=
  match (es.findIdxs Dirent.Used place)[index - count]? with
  | some place => .found place
  | none => .on (count + es.countP Dirent.Used) (place + es.length)

theorem scanned_found {found : Nat} (h : (es.findIdxs Dirent.Used place)[index - count]? = some found) :
    scanned index es count place = .found found := by
  rw [scanned, h]

theorem scanned_on (h : (es.findIdxs Dirent.Used place)[index - count]? = none) :
    scanned index es count place = .on (count + es.countP Dirent.Used) (place + es.length) := by
  rw [scanned, h]

/-- One scan goes on where another one has ended. -/
theorem scanned_append : scanned index (es ++ es') count place =
    match scanned index es count place with
    | .found place => .found place
    | .on count place => scanned index es' count place := by
  cases hFirst : (es.findIdxs Dirent.Used place)[index - count]? with
  | some found =>
      have hIn := (List.getElem?_eq_some_iff.mp hFirst).1
      rw [scanned_found hFirst]
      apply scanned_found
      rw [List.findIdxs_append, List.getElem?_append_left hIn, hFirst]
  | none =>
      have hBehind := List.getElem?_eq_none_iff.mp hFirst
      have hSame : ((es ++ es').findIdxs Dirent.Used place)[index - count]? =
          (es'.findIdxs Dirent.Used (place + es.length))[index - (count + es.countP Dirent.Used)]? := by
        rw [List.findIdxs_append, List.getElem?_append_right hBehind, List.length_findIdxs, Nat.sub_sub]
      rw [scanned_on hFirst]
      dsimp only
      rw [scanned, scanned, hSame, List.countP_append, List.length_append, Nat.add_assoc, Nat.add_assoc]

theorem scanEntries_eq (h : count ≤ index) :
    scanEntries index es count place = scanned index es count place := by
  induction es generalizing count place with
  | nil => rfl
  | cons e es ih =>
      rw [scanEntries, scanned, List.findIdxs_cons, List.countP_cons, List.length_cons]
      by_cases hUsed : e.Used = true
      · rw [if_pos hUsed, if_pos hUsed, if_pos hUsed]
        by_cases hHere : index < count + 1
        · rw [if_pos hHere, show index - count = 0 by omega]
          rfl
        · rw [if_neg hHere, ih (by omega), scanned, show index - count = index - (count + 1) + 1 by omega,
            List.getElem?_cons_succ, Nat.add_right_comm, Nat.add_assoc place, Nat.add_comm 1]
          rfl
      · rw [if_neg hUsed, if_neg hUsed, if_neg hUsed, ih h, scanned, Nat.add_assoc place,
          Nat.add_comm 1]
        rfl

theorem scanBlocks_eq (h : count ≤ index) :
    scanBlocks index list count place = scanned index (entriesOf list) count place := by
  induction list generalizing count place with
  | nil => rfl
  | cons dirblock blocks ih =>
      rw [scanBlocks, scanEntries_eq h, entriesOf, List.flatMap_cons, scanned_append]
      cases hFirst : ((dirblock.getD []).findIdxs Dirent.Used place)[index - count]? with
      | some found => rw [scanned_found hFirst]
      | none =>
          have hBehind := List.getElem?_eq_none_iff.mp hFirst
          rw [List.length_findIdxs] at hBehind
          rw [scanned_on hFirst]
          exact ih (by omega)

/-- The first list that has so many used entries. -/
theorem scanLists_cons : scanLists index (list :: lists) place =
    ((entriesOf list).findIdxs Dirent.Used place)[index]?.or
      (scanLists index lists (place + (entriesOf list).length)) := by
  rw [scanLists, scanBlocks_eq (Nat.zero_le index)]
  cases hFirst : ((entriesOf list).findIdxs Dirent.Used place)[index]? with
  | some found => rw [scanned_found hFirst, Option.some_or]
  | none => rw [scanned_on hFirst, Option.none_or]

theorem noneUsed_iff : NoneUsed list ↔ (entriesOf list).findIdxs Dirent.Used place = [] :=
  List.findIdxs_eq_nil_iff.symm

/-- The scan does not come to an index that is as great as the number of all used entries. -/
theorem scanLists_end (h : (lists.flatMap entriesOf).countP Dirent.Used ≤ index) :
    scanLists index lists place = none := by
  induction lists generalizing place with
  | nil => rfl
  | cons list lists ih =>
      rw [List.flatMap_cons, List.countP_append] at h
      rw [scanLists_cons, ih (by omega), Option.or_none, List.getElem?_eq_none_iff, List.length_findIdxs]
      omega

/-- With used entries in one list the scan is the whole directory. -/
theorem scanLists_single (h : lists.Pairwise fun list list' => NoneUsed list ∨ NoneUsed list') :
    scanLists index lists place = ((lists.flatMap entriesOf).findIdxs Dirent.Used place)[index]? := by
  induction lists generalizing place with
  | nil => rfl
  | cons list lists ih =>
      obtain ⟨hFirst, hRest⟩ := List.pairwise_cons.mp h
      rw [scanLists_cons, List.flatMap_cons, List.findIdxs_append]
      by_cases hNone : NoneUsed list
      · rw [noneUsed_iff.mp hNone, List.getElem?_nil, Option.none_or, List.nil_append]
        exact ih hRest
      · have hBehind : ∀ e ∈ lists.flatMap entriesOf, e.Used = false := by
          intro e he
          obtain ⟨list', hList', he'⟩ := List.mem_flatMap.mp he
          exact (hFirst list' hList').resolve_left hNone e he'
        rw [List.findIdxs_eq_nil_iff.mpr hBehind, List.append_nil, scanLists_end, Option.or_none]
        rw [List.countP_eq_zero.mpr fun e he => by rw [hBehind e he]; exact Bool.false_ne_true]
        exact Nat.zero_le index

/-- Behind a list with used entries, those of the other lists do not come with their own index. -/
theorem single_of_scanLists
    (h : ∀ index, scanLists index lists place = ((lists.flatMap entriesOf).findIdxs Dirent.Used place)[index]?) :
    lists.Pairwise fun list list' => NoneUsed list ∨ NoneUsed list' := by
  induction lists generalizing place with
  | nil => exact List.Pairwise.nil
  | cons list lists ih =>
      simp only [scanLists_cons, List.flatMap_cons, List.findIdxs_append] at h
      by_cases hNone : NoneUsed list
      · simp only [noneUsed_iff.mp hNone, List.getElem?_nil, Option.none_or, List.nil_append] at h
        exact List.pairwise_cons.mpr ⟨fun _ _ => Or.inl hNone, ih h⟩
      · obtain ⟨first, hFirst⟩ : ∃ first, first = (entriesOf list).findIdxs Dirent.Used place := ⟨_, rfl⟩
        obtain ⟨other, hOther⟩ : ∃ other, other = (lists.flatMap entriesOf).findIdxs Dirent.Used
          (place + (entriesOf list).length) := ⟨_, rfl⟩
        have hPos : 0 < first.length := by
          rw [hFirst]
          exact List.length_pos_iff.mpr fun hNil => hNone (noneUsed_iff.mpr hNil)
        have hNil : other = [] := by
          by_contra hSome
          have hLength := List.length_pos_iff.mpr hSome
          have hLast := h (first.length + (other.length - 1))
          rw [← hFirst, ← hOther, List.getElem?_eq_none_iff.mpr (by omega), Option.none_or, scanLists_end,
            List.getElem?_append_right (by omega), Nat.add_sub_cancel_left, eq_comm,
            List.getElem?_eq_none_iff] at hLast
          · omega
          · have hCount : other.length = (lists.flatMap entriesOf).countP Dirent.Used := by
              rw [hOther, List.length_findIdxs]
            omega
        have hBehind := List.findIdxs_eq_nil_iff.mp (hOther.symm.trans hNil)
        have hAll : ∀ list' ∈ lists, NoneUsed list' := fun list' hList' e he =>
          hBehind e (List.mem_flatMap.mpr ⟨list', hList', he⟩)
        exact List.pairwise_cons.mpr ⟨fun list' hList' => Or.inr (hAll list' hList'),
          List.Pairwise.imp_of_mem (fun _ hb _ => Or.inr (hAll _ hb)) (List.pairwise_of_forall fun _ _ => trivial)⟩

theorem initrdReaddir_iff : (∀ index, d.initrdReaddir index = d.places[index]?) ↔ d.Single :=
  ⟨fun h => single_of_scanLists h, fun h _ => scanLists_single h⟩

theorem copyName_isSome {name : Nat → BitVec 8} {fuel k : Nat}
    (h : ∃ i, 0 < i ∧ i ≤ fuel ∧ name (k + i) = 0) : ∃ bytes, copyName name fuel k = some bytes := by
  induction fuel generalizing k with
  | zero =>
      obtain ⟨i, hPos, hLe, _⟩ := h
      omega
  | succ fuel ih =>
      rw [copyName]
      by_cases hEnd : name (k + 1) = 0
      · exact ⟨_, if_pos hEnd⟩
      · obtain ⟨i, hPos, hLe, hZero⟩ := h
        have hNot : i ≠ 1 := by
          rintro rfl
          exact hEnd hZero
        obtain ⟨bytes, hBytes⟩ := ih (k := k + 1)
          ⟨i - 1, by omega, by omega, by rwa [show k + 1 + (i - 1) = k + i by omega]⟩
        rw [if_neg hEnd, hBytes]
        exact ⟨_, rfl⟩

/-- Behind the last entry there is nothing more. -/
theorem visit_end {offset : Nat} (h : d.places[offset]? = none) (n : Nat) :
    (List.range' offset n).map d.visit = List.replicate n (.error (-einval)) := by
  rw [List.eq_replicate_iff]
  refine ⟨by rw [List.length_map, List.length_range'], fun answer hAnswer => ?_⟩
  obtain ⟨index, hIndex, rfl⟩ := List.mem_map.mp hAnswer
  have hBehind : d.places[index]? = none := by
    rw [List.getElem?_eq_none_iff] at h ⊢
    exact h.trans (List.mem_range'_1.mp hIndex).1
  rw [visit, hBehind]

theorem names_end_places {fuel index place : Nat} (h : d.NamesEnd fuel) (hPlace : d.places[index]? = some place) :
    ∃ i, 0 < i ∧ i ≤ fuel ∧ (d.entries.getD place Dirent.zero).name i = 0 := by
  obtain ⟨hIn, hUsed⟩ := List.mem_findIdxs_iff_exists_getElem_pos.mp (List.mem_of_getElem? hPlace)
  rw [List.getD_eq_getElem _ _ hIn]
  exact h _ (List.mem_filter.mpr ⟨List.getElem_mem hIn, hUsed⟩)

theorem emuCalls_succ {fuel n offset offset' : Nat} {answer : Except Int (Nat × List (BitVec 8))}
    {answers : List (Except Int (Nat × List (BitVec 8)))}
    (hCall : d.initrdEmuReaddir fuel offset = some (answer, offset'))
    (hCalls : emuCalls fuel d n offset' = some answers) :
    emuCalls fuel d (n + 1) offset = some (answer :: answers) := by
  rw [emuCalls, hCall, Option.bind_some]
  dsimp only
  rw [hCalls]
  rfl

/-- Every call of the run comes to the entry with its own number. -/
theorem emuCalls_eq {fuel : Nat} (hReaddir : ∀ index, d.initrdReaddir index = d.places[index]?)
    (hNames : d.NamesEnd fuel) (n offset : Nat) : ∃ answers, emuCalls fuel d n offset = some answers ∧
      answers.map (Except.map Prod.fst) = (List.range' offset n).map d.visit := by
  induction n generalizing offset with
  | zero => exact ⟨[], rfl, rfl⟩
  | succ n ih =>
      have hScan : scanLists offset d.lists 0 = d.places[offset]? := hReaddir offset
      cases hPlace : d.places[offset]? with
      | none =>
          obtain ⟨answers, hCalls, hAnswers⟩ := ih offset
          have hCall : d.initrdEmuReaddir fuel offset = some (.error (-einval), offset) := by
            rw [initrdEmuReaddir, hScan, hPlace]
          refine ⟨_, emuCalls_succ hCall hCalls, ?_⟩
          rw [visit_end hPlace, List.map_cons, hAnswers, visit_end hPlace]
          rfl
      | some place =>
          obtain ⟨answers, hCalls, hAnswers⟩ := ih (offset + 1)
          obtain ⟨i, hPos, hLe, hZero⟩ := names_end_places hNames hPlace
          obtain ⟨bytes, hBytes⟩ := copyName_isSome ⟨i, hPos, hLe, (Nat.zero_add i).symm ▸ hZero⟩
          have hCall : d.initrdEmuReaddir fuel offset = some (.ok (place, bytes), offset + 1) := by
            rw [initrdEmuReaddir, hScan, hPlace]
            dsimp only
            rw [hBytes]
            rfl
          refine ⟨_, emuCalls_succ hCall hCalls, ?_⟩
          have hHere : d.visit offset = .ok place := by rw [visit, hPlace]
          rw [List.map_cons, hAnswers, List.range'_succ, List.map_cons, hHere]
          rfl

/-- Listing a directory is complete exactly if all used entries are in one list of the chain. -/
theorem enumerates_iff (d : Directory) : d.Enumerates ↔ d.Single := by
  constructor
  · intro h
    exact initrdReaddir_iff.mp h.readdir
  · intro h
    have hReaddir := initrdReaddir_iff.mpr h
    refine ⟨hReaddir, fun fuel hNames n => ?_⟩
    rw [List.range_eq_range']
    exact emuCalls_eq hReaddir hNames n 0

/-- Two lists with one used entry each. -/
theorem not_enumerates : ¬ ∀ d : Directory, d.Enumerates := by
  intro hAll
  have hEnd := (hAll ⟨[1, 2].map fun node =>
    some (⟨fun i => [0x61].getD i 0, some node⟩ :: List.replicate (maxDirentries - 1) Dirent.zero) ::
      List.replicate (maxDatablocks - 1) none⟩).readdir 1
  exact absurd hEnd (by decide)

end ArtOS.Directory
