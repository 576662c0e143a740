import ArtOS.Config
import ArtOS.Library.FirstPlace
import ArtOS.Libc.Strings

/-! A directory of the initial ramdisk: the chain of its block lists, with blocks of entries. An entry
without a node is free. -/
namespace ArtOS

open CString FirstPlace

abbrev maxFilename : Nat := 128
abbrev maxDatablocks : Nat := 12
abbrev maxDirentries : Nat := 32

abbrev oCreat : BitVec 32 := 0x0200

structure Dirent where
  name : Nat → BitVec 8
  vfsNode : Option Nat

abbrev DirBlock : Type := List Dirent

/-- The array `data` of a `block_list_t`. -/
abbrev BlockList : Type := List (Option DirBlock)

/-- The block list of the node, and those that hang on it. -/
structure Directory where
  lists : List BlockList

/-- What `memset` leaves. -/
def Dirent.zero : Dirent := ⟨fun _ => 0, none⟩
def BlockList.zero : BlockList := List.replicate maxDatablocks none

def Dirent.Used (e : Dirent) : Bool := e.vfsNode.isSome

/-- The name of an entry. -/
def Dirent.Named (e : Dirent) (s : List (BitVec 8)) : Prop := Holds e.name 0 s ∧ s.length < maxFilename

namespace Directory

/-- The entries in the order of the loops over lists, blocks and entries. -/
def entries (d : Directory) : List Dirent :=
  d.lists.flatMap fun list => list.flatMap fun block => block.getD []

def initrdFinddir (mem : Nat → BitVec 8) (name : Nat) (d : Directory) : Option Nat :=
  (d.entries.find? fun e => strncmp e.name mem 0 name maxFilename = 0).bind Dirent.vfsNode

/-- A free entry gets a node and its name. -/
def fillEntry (mem : Nat → BitVec 8) (name new : Nat) (e : Dirent) : Option Dirent :=
  if e.vfsNode = none then
    some { name := strncpy mem e.name 0 name maxFilename, vfsNode := some new }
  else none

def fillBlock (mem : Nat → BitVec 8) (name new : Nat) (block : Option DirBlock) :
    Option (Option DirBlock) :=
  block.bind fun block => (modifyFirst (fillEntry mem name new) block).map some

/-- The loop that looks for a free entry. Without one it hangs new block lists on the directory, with
no blocks in them, until `kmalloc` fails: `grown` of them. -/
def createEntry (mem : Nat → BitVec 8) (name new grown : Nat) (d : Directory) : Directory × Bool :=
  match modifyFirst (modifyFirst (fillBlock mem name new)) d.lists with
  | some lists => (⟨lists⟩, true)
  | none => (⟨d.lists ++ List.replicate grown BlockList.zero⟩, false)

/-- `initrd_open` on a directory; `new` is the answer of `kmalloc`. The results are `file->node`, if it
is another one than before, and the returned value. -/
def initrdOpen (mem : Nat → BitVec 8) (name : Nat) (flags : BitVec 32) (new : Option Nat) (grown : Nat)
    (d : Directory) : Directory × Option Nat × Int :=
  if mem name = 0 then (d, none, 0)
  else if flags &&& oCreat = 0 then (d, none, -enoent)
  else
    match new with
    | none => (d, none, -einval)
    | some new => ((d.createEntry mem name new grown).1, some new, 0)

/-- `initrd_mkdir` on a directory; `block` is the answer of the second `kmalloc`. -/
def initrdMkdir (mem : Nat → BitVec 8) (name : Nat) (new block : Option Nat) (grown : Nat)
    (d : Directory) : Directory × Option Nat :=
  if (d.initrdFinddir mem name).isSome then (d, none)
  else
    match new, block with
    | some new, some _ =>
        let (d, created) := d.createEntry mem name new grown
        (d, if created then some new else none)
    | _, _ => (d, none)

/-- A directory as `initrd_mkdir` builds it. -/
def fresh (node parent : Nat) : Directory where
  lists := [some (⟨strncpy (fun i => [0x2E].getD i 0) (fun _ => 0) 0 0 maxFilename, some node⟩ ::
    ⟨strncpy (fun i => [0x2E, 0x2E].getD i 0) (fun _ => 0) 0 0 maxFilename, some parent⟩ ::
      List.replicate (maxDirentries - 2) Dirent.zero) :: List.replicate (maxDatablocks - 1) none]

variable {d d' : Directory} {mem : Nat → BitVec 8} {name new grown : Nat} {s : List (BitVec 8)}
variable {e : Dirent}

/-- Every entry has a name; a free one has the empty name. -/
def Sound (d : Directory) : Prop :=
  ∀ e ∈ d.entries, (∃ s, e.Named s) ∧ (e.vfsNode = none → e.Named [])

/-- The used entries. -/
def used (d : Directory) : List Dirent := d.entries.filter Dirent.Used

/-- A used entry has this name. -/
def Uses (d : Directory) (s : List (BitVec 8)) : Prop := ∃ e ∈ d.used, e.Named s

/-- No two used entries have the same name. -/
def Unique (d : Directory) : Prop := d.used.Pairwise fun e e' => ¬ ∃ s, e.Named s ∧ e'.Named s

theorem strncmp_named (hName : Holds mem name s) {s' : List (BitVec 8)} (h : e.Named s') :
    strncmp e.name mem 0 name maxFilename = 0 ↔ s' = s :=
  strncmp_eq_zero h.1 hName h.2

/-- The search answers with a node exactly when a used entry has the name. -/
theorem initrdFinddir_isSome (h : d.Sound) (hName : Holds mem name s) (hs : s ≠ []) :
    (d.initrdFinddir mem name).isSome ↔ d.Uses s := by
  rw [initrdFinddir]
  cases hFind : d.entries.find? fun e => strncmp e.name mem 0 name maxFilename = 0 with
  | none =>
      refine iff_of_false (by simp) ?_
      rintro ⟨e, he, hNamed⟩
      have hNot := List.find?_eq_none.mp hFind e (List.mem_filter.mp he).1
      rw [decide_eq_true_eq, strncmp_named hName hNamed] at hNot
      exact hNot rfl
  | some e =>
      have he := List.mem_of_find?_eq_some hFind
      have hMatch := List.find?_some hFind
      obtain ⟨⟨s', hNamed⟩, hFree⟩ := h e he
      rw [decide_eq_true_eq, strncmp_named hName hNamed] at hMatch
      obtain rfl := hMatch
      have hUsed : e.vfsNode.isSome := by
        cases hNode : e.vfsNode with
        | some node => rfl
        | none => exact absurd (hNamed.1.unique (hFree hNode).1) hs
      exact iff_of_true hUsed ⟨e, List.mem_filter.mpr ⟨he, hUsed⟩, hNamed⟩

theorem fillEntry_eq_none : fillEntry mem name new e = none ↔ ¬ e.vfsNode = none := by
  rw [fillEntry]
  split
  · simp [*]
  · simp [*]

/-- A block without a free entry. -/
theorem fillBlock_none {block : Option DirBlock} (h : fillBlock mem name new block = none) :
    ∀ e ∈ block.getD [], ¬ e.vfsNode = none := by
  cases block with
  | none => simp
  | some block =>
      intro e he
      exact fillEntry_eq_none.mp (modifyFirst_eq_none.mp (Option.map_eq_none_iff.mp h) e he)

theorem fillBlock_filledFirst (hName : Holds mem name s) (hs : s.length < maxFilename)
    {block block' : Option DirBlock} (h : fillBlock mem name new block = some block') :
    FilledFirst (fun e => e.vfsNode = none) (fun e => e.vfsNode = some new ∧ e.Named s)
      (block.getD []) (block'.getD []) := by
  obtain ⟨b, rfl, hFill⟩ := Option.bind_eq_some_iff.mp h
  obtain ⟨b', hSearch, rfl⟩ := Option.map_eq_some_iff.mp hFill
  obtain ⟨left, e, e', right, rfl, rfl, hEntry, hLeft⟩ := modifyFirst_eq_some hSearch
  rw [fillEntry] at hEntry
  by_cases hFree : e.vfsNode = none
  · rw [if_pos hFree] at hEntry
    obtain rfl := Option.some.inj hEntry
    exact ⟨left, e, _, right, rfl, rfl, fun x hx => fillEntry_eq_none.mp (hLeft x hx), hFree, rfl,
      holds_strncpy hName hs, hs⟩
  · rw [if_neg hFree] at hEntry
    exact absurd hEntry (by simp)

/-- The search for a free entry has found the first one, which has a node and the name now. -/
theorem createEntry_filledFirst (hName : Holds mem name s) (hs : s.length < maxFilename)
    (h : (d.createEntry mem name new grown).2 = true) :
    FilledFirst (fun e => e.vfsNode = none) (fun e => e.vfsNode = some new ∧ e.Named s) d.entries
      (d.createEntry mem name new grown).1.entries := by
  rw [createEntry] at h ⊢
  cases hLists : modifyFirst (modifyFirst (fillBlock mem name new)) d.lists with
  | none => simp [hLists] at h
  | some lists =>
      apply modifyFirst_filledFirst _ _ hLists
      · intro list hList
        exact modifyFirst_none_view (fun _ => fillBlock_none) hList
      · intro list list' hList
        apply modifyFirst_filledFirst (fun _ => fillBlock_none) _ hList
        intro block block' hBlock
        exact fillBlock_filledFirst hName hs hBlock

/-- Without a free entry the entries stay. -/
theorem createEntry_full (h : (d.createEntry mem name new grown).2 = false) :
    (d.createEntry mem name new grown).1.entries = d.entries := by
  rw [createEntry] at h ⊢
  cases hLists : modifyFirst (modifyFirst (fillBlock mem name new)) d.lists with
  | none =>
      dsimp only
      rw [entries, List.flatMap_append]
      have hNone : (List.replicate grown BlockList.zero).flatMap
          (fun list => list.flatMap fun block => block.getD []) = [] := by
        rw [List.flatMap_eq_nil_iff]
        intro list hList
        rw [(List.mem_replicate.mp hList).2, List.flatMap_eq_nil_iff]
        intro block hBlock
        rw [(List.mem_replicate.mp hBlock).2]
        rfl
      rw [hNone, List.append_nil]
      rfl
  | some lists => simp [hLists] at h

/-- What is used behind an insertion. -/
theorem used_filled {new : Dirent → Prop} (hNew : ∀ e, new e → e.Used)
    (h : Filled (fun e => e.vfsNode = none) new d.entries d'.entries) :
    ∃ e, new e ∧ d'.used.Perm (e :: d.used) := by
  obtain ⟨left, old, e, right, hBefore, hAfter, hFree, hIs⟩ := h
  refine ⟨e, hIs, ?_⟩
  have hOld : ¬ old.Used = true := by simp [Dirent.Used, hFree]
  rw [used, used, hBefore, hAfter, List.filter_append, List.filter_append,
    List.filter_cons_of_pos (hNew e hIs), List.filter_cons_of_neg hOld]
  exact List.perm_middle

/-- A new entry keeps the names apart exactly when its name is not in use. -/
theorem unique_perm (hPerm : d'.used.Perm (e :: d.used)) (hNamed : e.Named s) (h : d.Unique) :
    d'.Unique ↔ ¬ d.Uses s := by
  have hSymm : ∀ {e e' : Dirent}, (¬ ∃ s, e.Named s ∧ e'.Named s) → ¬ ∃ s, e'.Named s ∧ e.Named s :=
    fun hNot ⟨s, hs⟩ => hNot ⟨s, hs.symm⟩
  rw [Unique] at h ⊢
  rw [hPerm.pairwise_iff hSymm, List.pairwise_cons, and_iff_left h]
  constructor
  · rintro hNot ⟨f, hf, hName⟩
    exact hNot f hf ⟨s, hNamed, hName⟩
  · rintro hNot f hf ⟨s', hs', hf'⟩
    exact hNot ⟨f, hf, hNamed.1.unique hs'.1 ▸ hf'⟩

theorem Sound.filled {new : Dirent → Prop}
    (hNew : ∀ e, new e → (∃ s, e.Named s) ∧ (e.vfsNode = none → e.Named []))
    (hFilled : Filled (fun e => e.vfsNode = none) new d.entries d'.entries) (h : d.Sound) : d'.Sound := by
  obtain ⟨left, old, e, right, hBefore, hAfter, _, hIs⟩ := hFilled
  intro f hf
  rw [hAfter, List.mem_append, List.mem_cons] at hf
  rcases hf with hf | rfl | hf
  · exact h f (hBefore ▸ List.mem_append_left _ hf)
  · exact hNew f hIs
  · exact h f (hBefore ▸ List.mem_append_right _ (List.mem_cons_of_mem _ hf))

/-- Creating an entry: the names stay apart exactly when its name is not in use, or there is no room. -/
theorem createEntry_unique (hName : Holds mem name s) (hs : s.length < maxFilename) (h : d.Sound)
    (hUnique : d.Unique) :
    (d.createEntry mem name new grown).1.Sound ∧
      ((d.createEntry mem name new grown).1.Unique ↔
        ¬ ((d.createEntry mem name new grown).2 = true ∧ d.Uses s)) := by
  cases hCreated : (d.createEntry mem name new grown).2 with
  | false =>
      have hSame := createEntry_full hCreated
      refine ⟨?_, ?_⟩
      · rw [Sound, hSame]
        exact h
      · rw [Unique, used, hSame]
        exact iff_of_true hUnique (by simp)
  | true =>
      have hFilled := (createEntry_filledFirst hName hs hCreated).filled
      obtain ⟨e, ⟨_, hNamed⟩, hPerm⟩ := used_filled (fun e h => by rw [Dirent.Used, h.1]; rfl) hFilled
      refine ⟨h.filled ?_ hFilled, ?_⟩
      · rintro e ⟨hNode, hNamed⟩
        exact ⟨⟨s, hNamed⟩, fun hNone => absurd (hNode.symm.trans hNone) (by simp)⟩
      · rw [unique_perm hPerm hNamed hUnique]
        simp

theorem fresh_entries (node parent : Nat) : (fresh node parent).entries =
    ⟨strncpy (fun i => [0x2E].getD i 0) (fun _ => 0) 0 0 maxFilename, some node⟩ ::
      ⟨strncpy (fun i => [0x2E, 0x2E].getD i 0) (fun _ => 0) 0 0 maxFilename, some parent⟩ ::
        List.replicate (maxDirentries - 2) Dirent.zero := by
  simp [fresh, entries]

/-- A name that `strncpy` has written into a zeroed entry. -/
theorem named_strncpy {node : Option Nat} (hs : ∀ c ∈ s, c ≠ 0) (h : s.length < maxFilename) :
    Dirent.Named ⟨strncpy (fun i => s.getD i 0) (fun _ => 0) 0 0 maxFilename, node⟩ s :=
  ⟨holds_strncpy (holds_getD hs) h, h⟩

theorem fresh_sound (node parent : Nat) : (fresh node parent).Sound := by
  intro e he
  rw [fresh_entries, List.mem_cons, List.mem_cons, List.mem_replicate] at he
  rcases he with rfl | rfl | ⟨_, rfl⟩
  · exact ⟨⟨_, named_strncpy (by simp) (by simp [maxFilename])⟩, fun h => absurd h (by simp)⟩
  · exact ⟨⟨_, named_strncpy (by simp) (by simp [maxFilename])⟩, fun h => absurd h (by simp)⟩
  · have hNamed : Dirent.zero.Named [] := ⟨rfl, by simp⟩
    exact ⟨⟨[], hNamed⟩, fun _ => hNamed⟩

theorem fresh_unique (node parent : Nat) : (fresh node parent).Unique := by
  have hUsed : (fresh node parent).used =
      [⟨strncpy (fun i => [0x2E].getD i 0) (fun _ => 0) 0 0 maxFilename, some node⟩,
        ⟨strncpy (fun i => [0x2E, 0x2E].getD i 0) (fun _ => 0) 0 0 maxFilename, some parent⟩] := by
    have hFree : (List.replicate (maxDirentries - 2) Dirent.zero).filter Dirent.Used = [] := by
      rw [List.filter_eq_nil_iff]
      intro e he
      rw [(List.mem_replicate.mp he).2]
      simp [Dirent.Used, Dirent.zero]
    rw [used, fresh_entries, List.filter_cons_of_pos rfl, List.filter_cons_of_pos rfl, hFree]
  have hDot : Dirent.Named ⟨strncpy (fun i => [0x2E].getD i 0) (fun _ => 0) 0 0 maxFilename, some node⟩
      [0x2E] := named_strncpy (by simp) (by simp [maxFilename])
  have hDots : Dirent.Named
      ⟨strncpy (fun i => [0x2E, 0x2E].getD i 0) (fun _ => 0) 0 0 maxFilename, some parent⟩
      [0x2E, 0x2E] := named_strncpy (by simp) (by simp [maxFilename])
  rw [Unique, hUsed, List.pairwise_pair]
  intro hBoth
  obtain ⟨s, hs, hs'⟩ := hBoth
  exact absurd ((hDot.1.unique hs.1).trans (hs'.1.unique hDots.1)) (by simp)

end Directory
end ArtOS
