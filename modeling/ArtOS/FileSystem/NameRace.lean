import ArtOS.FileSystem.Insertion
import ArtOS.Library.Transition

/-! Tasks that create entries in one directory. `mkdir_fs` looks for the name and inserts it in one
critical section, `open_fs` in two. -/
namespace ArtOS

open CString

/-- A component of a path: not empty, and shorter than `MAX_FILENAME`. -/
structure FileName where
  chars : List (BitVec 8)
  nonempty : chars ≠ []
  length : chars.length < maxFilename
  nonzero : ∀ c ∈ chars, c ≠ 0

/-- The memory in which the name lies. -/
def FileName.mem (name : FileName) (addr : Nat) : BitVec 8 := name.chars.getD addr 0

theorem FileName.holds (name : FileName) : Holds name.mem 0 name.chars := holds_getD name.nonzero

/-- Where a task stands in `open_fs`: behind the section that did not find the name. -/
inductive OpenPc where
  | idle
  | create (name : FileName) (flags : BitVec 32)

/-- The directory and the tasks. -/
structure NameRun where
  dir : Directory
  pc : Nat → OpenPc

/-- One critical section: the last `finddir_fs` of `open_fs`, its call of `initrd_open` if there was no
such name, or `mkdir_fs`. The answers of `kmalloc` belong to it. -/
inductive NameAct where
  | lookup (name : FileName) (flags : BitVec 32)
  | create (new : Option Nat) (grown : Nat)
  | mkdir (name : FileName) (new block : Option Nat) (grown : Nat)

namespace NameRun

def goto (s : NameRun) (t : Nat) (pc : OpenPc) : NameRun := { s with pc := Function.update s.pc t pc }

/-- A name that is there is opened, which is nothing to this directory. -/
def act (s : NameRun) (t : Nat) (a : NameAct) : Option NameRun :=
  match a, s.pc t with
  | .lookup name flags, .idle =>
      some (if (s.dir.initrdFinddir name.mem 0).isSome then s else s.goto t (.create name flags))
  | .create new grown, .create name flags =>
      some { s.goto t .idle with dir := (s.dir.initrdOpen name.mem 0 flags new grown).1 }
  | .mkdir name new block grown, .idle =>
      some { s with dir := (s.dir.initrdMkdir name.mem 0 new block grown).1 }
  | _, _ => none

/-- The section of `open_fs` that creates the file has a free entry for it, and by now there is one of
that name. -/
def Collides (s : NameRun) (t : Nat) (a : NameAct) : Prop :=
  match a, s.pc t with
  | .create new _, .create name flags => flags &&& oCreat ≠ 0 ∧ new.isSome ∧ Insertion.HasRoom s.dir ∧
      (s.dir.initrdFinddir name.mem 0).isSome
  | _, _ => False

abbrev Step (may : NameRun → Nat → NameAct → Prop) (s s' : NameRun) : Prop :=
  ∃ t a, may s t a ∧ s.act t a = some s'

/-- No task has begun, in a directory whose names differ. -/
def Init (s : NameRun) : Prop := s.dir.Sound ∧ s.dir.Unique ∧ ∀ t, s.pc t = .idle

abbrev Reachable (may : NameRun → Nat → NameAct → Prop) : NameRun → Prop :=
  Transition.Reachable Init (Step may)

variable {s s' : NameRun} {t : Nat} {a : NameAct} {name : FileName} {flags : BitVec 32}
variable {new block : Option Nat} {grown : Nat} {d : Directory}

/-- The section that creates a file. -/
theorem initrdOpen_unique (hSound : d.Sound) (hUnique : d.Unique) :
    (d.initrdOpen name.mem 0 flags new grown).1.Sound ∧
      ((d.initrdOpen name.mem 0 flags new grown).1.Unique ↔ ¬ (flags &&& oCreat ≠ 0 ∧ new.isSome ∧
        Insertion.HasRoom d ∧ (d.initrdFinddir name.mem 0).isSome)) := by
  have hFirst : name.mem 0 ≠ 0 := fun h => name.nonempty (name.holds.eq_nil_iff.mpr h)
  unfold Directory.initrdOpen
  rw [if_neg hFirst]
  by_cases hFlag : flags &&& oCreat = 0
  · rw [if_pos hFlag]
    exact ⟨hSound, iff_of_true hUnique fun h => h.1 hFlag⟩
  · rw [if_neg hFlag]
    cases new with
    | none => exact ⟨hSound, iff_of_true hUnique fun h => Bool.false_ne_true h.2.1⟩
    | some node =>
        have hEntry : (d.createEntry name.mem 0 node grown).1.Sound ∧
            ((d.createEntry name.mem 0 node grown).1.Unique ↔
              ¬ ((d.createEntry name.mem 0 node grown).2 = true ∧ d.Uses name.chars)) :=
          Directory.createEntry_unique name.holds name.length hSound hUnique
        refine ⟨hEntry.1, hEntry.2.trans (not_congr ?_)⟩
        rw [Directory.initrdFinddir_isSome hSound name.holds name.nonempty, Insertion.createEntry_created,
          and_iff_right hFlag, and_iff_right Option.isSome_some]

/-- `mkdir` inserts no name that is there. -/
theorem initrdMkdir_unique (hSound : d.Sound) (hUnique : d.Unique) :
    (d.initrdMkdir name.mem 0 new block grown).1.Sound ∧
      (d.initrdMkdir name.mem 0 new block grown).1.Unique := by
  unfold Directory.initrdMkdir
  by_cases hFound : (d.initrdFinddir name.mem 0).isSome
  · rw [if_pos hFound]
    exact ⟨hSound, hUnique⟩
  · rw [if_neg hFound]
    cases new with
    | none => exact ⟨hSound, hUnique⟩
    | some node =>
        cases block with
        | none => exact ⟨hSound, hUnique⟩
        | some block =>
            have hEntry : (d.createEntry name.mem 0 node grown).1.Sound ∧
                ((d.createEntry name.mem 0 node grown).1.Unique ↔
                  ¬ ((d.createEntry name.mem 0 node grown).2 = true ∧ d.Uses name.chars)) :=
              Directory.createEntry_unique name.holds name.length hSound hUnique
            rw [Directory.initrdFinddir_isSome hSound name.holds name.nonempty] at hFound
            exact ⟨hEntry.1, hEntry.2.mpr fun h => hFound h.2⟩

/-- One critical section. -/
theorem act_unique (hSound : s.dir.Sound) (hUnique : s.dir.Unique) (h : s.act t a = some s') :
    s'.dir.Sound ∧ (s'.dir.Unique ↔ ¬ s.Collides t a) := by
  unfold act at h
  split at h
  next name flags _ =>
    obtain rfl := Option.some.inj h
    have hNot : ¬ s.Collides t (.lookup name flags) := id
    split
    · exact ⟨hSound, iff_of_true hUnique hNot⟩
    · exact ⟨hSound, iff_of_true hUnique hNot⟩
  next new grown name flags hPc =>
    obtain rfl := Option.some.inj h
    unfold Collides
    rw [hPc]
    exact initrdOpen_unique hSound hUnique
  next name new block grown _ =>
    obtain rfl := Option.some.inj h
    have hNot : ¬ s.Collides t (.mkdir name new block grown) := id
    have hBoth : (s.dir.initrdMkdir name.mem 0 new block grown).1.Sound ∧
        (s.dir.initrdMkdir name.mem 0 new block grown).1.Unique := initrdMkdir_unique hSound hUnique
    exact ⟨hBoth.1, iff_of_true hBoth.2 hNot⟩
  next => exact absurd h (by simp)

/-- Where no create section collides, the names of the directory differ in every state; and a section
that collides makes two of them the same. -/
theorem reachable_unique (h : Reachable (fun s t a => ¬ s.Collides t a) s) :
    s.dir.Unique ∧ ∀ t a s', s.act t a = some s' → (s'.dir.Unique ↔ ¬ s.Collides t a) := by
  have hBoth : s.dir.Sound ∧ s.dir.Unique := by
    refine h.invariant (P := fun s => s.dir.Sound ∧ s.dir.Unique) (fun s hs => ⟨hs.1, hs.2.1⟩) ?_
    rintro s s' ⟨hSound, hUnique⟩ ⟨t, a, hClean, hAct⟩
    obtain ⟨hSound', hIff⟩ := act_unique hSound hUnique hAct
    exact ⟨hSound', hIff.mpr hClean⟩
  exact ⟨hBoth.2, fun t a s' hAct => (act_unique hBoth.1 hBoth.2 hAct).2⟩

/-- The name "a". -/
def nameA : FileName := ⟨[0x61], by decide, by decide, by decide⟩

/-- An empty directory. -/
def quiet : NameRun := ⟨Directory.fresh 1 0, fun _ => .idle⟩

theorem quiet_init : Init quiet := ⟨Directory.fresh_sound 1 0, Directory.fresh_unique 1 0, fun _ => rfl⟩

/-- Two tasks have both looked for the name, and one of them has created it. -/
def raced : NameRun :=
  { ((quiet.goto 0 (.create nameA oCreat)).goto 1 (.create nameA oCreat)).goto 0 .idle with
    dir := (quiet.dir.initrdOpen nameA.mem 0 oCreat (some 2) 0).1 }

theorem raced_reachable : Reachable (fun s t a => ¬ s.Collides t a) raced := by
  have hAbsent : ¬ (quiet.dir.initrdFinddir nameA.mem 0).isSome = true := by decide
  have hLookup0 : quiet.act 0 (.lookup nameA oCreat) = some (quiet.goto 0 (.create nameA oCreat)) :=
    congrArg some (if_neg hAbsent)
  have hLookup1 : (quiet.goto 0 (.create nameA oCreat)).act 1 (.lookup nameA oCreat) =
      some ((quiet.goto 0 (.create nameA oCreat)).goto 1 (.create nameA oCreat)) :=
    congrArg some (if_neg hAbsent)
  have hCreate0 : ((quiet.goto 0 (.create nameA oCreat)).goto 1 (.create nameA oCreat)).act 0
      (.create (some 2) 0) = some raced := rfl
  have hStart : Reachable (fun s t a => ¬ s.Collides t a) quiet := Transition.Reachable.of_init quiet_init
  have hFirst := hStart.next ⟨0, .lookup nameA oCreat, id, hLookup0⟩
  have hSecond := hFirst.next ⟨1, .lookup nameA oCreat, id, hLookup1⟩
  exact hSecond.next ⟨0, .create (some 2) 0, fun h => hAbsent h.2.2.2, hCreate0⟩

theorem reachable_unique_raced : raced.dir.Unique ∧
    ∀ t a s', raced.act t a = some s' → (s'.dir.Unique ↔ ¬ raced.Collides t a) :=
  reachable_unique raced_reachable

theorem reachable_not_unique : ¬ ∀ s, Reachable (fun _ _ _ => True) s → s.dir.Unique := by
  intro hAll
  have hRaced : Reachable (fun _ _ _ => True) raced :=
    raced_reachable.mono (fun _ h => h) fun _ _ ⟨t, a, _, hAct⟩ => ⟨t, a, trivial, hAct⟩
  have hCollides : raced.Collides 1 (.create (some 3) 0) :=
    ⟨by decide, rfl, by decide, by decide⟩
  have hCreate1 : raced.act 1 (.create (some 3) 0) = some { raced.goto 1 .idle with
      dir := (raced.dir.initrdOpen nameA.mem 0 oCreat (some 3) 0).1 } := rfl
  have hSound : raced.dir.Sound :=
    (initrdOpen_unique (Directory.fresh_sound 1 0) (Directory.fresh_unique 1 0)).1
  have hLast := hAll _ (hRaced.next ⟨1, _, trivial, hCreate1⟩)
  exact (act_unique hSound (hAll _ hRaced) hCreate1).2.mp hLast hCollides

end NameRun
end ArtOS
