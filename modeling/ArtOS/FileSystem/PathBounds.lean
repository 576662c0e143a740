import ArtOS.FileSystem.Walkers

/-! What the two walkers read of a path and where they write in `fname`. Both start behind the first
character, and both copy a component without a look at its length. -/
namespace ArtOS

open CString

/-- An access to `name[index]` or to `fname[index]`. -/
inductive PathAccess where
  | read (index : Nat)
  | write (index : Nat)

/-- The zero of the path is at `last`. -/
def PathAccess.Within (last : Nat) : PathAccess → Prop
  | .read index => index ≤ last
  | .write index => index < maxFilename

def AllWithin (last : Nat) (accesses : List PathAccess) : Prop := ∀ a ∈ accesses, a.Within last

/-- The loop that copies a component. The results are what is in `fname` before the zero, `j`, and the
accesses. -/
def copyComponent (name : Nat → BitVec 8) : Nat → Nat → Nat → Option (List (BitVec 8) × Nat × List PathAccess)
  | 0, _, _ => none
  | fuel + 1, i, j =>
      if name j ≠ slash ∧ name j ≠ 0 then
        (copyComponent name fuel (i + 1) (j + 1)).map fun (fname, k, accesses) =>
          (name j :: fname, k, .read j :: .write i :: accesses)
      else some ([], j, [.read j, .write i])

/-- One round of the outer loop, up to `finddir_fs` and behind it. -/
def walkComponent (name : Nat → BitVec 8) (fuel j : Nat) :
    Option (List (BitVec 8) × Nat × List PathAccess) :=
  (copyComponent name fuel 0 j).map fun (fname, k, accesses) =>
    (fname, if name k = slash then k + 1 else k, .read j :: accesses ++ [.read k])

namespace FileSystem

/-- The loop of `findnode_fs`. -/
def findnodeWalk (fs : FileSystem) (name : Nat → BitVec 8) :
    Nat → Option Nat → Nat → Option (Option Nat × List PathAccess)
  | 0, _, _ => none
  | fuel + 1, ret, j =>
      if name j = 0 ∨ ret = none then some (ret, [.read j])
      else
        (walkComponent name fuel j).bind fun (fname, k, accesses) =>
          (findnodeWalk fs name fuel (fs.finddirFs ret fname) k).map fun (ret, more) =>
            (ret, accesses ++ more)

/-- The loop of `open_fs`. The results are `dir_node`, `file_node` and `fname`. -/
def openWalk (fs : FileSystem) (name : Nat → BitVec 8) : Nat → Option Nat → Option Nat →
    List (BitVec 8) → Nat → Option ((Option Nat × Option Nat × List (BitVec 8)) × List PathAccess)
  | 0, _, _, _, _ => none
  | fuel + 1, dir, file, fname, j =>
      if name j = 0 ∧ ¬ file.any fs.IsDirectory then some ((dir, file, fname), [.read j])
      else
        (walkComponent name fuel j).bind fun (fname, k, accesses) =>
          (openWalk fs name fuel file (fs.finddirFs file fname) fname k).map fun (nodes, more) =>
            (nodes, accesses ++ more)

/-- Where both start. -/
def startNode (fs : FileSystem) (name : Nat → BitVec 8) : Option Nat :=
  if name 0 = slash then some fs.root else none

/-- Both walkers come to an end. They read the path up to its zero, and write within `fname`. -/
structure WalksWithin (fs : FileSystem) (name : Nat → BitVec 8) (path : List (BitVec 8)) : Prop where
  findnode : ∃ fuel ret accesses,
    fs.findnodeWalk name fuel (fs.startNode name) 1 = some (ret, accesses) ∧ AllWithin path.length accesses
  openFs : ∃ fuel nodes accesses,
    fs.openWalk name fuel none (fs.startNode name) [] 1 = some (nodes, accesses) ∧
      AllWithin path.length accesses ∧ ∀ flags new grown, (fs.finish flags new grown nodes).isSome

/-- An entry leads down, unless it is the first or the second one of a directory. -/
def Below (fs : FileSystem) (m n : Nat) : Prop :=
  ∃ d e, fs.node n = some (.directory d) ∧ e ∈ d.entries ∧ e.vfsNode = some m ∧
    ¬ e.Named [0x2E] ∧ ¬ e.Named [0x2E, 0x2E]

/-- All ways down end. -/
def IsTree (fs : FileSystem) : Prop := WellFounded fs.Below

/-- The components behind the first character are shorter than `MAX_FILENAME`. -/
def Short (path : List (BitVec 8)) : Prop := ∀ c ∈ path.splitOn slash, c.length < maxFilename

instance (path : List (BitVec 8)) : Decidable (Short path) :=
  inferInstanceAs (Decidable (∀ c ∈ path.splitOn slash, _))

variable {fs : FileSystem} {name : Nat → BitVec 8} {path : List (BitVec 8)} {fuel i j k last n : Nat}
variable {accesses more : List PathAccess} {fname : List (BitVec 8)} {dir file ret : Option Nat}

theorem within_append : AllWithin last (accesses ++ more) ↔ AllWithin last accesses ∧ AllWithin last more :=
  List.forall_mem_append

theorem within_cons {a : PathAccess} : AllWithin last (a :: more) ↔ a.Within last ∧ AllWithin last more :=
  List.forall_mem_cons

theorem within_nil : AllWithin last [] := List.forall_mem_nil _

theorem short_iff : Short path ↔ (nextComponent path).1.length < maxFilename ∧ Short (nextComponent path).2 := by
  obtain ⟨hSlash, ⟨hPath, hRest⟩ | hPath⟩ := nextComponent_cases path
  · have hEmpty : Short [] := by
      intro c hc
      rw [List.splitOn_nil, List.mem_singleton] at hc
      rw [hc]
      decide
    rw [hRest, and_iff_left hEmpty, Short]
    have hSplit : path.splitOn slash = [(nextComponent path).1] := by
      rw [← hPath] at hSlash ⊢
      exact List.splitOn_eq_singleton hSlash
    rw [hSplit, List.forall_mem_singleton]
  · have hSplit : path.splitOn slash = (nextComponent path).1 :: (nextComponent path).2.splitOn slash := by
      conv_lhs => rw [hPath]
      exact List.splitOn_append_cons_self_of_not_mem hSlash _
    rw [Short, hSplit, List.forall_mem_cons]
    rfl

theorem copyComponent_stop (h : ¬ (name j ≠ slash ∧ name j ≠ 0)) :
    copyComponent name (fuel + 1) i j = some ([], j, [.read j, .write i]) := if_neg h

theorem copyComponent_go (h : name j ≠ slash ∧ name j ≠ 0) : copyComponent name (fuel + 1) i j =
    (copyComponent name fuel (i + 1) (j + 1)).map fun (fname, k, accesses) =>
      (name j :: fname, k, .read j :: .write i :: accesses) := if_pos h

theorem within_stop (h : j ≤ last) : AllWithin last [.read j, .write i] ↔ i < maxFilename := by
  rw [within_cons, within_cons, and_iff_left within_nil]
  exact and_iff_right h

/-- The copied component, and where its zero goes. -/
theorem copyComponent_some (hHolds : Holds name j path) (hLast : j + path.length = last)
    (h : copyComponent name fuel i j = some (fname, k, accesses)) :
    fname = (nextComponent path).1 ∧ k = j + fname.length ∧
      (AllWithin last accesses ↔ i + fname.length < maxFilename) := by
  induction path generalizing fuel i j fname k accesses with
  | nil =>
      cases fuel with
      | zero => cases h
      | succ fuel =>
          rw [copyComponent_stop (by rw [show name j = 0 from hHolds]; exact fun hGo => hGo.2 rfl)] at h
          cases h
          exact ⟨rfl, rfl, within_stop hLast.le⟩
  | cons c path ih =>
      obtain ⟨rfl, hNonzero, hRest⟩ := hHolds
      rw [List.length_cons] at hLast
      cases fuel with
      | zero => cases h
      | succ fuel =>
          by_cases hSlash : name j = slash
          · rw [copyComponent_stop fun hGo => hGo.1 hSlash] at h
            cases h
            rw [hSlash, nextComponent_slash]
            exact ⟨rfl, rfl, within_stop (by omega)⟩
          · rw [copyComponent_go ⟨hSlash, hNonzero⟩] at h
            obtain ⟨⟨fname', k', accesses'⟩, hCopy, hEq⟩ := Option.map_eq_some_iff.mp h
            cases hEq
            obtain ⟨hFname, hk, hWithin⟩ := ih hRest (by omega) hCopy
            rw [nextComponent_cons hSlash]
            refine ⟨congrArg (name j :: ·) hFname, by rw [hk, List.length_cons]; omega, ?_⟩
            rw [within_cons, within_cons, hWithin, List.length_cons]
            have hRead : (PathAccess.read j).Within last := show j ≤ last by omega
            rw [and_iff_right hRead]
            show i < maxFilename ∧ _ ↔ _
            omega

theorem copyComponent_ends (hHolds : Holds name j path) (hFuel : path.length < fuel) :
    ∃ r, copyComponent name fuel i j = some r := by
  induction path generalizing fuel i j with
  | nil =>
      obtain ⟨fuel, rfl⟩ := Nat.exists_eq_succ_of_ne_zero (Nat.ne_zero_of_lt hFuel)
      exact ⟨_, copyComponent_stop fun hGo => hGo.2 hHolds⟩
  | cons c path ih =>
      obtain ⟨fuel, rfl⟩ := Nat.exists_eq_succ_of_ne_zero (Nat.ne_zero_of_lt hFuel)
      obtain ⟨rfl, hNonzero, hRest⟩ := hHolds
      by_cases hSlash : name j = slash
      · exact ⟨_, copyComponent_stop fun hGo => hGo.1 hSlash⟩
      · obtain ⟨r, hCopy⟩ := ih (i := i + 1) hRest (Nat.lt_of_succ_lt_succ hFuel)
        rw [copyComponent_go ⟨hSlash, hNonzero⟩, hCopy]
        exact ⟨_, rfl⟩

/-- What comes behind the first component. -/
theorem holds_nextComponent (hHolds : Holds name j path) (hk : k = j + (nextComponent path).1.length) :
    Holds name (if name k = slash then k + 1 else k) (nextComponent path).2 ∧
      (if name k = slash then k + 1 else k) + (nextComponent path).2.length = j + path.length ∧
      k ≤ j + path.length := by
  induction path generalizing j with
  | nil =>
      obtain rfl : k = j := hk
      have hEnd : name k = 0 := hHolds
      rw [if_neg (by rw [hEnd]; decide)]
      exact ⟨hEnd, rfl, le_rfl⟩
  | cons c path ih =>
      obtain ⟨rfl, hNonzero, hRest⟩ := hHolds
      rw [List.length_cons, Nat.add_comm path.length, ← Nat.add_assoc]
      by_cases hSlash : name j = slash
      · rw [hSlash, nextComponent_slash] at hk ⊢
        obtain rfl : k = j := hk
        rw [if_pos hSlash]
        exact ⟨hRest, rfl, by omega⟩
      · rw [nextComponent_cons hSlash] at hk ⊢
        exact ih hRest (by rw [hk, List.length_cons]; omega)

/-- A round of the outer loop takes a component off the path. -/
theorem walkComponent_some (hHolds : Holds name j path) (hLast : j + path.length = last)
    (h : walkComponent name fuel j = some (fname, k, accesses)) :
    fname = (nextComponent path).1 ∧ Holds name k (nextComponent path).2 ∧
      k + (nextComponent path).2.length = last ∧
      (AllWithin last accesses ↔ (nextComponent path).1.length < maxFilename) := by
  obtain ⟨⟨fname', k', accesses'⟩, hCopy, hEq⟩ := Option.map_eq_some_iff.mp h
  cases hEq
  obtain ⟨rfl, rfl, hWithin⟩ := copyComponent_some hHolds hLast hCopy
  obtain ⟨hRest, hEnd, hLe⟩ := holds_nextComponent hHolds rfl
  refine ⟨rfl, hRest, hEnd.trans hLast, ?_⟩
  have hRead : (PathAccess.read j).Within last := show j ≤ last by omega
  have hRead' : (PathAccess.read (j + (nextComponent path).1.length)).Within last := by
    rw [← hLast]
    exact hLe
  rw [List.cons_append, within_cons, and_iff_right hRead, within_append, within_cons, and_iff_left within_nil,
    and_iff_left hRead', hWithin, Nat.zero_add]

theorem walkComponent_ends (hHolds : Holds name j path) (hFuel : path.length < fuel) :
    ∃ r, walkComponent name fuel j = some r := by
  obtain ⟨r, hCopy⟩ := copyComponent_ends (i := 0) hHolds hFuel
  exact ⟨_, congrArg (Option.map _) hCopy⟩

/-- A short path is walked along within bounds. -/
theorem findnodeWalk_ends (hHolds : Holds name j path) (hLast : j + path.length = last) (hShort : Short path)
    (hFuel : path.length + 2 ≤ fuel) : ∃ ret' accesses,
      fs.findnodeWalk name fuel ret j = some (ret', accesses) ∧ AllWithin last accesses := by
  induction fuel generalizing path ret j with
  | zero => omega
  | succ fuel ih =>
      rw [findnodeWalk]
      by_cases hStop : name j = 0 ∨ ret = none
      · rw [if_pos hStop]
        have hRead : (PathAccess.read j).Within last := show j ≤ last by omega
        exact ⟨_, _, rfl, within_cons.mpr ⟨hRead, within_nil⟩⟩
      · rw [if_neg hStop]
        obtain ⟨⟨fname, k, accesses⟩, hRound⟩ : ∃ r, walkComponent name fuel j = some r :=
          walkComponent_ends hHolds (by omega)
        obtain ⟨rfl, hRest, hEnd, hWithin⟩ := walkComponent_some hHolds hLast hRound
        have hPath : path ≠ [] := by
          rintro rfl
          exact hStop (Or.inl hHolds)
        have hLess := length_nextComponent hPath
        obtain ⟨hFirst, hOthers⟩ := short_iff.mp hShort
        obtain ⟨ret', more, hWalk, hMore⟩ : ∃ ret' more,
            fs.findnodeWalk name fuel (fs.finddirFs ret (nextComponent path).1) k = some (ret', more) ∧
              AllWithin last more := ih hRest hEnd hOthers (by omega)
        rw [hRound, Option.bind_some]
        dsimp only
        rw [hWalk]
        exact ⟨_, _, rfl, within_append.mpr ⟨hWithin.mpr hFirst, hMore⟩⟩

/-- The loop of `open_fs` comes to an end within bounds, and not at a directory. -/
def OpenEnds (fs : FileSystem) (name : Nat → BitVec 8) (last : Nat) (dir file : Option Nat)
    (fname : List (BitVec 8)) (j : Nat) : Prop :=
  ∃ least, ∀ fuel ≥ least, ∃ nodes accesses, fs.openWalk name fuel dir file fname j = some (nodes, accesses) ∧
    AllWithin last accesses ∧ ∀ n ∈ nodes.2.1, fs.IsDirectory n = false

theorem openEnds_stop (hZero : name last = 0) (hFile : file.any fs.IsDirectory = false) :
    OpenEnds fs name last dir file fname last := by
  refine ⟨1, fun fuel hFuel => ?_⟩
  obtain ⟨fuel, rfl⟩ := Nat.exists_eq_succ_of_ne_zero (Nat.ne_zero_of_lt hFuel)
  have hRead : (PathAccess.read last).Within last := le_refl last
  refine ⟨_, _, if_pos ⟨hZero, by simp [hFile]⟩, within_cons.mpr ⟨hRead, within_nil⟩, ?_⟩
  intro n hn
  obtain rfl : file = some n := hn
  exact hFile

/-- One round of the loop. -/
theorem openEnds_round (hHolds : Holds name j path) (hLast : j + path.length = last)
    (hGo : ¬ (name j = 0 ∧ ¬ file.any fs.IsDirectory)) (hFirst : (nextComponent path).1.length < maxFilename)
    (h : ∀ k, Holds name k (nextComponent path).2 → k + (nextComponent path).2.length = last →
      OpenEnds fs name last file (fs.finddirFs file (nextComponent path).1) (nextComponent path).1 k) :
    OpenEnds fs name last dir file fname j := by
  obtain ⟨⟨comp, k, accesses⟩, hRound⟩ := walkComponent_ends hHolds (Nat.lt_succ_self path.length)
  obtain ⟨rfl, hRest, hEnd, hWithin⟩ := walkComponent_some hHolds hLast hRound
  obtain ⟨least, hLeast⟩ := h k hRest hEnd
  refine ⟨max least (path.length + 1) + 1, fun fuel hFuel => ?_⟩
  obtain ⟨fuel, rfl⟩ := Nat.exists_eq_succ_of_ne_zero (Nat.ne_zero_of_lt hFuel)
  obtain ⟨⟨comp', k', accesses'⟩, hRound'⟩ : ∃ r, walkComponent name fuel j = some r :=
    walkComponent_ends hHolds (by omega)
  obtain ⟨rfl, hRest', hEnd', hWithin'⟩ := walkComponent_some hHolds hLast hRound'
  obtain ⟨nodes, more, hWalk, hMore, hNodes⟩ := hLeast fuel (by omega)
  have hSame : k' = k := by omega
  rw [openWalk, if_neg hGo, hRound', Option.bind_some]
  dsimp only
  rw [hSame, hWalk]
  exact ⟨_, _, rfl, within_append.mpr ⟨hWithin'.mpr hFirst, hMore⟩, hNodes⟩

/-- An entry with the empty name leads down. -/
theorem below_of_empty {m : Nat} (h : fs.finddirFs (some n) [] = some m) : fs.Below m n := by
  rw [finddirFs, Option.bind_some] at h
  split at h
  next d hNode =>
    obtain ⟨e, hFind, hEntry⟩ := Option.bind_eq_some_iff.mp h
    have hEmpty : e.name 0 = 0 := by
      by_contra hFull
      have hMatch : strncmp e.name (nameMem []) 0 0 maxFilename = 0 := by
        simpa only [decide_eq_true_eq] using List.find?_some hFind
      have hDiffer : e.name (0 + 0) ≠ nameMem [] (0 + 0) := hFull
      rw [strncmp, strncmpLoop, if_neg hDiffer, compareAt, if_neg (by decide)] at hMatch
      split at hMatch
      · cases hMatch
      · cases hMatch
    have hOther : ∀ c s, c ≠ 0 → ¬ e.Named (c :: s) := by
      rintro c s hc ⟨⟨hFirst, _⟩, _⟩
      exact hc (hFirst.symm.trans hEmpty)
    exact ⟨d, e, hNode, List.mem_of_find?_eq_some hFind, hEntry, hOther _ _ (by decide), hOther _ _ (by decide)⟩
  next => cases h

/-- Behind the path the loop follows the entries with the empty name. -/
theorem openEnds_down (hTree : fs.IsTree) (hZero : name last = 0) (n : Nat) (dir : Option Nat)
    (fname : List (BitVec 8)) : OpenEnds fs name last dir (some n) fname last := by
  induction n using hTree.induction generalizing dir fname with
  | _ n ih =>
    by_cases hDirectory : fs.IsDirectory n = true
    · have hHolds : Holds name last [] := hZero
      refine openEnds_round hHolds rfl (fun hStop => hStop.2 hDirectory) (by decide) ?_
      intro k hk hEnd
      obtain rfl : k = last := hEnd
      cases hNext : fs.finddirFs (some n) (nextComponent []).1 with
      | none => exact openEnds_stop hZero rfl
      | some m => exact ih m (below_of_empty hNext) _ _
    · exact openEnds_stop hZero (by simpa using hDirectory)

theorem openEnds_path (hTree : fs.IsTree) (hHolds : Holds name j path) (hLast : j + path.length = last)
    (hShort : Short path) : OpenEnds fs name last dir file fname j := by
  obtain ⟨size, hSize⟩ : ∃ size, size = path.length := ⟨_, rfl⟩
  induction size using Nat.strong_induction_on generalizing path j dir file fname with
  | _ size ih =>
    cases path with
    | nil =>
        obtain rfl : j = last := hLast
        cases file with
        | none => exact openEnds_stop hHolds rfl
        | some n => exact openEnds_down hTree hHolds n dir fname
    | cons c path =>
        obtain ⟨hFirst, hOthers⟩ := short_iff.mp hShort
        have hLess := length_nextComponent (List.cons_ne_nil c path)
        refine openEnds_round hHolds hLast (fun hStop => hHolds.2.1 (hHolds.1 ▸ hStop.1)) hFirst ?_
        intro k hRest hEnd
        exact ih _ (hSize ▸ hLess) hRest hEnd hOthers rfl

/-- Where the loop of `open_fs` stays within bounds, all components are short. -/
theorem short_of_openWalk {nodes : Option Nat × Option Nat × List (BitVec 8)} (hHolds : Holds name j path)
    (hLast : j + path.length = last) (h : fs.openWalk name fuel dir file fname j = some (nodes, accesses))
    (hWithin : AllWithin last accesses) : Short path := by
  induction fuel generalizing path j dir file fname nodes accesses with
  | zero => cases h
  | succ fuel ih =>
      cases path with
      | nil =>
          intro c hc
          rw [List.splitOn_nil, List.mem_singleton] at hc
          rw [hc]
          decide
      | cons c path =>
          rw [openWalk, if_neg (fun hStop => hHolds.2.1 (hHolds.1 ▸ hStop.1))] at h
          obtain ⟨⟨comp, k, first⟩, hRound, hRest⟩ := Option.bind_eq_some_iff.mp h
          obtain ⟨⟨nodes', more⟩, hWalk, hEq⟩ := Option.map_eq_some_iff.mp hRest
          cases hEq
          obtain ⟨rfl, hHolds', hEnd, hFirst⟩ := walkComponent_some hHolds hLast hRound
          obtain ⟨hWithin', hMore⟩ := within_append.mp hWithin
          exact short_iff.mpr ⟨hFirst.mp hWithin', ih hHolds' hEnd hWalk hMore⟩

theorem read_of_findnodeWalk (h : fs.findnodeWalk name fuel ret j = some (dir, accesses)) :
    .read j ∈ accesses := by
  cases fuel with
  | zero => cases h
  | succ fuel =>
      rw [findnodeWalk] at h
      split at h
      · cases h
        exact List.mem_singleton_self _
      · obtain ⟨⟨fname, k, first⟩, hRound, hRest⟩ := Option.bind_eq_some_iff.mp h
        obtain ⟨⟨ret', more⟩, _, hEq⟩ := Option.map_eq_some_iff.mp hRest
        cases hEq
        obtain ⟨⟨fname', k', first'⟩, _, hEq⟩ := Option.map_eq_some_iff.mp hRound
        cases hEq
        exact List.mem_append_left _ List.mem_cons_self

/-- The empty path is read behind its end. -/
theorem not_walksWithin_nil : ¬ fs.WalksWithin name [] := by
  rintro ⟨⟨fuel, ret, accesses, hWalk, hWithin⟩, _⟩
  have hRead : 1 ≤ 0 := hWithin _ (read_of_findnodeWalk hWalk)
  exact absurd hRead (by decide)

/-- What `open_fs` does behind its loop has a result, unless it opens a directory without a name. -/
theorem finish_isSome {flags : BitVec 32} {new : Option Nat} {grown : Nat}
    {nodes : Option Nat × Option Nat × List (BitVec 8)} (h : ∀ n ∈ nodes.2.1, fs.IsDirectory n = false) :
    (fs.finish flags new grown nodes).isSome := by
  obtain ⟨dir, file, fname⟩ := nodes
  cases file with
  | some n =>
      obtain ⟨fs', ret, hOpen, _⟩ : ∃ fs' ret, fs.openNode flags n none new grown = some (fs', n, ret) ∧
          (flags &&& oCreat = 0 → ret = 0) := openNode_other (h n rfl)
      rw [finish, hOpen]
      rfl
  | none =>
      cases dir with
      | none => rfl
      | some n =>
          have hOpen : (fs.openNode flags n (some fname) new grown).isSome := by
            rw [openNode]
            split
            · split
              · rfl
              · split <;> rfl
            · rfl
            · rfl
          rw [finish, Option.isSome_map]
          exact hOpen

/-- Both walkers are safe exactly for paths that are not empty and have short components. -/
theorem walksWithin_iff (hTree : fs.IsTree) (hHolds : Holds name 0 path) :
    fs.WalksWithin name path ↔ path ≠ [] ∧ Short path.tail := by
  cases path with
  | nil => exact iff_of_false not_walksWithin_nil fun h => h.1 rfl
  | cons c path =>
      have hRest : Holds name 1 path := hHolds.2.2
      have hLast : 1 + path.length = (c :: path).length := by rw [List.length_cons, Nat.add_comm]
      rw [List.tail_cons, and_iff_right (List.cons_ne_nil c path)]
      constructor
      · rintro ⟨_, fuel, nodes, accesses, hWalk, hWithin, _⟩
        exact short_of_openWalk hRest hLast hWalk hWithin
      · intro hShort
        obtain ⟨ret, accesses, hFind, hWithin⟩ : ∃ ret accesses,
            fs.findnodeWalk name (path.length + 2) (fs.startNode name) 1 = some (ret, accesses) ∧
              AllWithin (c :: path).length accesses := findnodeWalk_ends hRest hLast hShort le_rfl
        have hEnds : OpenEnds fs name (c :: path).length none (fs.startNode name) [] 1 :=
          openEnds_path hTree hRest hLast hShort
        obtain ⟨least, hLeast⟩ := hEnds
        obtain ⟨nodes, accesses', hOpen, hWithin', hNodes⟩ := hLeast least (le_refl least)
        exact ⟨⟨_, _, _, hFind, hWithin⟩, _, _, _, hOpen, hWithin', fun _ _ _ => finish_isSome hNodes⟩

/-- A root without other nodes. -/
def rootOnly : FileSystem :=
  ⟨Function.update (fun _ => none) 0 (some (.directory (Directory.fresh 0 0))), 0⟩

theorem rootOnly_isTree : rootOnly.IsTree := by
  refine WellFounded.intro fun n => Acc.intro n fun m hBelow => ?_
  obtain ⟨d, e, hNode, hMem, hEntry, hDot, hDots⟩ := hBelow
  exfalso
  by_cases hn : n = 0
  · have hRoot : rootOnly.node n = some (.directory (Directory.fresh 0 0)) := by simp [rootOnly, hn]
    obtain rfl : Directory.fresh 0 0 = d := by
      have hSame := hRoot.symm.trans hNode
      simpa using hSame
    rw [Directory.fresh_entries, List.mem_cons, List.mem_cons, List.mem_replicate] at hMem
    rcases hMem with rfl | rfl | ⟨_, rfl⟩
    · exact hDot (Directory.named_strncpy (by decide) (by decide))
    · exact hDots (Directory.named_strncpy (by decide) (by decide))
    · cases hEntry
  · have hNone : rootOnly.node n = none := by simp [rootOnly, hn]
    cases hNone.symm.trans hNode

/-- "/a" below that root. -/
theorem walksWithin_root : rootOnly.WalksWithin (nameMem [slash, 0x61]) [slash, 0x61] := by
  have hHolds : Holds (nameMem [slash, 0x61]) 0 [slash, 0x61] := ⟨rfl, by decide, rfl, by decide, rfl⟩
  exact (walksWithin_iff rootOnly_isTree hHolds).mpr ⟨by decide, by decide⟩

/-- The empty string below that root. -/
theorem not_walksWithin : ¬ ∀ (fs : FileSystem) (name : Nat → BitVec 8) (path : List (BitVec 8)),
    fs.IsTree → Holds name 0 path → fs.WalksWithin name path :=
  fun hAll => not_walksWithin_nil (hAll rootOnly (nameMem []) [] rootOnly_isTree rfl)

end FileSystem
end ArtOS
