import ArtOS.FileSystem.Tree

/-! When `open_fs` finds what `findnode_fs` finds. The one stops at the first component that is missing,
the other goes on to the end of the path, and into an entry without a name where a directory has one. -/
namespace ArtOS

open CString

/-- A component of a path. -/
structure Component where
  chars : List (BitVec 8)
  nonempty : chars ≠ []
  length : chars.length < maxFilename
  noSlash : slash ∉ chars
  nonzero : 0 ∉ chars

/-- The components with slashes between them, and one behind them if it is `trailing`. -/
def body : List Component → Bool → List (BitVec 8)
  | [], _ => []
  | [c], trailing => c.chars ++ if trailing then [slash] else []
  | c :: d :: path, trailing => c.chars ++ slash :: body (d :: path) trailing

/-- A path of the claims about both functions. -/
def pathText (path : List Component) (trailing : Bool) : List (BitVec 8) := slash :: body path trailing

namespace FileSystem

section Next

variable {s t : List (BitVec 8)}

theorem nextComponent_slash : nextComponent (slash :: s) = ([], s) := rfl

theorem nextComponent_cons {c : BitVec 8} (h : c ≠ slash) :
    nextComponent (c :: s) = (c :: (nextComponent s).1, (nextComponent s).2) := by
  rw [nextComponent, List.takeWhile_cons, List.dropWhile_cons, if_pos (decide_eq_true h),
    if_pos (decide_eq_true h)]
  rfl

/-- The component, and a slash or the end behind it. -/
theorem nextComponent_cases (s : List (BitVec 8)) : slash ∉ (nextComponent s).1 ∧
    (s = (nextComponent s).1 ∧ (nextComponent s).2 = [] ∨
      s = (nextComponent s).1 ++ slash :: (nextComponent s).2) := by
  induction s with
  | nil => exact ⟨List.not_mem_nil, Or.inl ⟨rfl, rfl⟩⟩
  | cons c s ih =>
      by_cases hSlash : c = slash
      · rw [hSlash, nextComponent_slash]
        exact ⟨List.not_mem_nil, Or.inr rfl⟩
      · rw [nextComponent_cons hSlash]
        obtain ⟨hNot, hPath⟩ := ih
        refine ⟨List.not_mem_cons_of_ne_of_not_mem (Ne.symm hSlash) hNot, ?_⟩
        rcases hPath with ⟨hPath, hRest⟩ | hPath
        · exact Or.inl ⟨congrArg (c :: ·) hPath, hRest⟩
        · exact Or.inr (congrArg (c :: ·) hPath)

theorem length_nextComponent (h : s ≠ []) : (nextComponent s).2.length < s.length := by
  obtain ⟨_, ⟨_, hRest⟩ | hPath⟩ := nextComponent_cases s
  · rw [hRest]
    exact List.length_pos_iff.mpr h
  · have hLength := congrArg List.length hPath
    rw [List.length_append, List.length_cons] at hLength
    omega

/-- A component with the end of the path or a slash behind it. -/
theorem nextComponent_append (hs : slash ∉ s) (h : t = [] ∨ ∃ t', t = slash :: t') :
    nextComponent (s ++ t) = (s, t.drop 1) := by
  have hChars : ∀ x ∈ s, decide (x ≠ slash) = true := by
    intro x hx
    exact decide_eq_true fun hSlash => hs (hSlash ▸ hx)
  rw [nextComponent, List.takeWhile_append_of_pos hChars, List.dropWhile_append_of_pos hChars]
  rcases h with rfl | ⟨rest', rfl⟩
  · simp
  · simp

end Next

variable {fs fs' : FileSystem} {c d : Component} {path : List Component} {trailing : Bool}
variable {fuel n m grown : Nat} {dir file ret : Option Nat} {fname : List (BitVec 8)}
variable {flags : BitVec 32} {new : Option Nat}

theorem body_nil : body [] trailing = [] := rfl

theorem body_single : body [c] trailing = c.chars ++ if trailing then [slash] else [] := rfl

theorem body_cons : body (c :: d :: path) trailing = c.chars ++ slash :: body (d :: path) trailing := rfl

theorem nextComponent_body (c : Component) (path : List Component) (trailing : Bool) :
    nextComponent (body (c :: path) trailing) = (c.chars, body path trailing) := by
  cases path with
  | nil =>
      rw [body_single, nextComponent_append c.noSlash]
      · cases trailing <;> rfl
      · cases trailing
        · exact Or.inl rfl
        · exact Or.inr ⟨[], rfl⟩
  | cons d path =>
      rw [body_cons, nextComponent_append c.noSlash (Or.inr ⟨_, rfl⟩)]
      rfl

theorem body_ne_nil : body (c :: path) trailing ≠ [] := by
  cases path with
  | nil => exact List.append_ne_nil_of_left_ne_nil c.nonempty _
  | cons d path => exact List.append_ne_nil_of_left_ne_nil c.nonempty _

theorem length_body (path : List Component) (trailing : Bool) :
    path.length ≤ (body path trailing).length := by
  induction path with
  | nil => exact Nat.zero_le _
  | cons c path ih =>
      have hPos : 0 < c.chars.length := List.length_pos_iff.mpr c.nonempty
      cases path with
      | nil =>
          rw [body_single, List.length_append, List.length_singleton]
          omega
      | cons d path =>
          rw [body_cons, List.length_append, List.length_cons (a := c), List.length_cons (a := slash)]
          omega

/-- Where a path leads, component by component. -/
def walk (fs : FileSystem) (start : Option Nat) (path : List Component) : Option Nat :=
  path.foldl (fun node c => fs.finddirFs node c.chars) start

@[simp] theorem walk_nil : fs.walk file [] = file := rfl

@[simp] theorem walk_cons : fs.walk file (c :: path) = fs.walk (fs.finddirFs file c.chars) path := rfl

@[simp] theorem walk_none : fs.walk none path = none := by
  induction path with
  | nil => rfl
  | cons c path ih => exact ih

theorem findnodeLoop_body (hFuel : path.length < fuel) :
    fs.findnodeLoop fuel ret (body path trailing) = some (fs.walk ret path) := by
  induction path generalizing fuel ret with
  | nil =>
      obtain ⟨fuel, rfl⟩ := Nat.exists_eq_succ_of_ne_zero (Nat.ne_zero_of_lt hFuel)
      rw [findnodeLoop, if_pos (Or.inl body_nil)]
      rfl
  | cons c path ih =>
      obtain ⟨fuel, rfl⟩ := Nat.exists_eq_succ_of_ne_zero (Nat.ne_zero_of_lt hFuel)
      rw [findnodeLoop, nextComponent_body]
      by_cases hRet : ret = none
      · rw [if_pos (Or.inr hRet), hRet, walk_none]
      · rw [if_neg (not_or.mpr ⟨body_ne_nil, hRet⟩), if_neg (Nat.not_le_of_lt c.length)]
        exact ih (Nat.lt_of_succ_lt_succ hFuel)

/-- `findnode_fs` on a path. -/
theorem findnodeFs_eq (fs : FileSystem) (path : List Component) (trailing : Bool) :
    fs.findnodeFs (pathText path trailing) = some (fs.walk (some fs.root) path) :=
  findnodeLoop_body (Nat.lt_succ_of_le (length_body path trailing))

/-- The node that the path leads to, the one before it, and the last name. -/
def target (fs : FileSystem) (path : List Component) : Option Nat := fs.walk (some fs.root) path

def parent (fs : FileSystem) (path : List Component) : Option Nat :=
  if path = [] then none else fs.walk (some fs.root) path.dropLast

def lastName (path : List Component) : List (BitVec 8) := (path.getLast?.map Component.chars).getD []

theorem openLoop_cons : fs.openLoop (fuel + 1) dir file fname (body (c :: path) trailing) =
    fs.openLoop fuel file (fs.finddirFs file c.chars) c.chars (body path trailing) := by
  rw [openLoop, nextComponent_body, if_neg (fun h => body_ne_nil h.1),
    if_neg (Nat.not_le_of_lt c.length)]

/-- The variables of `open_fs` when a path has been read. -/
theorem openLoop_body (fuel : Nat) (c : Component) (path : List Component) :
    fs.openLoop (fuel + (path.length + 1)) dir file fname (body (c :: path) trailing) =
      fs.openLoop fuel (fs.walk file (c :: path).dropLast) (fs.walk file (c :: path))
        (lastName (c :: path)) [] := by
  induction path generalizing dir file fname c with
  | nil => exact openLoop_cons
  | cons d path ih =>
      rw [List.length_cons, ← Nat.add_assoc, openLoop_cons]
      exact ih d

theorem openLoop_path (fuel : Nat) (path : List Component) :
    fs.openLoop (fuel + path.length) none (some fs.root) [] (body path trailing) =
      fs.openLoop fuel (fs.parent path) (fs.target path) (lastName path) [] := by
  cases path with
  | nil => rfl
  | cons c path => exact openLoop_body fuel c path

theorem openLoop_mono {fuel' : Nat} {rest : List (BitVec 8)}
    {r : Option Nat × Option Nat × List (BitVec 8)} (hFuel : fuel ≤ fuel')
    (h : fs.openLoop fuel dir file fname rest = some r) :
    fs.openLoop fuel' dir file fname rest = some r := by
  induction fuel generalizing fuel' dir file fname rest with
  | zero => cases h
  | succ fuel ih =>
      obtain ⟨fuel', rfl⟩ := Nat.exists_eq_add_of_le' (Nat.le_of_add_left_le hFuel)
      rw [openLoop] at h ⊢
      split at h
      next hEnd =>
        rw [if_pos hEnd]
        exact h
      next hEnd =>
        rw [if_neg hEnd]
        split at h
        · cases h
        next hFits =>
          rw [if_neg hFits]
          exact ih (by omega) h

/-- Behind the path the loop stops at once, unless it stands at a directory. -/
theorem openLoop_stop (h : ∀ n ∈ file, fs.IsDirectory n = false) :
    fs.openLoop (fuel + 1) dir file fname [] = some (dir, file, fname) := by
  rw [openLoop, if_pos]
  refine ⟨rfl, ?_⟩
  cases file with
  | none => simp
  | some n => simp [h n rfl]

theorem openLoop_enter (h : fs.IsDirectory n = true) :
    fs.openLoop (fuel + 1) dir (some n) fname [] =
      fs.openLoop fuel (some n) (fs.finddirFs (some n) []) [] [] := by
  rw [openLoop, if_neg (by simp [h])]
  rfl

/-- It ends at a node that is not a directory, or in a directory where no entry has the empty name. -/
theorem openLoop_ends {dir' file' : Option Nat} {fname' : List (BitVec 8)}
    (h : fs.openLoop fuel (some n) (fs.finddirFs (some n) []) [] [] = some (dir', file', fname')) :
    fname' = [] ∧ (∀ m ∈ file', fs.IsDirectory m = false) ∧
      (file' = none → ∃ m, dir' = some m ∧ fs.finddirFs (some m) [] = none) := by
  induction fuel generalizing n with
  | zero => cases h
  | succ fuel ih =>
      by_cases hStop : ∀ m ∈ fs.finddirFs (some n) [], fs.IsDirectory m = false
      · rw [openLoop_stop hStop] at h
        cases h
        exact ⟨rfl, hStop, fun hNone => ⟨n, rfl, hNone⟩⟩
      · obtain ⟨m, hFound, hDirectory⟩ : ∃ m, fs.finddirFs (some n) [] = some m ∧
            fs.IsDirectory m = true := by
          cases hFound : fs.finddirFs (some n) [] with
          | none => exact absurd (by simp [hFound]) hStop
          | some m => exact ⟨m, rfl, by simpa [hFound] using hStop⟩
        rw [hFound, openLoop_enter hDirectory] at h
        exact ih h

theorem set_eq {v : VfsNode} (h : fs.node n = some v) : fs.set n v = fs := by
  rw [set, ← h, Function.update_eq_self]

/-- A directory has a node with the entries. -/
theorem isDirectory_iff : fs.IsDirectory n = true ↔ ∃ d, fs.node n = some (.directory d) := by
  rw [IsDirectory]
  cases fs.node n with
  | none => simp
  | some v => cases v <;> simp

/-- `opendir`. -/
theorem openNode_directory {d : Directory} (h : fs.node n = some (.directory d)) :
    fs.openNode flags n (some []) new grown = some (fs, n, 0) := by
  have hOpen : d.initrdOpen (nameMem []) 0 flags new grown = (d, none, 0) := if_pos rfl
  rw [openNode, h]
  dsimp only
  rw [Option.map_some, hOpen]
  dsimp only
  rw [set_eq h]

/-- A node that is not a directory stays the one that is open. -/
theorem openNode_other {name : Option (List (BitVec 8))} (h : fs.IsDirectory n = false) :
    ∃ fs' ret, fs.openNode flags n name new grown = some (fs', n, ret) ∧
      (flags &&& oCreat = 0 → ret = 0) := by
  rw [openNode]
  split
  next f hFile =>
    split
    next hBoth => exact ⟨fs, -eexist, rfl, fun hZero => absurd hZero hBoth.1⟩
    next =>
      split
      next => exact ⟨_, 0, rfl, fun _ => rfl⟩
      next => exact ⟨fs, 0, rfl, fun _ => rfl⟩
  next d hDirectory => exact absurd (isDirectory_iff.mpr ⟨d, hDirectory⟩) (by simp [h])
  next => exact ⟨fs, 0, rfl, fun _ => rfl⟩

/-- Without `O_CREAT` a directory does not get a file. -/
theorem openNode_missing {d : Directory} {name : List (BitVec 8)} (h : fs.node n = some (.directory d))
    (hName : nameMem name 0 ≠ 0) (hFlags : flags &&& oCreat = 0) :
    fs.openNode flags n (some name) new grown = some (fs, n, -enoent) := by
  have hOpen : d.initrdOpen (nameMem name) 0 flags new grown = (d, none, -enoent) := by
    unfold Directory.initrdOpen
    rw [if_neg hName, if_pos hFlags]
  rw [openNode, h]
  dsimp only
  rw [Option.map_some, hOpen]
  dsimp only
  rw [set_eq h]

/-- What `open_fs` does with the two nodes its loop ends with. -/
def finish (fs : FileSystem) (flags : BitVec 32) (new : Option Nat) (grown : Nat)
    (x : Option Nat × Option Nat × List (BitVec 8)) : Option (FileSystem × Option Nat × Int) :=
  match x with
  | (_, some file, _) => (fs.openNode flags file none new grown).map fun x => (x.1, some x.2.1, x.2.2)
  | (some dir, none, fname) =>
      (fs.openNode flags dir (some fname) new grown).map fun x => (x.1, some x.2.1, x.2.2)
  | (none, none, _) => some (fs, none, -enoent)

theorem openFs_eq (fuel : Nat) (path : List Component) : fs.openFs (fuel + path.length) flags
    (pathText path trailing) new grown =
      (fs.openLoop fuel (fs.parent path) (fs.target path) (lastName path) []).bind
        (fs.finish flags new grown) := by
  have hLoop : fs.openLoop (fuel + path.length) none (some fs.root) [] (body path trailing) = _ :=
    openLoop_path fuel path
  rw [← hLoop]
  rfl

/-- More rounds do not matter. -/
theorem openFs_mono {r : FileSystem × Option Nat × Int}
    (h : fs.openFs fuel flags (pathText path trailing) new grown = some r) :
    fs.openFs (fuel + path.length) flags (pathText path trailing) new grown = some r := by
  obtain ⟨x, hLoop, hFinish⟩ := Option.bind_eq_some_iff.mp h
  exact Option.bind_eq_some_iff.mpr ⟨x, openLoop_mono (Nat.le_add_right _ _) hLoop, hFinish⟩

/-- The two walkers agree on this path. -/
def Agrees (fs : FileSystem) (path : List Component) (trailing : Bool) : Prop :=
  (∀ n, fs.findnodeFs (pathText path trailing) = some (some n) →
    ∀ flags new grown, flags &&& (oCreat ||| oExcl ||| oTrunc) = 0 →
      ∃ fuel fs', fs.openFs fuel flags (pathText path trailing) new grown = some (fs', some n, 0)) ∧
  (fs.findnodeFs (pathText path trailing) = some none →
    ∀ flags new grown, flags &&& oCreat = 0 →
      ∃ fuel node ret, fs.openFs fuel flags (pathText path trailing) new grown = some (fs, node, ret) ∧
        ret < 0)

/-- A node that is found is opened exactly if no entry in it has the empty name. -/
theorem opens_iff (h : fs.target path = some n) (hCreat : flags &&& oCreat = 0) :
    (∃ fuel fs', fs.openFs fuel flags (pathText path trailing) new grown = some (fs', some n, 0)) ↔
      fs.finddirFs (some n) [] = none := by
  constructor
  · rintro ⟨fuel, fs', hOpen⟩
    by_contra hFound
    have hDirectory : fs.IsDirectory n = true := by
      by_contra hOther
      apply hFound
      rw [finddirFs, Option.bind_some]
      split
      next d hNode => exact absurd (isDirectory_iff.mpr ⟨d, hNode⟩) hOther
      next => rfl
    have hMore := openFs_mono hOpen
    rw [openFs_eq, h] at hMore
    obtain ⟨⟨dir', file', fname'⟩, hLoop, hFinish⟩ := Option.bind_eq_some_iff.mp hMore
    cases fuel with
    | zero => cases hLoop
    | succ fuel =>
        rw [openLoop_enter hDirectory] at hLoop
        obtain ⟨rfl, hStop, hEnd⟩ := openLoop_ends hLoop
        cases file' with
        | some m =>
            have hOther : fs.IsDirectory m = false := hStop m rfl
            obtain ⟨fs₁, ret, hNode, _⟩ := openNode_other hOther
            rw [finish, hNode] at hFinish
            cases hFinish
            exact absurd hDirectory (by simp [hOther])
        | none =>
            obtain ⟨m, rfl, hNone⟩ := hEnd rfl
            have hSame : m = n := by
              cases hKind : fs.IsDirectory m with
              | true =>
                  obtain ⟨d, hNode⟩ := isDirectory_iff.mp hKind
                  rw [finish, openNode_directory hNode] at hFinish
                  cases hFinish
                  rfl
              | false =>
                  obtain ⟨fs₁, ret, hNode, _⟩ := openNode_other hKind
                  rw [finish, hNode] at hFinish
                  cases hFinish
                  rfl
            exact hFound (hSame ▸ hNone)
  · intro hNone
    cases hKind : fs.IsDirectory n with
    | true =>
        obtain ⟨d, hNode⟩ := isDirectory_iff.mp hKind
        refine ⟨2 + path.length, fs, ?_⟩
        rw [openFs_eq, h, openLoop_enter hKind, hNone, openLoop_stop (by simp), Option.bind_some, finish,
          openNode_directory hNode]
        rfl
    | false =>
        obtain ⟨fs', ret, hNode, hRet⟩ := openNode_other hKind
        have hStop : ∀ m ∈ some n, fs.IsDirectory m = false := by simpa using hKind
        refine ⟨1 + path.length, fs', ?_⟩
        rw [openFs_eq, h, openLoop_stop hStop, Option.bind_some, finish, hNode, hRet hCreat]
        rfl

theorem lastName_ne_zero (h : path ≠ []) : nameMem (lastName path) 0 ≠ 0 := by
  have hLast : lastName path = (path.getLast h).chars := by
    rw [lastName, List.getLast?_eq_some_getLast h]
    rfl
  obtain ⟨x, chars, hChars⟩ := List.exists_cons_of_ne_nil (path.getLast h).nonempty
  rw [hLast, hChars]
  intro hZero
  have hx : x = 0 := hZero
  exact (path.getLast h).nonzero (hChars ▸ hx ▸ List.mem_cons_self)

/-- A path that leads nowhere is refused exactly if what is before its last component is a directory, or
nothing either. -/
theorem refuses_iff (h : fs.target path = none) (hFlags : flags &&& oCreat = 0) :
    (∃ fuel node ret, fs.openFs fuel flags (pathText path trailing) new grown = some (fs, node, ret) ∧
      ret < 0) ↔ ∀ n, fs.parent path = some n → fs.IsDirectory n = true := by
  have hPath : path ≠ [] := by
    rintro rfl
    cases h
  constructor
  · rintro ⟨fuel, node, ret, hOpen, hRet⟩ n hParent
    by_contra hKind
    have hMore := openFs_mono hOpen
    rw [openFs_eq, h, hParent] at hMore
    cases fuel with
    | zero => cases hMore
    | succ fuel =>
        obtain ⟨fs', ret', hNode, hZero⟩ := openNode_other (Bool.eq_false_iff.mpr hKind)
        rw [openLoop_stop (by simp), Option.bind_some, finish, hNode, hZero hFlags] at hMore
        cases hMore
        exact lt_irrefl 0 hRet
  · intro hKind
    cases hParent : fs.parent path with
    | none =>
        refine ⟨1 + path.length, none, -enoent, ?_, by decide⟩
        rw [openFs_eq, h, hParent, openLoop_stop (by simp)]
        rfl
    | some n =>
        obtain ⟨d, hNode⟩ := isDirectory_iff.mp (hKind n hParent)
        refine ⟨1 + path.length, some n, -enoent, ?_, by decide⟩
        rw [openFs_eq, h, hParent, openLoop_stop (by simp), Option.bind_some, finish,
          openNode_missing hNode (lastName_ne_zero hPath) hFlags]
        rfl

/-- The flags are clear one by one. -/
theorem clear_of_clear {a b : BitVec 32} (h : flags &&& a = 0) (hb : a &&& b = b) : flags &&& b = 0 := by
  rw [← hb, ← BitVec.and_assoc, h]
  exact BitVec.zero_and

/-- The walkers agree on a path unless it leads to a directory with an entry of the empty name, or
nowhere, with something before its last component that is not a directory. -/
theorem agrees_iff (fs : FileSystem) (path : List Component) (trailing : Bool) :
    fs.Agrees path trailing ↔
      (∀ n, fs.target path = some n → fs.finddirFs (some n) [] = none) ∧
        (fs.target path = none → ∀ n, fs.parent path = some n → fs.IsDirectory n = true) := by
  have hFind := findnodeFs_eq fs path trailing
  constructor
  · rintro ⟨hFound, hMissing⟩
    refine ⟨?_, ?_⟩
    · intro n hTarget
      exact (opens_iff hTarget (by decide)).mp
        (hFound n (hFind.trans (congrArg some hTarget)) 0 none 0 (by decide))
    · intro hTarget
      exact (refuses_iff hTarget (by decide)).mp
        (hMissing (hFind.trans (congrArg some hTarget)) 0 none 0 (by decide))
  · rintro ⟨hFound, hMissing⟩
    refine ⟨?_, ?_⟩
    · intro n hNode flags new grown hFlags
      have hTarget : fs.target path = some n := Option.some.inj (hFind.symm.trans hNode)
      exact (opens_iff hTarget (clear_of_clear hFlags (by decide))).mpr (hFound n hTarget)
    · intro hNode flags new grown hFlags
      have hTarget : fs.target path = none := Option.some.inj (hFind.symm.trans hNode)
      exact (refuses_iff hTarget hFlags).mpr (hMissing hTarget)

/-- The trees that `initrd_init` and the calls of `mkdir_fs` and `open_fs` build. -/
inductive Built : FileSystem → Prop
  | init (root : Nat) (node : Nat → Nat) : Built (initrdInit root node)
  | mount {fs : FileSystem} {mem : Nat → BitVec 8} {name : Nat} {s : List (BitVec 8)} (h : Built fs)
      (hName : Holds mem name s) (hs : s.length < maxFilename) (n : Nat) (bytes : DataBlock)
      (new : Option Nat) (grown : Nat) :
      Built (fs.enter n mem name new grown (.file (FileNode.mounted bytes)))
  | mkdir {fs : FileSystem} {name : List (BitVec 8)} (h : Built fs) (hName : 0 ∉ name)
      (hs : name.length < maxFilename) (n : Nat) (new block : Option Nat) (grown : Nat) :
      Built (fs.mkdirFs n name new block grown).1
  | opened {fs fs' : FileSystem} {fuel grown : Nat} {flags : BitVec 32} {path : List (BitVec 8)}
      {new node : Option Nat} {ret : Int} (h : Built fs) (hPath : 0 ∉ path)
      (hOpen : fs.openFs fuel flags path new grown = some (fs', node, ret)) : Built fs'

/-- "/var/log/x", where "/var/log" is the device of the kernel messages. -/
def belowLog : List Component :=
  [⟨text "var", by decide, by decide, by decide, by decide⟩,
    ⟨text "log", by decide, by decide, by decide, by decide⟩,
    ⟨text "x", by decide, by decide, by decide, by decide⟩]

theorem not_agrees : ¬ ∀ fs, Built fs → ∀ path trailing, fs.Agrees path trailing := by
  intro hAll
  have hMissing := (hAll _ (Built.init 1 (· + 2)) belowLog false).2
  have hTarget : (initrdInit 1 (· + 2)).target belowLog = none := by decide
  have hParent : (initrdInit 1 (· + 2)).parent belowLog = some 7 := by decide
  have hKind : (initrdInit 1 (· + 2)).IsDirectory 7 = false := by decide
  have hRefused := hMissing ((findnodeFs_eq _ _ _).trans (congrArg some hTarget)) 0 none 0 (by decide)
  exact absurd ((refuses_iff hTarget (by decide)).mp hRefused 7 hParent) (by simp [hKind])

end FileSystem
end ArtOS
