import ArtOS.FileSystem.Insertion
import ArtOS.FileSystem.RamdiskImage

/-! The files of a module, which `initrd_init` enters into the directory that the module names. They are
found there behind the mount point and a slash, unless there is a slash already. -/
namespace ArtOS

open ByteMemory CString FirstPlace

/-- The string at `a`, if it ends within the bound. -/
def stringAt (mem : Nat → BitVec 8) : Nat → Nat → Option (List (BitVec 8))
  | 0, _ => none
  | fuel + 1, a => if mem a = 0 then some [] else (stringAt mem fuel (a + 1)).map (mem a :: ·)

def bytesAt (mem : Nat → BitVec 8) (a n : Nat) : List (BitVec 8) := (List.range n).map fun i => mem (a + i)

namespace FileSystem

section Code

variable (mem : Nat → BitVec 8) (header : Nat)

/-- The node of a new file, but for the lock. -/
def mountedNode (fileDesc : Nat) : VfsNode :=
  .file (FileNode.mounted (bytesAt mem (header + load32 mem (fileDesc + 4)) (load32 mem fileDesc)))

variable (n : Nat) (answers : Nat → Option Nat × Nat)

/-- The loop over the files of a module from number `j` on. The answers of `kmalloc` are the new node, and
how many block lists there are before it fails. -/
def mountFiles : Nat → Nat → FileSystem → FileSystem
  | 0, _, fs => fs
  | left + 1, j, fs =>
      let fileDesc := header + sizeofInitrdHeader + sizeofInitrdFileDesc * j
      mountFiles left (j + 1)
        (fs.enter n mem (fileDesc + 8) (answers j).1 (answers j).2 (mountedNode mem header fileDesc))

end Code

/-- The loop over the modules in `initrd_init`, for one of them. -/
def mountModule (fs : FileSystem) (fuel : Nat) (mem : Nat → BitVec 8) (header : Nat)
    (answers : Nat → Option Nat × Nat) : Option FileSystem :=
  if load32 mem header ≠ initrdMagicNumber then some fs
  else
    (stringAt mem fuel (header + 8)).bind fun mountPoint =>
      (fs.findnodeFs mountPoint).map fun tmp =>
        match tmp with
        | none => fs
        | some n =>
            if fs.IsDirectory n then mountFiles mem header n answers (load32 mem (header + 4)) 0 fs else fs

end FileSystem

variable {mem mem' : Nat → BitVec 8} {a name name' new m n : Nat} {s t xs : List (BitVec 8)}

theorem stringAt_eq (h : Holds mem a s) : stringAt mem (s.length + 1) a = some s := by
  induction s generalizing a with
  | nil => exact if_pos h
  | cons c s ih =>
      rw [List.length_cons, stringAt, if_neg (h.1 ▸ h.2.1), ih h.2.2, h.1]
      rfl

theorem stringAt_holds {fuel : Nat} (h : stringAt mem fuel a = some s) : Holds mem a s := by
  induction fuel generalizing a s with
  | zero => cases h
  | succ fuel ih =>
      rw [stringAt] at h
      split at h
      next hEnd =>
        cases h
        exact hEnd
      next hChar =>
        obtain ⟨t, hRest, rfl⟩ := Option.map_eq_some_iff.mp h
        exact ⟨rfl, hChar, ih hRest⟩

theorem bytesAt_eq (h : Lies mem a xs) : bytesAt mem a xs.length = xs := by
  induction xs generalizing a with
  | nil => rfl
  | cons x xs ih =>
      rw [bytesAt, List.length_cons, List.range_succ_eq_map, List.map_cons, List.map_map, Nat.add_zero, h.1]
      refine congrArg (x :: ·) (Eq.trans ?_ (ih h.2))
      apply List.map_congr_left
      intro i _
      exact congrArg mem (by show a + (i + 1) = a + 1 + i; omega)

namespace Directory

variable {d d' : Directory}

/-- No entry in use has the name. -/
def Absent (d : Directory) (s : List (BitVec 8)) : Prop := ∀ e ∈ d.used, ¬ Holds e.name 0 s

/-- The number of free entries. -/
def room (d : Directory) : Nat := d.entries.countP fun e => !e.Used

/-- A free entry has become this one. -/
abbrev Fills (d d' : Directory) (s : List (BitVec 8)) (new : Nat) : Prop :=
  FilledFirst (fun e => e.vfsNode = none) (fun e => e.vfsNode = some new ∧ e.Named s) d.entries d'.entries

theorem finddir_absent (hName : Holds mem name s) (hs : s.length < maxFilename) (h : d.Absent s) :
    d.initrdFinddir mem name = none := by
  rw [initrdFinddir]
  cases hFind : d.entries.find? fun e => strncmp e.name mem 0 name maxFilename = 0 with
  | none => rfl
  | some e =>
      rw [Option.bind_some]
      by_contra hUsed
      have hMatch : strncmp e.name mem 0 name maxFilename = 0 := by simpa using List.find?_some hFind
      rw [strncmp_comm, strncmp_holds hName hs] at hMatch
      have hMem : e ∈ d.used :=
        List.mem_filter.mpr ⟨List.mem_of_find?_eq_some hFind, Option.isSome_iff_ne_none.mpr hUsed⟩
      exact h e hMem hMatch

/-- The search sees the string only. -/
theorem finddir_congr (h : Holds mem name s) (h' : Holds mem' name' s) (hs : s.length < maxFilename) :
    d.initrdFinddir mem name = d.initrdFinddir mem' name' := by
  rw [initrdFinddir, initrdFinddir]
  congr 2
  funext e
  apply decide_eq_decide.mpr
  rw [strncmp_comm, strncmp_holds h hs, strncmp_comm, strncmp_holds h' hs]

namespace Fills

variable (h : d.Fills d' s new)
include h

theorem absent (hAbsent : d.Absent t) (hOther : t ≠ s) : d'.Absent t := by
  obtain ⟨left, old, b, right, hBefore, hAfter, _, _, _, hNamed⟩ := h
  intro e he
  obtain ⟨hMem, hUsed⟩ := List.mem_filter.mp he
  rw [hAfter, List.mem_append, List.mem_cons] at hMem
  rcases hMem with hLeft | rfl | hRight
  · exact hAbsent e (List.mem_filter.mpr ⟨hBefore ▸ List.mem_append_left _ hLeft, hUsed⟩)
  · exact fun hHolds => hOther (hHolds.unique hNamed.1)
  · exact hAbsent e
      (List.mem_filter.mpr ⟨hBefore ▸ List.mem_append_right _ (List.mem_cons_of_mem _ hRight), hUsed⟩)

/-- What has been found is found. -/
theorem finddir_kept (hName : Holds mem name s) (hNone : d.initrdFinddir mem name = none)
    (hFound : d.initrdFinddir mem' name' = some m) : d'.initrdFinddir mem' name' = some m := by
  have hOther : ∀ b : Dirent, b.Named s → strncmp b.name mem' 0 name' maxFilename ≠ 0 := by
    intro b hNamed hMatch
    rw [strncmp_holds hNamed.1 hNamed.2] at hMatch
    rw [finddir_congr hName hMatch hNamed.2, hFound] at hNone
    cases hNone
  obtain ⟨left, old, b, right, hBefore, hAfter, _, hFree, _, hNamed⟩ := h
  rw [initrdFinddir, hBefore, List.find?_append] at hFound
  rw [initrdFinddir, hAfter, List.find?_append,
    List.find?_cons_of_neg (by simpa using hOther b hNamed)]
  cases hLeft : left.find? fun e => strncmp e.name mem' 0 name' maxFilename = 0 with
  | some e =>
      rw [hLeft] at hFound
      exact hFound
  | none =>
      rw [hLeft, Option.none_or] at hFound
      by_cases hOld : strncmp old.name mem' 0 name' maxFilename = 0
      · rw [List.find?_cons_of_pos (by simpa using hOld), Option.bind_some, hFree] at hFound
        cases hFound
      · rw [List.find?_cons_of_neg (by simpa using hOld)] at hFound
        exact hFound

theorem room : d.room = d'.room + 1 := by
  obtain ⟨left, old, b, right, hBefore, hAfter, _, hFree, hNode, _⟩ := h
  have hOld : (!old.Used) = true := by simp [Dirent.Used, hFree]
  have hNew : ¬ (!b.Used) = true := by simp [Dirent.Used, hNode]
  rw [Directory.room, Directory.room, hBefore, hAfter, List.countP_append, List.countP_append,
    List.countP_cons, List.countP_cons, if_pos hOld, if_neg hNew]
  rfl

theorem length_used : d'.used.length = d.used.length + 1 := by
  obtain ⟨e, _, hPerm⟩ := used_filled (fun e he => by rw [Dirent.Used, he.1]; rfl) h.filled
  rw [hPerm.length_eq, List.length_cons]

end Fills

theorem hasRoom_iff : Insertion.HasRoom d ↔ 0 < d.room := by
  rw [room, List.countP_pos_iff]
  simp [Insertion.HasRoom, Dirent.Used]

end Directory

/-- An entry before and behind: it is the same, or it was free and is that of a file. -/
def Entered (files : List RamdiskFile) (e e' : Dirent) : Prop :=
  e' = e ∨ e.vfsNode = none ∧ e'.vfsNode ≠ none ∧ ∃ f ∈ files, e'.Named f.name.chars

theorem Entered.trans {f : RamdiskFile} {files : List RamdiskFile} {e e₁ e₂ : Dirent} (h : Entered [f] e e₁)
    (hMore : Entered files e₁ e₂) : Entered (f :: files) e e₂ := by
  rcases h with rfl | ⟨hFree, hUsed, g, hg, hNamed⟩
  · exact hMore.imp_right fun hNew => ⟨hNew.1, hNew.2.1, hNew.2.2.imp fun g hg =>
      hg.imp_left (List.mem_cons_of_mem f)⟩
  · rcases hMore with rfl | ⟨hOther, _⟩
    · exact Or.inr ⟨hFree, hUsed, f, List.mem_cons_self, List.mem_singleton.mp hg ▸ hNamed⟩
    · exact absurd hOther hUsed

theorem entered_trans {f : RamdiskFile} {files : List RamdiskFile} {l l₁ l₂ : List Dirent}
    (h : List.Forall₂ (Entered [f]) l l₁) (hMore : List.Forall₂ (Entered files) l₁ l₂) :
    List.Forall₂ (Entered (f :: files)) l l₂ := by
  induction h generalizing l₂ with
  | nil =>
      cases hMore
      exact List.Forall₂.nil
  | cons hFirst _ ih =>
      cases hMore with
      | cons hSecond hRest => exact List.Forall₂.cons (hFirst.trans hSecond) (ih hRest)

theorem Directory.Fills.entered {f : RamdiskFile} {d d' : Directory} (h : d.Fills d' f.name.chars new) :
    List.Forall₂ (Entered [f]) d.entries d'.entries := by
  obtain ⟨left, old, b, right, hBefore, hAfter, _, hFree, hNode, hNamed⟩ := h
  rw [hBefore, hAfter]
  have hSame : ∀ l : List Dirent, List.Forall₂ (Entered [f]) l l :=
    fun l => List.forall₂_same.mpr fun e _ => Or.inl rfl
  refine List.rel_append (hSame left) (List.Forall₂.cons (Or.inr ⟨hFree, ?_, f, ?_, hNamed⟩) (hSame right))
  · rw [hNode]
    simp
  · exact List.mem_cons_self

namespace FileSystem

variable {fs fs' fs₁ fs₂ : FileSystem} {d d' : Directory} {files : List RamdiskFile} {f : RamdiskFile}
variable {answers : Nat → Option Nat × Nat} {header fileDesc j grown : Nat} {v : VfsNode}

/-- What can be found, and what is in the files, stays. -/
structure Extends (fs fs' : FileSystem) : Prop where
  root : fs'.root = fs.root
  finddir : ∀ node s m, fs.finddirFs node s = some m → fs'.finddirFs node s = some m
  file : ∀ m f, fs.node m = some (.file f) → fs'.node m = some (.file f)

theorem Extends.refl (fs : FileSystem) : Extends fs fs := ⟨rfl, fun _ _ _ h => h, fun _ _ h => h⟩

theorem Extends.trans (h : Extends fs fs₁) (h' : Extends fs₁ fs₂) : Extends fs fs₂ :=
  ⟨h'.root.trans h.root, fun node s m hFound => h'.finddir node s m (h.finddir node s m hFound),
    fun m f hFile => h'.file m f (h.file m f hFile)⟩

theorem finddirFs_directory (h : fs.node n = some (.directory d)) :
    fs.finddirFs (some n) s = d.initrdFinddir (nameMem s) 0 := by
  rw [finddirFs, Option.bind_some, h]

theorem holds_nameMem (f : RamdiskFile) : Holds (nameMem f.name.chars) 0 f.name.chars :=
  holds_getD fun _ hc hZero => f.name.nonzero (hZero ▸ hc)

/-- The directory and the new file behind one round of the loop. -/
abbrev entered (fs : FileSystem) (n : Nat) (d' : Directory) (new : Nat) (v : VfsNode) : FileSystem :=
  (fs.set n (.directory d')).set new v

theorem enter_fills (hNode : fs.node n = some (.directory d)) (hName : Holds mem name s)
    (hs : s.length < maxFilename) (hNone : d.initrdFinddir mem name = none) (hRoom : 0 < d.room) (new grown : Nat)
    (v : VfsNode) :
    ∃ d', d.Fills d' s new ∧ fs.enter n mem name (some new) grown v = fs.entered n d' new v := by
  have hCreated : (d.createEntry mem name new grown).2 = true := by
    rw [Directory.createEntry]
    split
    · rfl
    next hFull => exact absurd (Directory.hasRoom_iff.mpr hRoom) (Insertion.search_eq_none.mp hFull)
  refine ⟨(d.createEntry mem name new grown).1, Directory.createEntry_filledFirst hName hs hCreated, ?_⟩
  unfold enter
  rw [hNode]
  dsimp only
  rw [hNone, if_neg (by simp)]

section Entered

variable (hNode : fs.node n = some (.directory d)) (hNew : fs.node new = none)
include hNode hNew

theorem entered_directory : (fs.entered n d' new v).node n = some (.directory d') := by
  have hOther : n ≠ new := by
    rintro rfl
    rw [hNew] at hNode
    cases hNode
  show Function.update (Function.update fs.node n _) new _ n = _
  rw [Function.update_of_ne hOther, Function.update_self]

omit hNode in
theorem entered_other (hOther : m ≠ n) (hUsed : fs.node m ≠ none) :
    (fs.entered n d' new v).node m = fs.node m := by
  have hOld : m ≠ new := by
    rintro rfl
    exact hUsed hNew
  show Function.update (Function.update fs.node n _) new _ m = _
  rw [Function.update_of_ne hOld, Function.update_of_ne hOther]

theorem entered_extends (hFills : d.Fills d' s new) (hName : Holds mem name s)
    (hNone : d.initrdFinddir mem name = none) : fs.Extends (fs.entered n d' new v) := by
  refine ⟨rfl, ?_, ?_⟩
  · rintro (_ | k) t m hFound
    · cases hFound
    · by_cases hSame : k = n
      · subst hSame
        rw [finddirFs_directory hNode] at hFound
        rw [finddirFs_directory (entered_directory hNode hNew)]
        exact hFills.finddir_kept hName hNone hFound
      · have hUsed : fs.node k ≠ none := by
          intro hFree
          rw [finddirFs, Option.bind_some, hFree] at hFound
          cases hFound
        rw [finddirFs, Option.bind_some] at hFound ⊢
        rw [entered_other hNew hSame hUsed]
        exact hFound
  · intro m f hFile
    rw [entered_other hNew ?_ ?_, hFile]
    · rintro rfl
      rw [hFile] at hNode
      cases hNode
    · rw [hFile]
      simp

end Entered

/-- The files have been entered into the directory. -/
structure Enters (fs fs' : FileSystem) (n : Nat) (d d' : Directory) (files : List RamdiskFile) : Prop where
  extended : fs.Extends fs'
  directory : fs'.node n = some (.directory d')
  found : ∀ f ∈ files, ∃ m, fs'.finddirFs (some n) f.name.chars = some m ∧
    fs'.node m = some (.file (FileNode.mounted f.contents))
  used : d'.used.length = d.used.length + files.length
  entries : List.Forall₂ (Entered files) d.entries d'.entries
  others : ∀ m, m ≠ n → fs.node m ≠ none → fs'.node m = fs.node m

theorem Enters.nil (h : fs.node n = some (.directory d)) : fs.Enters fs n d d [] :=
  ⟨Extends.refl fs, h, fun _ hf => absurd hf List.not_mem_nil, rfl,
    List.forall₂_same.mpr fun _ _ => Or.inl rfl, fun _ _ _ => rfl⟩

theorem Enters.cons {d₁ : Directory} (h : fs.Enters fs₁ n d d₁ [f]) (hMore : fs₁.Enters fs' n d₁ d' files) :
    fs.Enters fs' n d d' (f :: files) := by
  refine ⟨h.extended.trans hMore.extended, hMore.directory, ?_, ?_, entered_trans h.entries hMore.entries, ?_⟩
  · rw [List.forall_mem_cons]
    refine ⟨?_, hMore.found⟩
    obtain ⟨m, hFound, hFile⟩ := h.found f List.mem_cons_self
    exact ⟨m, hMore.extended.finddir _ _ _ hFound, hMore.extended.file _ _ hFile⟩
  · rw [hMore.used, h.used, List.length_singleton, List.length_cons]
    omega
  · intro m hOther hUsed
    have hFirst : fs₁.node m = fs.node m := h.others m hOther hUsed
    rw [hMore.others m hOther (hFirst ▸ hUsed), hFirst]

/-- One round of the loop. -/
theorem enters_one (hNode : fs.node n = some (.directory d)) (hFile : Ramdisk.Describes mem header fileDesc f)
    (hAbsent : d.Absent f.name.chars) (hRoom : 0 < d.room) (hNew : fs.node new = none) (grown : Nat) :
    ∃ d', d.Fills d' f.name.chars new ∧
      fs.Enters (fs.enter n mem (fileDesc + 8) (some new) grown (mountedNode mem header fileDesc)) n d d' [f] ∧
      ∀ m, m ≠ new → fs.node m = none →
        (fs.enter n mem (fileDesc + 8) (some new) grown (mountedNode mem header fileDesc)).node m = none := by
  have hNone : d.initrdFinddir mem (fileDesc + 8) = none :=
    Directory.finddir_absent hFile.fname f.name.length hAbsent
  have hFileNode : mountedNode mem header fileDesc = .file (FileNode.mounted f.contents) := by
    rw [mountedNode, hFile.length, bytesAt_eq hFile.contents]
  obtain ⟨d', hFills, hEnter⟩ :=
    enter_fills hNode hFile.fname f.name.length hNone hRoom new grown (mountedNode mem header fileDesc)
  rw [hEnter, hFileNode]
  refine ⟨d', hFills, ⟨entered_extends hNode hNew hFills hFile.fname hNone, entered_directory hNode hNew, ?_,
    hFills.length_used, hFills.entered, fun m hOther hUsed => entered_other hNew hOther hUsed⟩, ?_⟩
  · rw [List.forall_mem_singleton]
    refine ⟨new, ?_, Function.update_self _ _ _⟩
    rw [finddirFs_directory (entered_directory hNode hNew)]
    exact Insertion.finddir_new hFills (holds_nameMem f)
      ((Directory.finddir_congr (holds_nameMem f) hFile.fname f.name.length).trans hNone)
  · intro m hOther hFree
    have hDirectory : m ≠ n := by
      rintro rfl
      rw [hFree] at hNode
      cases hNode
    show Function.update (Function.update fs.node n _) new _ m = _
    rw [Function.update_of_ne hOther, Function.update_of_ne hDirectory, hFree]

/-- `kmalloc` hands out memory for the files from number `j` on, each time another node and none that there
is already. -/
def Fresh (fs : FileSystem) (answers : Nat → Option Nat × Nat) (j left : Nat) : Prop :=
  ∀ i < left, ∃ m, (answers (j + i)).1 = some m ∧ fs.node m = none ∧ ∀ k < i, (answers (j + k)).1 ≠ some m

theorem Fresh.next {left : Nat} (h : fs.Fresh answers j (left + 1)) (hAnswer : (answers j).1 = some new)
    (hFree : ∀ m, m ≠ new → fs.node m = none → fs₁.node m = none) : fs₁.Fresh answers (j + 1) left := by
  have hShift : ∀ i, j + 1 + i = j + (i + 1) := fun i => by omega
  intro i hi
  obtain ⟨m, hm, hUnused, hOthers⟩ := h (i + 1) (Nat.succ_lt_succ hi)
  have hOther : m ≠ new := by
    rintro rfl
    exact hOthers 0 (Nat.succ_pos i) hAnswer
  refine ⟨m, ?_, hFree m hOther hUnused, ?_⟩
  · rw [hShift]
    exact hm
  · intro k hk
    rw [hShift]
    exact hOthers (k + 1) (Nat.succ_lt_succ hk)

/-- The loop over the files. -/
theorem mountFiles_enters (hNode : fs.node n = some (.directory d))
    (hFiles : ∀ i f, files[i]? = some f →
      Ramdisk.Describes mem header (header + sizeofInitrdHeader + sizeofInitrdFileDesc * (j + i)) f)
    (hNames : files.Pairwise fun f g => f.name.chars ≠ g.name.chars)
    (hAbsent : ∀ f ∈ files, d.Absent f.name.chars) (hRoom : files.length ≤ d.room)
    (hFresh : fs.Fresh answers j files.length) :
    ∃ d', fs.Enters (mountFiles mem header n answers files.length j fs) n d d' files := by
  induction files generalizing fs d j with
  | nil => exact ⟨d, Enters.nil hNode⟩
  | cons f files ih =>
      rw [List.forall_mem_cons] at hAbsent
      rw [List.pairwise_cons] at hNames
      rw [List.length_cons] at hRoom hFresh
      obtain ⟨new, hAnswer, hNew, _⟩ := hFresh 0 (Nat.succ_pos _)
      rw [Nat.add_zero] at hAnswer
      obtain ⟨d₁, hFills, hOne, hFree⟩ := enters_one hNode (hFiles 0 f rfl) hAbsent.1 (by omega) hNew (answers j).2
      rw [Nat.add_zero] at hOne hFree
      have hRest : ∀ i g, files[i]? = some g → Ramdisk.Describes mem header
          (header + sizeofInitrdHeader + sizeofInitrdFileDesc * (j + 1 + i)) g := by
        intro i g hg
        rw [show j + 1 + i = j + (i + 1) by omega]
        exact hFiles (i + 1) g hg
      obtain ⟨d', hMore⟩ := ih hOne.directory hRest hNames.2
        (fun g hg => hFills.absent (hAbsent.2 g hg) (Ne.symm (hNames.1 g hg)))
        (by rw [hFills.room] at hRoom; omega)
        (hFresh.next hAnswer hFree)
      rw [List.length_cons, mountFiles, hAnswer]
      exact ⟨d', hOne.cons hMore⟩

theorem findnodeLoop_none {fuel : Nat} {p : List (BitVec 8)} {ret : Option Nat}
    (h : fs.findnodeLoop fuel none p = some ret) : ret = none := by
  cases fuel with
  | zero => cases h
  | succ fuel =>
      rw [findnodeLoop, if_pos (Or.inr rfl)] at h
      exact (Option.some.inj h).symm

theorem findnodeLoop_step {fuel r : Nat} {p : List (BitVec 8)} (hp : p ≠ [])
    (hFits : (nextComponent p).1.length < maxFilename) :
    fs.findnodeLoop (fuel + 1) (some r) p =
      fs.findnodeLoop fuel (fs.finddirFs (some r) (nextComponent p).1) (nextComponent p).2 := by
  rw [findnodeLoop, if_neg (by simp [hp]), if_neg (Nat.not_le_of_lt hFits)]

/-- A path to a node leads on from there, if it has no slash at the end. -/
theorem findnodeLoop_append {fuel : Nat} {ret : Option Nat} {p : List (BitVec 8)} (hExt : fs.Extends fs')
    (h : fs.findnodeLoop fuel ret p = some (some n)) (hp : p ≠ []) (hSlash : p.getLast? ≠ some slash) :
    ∃ k ≤ p.length, ∀ more q,
      fs'.findnodeLoop (k + more) ret (p ++ slash :: q) = fs'.findnodeLoop more (some n) q := by
  induction fuel generalizing ret p with
  | zero => cases h
  | succ fuel ih =>
      cases ret with
      | none => exact absurd (findnodeLoop_none h) (by simp)
      | some r =>
          have hFits : (nextComponent p).1.length < maxFilename := by
            by_contra hLong
            rw [findnodeLoop, if_neg (by simp [hp]), if_pos (Nat.le_of_not_lt hLong)] at h
            cases h
          rw [findnodeLoop_step hp hFits] at h
          cases hFound : fs.finddirFs (some r) (nextComponent p).1 with
          | none =>
              rw [hFound] at h
              exact absurd (findnodeLoop_none h) (by simp)
          | some m =>
              rw [hFound] at h
              have hNext := hExt.finddir _ _ _ hFound
              obtain ⟨hNone, ⟨hPath, hEnd⟩ | hPath⟩ := nextComponent_cases p
              · -- the last component
                have hSame : m = n := by
                  rw [hEnd] at h
                  cases fuel with
                  | zero => cases h
                  | succ fuel =>
                      rw [findnodeLoop, if_pos (Or.inl rfl)] at h
                      exact Option.some.inj (Option.some.inj h)
                refine ⟨1, List.length_pos_iff.mpr hp, fun more q => ?_⟩
                have hComponent : nextComponent (p ++ slash :: q) = (p, q) := by
                  rw [← hPath] at hNone
                  exact nextComponent_append hNone (Or.inr ⟨q, rfl⟩)
                rw [← hPath] at hFits hNext
                rw [Nat.add_comm, findnodeLoop_step (by simp) (by rw [hComponent]; exact hFits), hComponent,
                  hNext, hSame]
              · have hRest : (nextComponent p).2 ≠ [] := by
                  intro hEmpty
                  rw [hEmpty] at hPath
                  rw [hPath] at hSlash
                  simp at hSlash
                have hLast : (nextComponent p).2.getLast? ≠ some slash := by
                  intro hEnd
                  apply hSlash
                  rw [hPath, List.getLast?_append, List.getLast?_cons, hEnd]
                  rfl
                obtain ⟨k, hk, hMore⟩ := ih h hRest hLast
                have hLength := congrArg List.length hPath
                rw [List.length_append, List.length_cons] at hLength
                refine ⟨k + 1, by omega, fun more q => ?_⟩
                have hComponent : nextComponent (p ++ slash :: q) =
                    ((nextComponent p).1, (nextComponent p).2 ++ slash :: q) := by
                  conv_lhs => rw [hPath, List.append_assoc]
                  exact nextComponent_append hNone (Or.inr ⟨_, rfl⟩)
                rw [Nat.add_right_comm, findnodeLoop_step (by simp) (by rw [hComponent]; exact hFits),
                  hComponent, hNext]
                exact hMore more q

/-- Each file is found behind the mount point, with its contents, and no other entry of the directory is
another one than before. -/
structure Mounted (fs fs' : FileSystem) (mountPoint : List (BitVec 8)) (n : Nat) (d : Directory)
    (files : List RamdiskFile) : Prop where
  found : ∀ f ∈ files, ∃ m file block, fs'.findnodeFs (mountPoint ++ slash :: f.name.chars) = some (some m) ∧
    fs'.node m = some (.file file) ∧ file.blockSize = f.contents.length ∧
      FileNode.slotAt file.lists 0 = some block ∧ f.contents <+: block
  entries : ∃ d', fs'.node n = some (.directory d') ∧ d'.used.length = d.used.length + files.length ∧
    List.Forall₂ (Entered files) d.entries d'.entries

/-- `make_initrd` writes an image, and `initrd_init` mounts its files, wherever it has been loaded to. -/
def Mounts (fs : FileSystem) (answers : Nat → Option Nat × Nat) (mountPoint : List (BitVec 8)) (n : Nat)
    (d : Directory) (files : List RamdiskFile) : Prop :=
  ∀ pad, ∃ image, Ramdisk.makeInitrd pad mountPoint files = some image ∧
    ∀ mem header, Lies mem header image → ∃ fuel fs', fs.mountModule fuel mem header answers = some fs' ∧
      Mounted fs fs' mountPoint n d files

theorem Enters.mounted {mountPoint : List (BitVec 8)} (h : fs.Enters fs' n d d' files)
    (hPath : fs.findnodeFs mountPoint = some (some n)) (hSlash : mountPoint.getLast? ≠ some slash) :
    fs.Mounted fs' mountPoint n d files := by
  refine ⟨fun f hf => ?_, d', h.directory, h.used, h.entries⟩
  obtain ⟨m, hFound, hFile⟩ := h.found f hf
  refine ⟨m, _, f.contents, ?_, hFile, rfl, rfl, List.prefix_refl _⟩
  cases mountPoint with
  | nil => cases hPath
  | cons first p =>
      have hRoot : first = slash := by
        by_contra hOther
        rw [findnodeFs, if_neg hOther] at hPath
        exact absurd (findnodeLoop_none hPath) (by simp)
      rw [findnodeFs, if_pos hRoot] at hPath
      have hp : p ≠ [] := by
        rintro rfl
        exact hSlash (congrArg some hRoot)
      have hEnd : p.getLast? ≠ some slash := by
        intro hLast
        rw [List.getLast?_cons, hLast] at hSlash
        exact hSlash rfl
      obtain ⟨k, hk, hMore⟩ := findnodeLoop_append h.extended hPath hp hEnd
      have hName : 0 < f.name.chars.length := List.length_pos_iff.mpr f.name.nonempty
      obtain ⟨more, hFuel⟩ : ∃ more, (p ++ slash :: f.name.chars).length + 1 = k + (more + 2) := by
        rw [List.length_append, List.length_cons]
        exact ⟨p.length + f.name.chars.length - k, by omega⟩
      have hBody : f.name.chars = body [f.name] false := by rw [body_single]; simp
      rw [List.cons_append, findnodeFs, if_pos hRoot, h.extended.root, hFuel, hMore, hBody,
        findnodeLoop_body (by simp), walk_cons, walk_nil, hFound]

/-- The mount point is a directory with room for the files and without their names. -/
structure Mountable (fs : FileSystem) (mountPoint : List (BitVec 8)) (n : Nat) (d : Directory)
    (files : List RamdiskFile) : Prop where
  path : fs.findnodeFs mountPoint = some (some n)
  node : fs.node n = some (.directory d)
  nonzero : 0 ∉ mountPoint
  names : files.Pairwise fun f g => f.name.chars ≠ g.name.chars
  absent : ∀ f ∈ files, d.Absent f.name.chars
  room : files.length ≤ d.room
  size : Ramdisk.imageSize files < 2 ^ 32

/-- The image that `make_initrd` writes is mounted by `initrd_init`. -/
theorem makeInitrd_mounts (fs : FileSystem) (n : Nat) (d : Directory) (mountPoint : List (BitVec 8))
    (files : List RamdiskFile) (answers : Nat → Option Nat × Nat)
    (h : fs.Mountable mountPoint n d files) (hLength : mountPoint.length < maxFilename)
    (hSlash : mountPoint.getLast? ≠ some slash) (hFiles : files ≠ [])
    (hBuffered : Ramdisk.Buffered (sizeofInitrdHeader + files.length * sizeofInitrdFileDesc) files)
    (hFresh : fs.Fresh answers 0 files.length) :
    fs.Mounts answers mountPoint n d files := by
  intro pad
  have hPath := h.path
  have hOptions : mountPoint ≠ text "-h" := by
    rintro rfl
    exact absurd (findnodeLoop_none hPath) (by simp)
  obtain ⟨image, hImage⟩ := Ramdisk.makeInitrd_total pad hFiles hOptions h.size hBuffered
  refine ⟨image, hImage, fun mem header hMem => ?_⟩
  have hSays := Ramdisk.makeInitrd_describing hImage h.size hMem hLength h.nonzero
  have hDescs : ∀ i f, files[i]? = some f → Ramdisk.Describes mem header
      (header + sizeofInitrdHeader + sizeofInitrdFileDesc * (0 + i)) f :=
    fun i f hf => (Nat.zero_add i).symm ▸ hSays.file i f hf
  obtain ⟨d', hEnters⟩ := mountFiles_enters h.node hDescs h.names h.absent h.room hFresh
  refine ⟨mountPoint.length + 1, _, ?_, hEnters.mounted hPath hSlash⟩
  have hDirectory : fs.IsDirectory n = true := isDirectory_iff.mpr ⟨d, h.node⟩
  rw [mountModule, if_neg (not_not_intro hSays.magic), stringAt_eq hSays.mountPoint, Option.bind_some, hPath,
    Option.map_some]
  dsimp only
  rw [if_pos hDirectory, hSays.nfiles]

/-- The result does not depend on the bound for the mount point. -/
theorem mountModule_unique {fuel fuel' : Nat} (h : fs.mountModule fuel mem header answers = some fs₁)
    (h' : fs.mountModule fuel' mem header answers = some fs₂) : fs₁ = fs₂ := by
  rw [mountModule] at h h'
  split at h
  next hMagic =>
    rw [if_pos hMagic] at h'
    exact Option.some.inj (h.symm.trans h')
  next hMagic =>
    rw [if_neg hMagic] at h'
    obtain ⟨s, hString, hMount⟩ := Option.bind_eq_some_iff.mp h
    obtain ⟨s', hString', hMount'⟩ := Option.bind_eq_some_iff.mp h'
    obtain rfl := (stringAt_holds hString).unique (stringAt_holds hString')
    exact Option.some.inj (hMount.symm.trans hMount')

/-- What the first file of an image at address 0 is found as. -/
def lookup (fs : FileSystem) (answers : Nat → Option Nat × Nat) (mountPoint : List (BitVec 8))
    (files : List RamdiskFile) : Option (Option Nat) :=
  (Ramdisk.makeInitrd (fun _ => 0) mountPoint files).bind fun image =>
    (fs.mountModule 256 (fun a => image.getD a 0) 0 answers).bind fun fs' =>
      files.head?.bind fun f => fs'.findnodeFs (mountPoint ++ slash :: f.name.chars)

theorem not_mounts_of_lookup {mountPoint : List (BitVec 8)} (h : fs.lookup answers mountPoint files = some none) :
    ¬ fs.Mounts answers mountPoint n d files := by
  intro hMounts
  obtain ⟨image, hImage, hAll⟩ := hMounts fun _ => 0
  obtain ⟨fuel, fs₁, hMount, hMounted⟩ := hAll (fun a => image.getD a 0) 0 (lies_getD fun i _ => by rw [Nat.zero_add])
  rw [lookup, hImage, Option.bind_some] at h
  obtain ⟨fs₂, hMount', hLookup⟩ := Option.bind_eq_some_iff.mp h
  obtain ⟨f, hFirst, hNone⟩ := Option.bind_eq_some_iff.mp hLookup
  obtain rfl := mountModule_unique hMount hMount'
  obtain ⟨m, _, _, hFound, _⟩ := hMounted.found f (List.mem_of_head? hFirst)
  rw [hNone] at hFound
  cases hFound

/-- The tree without modules. -/
def plainTree : FileSystem := initrdInit 1 (· + 2)

/-- The entries of a node. -/
def directoryOf (fs : FileSystem) (n : Nat) : Directory :=
  match fs.node n with
  | some (.directory d) => d
  | _ => ⟨[]⟩

/-- The name "a". -/
abbrev charsA : List (BitVec 8) := [0x61]

theorem charsA_nonempty : charsA ≠ [] := by decide

theorem charsA_length : charsA.length < maxFilename := by decide

theorem charsA_noSlash : slash ∉ charsA := by decide

theorem charsA_nonzero : 0 ∉ charsA := by decide

/-- The file "a" with these contents. -/
def fileA (contents : List (BitVec 8)) : RamdiskFile :=
  ⟨contents, charsA, charsA_nonempty, charsA_length, charsA_noSlash, charsA_nonzero⟩

abbrev charsB : List (BitVec 8) := [0x62]

/-- The file "b" with these contents. -/
def fileB (contents : List (BitVec 8)) : RamdiskFile :=
  ⟨contents, charsB, by decide, by decide, by decide, by decide⟩

/-- "/bin/./././" and so on, with `MAX_FILENAME` characters. -/
def longMountPoint : List (BitVec 8) := text "/bin" ++ (List.replicate 62 [slash, 0x2E]).flatten

theorem plainTree_mountable {mountPoint : List (BitVec 8)} {files : List RamdiskFile}
    (hPath : plainTree.findnodeFs mountPoint = some (some n)) (hDirectory : plainTree.IsDirectory n = true)
    (hZero : 0 ∉ mountPoint) (hNames : files.Pairwise fun f g => f.name.chars ≠ g.name.chars)
    (hAbsent : ∀ f ∈ files, ∀ e ∈ (plainTree.directoryOf n).used,
      strncmp e.name (nameMem f.name.chars) 0 0 maxFilename ≠ 0)
    (hRoom : files.length ≤ (plainTree.directoryOf n).room) (hSize : Ramdisk.imageSize files < 2 ^ 32) :
    plainTree.Mountable mountPoint n (plainTree.directoryOf n) files := by
  obtain ⟨d, hNode⟩ := isDirectory_iff.mp hDirectory
  have hOf : plainTree.directoryOf n = d := by rw [directoryOf, hNode]
  refine ⟨hPath, hOf ▸ hNode, hZero, hNames, ?_, hRoom, hSize⟩
  intro f hf e he hHolds
  exact hAbsent f hf e he (strncmp_comm.mp ((strncmp_holds (holds_nameMem f) f.name.length).mpr hHolds))

theorem root_mountable : plainTree.Mountable (text "/") 1 (plainTree.directoryOf 1) [fileA [0x61]] :=
  plainTree_mountable (by decide) (by decide) (by decide) (List.pairwise_singleton _ _)
    (by decide) (by decide) (by decide)

theorem bin_mountable {files : List RamdiskFile} (hNames : files.Pairwise fun f g => f.name.chars ≠ g.name.chars)
    (hAbsent : ∀ f ∈ files, ∀ e ∈ (plainTree.directoryOf 2).used,
      strncmp e.name (nameMem f.name.chars) 0 0 maxFilename ≠ 0)
    (hRoom : files.length ≤ (plainTree.directoryOf 2).room) (hSize : Ramdisk.imageSize files < 2 ^ 32) :
    plainTree.Mountable (text "/bin") 2 (plainTree.directoryOf 2) files :=
  plainTree_mountable (by decide) (by decide) (by decide) hNames hAbsent hRoom hSize

theorem longMountPoint_mountable :
    plainTree.Mountable longMountPoint 2 (plainTree.directoryOf 2) [fileA [0x61]] :=
  plainTree_mountable (by decide +kernel) (by decide) (by decide) (List.pairwise_singleton _ _)
    (by decide) (by decide) (by decide)

/-- The nodes of new files. -/
def newNodes (j : Nat) : Option Nat × Nat := (some (j + 8), 0)

theorem plainTree_fresh : plainTree.Fresh newNodes 0 2 := by
  have hFree : ∀ i < 2, (plainTree.node (i + 8)).isNone = true := by decide
  intro i hi
  refine ⟨i + 8, by rw [newNodes, Nat.zero_add], Option.isNone_iff_eq_none.mp (hFree i hi), ?_⟩
  intro k hk
  rw [newNodes, Nat.zero_add]
  exact fun hSame => by
    have hEqual := Option.some.inj hSame
    omega

/-- Two files in "/bin", the first of which does not fill its page. -/
theorem makeInitrd_mounts_bin :
    plainTree.Mounts newNodes (text "/bin") 2 (plainTree.directoryOf 2) [fileA [0x61], fileB [0x62, 0x63, 0x64]] :=
  makeInitrd_mounts plainTree 2 _ _ _ newNodes
    (bin_mountable (by decide) (by decide) (by decide) (by decide)) (by decide) (by decide)
    (by simp) ⟨fun _ => by simp [fileA], fun _ => by simp [fileB], trivial⟩ plainTree_fresh

/-- Mounted in the root, "a" is not "//a". A mount point that fills its array has no end there. Without
memory for the node there is no file, and without files there is no image; for an empty file that has to be
moved the image gets a byte from behind the buffer. -/
theorem not_mounts :
    (plainTree.Mountable (text "/") 1 (plainTree.directoryOf 1) [fileA [0x61]] ∧
      ¬ plainTree.Mounts newNodes (text "/") 1 (plainTree.directoryOf 1) [fileA [0x61]]) ∧
    (plainTree.Mountable longMountPoint 2 (plainTree.directoryOf 2) [fileA [0x61]] ∧
      ¬ plainTree.Mounts newNodes longMountPoint 2 (plainTree.directoryOf 2) [fileA [0x61]]) ∧
    (plainTree.Mountable (text "/bin") 2 (plainTree.directoryOf 2) [fileA [0x61]] ∧
      ¬ plainTree.Mounts (fun _ => (none, 0)) (text "/bin") 2 (plainTree.directoryOf 2) [fileA [0x61]]) ∧
    (plainTree.Mountable (text "/bin") 2 (plainTree.directoryOf 2) [fileA []] ∧
      ¬ plainTree.Mounts newNodes (text "/bin") 2 (plainTree.directoryOf 2) [fileA []]) ∧
    ¬ plainTree.Mounts newNodes (text "/bin") 2 (plainTree.directoryOf 2) [] := by
  refine ⟨⟨root_mountable, not_mounts_of_lookup (by decide +kernel)⟩,
    ⟨longMountPoint_mountable, not_mounts_of_lookup (by decide +kernel)⟩,
    ⟨bin_mountable (List.pairwise_singleton _ _) (by decide) (by decide) (by decide),
      not_mounts_of_lookup (by decide)⟩,
    ⟨bin_mountable (List.pairwise_singleton _ _) (by decide) (by decide) (by decide), ?_⟩, ?_⟩
  · intro h
    obtain ⟨image, hImage, _⟩ := h fun _ => 0
    have hNone : Ramdisk.makeInitrd (fun _ => 0) (text "/bin") [fileA []] = none := by decide
    cases hNone.symm.trans hImage
  · intro h
    obtain ⟨image, hImage, _⟩ := h fun _ => 0
    rw [Ramdisk.makeInitrd, if_pos (Or.inl rfl)] at hImage
    cases hImage

end FileSystem
end ArtOS
