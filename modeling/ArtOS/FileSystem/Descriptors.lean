import ArtOS.FileSystem.RoundTrip
import ArtOS.FileSystem.Tree

/-! Several descriptors on one regular file. Each keeps its own offset, and each of them may cut the file
off. A write may have to do without blocks that `kmalloc` does not give. -/
namespace ArtOS

/-- `initrd_open` on a file. -/
def FileNode.initrdOpen (flags : BitVec 32) (f : FileNode) : FileNode × Int :=
  if flags &&& oCreat ≠ 0 ∧ flags &&& oExcl ≠ 0 then (f, -eexist)
  else if flags &&& oTrunc ≠ 0 then (f.truncate, 0)
  else (f, 0)

/-- It is the function `open` of the node. -/
theorem FileSystem.openNode_file {fs : FileSystem} {n grown : Nat} {f : FileNode} {flags : BitVec 32}
    {name : Option (List (BitVec 8))} {new : Option Nat} (h : fs.node n = some (.file f)) :
    fs.openNode flags n name new grown =
      some (fs.set n (.file (f.initrdOpen flags).1), n, (f.initrdOpen flags).2) := by
  have hSame : fs.set n (.file f) = fs := by
    rw [FileSystem.set, ← h, Function.update_eq_self]
  rw [openNode, h]
  dsimp only
  rw [FileNode.initrdOpen]
  split
  · rw [hSame]
  · split
    · rfl
    · rw [hSame]

/-- The part of an `fd_t` that these functions look at. -/
structure Descriptor where
  flags : BitVec 32
  offset : Nat

/-- One file, any number of descriptors on it, and the number of calls of `kmalloc` so far. -/
structure FileRun where
  file : FileNode
  desc : Nat → Descriptor
  calls : Nat

inductive FileCall where
  | initrdOpen (d : Nat) (flags : BitVec 32)
  | initrdRead (d size : Nat)
  | initrdWrite (d : Nat) (buffer : List (BitVec 8))

namespace FileRun

def setDesc (r : FileRun) (d : Nat) (x : Descriptor) : FileRun :=
  { r with desc := Function.update r.desc d x }

section Runs

-- If the call number `n` of `kmalloc` has an answer.
variable (answers : Nat → Bool) (fuel : Nat)

/-- The node is locked during a call. Without a result the call has divided by zero, has left a block, or
goes on getting block lists. -/
def exec (r : FileRun) : FileCall → Option FileRun
  | .initrdOpen d flags =>
      some (setDesc { r with file := (r.file.initrdOpen flags).1 } d { r.desc d with flags := flags })
  | .initrdRead d size =>
      (r.file.initrdRead (r.desc d).flags (r.desc d).offset size).map fun answer =>
        match answer with
        | .error _ => r
        | .ok bytes =>
            r.setDesc d { r.desc d with offset := Word.add (r.desc d).offset bytes.length }
  | .initrdWrite d buffer =>
      (r.file.initrdWrite answers fuel r.calls (r.desc d).flags (r.desc d).offset buffer).map
        fun (file, _, offset, calls) =>
          setDesc { r with file := file, calls := calls } d { r.desc d with offset := offset }

/-- A read does not divide by zero, and where the offset is at the end of the file or beyond it, the call
returns 0. A descriptor for writing is refused before that. -/
structure ReadsWell (r : FileRun) (d size : Nat) : Prop where
  divides : (r.desc d).offset ≠ 0 → r.file.blockSize ≠ 0
  ends : r.file.blockSize ≤ (r.desc d).offset →
    r.file.initrdRead (r.desc d).flags (r.desc d).offset size = some (.ok [])

/-- Every read of the run does well, unless it is refused. -/
def AllRead : FileRun → List FileCall → Prop
  | _, [] => True
  | r, call :: rest =>
      (∀ d size, call = .initrdRead d size → (r.desc d).flags &&& oWronly = 0 → r.ReadsWell d size) ∧
        ∀ r', r.exec answers fuel call = some r' → AllRead r' rest

/-- If the file is cut off after this call. A write of bytes makes it longer again, and one of no bytes does
so if it comes behind the start. -/
def cutAfter (cut : Bool) (r : FileRun) : FileCall → Bool
  | .initrdOpen _ flags =>
      cut || ((flags &&& oCreat = 0 ∨ flags &&& oExcl = 0) ∧ flags &&& oTrunc ≠ 0)
  | .initrdRead .. => cut
  | .initrdWrite d buffer =>
      let w : FileNode.Write := ⟨(r.desc d).flags, (r.desc d).offset, buffer⟩
      cut && Word.add (w.start r.file.blockSize) (w.count r.file.blockSize) = 0

/-- A descriptor reads a file that has been cut off from offset 0 only, and at the end of a file or behind
it, it does not come to one of the blocks that the pointers of the file lead to. -/
def Harmless (cut : Bool) (r : FileRun) (d size : Nat) : Prop :=
  (cut → (r.desc d).offset = 0) ∧
    (0 < size → 0 < r.file.blockSize → r.file.blockSize ≤ (r.desc d).offset →
      r.file.blocks.length ≤ (r.desc d).offset / r.file.blockSize)

def AllHarmless : Bool → FileRun → List FileCall → Prop
  | _, _, [] => True
  | cut, r, call :: rest =>
      (∀ d size, call = .initrdRead d size → (r.desc d).flags &&& oWronly = 0 → Harmless cut r d size) ∧
        ∀ r', r.exec answers fuel call = some r' → AllHarmless (cutAfter cut r call) r' rest

end Runs

/-- A file that has just been created or mounted, and descriptors at its start. -/
def Initial (r : FileRun) : Prop :=
  (∀ d, (r.desc d).offset = 0) ∧ (r.file = FileNode.created ∨ ∃ bytes, r.file = FileNode.mounted bytes)

/-- What follows from that if the file is cut off, and otherwise. -/
structure Follows (cut : Bool) (r : FileRun) : Prop where
  empty : cut = true → r.file.blockSize = 0
  uncut : cut = false → ∀ d, (r.desc d).offset ≠ 0 → r.file.blockSize ≠ 0

variable {answers : Nat → Bool} {fuel : Nat} {cut : Bool} {r r' : FileRun} {d size : Nat} {call : FileCall}

theorem setDesc_self (r : FileRun) (d : Nat) (x : Descriptor) : (r.setDesc d x).desc d = x :=
  Function.update_self ..

theorem setDesc_other {e : Nat} (h : e ≠ d) (r : FileRun) (x : Descriptor) :
    (r.setDesc d x).desc e = r.desc e :=
  Function.update_of_ne h ..

theorem Follows.divides (h : Follows cut r) :
    ((r.desc d).offset ≠ 0 → r.file.blockSize ≠ 0) ↔ (cut → (r.desc d).offset = 0) := by
  cases cut with
  | false => exact iff_of_true (h.uncut rfl d) (fun hTrue => absurd hTrue (by simp))
  | true =>
      have hEmpty := h.empty rfl
      constructor
      · intro hDivides _
        by_contra hOffset
        exact hDivides hOffset hEmpty
      · intro hZero hOffset
        exact absurd (hZero rfl) hOffset

/-- A read returns nothing exactly if there is no block for its offset, or no buffer. -/
theorem initrdRead_ends {f : FileNode} {flags : BitVec 32} {offset : Nat} (hFlags : flags &&& oWronly = 0)
    (hDivides : offset ≠ 0 → f.blockSize ≠ 0) :
    f.initrdRead flags offset size = some (.ok []) ↔
      (0 < size → 0 < f.blockSize → f.blocks.length ≤ offset / f.blockSize) := by
  have hDivides' : offset = 0 ∨ f.blockSize ≠ 0 := by omega
  cases hBlock : f.blocks[offset / f.blockSize]? with
  | none =>
      exact iff_of_true (FileNode.initrdRead_end hFlags hBlock hDivides')
        fun _ _ => List.getElem?_eq_none_iff.mp hBlock
  | some data =>
      have hIndex : offset / f.blockSize < f.blocks.length :=
        (List.getElem?_eq_some_iff.mp hBlock).1
      have hRead : f.initrdRead flags offset size = _ := FileNode.initrdRead_eq hFlags hBlock hDivides'
      obtain ⟨count, hCount⟩ : ∃ count, count =
        if f.blockSize ≤ Word.add (offset % f.blockSize) size then
          f.blockSize - offset % f.blockSize else size := ⟨_, rfl⟩
      dsimp only at hRead
      rw [← hCount] at hRead
      have hZero : count = 0 ↔ size = 0 ∨ f.blockSize = 0 := by
        by_cases hEmpty : f.blockSize = 0
        · rw [hEmpty, if_pos (Nat.zero_le _), Nat.zero_sub] at hCount
          exact iff_of_true hCount (Or.inr hEmpty)
        · have hStart := Nat.mod_lt offset (Nat.pos_of_ne_zero hEmpty)
          have hShort : size = 0 → Word.add (offset % f.blockSize) size < f.blockSize := by
            rintro rfl
            exact lt_of_le_of_lt (Nat.mod_le _ _) hStart
          rw [or_iff_left hEmpty, hCount]
          split <;> omega
      rw [hRead]
      by_cases hNone : count = 0
      · rw [hNone, if_neg (fun hOut => hOut.1 rfl), List.take_zero]
        refine iff_of_true rfl fun hSize hPos => ?_
        rcases hZero.mp hNone with hSize' | hEmpty <;> omega
      · have hSome : 0 < size ∧ 0 < f.blockSize := by
          by_contra hNot
          exact hNone (hZero.mpr (by omega))
        refine iff_of_false ?_ fun hFew => Nat.not_le_of_lt hIndex (hFew hSome.1 hSome.2)
        split
        · simp
        next hInside =>
          intro hNil
          have hLength := congrArg List.length (Except.ok.inj (Option.some.inj hNil))
          rw [List.length_take, List.length_drop, List.length_nil] at hLength
          unfold FileNode.Outside at hInside
          omega

theorem readsWell_iff (h : Follows cut r) (hFlags : (r.desc d).flags &&& oWronly = 0) :
    r.ReadsWell d size ↔ Harmless cut r d size := by
  rw [Harmless, ← h.divides]
  constructor
  · rintro ⟨hDivides, hEnds⟩
    exact ⟨hDivides, fun hSize hPos hEnd => (initrdRead_ends hFlags hDivides).mp (hEnds hEnd) hSize hPos⟩
  · rintro ⟨hDivides, hFew⟩
    exact ⟨hDivides, fun hEnd => (initrdRead_ends hFlags hDivides).mpr
      fun hSize hPos => hFew hSize hPos hEnd⟩

/-- A read that moves the offset has found a file that is not empty. -/
theorem initrdRead_nonempty {f : FileNode} {flags : BitVec 32} {offset : Nat} {bytes : List (BitVec 8)}
    (h : f.initrdRead flags offset size = some (.ok bytes)) (hSize : f.blockSize = 0) :
    offset = 0 ∧ bytes = [] := by
  rw [FileNode.initrdRead] at h
  split at h
  · cases h
  · split at h
    · cases h
    next hDivides =>
      refine ⟨by omega, ?_⟩
      dsimp only at h
      split at h
      · cases h
        rfl
      · rw [hSize, if_pos (Nat.zero_le _), Nat.zero_sub, if_neg (fun hOut => hOut.1 rfl)] at h
        cases h
        rfl

/-- The offsets change at one descriptor only, and stay within a file that has got longer. -/
theorem Follows.atDesc (h : Follows cut r) {x : Descriptor} (hSize : x.offset ≠ 0 → r.file.blockSize ≠ 0) :
    Follows cut (r.setDesc d x) := by
  refine ⟨h.empty, fun hCut e => ?_⟩
  by_cases he : e = d
  · rw [he, setDesc_self]
    exact hSize
  · rw [setDesc_other he]
    exact h.uncut hCut e

theorem Follows.initrdOpen (h : Follows cut r) (d : Nat) (flags : BitVec 32) :
    Follows (cutAfter cut r (.initrdOpen d flags))
      (setDesc { r with file := (r.file.initrdOpen flags).1 } d { r.desc d with flags := flags }) := by
  by_cases hCuts : (flags &&& oCreat = 0 ∨ flags &&& oExcl = 0) ∧ flags &&& oTrunc ≠ 0
  · have hFile : (r.file.initrdOpen flags).1 = r.file.truncate := by
      rw [FileNode.initrdOpen, if_neg (fun hBoth => hCuts.1.elim hBoth.1 hBoth.2), if_pos hCuts.2]
    have hCut : cutAfter cut r (.initrdOpen d flags) = true := by
      rw [cutAfter, decide_eq_true hCuts, Bool.or_true]
    rw [hFile, hCut]
    exact ⟨fun _ => rfl, fun hFalse => absurd hFalse (by simp)⟩
  · have hFile : (r.file.initrdOpen flags).1 = r.file := by
      rw [FileNode.initrdOpen]
      split
      · rfl
      next hExists =>
        rw [if_neg fun hTrunc => hCuts ⟨by tauto, hTrunc⟩]
    have hCut : cutAfter cut r (.initrdOpen d flags) = cut := by
      rw [cutAfter, decide_eq_false hCuts, Bool.or_false]
    rw [hFile, hCut]
    cases hOld : cut with
    | true => exact ⟨fun _ => h.empty hOld, fun hFalse => absurd hFalse (by simp)⟩
    | false => exact (hOld ▸ h).atDesc ((hOld ▸ h).uncut rfl d)

theorem Follows.initrdRead (h : Follows cut r) {bytes : List (BitVec 8)}
    (hRead : r.file.initrdRead (r.desc d).flags (r.desc d).offset size = some (.ok bytes)) :
    Follows cut (r.setDesc d { r.desc d with offset := Word.add (r.desc d).offset bytes.length }) := by
  refine h.atDesc fun hOffset hEmpty => ?_
  obtain ⟨hZero, hNone⟩ := initrdRead_nonempty hRead hEmpty
  rw [hZero, hNone] at hOffset
  exact hOffset rfl

/-- What a write does to the lengths. -/
theorem initrdWrite_lengths {f file : FileNode} {calls count offset calls' : Nat} (w : FileNode.Write)
    (h : f.initrdWrite answers fuel calls w.flags w.offset w.buffer = some (file, count, offset, calls')) :
    offset = Word.add (w.start f.blockSize) (w.count f.blockSize) ∧
      file.blockSize = if f.blockSize < offset then offset else f.blockSize := by
  rw [FileNode.initrdWrite] at h
  have hStart : (if w.flags &&& oAppend ≠ 0 then f.blockSize else w.offset) = w.start f.blockSize := rfl
  dsimp only at h
  rw [hStart] at h
  split at h
  · cases h
  · obtain ⟨⟨lists, next, found⟩, _, hEq⟩ := Option.bind_eq_some_iff.mp h
    cases found with
    | none =>
        dsimp only at hEq
        split at hEq
        · cases hEq
        · cases hEq
          exact ⟨rfl, rfl⟩
    | some x =>
        dsimp only at hEq
        split at hEq
        · cases hEq
        · cases hEq
          exact ⟨rfl, rfl⟩

theorem Follows.initrdWrite (h : Follows cut r) {buffer : List (BitVec 8)} {file : FileNode}
    {count offset calls : Nat}
    (hWrite : r.file.initrdWrite answers fuel r.calls (r.desc d).flags (r.desc d).offset buffer =
      some (file, count, offset, calls)) :
    Follows (cutAfter cut r (.initrdWrite d buffer))
      (setDesc { r with file := file, calls := calls } d { r.desc d with offset := offset }) := by
  obtain ⟨hOffset, hSize⟩ := initrdWrite_lengths ⟨(r.desc d).flags, (r.desc d).offset, buffer⟩ hWrite
  have hCut : cutAfter cut r (.initrdWrite d buffer) = (cut && decide (offset = 0)) := by
    rw [cutAfter, hOffset]
  have hNew : offset ≠ 0 → file.blockSize ≠ 0 := by
    rw [hSize]
    split <;> omega
  rw [hCut]
  refine ⟨fun hBoth => ?_, fun hNot e => ?_⟩
  · obtain ⟨hOld, hZero⟩ := Bool.and_eq_true_iff.mp hBoth
    show file.blockSize = 0
    rw [hSize, of_decide_eq_true hZero, if_neg (Nat.not_lt_zero _), h.empty hOld]
  · show _ → file.blockSize ≠ 0
    by_cases he : e = d
    · rw [he, setDesc_self]
      exact hNew
    · rw [setDesc_other he]
      intro hNonzero
      cases hOld : cut with
      | false =>
          have hOldSize := h.uncut hOld e hNonzero
          rw [hSize]
          split <;> omega
      | true => exact hNew (by simpa [hOld] using hNot)

theorem Follows.exec (h : Follows cut r) (hExec : r.exec answers fuel call = some r') :
    Follows (cutAfter cut r call) r' := by
  cases call with
  | initrdOpen d flags =>
      cases hExec
      exact h.initrdOpen d flags
  | initrdRead d size =>
      obtain ⟨answer, hRead, rfl⟩ := Option.map_eq_some_iff.mp hExec
      cases answer with
      | error e => exact h
      | ok bytes => exact h.initrdRead hRead
  | initrdWrite d buffer =>
      obtain ⟨⟨file, count, offset, calls⟩, hWrite, rfl⟩ := Option.map_eq_some_iff.mp hExec
      exact h.initrdWrite hWrite

theorem Initial.follows (h : Initial r) : Follows false r :=
  ⟨fun hCut => absurd hCut (by simp), fun _ d hOffset => absurd (h.1 d) hOffset⟩

theorem Follows.allHarmless_iff (h : Follows cut r) (calls : List FileCall) :
    r.AllRead answers fuel calls ↔ AllHarmless answers fuel cut r calls := by
  induction calls generalizing cut r with
  | nil => exact Iff.rfl
  | cons call rest ih =>
      rw [AllRead, AllHarmless]
      refine and_congr ?_ (forall_congr' fun r' => forall_congr' fun hExec => ih (h.exec hExec))
      exact forall_congr' fun d => forall_congr' fun size => imp_congr_right fun _ =>
        forall_congr' fun hFlags => readsWell_iff h hFlags

/-- A new file with descriptors at its start. -/
def fresh : FileRun := ⟨FileNode.created, fun _ => ⟨0, 0⟩, 0⟩

theorem fresh_initial : Initial fresh :=
  ⟨fun _ => rfl, Or.inl rfl⟩

end FileRun
end ArtOS
