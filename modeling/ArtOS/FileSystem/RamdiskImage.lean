import ArtOS.FileSystem.Walkers
import ArtOS.Library.ByteMemory

/-! `make_initrd`, which writes the image of a ramdisk: a header, a descriptor for each file, and the files
at offsets that are multiples of `PAGE_SIZE`. What it fills the gaps with is what the buffer of the next
file happens to hold; that of an empty file holds nothing. -/
namespace ArtOS

open ByteMemory CString

abbrev initrdMagicNumber : Nat := 0x4711

/-- `sizeof(initrd_header_t)` and `sizeof(initrd_file_desc_t)`. -/
abbrev sizeofInitrdHeader : Nat := 136
abbrev sizeofInitrdFileDesc : Nat := 136

/-- A file that is to be mounted under this name. -/
structure RamdiskFile where
  contents : List (BitVec 8)
  name : Component

structure InitrdFileDesc where
  length : Nat
  offset : Nat
  fname : List (BitVec 8)

def InitrdFileDesc.bytes (desc : InitrdFileDesc) : List (BitVec 8) :=
  bytes32 desc.length ++ bytes32 desc.offset ++ desc.fname

/-- What `strncpy` leaves in an array of `MAX_FILENAME` zeros. -/
def nameField (s : List (BitVec 8)) : List (BitVec 8) :=
  (s ++ List.replicate maxFilename 0).take maxFilename

namespace Ramdisk

def align (offset : Nat) : Nat :=
  if offset % pageSize ≠ 0 then offset + (pageSize - offset % pageSize) else offset

/-- The first loop of `main`. -/
def fileDescs : Nat → List RamdiskFile → List InitrdFileDesc
  | _, [] => []
  | offset, f :: files =>
      ⟨f.contents.length % 2 ^ 32, align offset % 2 ^ 32, nameField f.name.chars⟩ ::
        fileDescs (align offset + f.contents.length % 2 ^ 32) files

def headerBytes (mountPoint : List (BitVec 8)) (nfiles : Nat) : List (BitVec 8) :=
  bytes32 initrdMagicNumber ++ bytes32 nfiles ++ nameField mountPoint

/-- The second loop, at a position in the image; `pad i` is the first byte of the buffer of file `i`. -/
def writeFiles (pad : Nat → BitVec 8) : Nat → Nat → List (RamdiskFile × InitrdFileDesc) →
    Option (List (BitVec 8))
  | _, _, [] => some []
  | position, i, (f, desc) :: files =>
      if position < desc.offset ∧ desc.length = 0 then none
      else
        let gap := List.replicate (desc.offset - position) (pad i)
        let contents := f.contents.take desc.length
        (writeFiles pad (position + gap.length + contents.length) (i + 1) files).map fun rest =>
          gap ++ contents ++ rest

/-- Without a file it prints its options. -/
def makeInitrd (pad : Nat → BitVec 8) (mountPoint : List (BitVec 8)) (files : List RamdiskFile) :
    Option (List (BitVec 8)) :=
  if files = [] ∨ mountPoint = FileSystem.text "-h" then none
  else
    let start := sizeofInitrdHeader + files.length * sizeofInitrdFileDesc
    let descs := fileDescs start files
    (writeFiles pad start 0 (files.zip descs)).map fun data =>
      headerBytes mountPoint files.length ++ descs.flatMap InitrdFileDesc.bytes ++ data

variable {mem : Nat → BitVec 8} {pad : Nat → BitVec 8} {base position offset i : Nat}
variable {files : List RamdiskFile} {f : RamdiskFile} {desc : InitrdFileDesc}
variable {s mountPoint data image : List (BitVec 8)}

theorem length_nameField (s : List (BitVec 8)) : (nameField s).length = maxFilename := by
  rw [nameField, List.length_take, List.length_append, List.length_replicate]
  omega

/-- A short name is followed by a zero. -/
theorem nameField_eq (h : s.length < maxFilename) :
    nameField s = s ++ 0 :: List.replicate (maxFilename - s.length - 1) 0 := by
  rw [nameField, List.take_append, List.take_of_length_le (Nat.le_of_lt h), List.take_replicate,
    Nat.min_eq_left (Nat.sub_le _ _)]
  apply congrArg
  rw [← List.replicate_succ]
  congr 1
  omega

theorem holds_nameField (h : Lies mem offset (nameField s)) (hs : ∀ c ∈ s, c ≠ 0)
    (hLength : s.length < maxFilename) : Holds mem offset s := by
  rw [nameField_eq hLength] at h
  exact h.holds hs

theorem align_ge (offset : Nat) : offset ≤ align offset := by
  rw [align]
  split <;> omega

theorem length_bytes (h : desc.fname.length = maxFilename) :
    desc.bytes.length = sizeofInitrdFileDesc := by
  rw [InitrdFileDesc.bytes, List.length_append, List.length_append, h]
  rfl

theorem length_fileDescs (offset : Nat) (files : List RamdiskFile) :
    (fileDescs offset files).length = files.length := by
  induction files generalizing offset with
  | nil => rfl
  | cons f files ih => rw [fileDescs, List.length_cons, List.length_cons, ih]

/-- Descriptors in a row. -/
theorem lies_descs {descs : List InitrdFileDesc} (hNames : ∀ desc ∈ descs, desc.fname.length = maxFilename)
    (h : Lies mem base (descs.flatMap InitrdFileDesc.bytes)) (hDesc : descs[i]? = some desc) :
    Lies mem (base + sizeofInitrdFileDesc * i) desc.bytes := by
  induction descs generalizing base i with
  | nil => cases hDesc
  | cons first descs ih =>
      rw [List.flatMap_cons, lies_append, length_bytes (hNames first List.mem_cons_self)] at h
      cases i with
      | zero =>
          cases hDesc
          exact h.1
      | succ i =>
          have hRest := ih (fun d hd => hNames d (List.mem_cons_of_mem _ hd)) h.2 hDesc
          rw [Nat.mul_succ, Nat.add_comm (sizeofInitrdFileDesc * i), ← Nat.add_assoc]
          exact hRest

/-- The size of the image, whatever the size of a word. -/
def layoutEnd : Nat → List RamdiskFile → Nat
  | offset, [] => offset
  | offset, f :: files => layoutEnd (align offset + f.contents.length) files

theorem layoutEnd_ge (offset : Nat) (files : List RamdiskFile) : offset ≤ layoutEnd offset files := by
  induction files generalizing offset with
  | nil => exact le_rfl
  | cons f files ih =>
      rw [layoutEnd]
      have hAlign := align_ge offset
      have hRest := ih (align offset + f.contents.length)
      omega

/-- No word of a descriptor is cut off in an image of less than 4 GiB. -/
theorem fileDescs_cons (hSize : layoutEnd position (f :: files) < 2 ^ 32) :
    fileDescs position (f :: files) =
      ⟨f.contents.length, align position, nameField f.name.chars⟩ ::
        fileDescs (align position + f.contents.length) files := by
  rw [layoutEnd] at hSize
  have hEnd := layoutEnd_ge (align position + f.contents.length) files
  have hOffset : align position % 2 ^ 32 = align position := Nat.mod_eq_of_lt (by omega)
  have hLength : f.contents.length % 2 ^ 32 = f.contents.length := Nat.mod_eq_of_lt (by omega)
  rw [fileDescs, hOffset, hLength]

/-- No empty file has to be moved to the next multiple of `PAGE_SIZE`. -/
def Buffered : Nat → List RamdiskFile → Prop
  | _, [] => True
  | offset, f :: files =>
      (offset < align offset → f.contents ≠ []) ∧ Buffered (align offset + f.contents.length) files

/-- The two loops agree: each file lies where its descriptor says. -/
theorem writeFiles_lies (h : writeFiles pad position i (files.zip (fileDescs position files)) = some data)
    (hSize : layoutEnd position files < 2 ^ 32) (hMem : Lies mem (base + position) data) {j : Nat}
    (hFile : files[j]? = some f) :
    ∃ desc, (fileDescs position files)[j]? = some desc ∧ desc.length = f.contents.length ∧
      desc.length < 2 ^ 32 ∧ desc.offset < 2 ^ 32 ∧ desc.fname = nameField f.name.chars ∧
        Lies mem (base + desc.offset) f.contents := by
  induction files generalizing position i j data with
  | nil => cases hFile
  | cons first files ih =>
      rw [fileDescs_cons hSize, List.zip_cons_cons, writeFiles] at h
      rw [fileDescs_cons hSize]
      rw [layoutEnd] at hSize
      have hAlign := align_ge position
      have hEnd := layoutEnd_ge (align position + first.contents.length) files
      split at h
      · cases h
      · obtain ⟨rest, hRest, rfl⟩ := Option.map_eq_some_iff.mp h
        dsimp only at hRest hMem
        rw [List.take_length] at hRest hMem
        rw [List.length_replicate] at hRest
        rw [lies_append, lies_append, List.length_append, List.length_replicate] at hMem
        have hHere : base + position + (align position - position) = base + align position := by omega
        have hNext : position + (align position - position) + first.contents.length =
            align position + first.contents.length := by omega
        cases j with
        | zero =>
            cases hFile
            refine ⟨_, rfl, rfl, ?_, ?_, rfl, ?_⟩
            · dsimp only
              omega
            · dsimp only
              omega
            · rw [← hHere]
              exact hMem.1.2
        | succ j =>
            rw [hNext] at hRest
            have hMore : Lies mem (base + (align position + first.contents.length)) rest := by
              have hSum : base + (align position + first.contents.length) =
                  base + position + (align position - position + first.contents.length) := by omega
              rw [hSum]
              exact hMem.2
            exact ih hRest hSize hMore hFile

/-- Without a gap before an empty file nothing is read behind a buffer. -/
theorem writeFiles_total (pad : Nat → BitVec 8) (i : Nat) (hSize : layoutEnd position files < 2 ^ 32)
    (h : Buffered position files) :
    ∃ data, writeFiles pad position i (files.zip (fileDescs position files)) = some data := by
  induction files generalizing position i with
  | nil => exact ⟨[], rfl⟩
  | cons first files ih =>
      have hAlign := align_ge position
      have hNext : position + (align position - position) + first.contents.length =
          align position + first.contents.length := by omega
      obtain ⟨rest, hRest⟩ := ih (i + 1) hSize h.2
      rw [fileDescs_cons hSize, List.zip_cons_cons, writeFiles, if_neg]
      · dsimp only
        rw [List.take_length, List.length_replicate, hNext, hRest]
        exact ⟨_, rfl⟩
      · rintro ⟨hGap, hEmpty⟩
        exact h.1 hGap (List.length_eq_zero_iff.mp hEmpty)

theorem length_headerBytes (mountPoint : List (BitVec 8)) (nfiles : Nat) :
    (headerBytes mountPoint nfiles).length = sizeofInitrdHeader := by
  rw [headerBytes, List.length_append, List.length_append, length_nameField]
  rfl

theorem fname_fileDescs (offset : Nat) (files : List RamdiskFile) :
    ∀ desc ∈ fileDescs offset files, desc.fname.length = maxFilename := by
  induction files generalizing offset with
  | nil => simp [fileDescs]
  | cons f files ih =>
      rw [fileDescs, List.forall_mem_cons]
      exact ⟨length_nameField _, ih _⟩

theorem length_descs {descs : List InitrdFileDesc} (h : ∀ desc ∈ descs, desc.fname.length = maxFilename) :
    (descs.flatMap InitrdFileDesc.bytes).length = descs.length * sizeofInitrdFileDesc := by
  induction descs with
  | nil => rfl
  | cons desc descs ih =>
      rw [List.forall_mem_cons] at h
      rw [List.flatMap_cons, List.length_append, length_bytes h.1, ih h.2, List.length_cons, Nat.succ_mul,
        Nat.add_comm]

/-- What `initrd_init` reads in a descriptor, and where the file is. -/
structure Describes (mem : Nat → BitVec 8) (header desc : Nat) (f : RamdiskFile) : Prop where
  length : load32 mem desc = f.contents.length
  fname : Holds mem (desc + 8) f.name.chars
  contents : Lies mem (header + load32 mem (desc + 4)) f.contents

/-- What `initrd_init` reads in an image. -/
structure Describing (mem : Nat → BitVec 8) (header : Nat) (mountPoint : List (BitVec 8))
    (files : List RamdiskFile) : Prop where
  magic : load32 mem header = initrdMagicNumber
  nfiles : load32 mem (header + 4) = files.length
  mountPoint : Holds mem (header + 8) mountPoint
  file : ∀ j f, files[j]? = some f →
    Describes mem header (header + sizeofInitrdHeader + sizeofInitrdFileDesc * j) f

theorem describes_of_lies (hDesc : Lies mem position desc.bytes) (hLength : desc.length = f.contents.length)
    (hSmall : desc.length < 2 ^ 32) (hOffset : desc.offset < 2 ^ 32)
    (hName : desc.fname = nameField f.name.chars) (hFile : Lies mem (base + desc.offset) f.contents) :
    Describes mem base position f := by
  rw [InitrdFileDesc.bytes, lies_append, lies_append, hName] at hDesc
  obtain ⟨⟨hFirst, hSecond⟩, hThird⟩ := hDesc
  have hLoad : load32 mem (position + 4) = desc.offset := load32_lies hOffset hSecond
  refine ⟨(load32_lies hSmall hFirst).trans hLength, ?_, hLoad.symm ▸ hFile⟩
  exact holds_nameField hThird (fun c hc hZero => f.name.nonzero (hZero ▸ hc)) f.name.length

/-- The size of the image. -/
def imageSize (files : List RamdiskFile) : Nat :=
  layoutEnd (sizeofInitrdHeader + files.length * sizeofInitrdFileDesc) files

/-- The image says where the files are. -/
theorem makeInitrd_describing (h : makeInitrd pad mountPoint files = some image)
    (hSize : imageSize files < 2 ^ 32) (hMem : Lies mem base image)
    (hMount : mountPoint.length < maxFilename) (hZero : 0 ∉ mountPoint) :
    Describing mem base mountPoint files := by
  rw [makeInitrd] at h
  split at h
  · cases h
  · obtain ⟨data, hData, rfl⟩ := Option.map_eq_some_iff.mp h
    have hNames := fname_fileDescs (sizeofInitrdHeader + files.length * sizeofInitrdFileDesc) files
    have hFew := layoutEnd_ge (sizeofInitrdHeader + files.length * sizeofInitrdFileDesc) files
    have hCount : files.length ≤ files.length * sizeofInitrdFileDesc :=
      Nat.le_mul_of_pos_right _ (by decide)
    rw [imageSize] at hSize
    rw [lies_append, lies_append, List.length_append, length_headerBytes, length_descs hNames,
      length_fileDescs, headerBytes, lies_append, lies_append] at hMem
    obtain ⟨⟨⟨⟨hMagic, hFiles⟩, hPath⟩, hDescs⟩, hRest⟩ := hMem
    refine ⟨load32_lies (by decide) hMagic, load32_lies (by omega) hFiles, ?_, ?_⟩
    · exact holds_nameField hPath (fun c hc hNull => hZero (hNull ▸ hc)) hMount
    · intro j f hFile
      obtain ⟨desc, hDesc, hLength, hSmall, hOffset, hName, hContents⟩ :=
        writeFiles_lies hData hSize hRest hFile
      exact describes_of_lies (lies_descs hNames hDescs hDesc) hLength hSmall hOffset hName hContents

theorem makeInitrd_total (pad : Nat → BitVec 8) (hFiles : files ≠ []) (hOptions : mountPoint ≠ FileSystem.text "-h")
    (hSize : imageSize files < 2 ^ 32)
    (hBuffered : Buffered (sizeofInitrdHeader + files.length * sizeofInitrdFileDesc) files) :
    ∃ image, makeInitrd pad mountPoint files = some image := by
  obtain ⟨data, hData⟩ := writeFiles_total pad 0 hSize hBuffered
  rw [makeInitrd, if_neg (not_or.mpr ⟨hFiles, hOptions⟩)]
  dsimp only
  rw [hData]
  exact ⟨_, rfl⟩

end Ramdisk
end ArtOS
