import ArtOS.FileSystem.FileData

/-! The nodes of the file system, and the two functions that walk along a path. What `open`, `finddir`
and `mkdir` point to follows from the type of a node; an address without a node of one of these types
stands for one without these functions. -/
namespace ArtOS

open CString

abbrev oTrunc : BitVec 32 := 0x0400
abbrev oExcl : BitVec 32 := 0x0800

abbrev slash : BitVec 8 := 0x2F

inductive VfsNode where
  | file (f : FileNode)
  | directory (d : Directory)
  | charDevice

structure FileSystem where
  node : Nat → Option VfsNode
  root : Nat

/-- The array that holds a name. -/
def nameMem (name : List (BitVec 8)) (addr : Nat) : BitVec 8 := name.getD addr 0

/-- `initrd_open` on a file with `O_TRUNC`: the blocks are freed, but the first block list keeps its
pointers. -/
def FileNode.truncate (f : FileNode) : FileNode := ⟨0, f.lists.take 1⟩

namespace FileSystem

def set (fs : FileSystem) (n : Nat) (v : VfsNode) : FileSystem :=
  { fs with node := Function.update fs.node n (some v) }

def IsDirectory (fs : FileSystem) (n : Nat) : Bool :=
  match fs.node n with
  | some (.directory _) => true
  | _ => false

def finddirFs (fs : FileSystem) (node : Option Nat) (name : List (BitVec 8)) : Option Nat :=
  node.bind fun n =>
    match fs.node n with
    | some (.directory d) => d.initrdFinddir (nameMem name) 0
    | _ => none

/-- The next component of a path, and what is left behind it. -/
def nextComponent (path : List (BitVec 8)) : List (BitVec 8) × List (BitVec 8) :=
  (path.takeWhile (· ≠ slash), (path.dropWhile (· ≠ slash)).drop 1)

def findnodeLoop (fs : FileSystem) : Nat → Option Nat → List (BitVec 8) → Option (Option Nat)
  | 0, _, _ => none
  | fuel + 1, ret, path =>
      if path = [] ∨ ret = none then some ret
      else if maxFilename ≤ (nextComponent path).1.length then none
      else findnodeLoop fs fuel (fs.finddirFs ret (nextComponent path).1) (nextComponent path).2

/-- A path that is too long for `fname` has no result, and neither has the empty one. -/
def findnodeFs (fs : FileSystem) : List (BitVec 8) → Option (Option Nat)
  | [] => none
  | first :: path =>
      findnodeLoop fs (path.length + 1) (if first = slash then some fs.root else none) path

/-- The results are `dir_node`, `file_node` and `fname`. -/
def openLoop (fs : FileSystem) : Nat → Option Nat → Option Nat → List (BitVec 8) → List (BitVec 8) →
    Option (Option Nat × Option Nat × List (BitVec 8))
  | 0, _, _, _, _ => none
  | fuel + 1, dir, file, fname, path =>
      if path = [] ∧ ¬ file.any fs.IsDirectory then some (dir, file, fname)
      else if maxFilename ≤ (nextComponent path).1.length then none
      else
        openLoop fs fuel file (fs.finddirFs file (nextComponent path).1) (nextComponent path).1
          (nextComponent path).2

/-- The function `open` of a node; `new` and `grown` are the answers of `kmalloc`. The results are the
nodes, `file->node` and the returned value. Without a name there is no result for a directory. -/
def openNode (fs : FileSystem) (flags : BitVec 32) (n : Nat) (name : Option (List (BitVec 8)))
    (new : Option Nat) (grown : Nat) : Option (FileSystem × Nat × Int) :=
  match fs.node n with
  | some (.file f) =>
      if flags &&& oCreat ≠ 0 ∧ flags &&& oExcl ≠ 0 then some (fs, n, -eexist)
      else if flags &&& oTrunc ≠ 0 then some (fs.set n (.file f.truncate), n, 0)
      else some (fs, n, 0)
  | some (.directory d) =>
      name.map fun name =>
        let (d, node, ret) := d.initrdOpen (nameMem name) 0 flags new grown
        let fs := fs.set n (.directory d)
        match node with
        | none => (fs, n, ret)
        | some new => (fs.set new (.file FileNode.created), new, ret)
  | _ => some (fs, n, 0)

/-- The second result is `file->node`, if it has been set. -/
def openFs (fs : FileSystem) (fuel : Nat) (flags : BitVec 32) (path : List (BitVec 8))
    (new : Option Nat) (grown : Nat) : Option (FileSystem × Option Nat × Int) :=
  match path with
  | [] => none
  | first :: path =>
      (openLoop fs fuel none (if first = slash then some fs.root else none) [] path).bind fun x =>
        match x with
        | (_, some file, _) => (fs.openNode flags file none new grown).map fun x => (x.1, some x.2.1, x.2.2)
        | (some dir, none, fname) =>
            (fs.openNode flags dir (some fname) new grown).map fun x => (x.1, some x.2.1, x.2.2)
        | (none, none, _) => some (fs, none, -enoent)

def mkdirFs (fs : FileSystem) (n : Nat) (name : List (BitVec 8)) (new block : Option Nat) (grown : Nat) :
    FileSystem × Option Nat :=
  match fs.node n with
  | some (.directory d) =>
      let (d, node) := d.initrdMkdir (nameMem name) 0 new block grown
      let fs := fs.set n (.directory d)
      match node with
      | none => (fs, none)
      | some new => (fs.set new (.directory (Directory.fresh new n)), some new)
  | _ => (fs, none)

/-- A file, or the device of the kernel messages, that `initrd_init` enters into a directory under the
name at this address. -/
def enter (fs : FileSystem) (n : Nat) (mem : Nat → BitVec 8) (name : Nat) (new : Option Nat)
    (grown : Nat) (v : VfsNode) : FileSystem :=
  match fs.node n, new with
  | some (.directory d), some new =>
      if (d.initrdFinddir mem name).isSome then fs
      else (fs.set n (.directory (d.createEntry mem name new grown).1)).set new v
  | _, _ => fs

/-- A string literal of the source. -/
def text (s : String) : List (BitVec 8) := s.toList.map fun c => BitVec.ofNat 8 c.toNat

/-- `initrd_init` without modules; `node i` are the addresses of the new nodes. -/
def initrdInit (root : Nat) (node : Nat → Nat) : FileSystem :=
  let fs : FileSystem :=
    ⟨Function.update (fun _ => none) root (some (.directory (Directory.fresh root root))), root⟩
  let fs := (fs.mkdirFs root (text "bin") (some (node 0)) (some 0) 0).1
  let fs := (fs.mkdirFs root (text "sbin") (some (node 1)) (some 0) 0).1
  let fs := (fs.mkdirFs root (text "dev") (some (node 2)) (some 0) 0).1
  let fs := (fs.mkdirFs root (text "tmp") (some (node 3)) (some 0) 0).1
  let fs := (fs.mkdirFs root (text "var") (some (node 4)) (some 0) 0).1
  fs.enter (node 4) (nameMem (text "log")) 0 (some (node 5)) 0 .charDevice

end FileSystem
end ArtOS
