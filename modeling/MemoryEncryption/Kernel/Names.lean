import MemoryEncryption.Kernel.Inodes

/-!
# Directories and paths

The upper half of `fs.c`, and `create`, `link` and `unlink` of `sysfile.c`. Names and
paths are strings without their terminating zero. A process takes part with its
current directory only.
-/

namespace MemoryEncryption

/-- `DIRSIZ`, the bytes of a name in a directory entry. -/
def dirSiz : Nat := 14
/-- `sizeof(struct dirent)`. -/
def direntSize : Nat := 16
/-- `ROOTINO`, the inode number of the root directory. -/
def rootIno : Nat := 1
/-- The character `/`. -/
def slash : Byte := 47#8
/-- The name `.`. -/
def dot : List Byte := [46#8]
/-- The name `..`. -/
def dotDot : List Byte := [46#8, 46#8]

/-- The string in a name field: up to `DIRSIZ` bytes, or up to a zero byte. -/
def nameOf (field : List Byte) : List Byte := (field.take dirSiz).takeWhile (· ≠ 0)

/-- `namecmp(s, t) == 0`. -/
def sameName (s t : List Byte) : Bool := decide (nameOf s = nameOf t)

/-- `de.inum` of the bytes of a `struct dirent`. -/
def direntInum (bytes : List Byte) : Nat :=
  (bytes.getD 0 0).toNat + 256 * (bytes.getD 1 0).toNat

/-- `de.name` of the bytes of a `struct dirent`. -/
def direntName (bytes : List Byte) : List Byte := bytes.drop 2

/-- The bytes of a `struct dirent` after `strncpy(de.name, name, DIRSIZ)` and `de.inum = inum`. -/
def direntBytes (name : List Byte) (inum : Nat) : List Byte :=
  [.ofNat 8 inum, .ofNat 8 (inum / 256)] ++
    (nameOf name ++ List.replicate (dirSiz - (nameOf name).length) 0)

/-- `skipelem`: the next element of a path and the path after it. -/
def skipelem (path : List Byte) : Option (List Byte × List Byte) :=
  let path := path.dropWhile (· = slash)
  if path = [] then none
  else some ((path.takeWhile (· ≠ slash)).take dirSiz,
    (path.dropWhile (· ≠ slash)).dropWhile (· = slash))

namespace Fs

/-- `readi(dp, &de, off, sizeof(de))`, where a short read is a panic. -/
def readDirent (s : Fs) (dp : Fin nInode) (off : Nat) (message : String) :
    Except Halt (List Byte × Fs) := do
  let (bytes, s) ← s.readi dp off direntSize
  match bytes with
  | some bytes => if bytes.length = direntSize then pure (bytes, s) else .error (.panic message)
  | none => .error (.panic message)

/-- The loop of `dirlookup`, from the offset `off`. -/
def lookupLoop (dp : Fin nInode) (name : List Byte) :
    Nat → Fs → (off : Nat) → Except Halt (Option (Nat × Nat) × Fs)
  | 0, _, _ => .error .endless
  | rounds + 1, s, off =>
    if off < (s.icache dp).copy.size then do
      let (de, s) ← s.readDirent dp off "dirlookup read"
      if direntInum de ≠ 0 ∧ sameName name (direntName de) then pure (some (direntInum de, off), s)
      else lookupLoop dp name rounds s (off + direntSize)
    else pure (none, s)

/-- `dirlookup`: the inode found and the offset of its entry. -/
def dirlookup (s : Fs) (dp : Fin nInode) (name : List Byte) :
    Except Halt (Option (Fin nInode × Nat) × Fs) :=
  if (s.icache dp).copy.type ≠ .dir then .error (.panic "dirlookup not DIR")
  else do
    let (found, s) ← lookupLoop dp name ((s.icache dp).copy.size + 1) s 0
    match found with
    | none => pure (none, s)
    | some (inum, off) => do
      let (ip, s) ← s.iget inum
      pure (some (ip, off), s)

/-- The loop of `dirlink` that looks for an empty entry, from the offset `off`. -/
def emptyLoop (dp : Fin nInode) : Nat → Fs → (off : Nat) → Except Halt (Nat × Fs)
  | 0, _, _ => .error .endless
  | rounds + 1, s, off =>
    if off < (s.icache dp).copy.size then do
      let (de, s) ← s.readDirent dp off "dirlink read"
      if direntInum de = 0 then pure (off, s) else emptyLoop dp rounds s (off + direntSize)
    else pure (off, s)

/-- `dirlink`: whether it has added the entry. -/
def dirlink (s : Fs) (dp : Fin nInode) (name : List Byte) (inum : Nat) :
    Except Halt (Bool × Fs) := do
  let (found, s) ← s.dirlookup dp name
  match found with
  | some (ip, _) => do
    let s ← s.iput ip
    pure (false, s)
  | none => do
    let (off, s) ← emptyLoop dp ((s.icache dp).copy.size + 1) s 0
    let (r, s) ← s.writei dp (direntBytes name inum) off
    if r = some direntSize then pure (true, s) else .error (.panic "dirlink")

/-- The loop of `namex` from the inode `ip`: the inode found, with the last element of the path
when its parent directory is asked for. -/
def namexLoop (parent : Bool) :
    Nat → Fs → (ip : Fin nInode) → List Byte → (name : List Byte) →
      Except Halt (Option (Fin nInode × List Byte) × Fs)
  | 0, _, _, _, _ => .error .endless
  | rounds + 1, s, ip, path, name =>
    match skipelem path with
    | none =>
      if parent then do
        let s ← s.iput ip
        pure (none, s)
      else pure (some (ip, name), s)
    | some (name, path) => do
      let s ← s.ilock ip
      if (s.icache ip).copy.type ≠ .dir then do
        let s ← s.iunlockput ip
        pure (none, s)
      else if parent ∧ path = [] then do
        let s ← s.iunlock ip
        pure (some (ip, name), s)
      else do
        let (next, s) ← s.dirlookup ip name
        let s ← s.iunlockput ip
        match next with
        | none => pure (none, s)
        | some (next, _) => namexLoop parent rounds s next path name

/-- `namex` of a process with the current directory `cwd`. -/
def namex (s : Fs) (cwd : Fin nInode) (path : List Byte) (parent : Bool) :
    Except Halt (Option (Fin nInode × List Byte) × Fs) :=
  if path.head? = some slash then do
    let (ip, s) ← s.iget rootIno
    namexLoop parent (path.length + 1) s ip path []
  else namexLoop parent (path.length + 1) (s.idup cwd) cwd path []

/-- `namei`. -/
def namei (s : Fs) (cwd : Fin nInode) (path : List Byte) :
    Except Halt (Option (Fin nInode) × Fs) := do
  let (found, s) ← s.namex cwd path false
  pure (found.map Prod.fst, s)

/-- `nameiparent`: the parent directory and the last element. -/
def nameiparent (s : Fs) (cwd : Fin nInode) (path : List Byte) :
    Except Halt (Option (Fin nInode × List Byte) × Fs) := s.namex cwd path true

/-- The part of `create` for directories: count the link from `..` and make the entries `.` and
`..`. -/
def addDots (s : Fs) (dp ip : Fin nInode) : Except Halt Fs := do
  let s := s.update dp { (s.icache dp).copy with nlink := (s.icache dp).copy.nlink + 1 }
  let (first, s) ← s.dirlink ip dot (s.icache ip).inum
  if first = false then .error (.panic "create dots")
  else do
    let (second, s) ← s.dirlink ip dotDot (s.icache dp).inum
    if second = false then .error (.panic "create dots") else pure s

/-- `if(type == T_DIR)` before the entries `.` and `..`. -/
def dots (s : Fs) (dp ip : Fin nInode) (type : FileType) : Except Halt Fs :=
  if type = .dir then s.addDots dp ip else pure s

/-- The part of `create` after an inode has been allocated and locked: enter it into its
directory. -/
def enter (s : Fs) (dp ip : Fin nInode) (name : List Byte) (type : FileType)
    (major minor : BitVec 16) : Except Halt Fs := do
  let s := s.update ip { (s.icache ip).copy with major, minor, nlink := 1 }
  let s ← s.dots dp ip type
  let (entered, s) ← s.dirlink dp name (s.icache ip).inum
  if entered then pure s else .error (.panic "create: dirlink")

/-- `create`: the inode, locked. -/
def create (s : Fs) (cwd : Fin nInode) (path : List Byte) (type : FileType)
    (major minor : BitVec 16) : Except Halt (Option (Fin nInode) × Fs) := do
  let (parent, s) ← s.nameiparent cwd path
  match parent with
  | none => pure (none, s)
  | some (dp, name) => do
    let s ← s.ilock dp
    let (found, s) ← s.dirlookup dp name
    match found with
    | some (ip, _) => do
      let s ← s.iunlockput dp
      let s ← s.ilock ip
      if type = .file ∧ (s.icache ip).copy.type = .file then pure (some ip, s)
      else do
        let s ← s.iunlockput ip
        pure (none, s)
    | none => do
      let (ip, s) ← s.ialloc type
      let s ← s.ilock ip
      let s ← s.enter dp ip name type major minor
      let s ← s.iunlockput dp
      pure (some ip, s)

/-- The part of `link` after `ip->nlink++`: whether the entry has been added. -/
def linkEntry (s : Fs) (cwd ip : Fin nInode) (path : List Byte) : Except Halt (Bool × Fs) := do
  let (parent, s) ← s.nameiparent cwd path
  match parent with
  | none => pure (false, s)
  | some (dp, name) => do
    let s ← s.ilock dp
    let (entered, s) ← s.dirlink dp name (s.icache ip).inum
    let s ← s.iunlockput dp
    pure (entered, s)

/-- `link`: whether it succeeds. -/
def link (s : Fs) (cwd : Fin nInode) (old new : List Byte) : Except Halt (Bool × Fs) := do
  let (found, s) ← s.namei cwd old
  match found with
  | none => pure (false, s)
  | some ip => do
    let s ← s.ilock ip
    if (s.icache ip).copy.type = .dir then do
      let s ← s.iunlockput ip
      pure (false, s)
    else do
      let s := s.update ip { (s.icache ip).copy with nlink := (s.icache ip).copy.nlink + 1 }
      let s ← s.iunlock ip
      let (entered, s) ← s.linkEntry cwd ip new
      if entered then do
        let s ← s.iput ip
        pure (true, s)
      else do
        let s ← s.ilock ip
        let s := s.update ip { (s.icache ip).copy with nlink := (s.icache ip).copy.nlink - 1 }
        let s ← s.iunlockput ip
        pure (false, s)

/-- The loop of `isdirempty`, from the offset `off`. -/
def isdiremptyLoop (dp : Fin nInode) : Nat → Fs → (off : Nat) → Except Halt (Bool × Fs)
  | 0, _, _ => .error .endless
  | rounds + 1, s, off =>
    if off < (s.icache dp).copy.size then do
      let (de, s) ← s.readDirent dp off "isdirempty: readi"
      if direntInum de ≠ 0 then pure (false, s)
      else isdiremptyLoop dp rounds s (off + direntSize)
    else pure (true, s)

/-- `isdirempty`. -/
def isdirempty (s : Fs) (dp : Fin nInode) : Except Halt (Bool × Fs) :=
  isdiremptyLoop dp ((s.icache dp).copy.size + 1) s (2 * direntSize)

/-- The part of `unlink` after its tests: clear the entry and drop the links. -/
def removeEntry (s : Fs) (dp ip : Fin nInode) (off : Nat) : Except Halt Fs := do
  let (r, s) ← s.writei dp (List.replicate direntSize 0) off
  if r ≠ some direntSize then .error (.panic "unlink: writei")
  else do
    let s := if (s.icache ip).copy.type = .dir then
        s.update dp { (s.icache dp).copy with nlink := (s.icache dp).copy.nlink - 1 }
      else s
    let s ← s.iunlockput dp
    let s := s.update ip { (s.icache ip).copy with nlink := (s.icache ip).copy.nlink - 1 }
    s.iunlockput ip

/-- `!(ip->type == T_DIR && !isdirempty(ip))`. -/
def removable (s : Fs) (ip : Fin nInode) : Except Halt (Bool × Fs) :=
  if (s.icache ip).copy.type = .dir then s.isdirempty ip else pure (true, s)

/-- `unlink`: whether it succeeds. -/
def unlink (s : Fs) (cwd : Fin nInode) (path : List Byte) : Except Halt (Bool × Fs) := do
  let (parent, s) ← s.nameiparent cwd path
  match parent with
  | none => pure (false, s)
  | some (dp, name) => do
    let s ← s.ilock dp
    if sameName name dot ∨ sameName name dotDot then do
      let s ← s.iunlockput dp
      pure (false, s)
    else do
      let (found, s) ← s.dirlookup dp name
      match found with
      | none => do
        let s ← s.iunlockput dp
        pure (false, s)
      | some (ip, off) => do
        let s ← s.ilock ip
        if (s.icache ip).copy.nlink.toInt < 1 then .error (.panic "unlink: nlink < 1")
        else do
          let (empty, s) ← s.removable ip
          if empty then do
            let s ← s.removeEntry dp ip off
            pure (true, s)
          else do
            let s ← s.iunlockput ip
            let s ← s.iunlockput dp
            pure (false, s)

end Fs

end MemoryEncryption
