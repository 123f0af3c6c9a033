import MemoryEncryption.Kernel.DiskFormat
import MemoryEncryption.Kernel.Log
import MemoryEncryption.Kernel.Names

/-!
# Making a file system

`mkfs.c`. The image starts as `FSSIZE` zeroed blocks; a read past them fails. What the
host returns for the reads of an input file is an argument. An assertion that fails and an
error of the host end the program with a message.
-/

namespace MemoryEncryption

/-- `NINODES`. -/
def nInodes : Nat := 200
/-- `nbitmap`. -/
def nBitmap : Nat := fsSize / (bsize * 8) + 1
/-- `ninodeblocks`. -/
def nInodeBlocks : Nat := nInodes / ipb + 1
/-- `nmeta`. -/
def nMeta : Nat := 2 + logSize + nInodeBlocks + nBitmap
/-- The character `_`. -/
def underscore : Byte := 95#8

/-- An input file. -/
structure HostFile where
  /-- The argument of `mkfs`. -/
  name : List Byte
  /-- What `read` returns, call by call, before it returns 0. -/
  reads : List (List Byte)

/-- `if(argv[i][0] == '_') ++argv[i]`. -/
def HostFile.stored (file : HostFile) : List Byte :=
  if file.name.head? = some underscore then file.name.tail else file.name

/-- The state of `mkfs`. -/
structure Mkfs where
  /-- The image. -/
  image : DiskImage
  /-- `freeinode`. -/
  freeinode : Nat
  /-- `freeblock`. -/
  freeblock : Nat

namespace Mkfs

/-- The superblock. -/
def sb : Superblock where
  size := fsSize
  ninodes := nInodes
  inodestart := 2 + logSize
  bmapstart := 2 + logSize + nInodeBlocks
  narrow := by decide
  roomy := by decide

/-- The words of `struct superblock`. -/
def sbWords : List Nat :=
  [sb.size, fsSize - nMeta, sb.ninodes, logSize, 2, sb.inodestart, sb.bmapstart]

/-- The block with the superblock. -/
def sbSector : Sector := fun k => .ofNat 8 (sbWords.getD (k / 4) 0 / 256 ^ (k % 4))

/-- The image with the superblock. -/
def start : Mkfs where
  image := Function.update (fun _ _ => 0) 1 sbSector
  freeinode := 1
  freeblock := nMeta

/-- `rsect`. -/
def rsect (m : Mkfs) (sec : Nat) : Except Halt Sector :=
  if sec < fsSize then pure (m.image sec) else .error (.panic "read")

/-- `wsect`. -/
def wsect (m : Mkfs) (sec : Nat) (buf : Sector) : Mkfs :=
  { m with image := Function.update m.image sec buf }

/-- `winode`. -/
def winode (m : Mkfs) (inum : Nat) (ip : Dinode) : Except Halt Mkfs := do
  let bn := sb.iblock inum
  let buf ← m.rsect bn
  pure (m.wsect bn (buf.setDinode (inum % ipb) ip))

/-- `rinode`. -/
def rinode (m : Mkfs) (inum : Nat) : Except Halt Dinode := do
  let bn := sb.iblock inum
  let buf ← m.rsect bn
  pure (buf.dinode (inum % ipb))

/-- `ialloc`. -/
def ialloc (m : Mkfs) (type : FileType) : Except Halt (Nat × Mkfs) := do
  let inum := m.freeinode
  let m := { m with freeinode := m.freeinode + 1 }
  let m ← m.winode inum { Dinode.zero with type, nlink := 1 }
  pure (inum, m)

/-- The part of `iappend` that allocates the indirect block. -/
def indirectBlock (m : Mkfs) (din : Dinode) : Dinode × Mkfs :=
  if din.addrs nDirect = 0 then
    (din.setAddr nDirect m.freeblock, { m with freeblock := m.freeblock + 1 })
  else (din, m)

/-- The part of `iappend` that finds the block `x` for `fbn`. -/
def findBlock (m : Mkfs) (din : Dinode) (fbn : Nat) : Except Halt (Nat × Dinode × Mkfs) :=
  if fbn < nDirect then
    if din.addrs fbn = 0 then
      pure (m.freeblock, din.setAddr fbn m.freeblock, { m with freeblock := m.freeblock + 1 })
    else pure (din.addrs fbn, din, m)
  else do
    let (din, m) := m.indirectBlock din
    let indirect ← m.rsect (din.addrs nDirect)
    if indirect.word (fbn - nDirect) = 0 then
      let x := m.freeblock
      let m := { m with freeblock := m.freeblock + 1 }
      pure (x, din, m.wsect (din.addrs nDirect) (indirect.setWord (fbn - nDirect) x))
    else pure (indirect.word (fbn - nDirect), din, m)

/-- The loop of `iappend`, of which each round copies at least one byte. -/
def appendLoop : Nat → Mkfs → Dinode → (off : Nat) → List Byte →
    Except Halt (Nat × Dinode × Mkfs)
  | 0, m, din, off, _ => pure (off, din, m)
  | rounds + 1, m, din, off, p =>
    if p = [] then pure (off, din, m)
    else
      let fbn := off / bsize
      if maxFile ≤ fbn then .error (.panic "fbn < MAXFILE")
      else do
        let (x, din, m) ← m.findBlock din fbn
        let n1 := min p.length ((fbn + 1) * bsize - off)
        let buf ← m.rsect x
        let m := m.wsect x (buf.write (off - fbn * bsize) (p.take n1))
        appendLoop rounds m din (off + n1) (p.drop n1)

/-- `iappend`. -/
def iappend (m : Mkfs) (inum : Nat) (p : List Byte) : Except Halt Mkfs := do
  let din ← m.rinode inum
  let (off, din, m) ← appendLoop p.length m din din.size p
  m.winode inum { din with size := off }

/-- `balloc`. -/
def balloc (m : Mkfs) (used : Nat) : Except Halt Mkfs :=
  if bsize * 8 ≤ used then .error (.panic "used < BSIZE*8")
  else
    pure (m.wsect sb.bmapstart
      ((List.range used).foldl
        (fun buf i => Function.update buf (i / 8) (buf (i / 8) ||| 1#8 <<< (i % 8))) fun _ => 0))

/-- The loop that copies an input file. -/
def copy (inum : Nat) : Mkfs → List (List Byte) → Except Halt Mkfs
  | m, [] => pure m
  | m, buf :: reads =>
    if buf = [] then pure m
    else do
      let m ← m.iappend inum buf
      copy inum m reads

/-- The loop over the input files. -/
def addFiles : Mkfs → List HostFile → Except Halt Mkfs
  | m, [] => pure m
  | m, file :: files =>
    if slash ∈ file.name then .error (.panic "index(argv[i], '/') == 0")
    else do
      let (inum, m) ← m.ialloc .file
      let m ← m.iappend rootIno (direntBytes file.stored inum)
      let m ← copy inum m file.reads
      addFiles m files

/-- The root directory with its two entries. -/
def makeRoot (m : Mkfs) : Except Halt Mkfs := do
  let (rootino, m) ← m.ialloc .dir
  if rootino ≠ rootIno then .error (.panic "rootino == ROOTINO")
  else do
    let m ← m.iappend rootino (direntBytes dot rootino)
    m.iappend rootino (direntBytes dotDot rootino)

/-- The last part of `main`: round up the size of the root directory, and write the bitmap. -/
def finish (m : Mkfs) : Except Halt Mkfs := do
  let din ← m.rinode rootIno
  let m ← m.winode rootIno { din with size := (din.size / bsize + 1) * bsize }
  m.balloc m.freeblock

/-- `main`: the image. -/
def main (files : List HostFile) : Except Halt DiskImage := do
  let m ← start.makeRoot
  let m ← m.addFiles files
  let m ← m.finish
  pure m.image

end Mkfs

end MemoryEncryption
