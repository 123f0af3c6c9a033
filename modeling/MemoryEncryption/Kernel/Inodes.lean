import MemoryEncryption.Kernel.Disk

/-!
# The inode cache

`iget`, `ilock`, `iput` and the other functions of `fs.c` on cached inodes, with one
device. A system call runs here from its start to its end before another one does. An
inode's lock is kept because a call can wait for one that it holds itself, which ends
as `Halt.endless`; an inode number past the inode blocks, which `ilock` would read
from whatever is stored there, ends as `Halt.outOfBounds`.
-/

namespace MemoryEncryption

/-- `NINODE`, the entries of the inode cache. -/
def nInode : Nat := 50

theorem nInode_pos : 0 < nInode := by decide

/-- `struct inode`. -/
structure Inode where
  /-- Inode number. -/
  inum : Nat
  /-- Reference count. -/
  ref : Int
  /-- The sleep lock is held. -/
  locked : Bool
  /-- The inode has been read from the disk. -/
  valid : Bool
  /-- Copy of the disk inode. -/
  copy : Dinode

/-- The disk and the inode cache over it. -/
structure Fs where
  /-- The disk. -/
  disk : Disk
  /-- `icache.inode`. -/
  icache : Fin nInode → Inode

namespace Fs

/-- Replace a cache entry. -/
def set (s : Fs) (k : Fin nInode) (entry : Inode) : Fs :=
  { s with icache := Function.update s.icache k entry }

/-- Change the reference count of a cache entry. -/
def addRef (s : Fs) (k : Fin nInode) (change : Int) : Fs :=
  s.set k { s.icache k with ref := (s.icache k).ref + change }

/-- The entry that holds the inode. -/
def cached (s : Fs) (inum : Nat) : Option (Fin nInode) :=
  (List.finRange nInode).find? fun k => 0 < (s.icache k).ref ∧ (s.icache k).inum = inum

/-- The first entry without references. -/
def emptyEntry (s : Fs) : Option (Fin nInode) :=
  (List.finRange nInode).find? fun k => (s.icache k).ref = 0

/-- `iget`. -/
def iget (s : Fs) (inum : Nat) : Except Halt (Fin nInode × Fs) :=
  match s.cached inum with
  | some k => pure (k, s.addRef k 1)
  | none =>
    match s.emptyEntry with
    | some k => pure (k, s.set k { s.icache k with inum, ref := 1, valid := false })
    | none => .error (.panic "iget: no inodes")

/-- `idup`. -/
def idup (s : Fs) (k : Fin nInode) : Fs := s.addRef k 1

/-- Read the inode from the disk, if necessary. -/
def load (s : Fs) (k : Fin nInode) : Except Halt Inode :=
  let ip := s.icache k
  if ip.valid then pure ip
  else if s.disk.sb.table ≤ ip.inum then .error .outOfBounds
  else if (s.disk.dinode ip.inum).type = .free then .error (.panic "ilock: no type")
  else pure { ip with valid := true, copy := s.disk.dinode ip.inum }

/-- `ilock`. -/
def ilock (s : Fs) (k : Fin nInode) : Except Halt Fs :=
  if (s.icache k).ref < 1 then .error (.panic "ilock")
  else if (s.icache k).locked then .error .endless
  else do
    let ip ← s.load k
    pure (s.set k { ip with locked := true })

/-- `iunlock`. -/
def iunlock (s : Fs) (k : Fin nInode) : Except Halt Fs :=
  if (s.icache k).locked = false ∨ (s.icache k).ref < 1 then .error (.panic "iunlock")
  else pure (s.set k { s.icache k with locked := false })

/-- Change the copy of an inode and write it to the disk with `iupdate`. -/
def update (s : Fs) (k : Fin nInode) (copy : Dinode) : Fs :=
  { s.set k { s.icache k with copy } with disk := s.disk.iupdate (s.icache k).inum copy }

/-- The last part of `iput` for an inode without links and without other references: truncate and
free it. -/
def release (s : Fs) (k : Fin nInode) : Except Halt Fs := do
  let ip := s.icache k
  let (copy, disk) ← s.disk.itrunc ip.inum ip.copy
  let copy := { copy with type := .free }
  pure ({ s with disk := disk.iupdate ip.inum copy }.set k { ip with copy, valid := false })

/-- `iput`. -/
def iput (s : Fs) (k : Fin nInode) : Except Halt Fs :=
  let ip := s.icache k
  if ip.locked then .error .endless
  else if ip.valid = true ∧ ip.copy.nlink = 0 ∧ ip.ref = 1 then do
    let s ← s.release k
    pure (s.addRef k (-1))
  else pure (s.addRef k (-1))

/-- `iunlockput`. -/
def iunlockput (s : Fs) (k : Fin nInode) : Except Halt Fs := do
  let s ← s.iunlock k
  s.iput k

/-- `ialloc`. -/
def ialloc (s : Fs) (type : FileType) : Except Halt (Fin nInode × Fs) :=
  match (List.range' 1 (s.disk.sb.ninodes - 1)).find? fun inum =>
      (s.disk.dinode inum).type = .free with
  | some inum => { s with disk := s.disk.iupdate inum { Dinode.zero with type } }.iget inum
  | none => .error (.panic "ialloc: no inodes")

/-- `itrunc`. -/
def itrunc (s : Fs) (k : Fin nInode) : Except Halt Fs := do
  let (copy, disk) ← s.disk.itrunc (s.icache k).inum (s.icache k).copy
  pure ({ s with disk }.set k { s.icache k with copy })

/-- `readi`. -/
def readi (s : Fs) (k : Fin nInode) (off n : Nat) : Except Halt (Option (List Byte) × Fs) := do
  let (bytes, copy, disk) ← s.disk.readi (s.icache k).copy off n
  pure (bytes, { s with disk }.set k { s.icache k with copy })

/-- `writei`. -/
def writei (s : Fs) (k : Fin nInode) (src : List Byte) (off : Nat) :
    Except Halt (Option Nat × Fs) := do
  let (r, copy, disk) ← s.disk.writei (s.icache k).inum (s.icache k).copy src off
  pure (r, { s with disk }.set k { s.icache k with copy })

end Fs

end MemoryEncryption
