import MemoryEncryption.Kernel.Disk
import MemoryEncryption.Kernel.Log

/-!
# Reading and writing open files

`fileread` and `filewrite` of `file.c` on an open file that stands for an inode. What
they do between `ilock` and `iunlock` is a section; `filewrite` is a loop of them, and
other processes may take sections of their own in between.
-/

namespace MemoryEncryption

/-- `max` of `filewrite`, the bytes of a section. -/
def maxWrite : Nat := (maxOpBlocks - 1 - 1 - 2) / 2 * 512

/-- `f->off += r`, for a result that is not negative. -/
def advance (off : Nat) (r : Option Nat) : Nat := (off + r.getD 0) % 2 ^ 32

namespace Disk

/-- The section of `filewrite` for the bytes that are left: what `writei` returns, and `f->off`,
the inode and the disk after it. -/
def writeSection (d : Disk) (inum : Nat) (ip : Dinode) (off : Nat) (src : List Byte) :
    Except Halt (Option Nat × Nat × Dinode × Disk) := do
  let (r, ip, d) ← d.writei inum ip (src.take maxWrite) off
  pure (r, advance off r, ip, d)

/-- The section of `fileread`: the bytes that `readi` returns, and `f->off`, the inode and the
disk after it. -/
def readSection (d : Disk) (ip : Dinode) (off n : Nat) :
    Except Halt (Option (List Byte) × Nat × Dinode × Disk) := do
  let (bytes, ip, d) ← d.readi ip off n
  pure (bytes, advance off (bytes.map List.length), ip, d)

/-- The loop of `filewrite` on the bytes that are left: whether all of them were written, and
`f->off`, the inode and the disk after it. Each round that does not end the loop writes at least
one byte. -/
def filewriteLoop : Nat → Disk → (inum : Nat) → Dinode → (off : Nat) → List Byte →
    Except Halt (Bool × Nat × Dinode × Disk)
  | 0, d, _, ip, off, src => pure (src.isEmpty, off, ip, d)
  | rounds + 1, d, inum, ip, off, src =>
    if src = [] then pure (true, off, ip, d)
    else do
      let (r, off, ip, d) ← d.writeSection inum ip off src
      match r with
      | none => pure (false, off, ip, d)
      | some r =>
        if r = (src.take maxWrite).length then
          filewriteLoop rounds d inum ip off (src.drop maxWrite)
        else .error (.panic "short filewrite")

/-- `filewrite` of `n` bytes on an inode: its result, `none` for -1, and `f->off`, the inode and
the disk after it. -/
def filewrite (d : Disk) (inum : Nat) (ip : Dinode) (off : Nat) (src : List Byte) :
    Except Halt (Option Nat × Nat × Dinode × Disk) := do
  let (all, off, ip, d) ← filewriteLoop src.length d inum ip off src
  pure (if all then some src.length else none, off, ip, d)

end Disk

/-! ## Processes that share an open file -/

/-- A section that has written or read bytes, and where `f->off` was. -/
structure FileSection (procs : Nat) where
  /-- The process that took the inode's lock. -/
  proc : Fin procs
  /-- `f->off` at the start of the section. -/
  start : Nat
  /-- The bytes written or read. -/
  bytes : List Byte
  /-- The section is one of `filewrite`. -/
  wrote : Bool
  deriving DecidableEq, Repr

/-- Where a process is in its calls. -/
inductive FileCall (procs : Nat) where
  /-- In no call. -/
  | idle
  /-- In `filewrite` of the bytes `src`, between two sections, with the bytes that are left and
  the sections that it has taken. -/
  | writing (src rest : List Byte) (taken : List (FileSection procs))
  deriving DecidableEq, Repr

/-- A call of `filewrite` that returned the number of bytes. -/
structure DoneWrite (procs : Nat) where
  /-- The process that made the call. -/
  proc : Fin procs
  /-- The bytes of the call. -/
  src : List Byte
  /-- The sections of the call. -/
  taken : List (FileSection procs)
  deriving DecidableEq, Repr

/-- One `struct file` of type `FD_INODE`, and the processes that have it open. The sections, in the
order in which they took the inode's lock, and the finished writes are kept for the statements
of results. -/
structure SharedFile (procs : Nat) where
  /-- The disk. -/
  disk : Disk
  /-- `f->ip->inum`. -/
  inum : Nat
  /-- The in-memory copy of the inode. -/
  ip : Dinode
  /-- `f->off`. -/
  off : Nat
  /-- `f->readable`. -/
  readable : Bool
  /-- `f->writable`. -/
  writable : Bool
  /-- Where the processes are. -/
  call : Fin procs → FileCall procs
  /-- The sections that wrote or read bytes. -/
  sections : List (FileSection procs)
  /-- The writes that returned the number of their bytes. -/
  written : List (DoneWrite procs)

/-- What a process can do with the file. -/
inductive FileEvent (procs : Nat) where
  /-- Call `filewrite`. -/
  | filewrite (p : Fin procs) (src : List Byte)
  /-- Take the next section of the `filewrite` it is in. -/
  | next (p : Fin procs)
  /-- Call `fileread`. -/
  | fileread (p : Fin procs) (n : Word)

namespace SharedFile

variable {procs : Nat}

/-- The test of the loop of `filewrite`. -/
def proceed (s : SharedFile procs) (p : Fin procs) (src rest : List Byte)
    (taken : List (FileSection procs)) : SharedFile procs :=
  if rest = [] then
    { s with call := Function.update s.call p .idle, written := s.written ++ [⟨p, src, taken⟩] }
  else { s with call := Function.update s.call p (.writing src rest taken) }

/-- A step of a process. A process in `filewrite` makes no other call. -/
def step (s : SharedFile procs) : FileEvent procs → Except Halt (SharedFile procs)
  | .filewrite p src =>
    match s.call p with
    | .idle => pure (if s.writable then s.proceed p src src [] else s)
    | .writing .. => pure s
  | .next p =>
    match s.call p with
    | .idle => pure s
    | .writing src rest taken => do
      let (r, off, ip, disk) ← s.disk.writeSection s.inum s.ip s.off rest
      match r with
      | none => pure { s with disk, ip, off, call := Function.update s.call p .idle }
      | some r =>
        if r = (rest.take maxWrite).length then
          let last : FileSection procs := ⟨p, s.off, rest.take maxWrite, true⟩
          pure ({ s with disk, ip, off, sections := s.sections ++ [last] }.proceed p src
            (rest.drop maxWrite) (taken ++ [last]))
        else .error (.panic "short filewrite")
  | .fileread p n =>
    match s.call p with
    | .idle =>
      if s.readable then do
        let (bytes, off, ip, disk) ← s.disk.readSection s.ip s.off n.toNat
        match bytes with
        | none => pure { s with disk, ip, off }
        | some bytes =>
          pure { s with disk, ip, off, sections := s.sections ++ [⟨p, s.off, bytes, false⟩] }
      else pure s
    | .writing .. => pure s

end SharedFile

end MemoryEncryption
