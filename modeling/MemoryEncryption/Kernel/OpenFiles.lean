import MemoryEncryption.Kernel.Names
import MemoryEncryption.Kernel.ProcessTable

/-!
# Open files

`file.c`, the functions on the ends of pipes in `pipe.c`, and the system calls of
`sysfile.c`, `fork`, `exit` and `exec` as far as they take and drop references to
open files and inodes. A call runs from its start to its end before another one
does. What calls copy from and to user memory, and what `exec` reads, is chosen by
the event that makes the call; so is the frame that `kalloc` returns for a pipe, and
whether there is memory for a new process.
-/

namespace MemoryEncryption

/-- `NFILE`, the open files of the system. -/
def nFile : Nat := 100
/-- `NOFILE`, the open files of a process. -/
def nOfile : Nat := 16
/-- `O_RDONLY`. -/
def oRdonly : Word := 0x000#32
/-- `O_WRONLY`. -/
def oWronly : Word := 0x001#32
/-- `O_RDWR`. -/
def oRdwr : Word := 0x002#32
/-- `O_CREATE`. -/
def oCreate : Word := 0x200#32

/-- The type of a `struct file`. -/
inductive FileKind where
  /-- `FD_NONE`. -/
  | none
  /-- `FD_PIPE`. -/
  | pipe
  /-- `FD_INODE`. -/
  | inode
  deriving DecidableEq, Repr

/-- `struct file`, as far as it decides what is referred to. -/
structure OpenFile where
  /-- What the file is. -/
  type : FileKind
  /-- Reference count. -/
  ref : Int
  /-- The file may be written; for a pipe, it is the write end. -/
  writable : Bool
  /-- The pipe of a file of type `FD_PIPE`, by its frame. -/
  pipe : Nat
  /-- The inode of a file of type `FD_INODE`. -/
  ip : Fin nInode

/-- The tables that all processes share. -/
structure FileTables where
  /-- The disk and the inode cache. -/
  fs : Fs
  /-- `ftable.file`. -/
  file : Fin nFile → OpenFile
  /-- The pipes, by the frame that holds each. -/
  pipes : Nat → Option Pipe

/-- The pipe after one of its ends is closed, if the other one is open. -/
def Pipe.close (pipe : Pipe) (writable : Bool) : Option Pipe :=
  let pipe := if writable then { pipe with writeopen := false }
    else { pipe with readopen := false }
  if pipe.readopen = false ∧ pipe.writeopen = false then none else some pipe

namespace FileTables

/-- Replace an open file. -/
def set (t : FileTables) (f : Fin nFile) (file : OpenFile) : FileTables :=
  { t with file := Function.update t.file f file }

/-- `filealloc`. -/
def filealloc (t : FileTables) : Option (Fin nFile × FileTables) :=
  match (List.finRange nFile).find? fun f => (t.file f).ref = 0 with
  | some f => some (f, t.set f { t.file f with ref := 1 })
  | none => none

/-- `filedup`. -/
def filedup (t : FileTables) (f : Fin nFile) : Except Halt FileTables :=
  if (t.file f).ref < 1 then .error (.panic "filedup")
  else pure (t.set f { t.file f with ref := (t.file f).ref + 1 })

/-- `pipeclose` of the pipe in the frame `b`. -/
def pipeclose (t : FileTables) (b : Nat) (writable : Bool) : Except Halt FileTables :=
  match t.pipes b with
  | none => .error .outOfBounds
  | some pipe => pure { t with pipes := Function.update t.pipes b (pipe.close writable) }

/-- `fileclose`. -/
def fileclose (t : FileTables) (f : Fin nFile) : Except Halt FileTables :=
  let ff := t.file f
  if ff.ref < 1 then .error (.panic "fileclose")
  else if 0 < ff.ref - 1 then pure (t.set f { ff with ref := ff.ref - 1 })
  else
    let t := t.set f { ff with ref := 0, type := .none }
    match ff.type with
    | .pipe => t.pipeclose ff.pipe ff.writable
    | .inode => do
      let fs ← t.fs.iput ff.ip
      pure { t with fs }
    | .none => pure t

/-- The part of `pipealloc` after its allocations: the files become the ends of the pipe. -/
def connect (t : FileTables) (b : Nat) (f0 f1 : Fin nFile) : FileTables :=
  let t := { t with pipes := Function.update t.pipes b (some ⟨true, true⟩) }
  let t := t.set f0 { t.file f0 with type := .pipe, writable := false, pipe := b }
  t.set f1 { t.file f1 with type := .pipe, writable := true, pipe := b }

/-- `pipealloc`, where `kalloc` returns the frame `page`. -/
def pipealloc (t : FileTables) (page : Option Nat) :
    Except Halt (Option (Fin nFile × Fin nFile) × FileTables) :=
  match t.filealloc with
  | none => pure (none, t)
  | some (f0, t) =>
    match t.filealloc with
    | none => do
      let t ← t.fileclose f0
      pure (none, t)
    | some (f1, t) =>
      match page with
      | none => do
        let t ← t.fileclose f0
        let t ← t.fileclose f1
        pure (none, t)
      | some b => pure (some (f0, f1), t.connect b f0 f1)

end FileTables

/-- What a process refers to. -/
structure FileProc where
  /-- `state`. -/
  state : ProcState
  /-- `ofile`. -/
  ofile : Fin nOfile → Option (Fin nFile)
  /-- `cwd`. -/
  cwd : Option (Fin nInode)

/-- The shared tables and the processes. -/
structure Files where
  /-- The shared tables. -/
  tables : FileTables
  /-- `ptable.proc`. -/
  proc : Fin nproc → FileProc
  /-- `initproc`. -/
  initproc : Fin nproc

namespace Files

/-- Replace the file system. -/
def setFs (s : Files) (fs : Fs) : Files := { s with tables := { s.tables with fs } }

/-- Replace a process. -/
def setProc (s : Files) (p : Fin nproc) (proc : FileProc) : Files :=
  { s with proc := Function.update s.proc p proc }

/-- `ofile[fd] = f` for a process. -/
def setFile (s : Files) (p : Fin nproc) (fd : Fin nOfile) (f : Option (Fin nFile)) : Files :=
  s.setProc p { s.proc p with ofile := Function.update (s.proc p).ofile fd f }

/-- `argfd`: the descriptor and the file that it is for. -/
def argfd (s : Files) (p : Fin nproc) (fd : Int) : Option (Fin nOfile × Fin nFile) :=
  if inside : 0 ≤ fd ∧ fd.toNat < nOfile then
    ((s.proc p).ofile ⟨fd.toNat, inside.2⟩).map fun f => (⟨fd.toNat, inside.2⟩, f)
  else none

/-- `fdalloc`. -/
def fdalloc (s : Files) (p : Fin nproc) (f : Fin nFile) : Option (Fin nOfile × Files) :=
  match (List.finRange nOfile).find? fun fd => (s.proc p).ofile fd = none with
  | some fd => some (fd, s.setFile p fd (some f))
  | none => none

/-- The current directory of a process, which every process in a call has. -/
def cwd (s : Files) (p : Fin nproc) : Except Halt (Fin nInode) :=
  match (s.proc p).cwd with
  | some ip => pure ip
  | none => .error .nullDeref

/-- `sys_dup`. -/
def sysDup (s : Files) (p : Fin nproc) (fd : Int) : Except Halt (Option (Fin nOfile) × Files) :=
  match s.argfd p fd with
  | none => pure (none, s)
  | some (_, f) =>
    match s.fdalloc p f with
    | none => pure (none, s)
    | some (new, s) => do
      let tables ← s.tables.filedup f
      pure (some new, { s with tables })

/-- `sys_close`: whether it succeeds. -/
def sysClose (s : Files) (p : Fin nproc) (fd : Int) : Except Halt (Bool × Files) :=
  match s.argfd p fd with
  | none => pure (false, s)
  | some (fd, f) => do
    let s := s.setFile p fd none
    let tables ← s.tables.fileclose f
    pure (true, { s with tables })

/-- `sys_link`. -/
def sysLink (s : Files) (p : Fin nproc) (old new : List Byte) : Except Halt (Bool × Files) := do
  let cwd ← s.cwd p
  let (r, fs) ← s.tables.fs.link cwd old new
  pure (r, s.setFs fs)

/-- `sys_unlink`. -/
def sysUnlink (s : Files) (p : Fin nproc) (path : List Byte) : Except Halt (Bool × Files) := do
  let cwd ← s.cwd p
  let (r, fs) ← s.tables.fs.unlink cwd path
  pure (r, s.setFs fs)

/-- The part of `sys_open` that finds the inode and locks it. -/
def openInode (fs : Fs) (cwd : Fin nInode) (path : List Byte) (omode : Word) :
    Except Halt (Option (Fin nInode) × Fs) :=
  if omode &&& oCreate ≠ 0 then fs.create cwd path .file 0 0
  else do
    let (found, fs) ← fs.namei cwd path
    match found with
    | none => pure (none, fs)
    | some ip => do
      let fs ← fs.ilock ip
      if (fs.icache ip).copy.type = .dir ∧ omode ≠ oRdonly then do
        let fs ← fs.iunlockput ip
        pure (none, fs)
      else pure (some ip, fs)

/-- The part of `sys_open` after the inode has been locked. -/
def openFile (s : Files) (p : Fin nproc) (ip : Fin nInode) (omode : Word) :
    Except Halt (Option (Fin nOfile) × Files) :=
  match s.tables.filealloc with
  | none => do
    let fs ← s.tables.fs.iunlockput ip
    pure (none, s.setFs fs)
  | some (f, tables) =>
    match ({ s with tables } : Files).fdalloc p f with
    | none => do
      let tables ← tables.fileclose f
      let fs ← tables.fs.iunlockput ip
      pure (none, { s with tables := { tables with fs } })
    | some (fd, s) => do
      let fs ← s.tables.fs.iunlock ip
      let writable := decide (omode &&& oWronly ≠ 0 ∨ omode &&& oRdwr ≠ 0)
      let tables := { s.tables with fs }
      pure (some fd, { s with
        tables := tables.set f { tables.file f with type := .inode, ip, writable } })

/-- `sys_open`. -/
def sysOpen (s : Files) (p : Fin nproc) (path : List Byte) (omode : Word) :
    Except Halt (Option (Fin nOfile) × Files) := do
  let cwd ← s.cwd p
  let (found, fs) ← openInode s.tables.fs cwd path omode
  match found with
  | none => pure (none, s.setFs fs)
  | some ip => (s.setFs fs).openFile p ip omode

/-- `sys_mkdir` and `sys_mknod`: whether they succeed. -/
def make (s : Files) (p : Fin nproc) (path : List Byte) (type : FileType)
    (major minor : BitVec 16) : Except Halt (Bool × Files) := do
  let cwd ← s.cwd p
  let (found, fs) ← s.tables.fs.create cwd path type major minor
  match found with
  | none => pure (false, s.setFs fs)
  | some ip => do
    let fs ← fs.iunlockput ip
    pure (true, s.setFs fs)

/-- `sys_mkdir`. -/
def sysMkdir (s : Files) (p : Fin nproc) (path : List Byte) : Except Halt (Bool × Files) :=
  s.make p path .dir 0 0

/-- `sys_mknod`. -/
def sysMknod (s : Files) (p : Fin nproc) (path : List Byte) (major minor : BitVec 16) :
    Except Halt (Bool × Files) := s.make p path .dev major minor

/-- `sys_chdir`: whether it succeeds. -/
def sysChdir (s : Files) (p : Fin nproc) (path : List Byte) : Except Halt (Bool × Files) := do
  let cwd ← s.cwd p
  let (found, fs) ← s.tables.fs.namei cwd path
  match found with
  | none => pure (false, s.setFs fs)
  | some ip => do
    let fs ← fs.ilock ip
    if (fs.icache ip).copy.type ≠ .dir then do
      let fs ← fs.iunlockput ip
      pure (false, s.setFs fs)
    else do
      let fs ← fs.iunlock ip
      let fs ← fs.iput cwd
      pure (true, (s.setFs fs).setProc p { s.proc p with cwd := some ip })

/-- What `exec` reads from its file, from the given offsets. -/
def execReads (ip : Fin nInode) : List (Word × Word) → Fs → Except Halt Fs
  | [], fs => pure fs
  | (off, n) :: rest, fs => do
    let (_, fs) ← fs.readi ip off.toNat n.toNat
    execReads ip rest fs

/-- `exec`, up to the point where it has read its file: whether the file is there. -/
def sysExec (s : Files) (p : Fin nproc) (path : List Byte) (reads : List (Word × Word)) :
    Except Halt (Bool × Files) := do
  let cwd ← s.cwd p
  let (found, fs) ← s.tables.fs.namei cwd path
  match found with
  | none => pure (false, s.setFs fs)
  | some ip => do
    let fs ← fs.ilock ip
    let fs ← execReads ip reads fs
    let fs ← fs.iunlockput ip
    pure (true, s.setFs fs)

/-- `sys_pipe`: the two descriptors. -/
def sysPipe (s : Files) (p : Fin nproc) (page : Option Nat) :
    Except Halt (Option (Fin nOfile × Fin nOfile) × Files) := do
  let (ends, tables) ← s.tables.pipealloc page
  let s := { s with tables }
  match ends with
  | none => pure (none, s)
  | some (rf, wf) =>
    match s.fdalloc p rf with
    | none => do
      let tables ← s.tables.fileclose rf
      let tables ← tables.fileclose wf
      pure (none, { s with tables })
    | some (fd0, s) =>
      match s.fdalloc p wf with
      | none => do
        let s := s.setFile p fd0 none
        let tables ← s.tables.fileclose rf
        let tables ← tables.fileclose wf
        pure (none, { s with tables })
      | some (fd1, s) => pure (some (fd0, fd1), s)

/-- The loop of `fork` over `ofile`. -/
def dupFiles (p np : Fin nproc) : List (Fin nOfile) → Files → Except Halt Files
  | [], s => pure s
  | fd :: rest, s =>
    match (s.proc p).ofile fd with
    | none => dupFiles p np rest s
    | some f => do
      let tables ← s.tables.filedup f
      dupFiles p np rest ({ s with tables }.setFile np fd (some f))

/-- `fork`, where `copied` says whether there is memory for the process: its slot. -/
def fork (s : Files) (p : Fin nproc) (copied : Bool) : Except Halt (Option (Fin nproc) × Files) :=
  match (List.finRange nproc).find? fun np => (s.proc np).state = .unused with
  | none => pure (none, s)
  | some np =>
    if copied = false then pure (none, s)
    else do
      let s ← dupFiles p np (List.finRange nOfile) s
      let cwd ← s.cwd p
      let s := s.setFs (s.tables.fs.idup cwd)
      pure (some np, s.setProc np { s.proc np with cwd := some cwd, state := .runnable })

/-- The loop of `exit` over `ofile`. -/
def closeFiles (p : Fin nproc) : List (Fin nOfile) → Files → Except Halt Files
  | [], s => pure s
  | fd :: rest, s =>
    match (s.proc p).ofile fd with
    | none => closeFiles p rest s
    | some f => do
      let tables ← s.tables.fileclose f
      closeFiles p rest ({ s with tables }.setFile p fd none)

/-- `exit`. -/
def exit (s : Files) (p : Fin nproc) : Except Halt Files :=
  if p = s.initproc then .error (.panic "init exiting")
  else do
    let s ← closeFiles p (List.finRange nOfile) s
    let cwd ← s.cwd p
    let fs ← s.tables.fs.iput cwd
    pure ((s.setFs fs).setProc p { s.proc p with cwd := none, state := .zombie })

/-- The system after `userinit`, on a disk that nothing has used. -/
def boot (disk : Disk) (initproc : Fin nproc) : Except Halt Files := do
  let first : Fin nInode := ⟨0, nInode_pos⟩
  let fs : Fs := ⟨disk, fun _ => ⟨0, 0, false, false, .zero⟩⟩
  let (found, fs) ← fs.namei first [slash]
  let tables : FileTables := ⟨fs, fun _ => ⟨.none, 0, false, 0, first⟩, fun _ => none⟩
  let s : Files := ⟨tables, fun _ => ⟨.unused, fun _ => none, none⟩, initproc⟩
  pure (s.setProc initproc ⟨.runnable, fun _ => none, found⟩)

end Files

/-- A system call, with what it finds in user memory and gets from the memory allocator. -/
inductive Syscall where
  /-- `open`. -/
  | open (p : Fin nproc) (path : List Byte) (omode : Word)
  /-- `close`. -/
  | close (p : Fin nproc) (fd : Int)
  /-- `dup`. -/
  | dup (p : Fin nproc) (fd : Int)
  /-- `pipe`. -/
  | pipe (p : Fin nproc) (page : Option Nat)
  /-- `fork`. -/
  | fork (p : Fin nproc) (copied : Bool)
  /-- `exit`. -/
  | exit (p : Fin nproc)
  /-- `wait`, which frees the slot of a process that has exited. -/
  | wait (zombie : Fin nproc)
  /-- `chdir`. -/
  | chdir (p : Fin nproc) (path : List Byte)
  /-- `link`. -/
  | link (p : Fin nproc) (old new : List Byte)
  /-- `unlink`. -/
  | unlink (p : Fin nproc) (path : List Byte)
  /-- `mkdir`. -/
  | mkdir (p : Fin nproc) (path : List Byte)
  /-- `mknod`. -/
  | mknod (p : Fin nproc) (path : List Byte) (major minor : BitVec 16)
  /-- `exec`. -/
  | exec (p : Fin nproc) (path : List Byte) (reads : List (Word × Word))
  /-- A call that returns because its arguments cannot be fetched. -/
  | refused (p : Fin nproc)

/-- The system after a call that returns. -/
def Files.step (s : Files) : Syscall → Except Halt Files
  | .open p path omode => Prod.snd <$> s.sysOpen p path omode
  | .close p fd => Prod.snd <$> s.sysClose p fd
  | .dup p fd => Prod.snd <$> s.sysDup p fd
  | .pipe p page => Prod.snd <$> s.sysPipe p page
  | .fork p copied => Prod.snd <$> s.fork p copied
  | .exit p => s.exit p
  | .wait zombie => pure (s.setProc zombie { s.proc zombie with state := .unused })
  | .chdir p path => Prod.snd <$> s.sysChdir p path
  | .link p old new => Prod.snd <$> s.sysLink p old new
  | .unlink p path => Prod.snd <$> s.sysUnlink p path
  | .mkdir p path => Prod.snd <$> s.sysMkdir p path
  | .mknod p path major minor => Prod.snd <$> s.sysMknod p path major minor
  | .exec p path reads => Prod.snd <$> s.sysExec p path reads
  | .refused _ => pure s

/-- Processes that are alive make calls, `wait` finds a process that has exited, and `kalloc`
returns no frame that is in use. -/
def Syscall.Allowed (s : Files) : Syscall → Prop
  | .open p _ _ | .close p _ | .dup p _ | .fork p _ | .exit p | .chdir p _ | .link p _ _
  | .unlink p _ | .mkdir p _ | .mknod p _ _ _ | .exec p _ _ | .refused p =>
    (s.proc p).state.alive = true
  | .pipe p page => (s.proc p).state.alive = true ∧ ∀ b ∈ page, s.tables.pipes b = none
  | .wait zombie => (s.proc zombie).state = .zombie

end MemoryEncryption
