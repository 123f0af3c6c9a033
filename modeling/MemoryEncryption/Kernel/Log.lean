import MemoryEncryption.Kernel.Word

/-!
# The log

`log.c` over the buffer cache. Every critical section under `log.lock` is one step;
`log_write` makes its two tests before it takes the lock, so it is two steps. Each
disk write of `commit` is a step of its own. Processes take steps in any order, and
buffers that nobody holds and that are not dirty are filled and recycled at any
time: the runs of a cache with `NBUF` buffers are among those here. Histories of
the operations are kept beside the state, for the statements of results.
-/

namespace MemoryEncryption

/-- `MAXOPBLOCKS`, the blocks an operation is expected to write at most. -/
def maxOpBlocks : Nat := 10
/-- `LOGSIZE`, the entries of the log header. -/
def logSize : Nat := maxOpBlocks * 3
/-- `FSSIZE`, the blocks of the disk. -/
def fsSize : Nat := 1000

/-- A disk block, word by word. -/
abbrev Block := Nat → Word

/-- Where the log is on the disk. -/
structure LogArea where
  /-- `log.start`, the header block. -/
  start : Nat
  /-- `log.size`, with the header block. -/
  size : Nat
  /-- There is a header block. -/
  positive : 0 < size
  /-- The log is on the disk. -/
  inside : start + size ≤ fsSize

/-- The log area of the superblock that `mkfs` writes, with `nlog = LOGSIZE`. -/
def mkfsLogArea : LogArea := ⟨2, logSize, by decide, by decide⟩

/-- A block belongs to the log area. -/
def LogArea.Contains (area : LogArea) (blockno : Nat) : Prop :=
  area.start ≤ blockno ∧ blockno < area.start + area.size

instance (area : LogArea) (blockno : Nat) : Decidable (area.Contains blockno) :=
  inferInstanceAs (Decidable (_ ∧ _))

/-! ## Buffers -/

/-- The disk and the buffer cache over it. -/
structure Buffers where
  /-- Contents of the disk. -/
  disk : Nat → Block
  /-- Contents of the cached blocks. -/
  data : Nat → Option Block
  /-- `B_DIRTY` of the cached blocks. -/
  dirty : Nat → Bool

/-- What `bread` returns for a block on the disk. -/
def Buffers.view (bufs : Buffers) (blockno : Nat) : Block :=
  (bufs.data blockno).getD (bufs.disk blockno)

/-- Change the contents of a buffer. -/
def Buffers.setData (bufs : Buffers) (blockno : Nat) (block : Block) : Buffers :=
  { bufs with data := Function.update bufs.data blockno (some block) }

/-- Read a block into the cache. -/
def Buffers.fill (bufs : Buffers) (blockno : Nat) : Buffers :=
  bufs.setData blockno (bufs.disk blockno)

/-- Give up the buffer of a block. -/
def Buffers.evict (bufs : Buffers) (blockno : Nat) : Buffers :=
  { bufs with data := Function.update bufs.data blockno none }

/-- Mark the buffer of a block dirty. -/
def Buffers.pin (bufs : Buffers) (blockno : Nat) : Buffers :=
  { bufs with dirty := Function.update bufs.dirty blockno true }

/-- `bwrite` of a buffer with the given contents. -/
def Buffers.bwrite (bufs : Buffers) (blockno : Nat) (block : Block) : Except Halt Buffers :=
  if blockno < fsSize then
    .ok ⟨Function.update bufs.disk blockno block,
      Function.update bufs.data blockno (some block), Function.update bufs.dirty blockno false⟩
  else .error (.panic "incorrect blockno")

/-! ## The header block -/

/-- What `write_head` leaves in the header block. -/
def headBlock (lh : List Nat) (old : Block) : Block := fun i =>
  if i = 0 then .ofNat 32 lh.length
  else match lh[i - 1]? with
    | some blockno => .ofNat 32 blockno
    | none => old i

/-- `read_head`. -/
def readHead (head : Block) : Except Halt (List Nat) :=
  if (head 0).toInt ≤ logSize then
    .ok ((List.range (head 0).toInt.toNat).map fun i => (head (i + 1)).toNat)
  else .error .outOfBounds

/-! ## Operations -/

/-- Where a process is in `log.c`. -/
inductive LogPlace where
  /-- Outside of an operation. -/
  | idle
  /-- In `begin_op`, sleeping on `&log`. -/
  | sleeping
  /-- In `begin_op`, woken and about to test again. -/
  | woken
  /-- Between `begin_op` and `end_op`; operations are numbered. -/
  | inOp (op : Nat)
  /-- The operation has changed the buffer of a block, which it holds. -/
  | editing (op blockno : Nat)
  /-- In `log_write` of that buffer, after its tests and before `acquire`. -/
  | logging (op blockno : Nat)
  /-- At the start of `commit`. -/
  | commit
  /-- In the loop of `write_log`. -/
  | writeLog (tail : Nat)
  /-- At the first `write_head` of `commit`. -/
  | writeHead
  /-- In the loop of `install_trans`. -/
  | install (tail : Nat)
  /-- At the second `write_head` of `commit`. -/
  | clearHead
  /-- In `end_op` after `commit`. -/
  | finish
  deriving DecidableEq, Repr

/-- The operation a process is in, between `begin_op` and `end_op`. -/
def LogPlace.op? : LogPlace → Option Nat
  | .inOp op | .editing op _ | .logging op _ => some op
  | _ => none

/-- The block whose buffer a process holds. -/
def LogPlace.held? : LogPlace → Option Nat
  | .editing _ blockno | .logging _ blockno => some blockno
  | _ => none

/-- The process is in `commit` or on its way back from it. -/
def LogPlace.inCommit : LogPlace → Bool
  | .commit | .writeLog _ | .writeHead | .install _ | .clearHead | .finish => true
  | _ => false

/-- A block as an operation has logged it. -/
structure Write where
  /-- The operation. -/
  op : Nat
  /-- The block. -/
  blockno : Nat
  /-- Its contents. -/
  block : Block

/-- The log, the buffers and the processes. -/
structure Log (procs : Nat) where
  /-- The buffer cache and the disk. -/
  bufs : Buffers
  /-- `log.lh.block[0..n)`. -/
  lh : List Nat
  /-- `log.outstanding`. -/
  outstanding : Int
  /-- `log.committing`. -/
  committing : Bool
  /-- Where each process is. -/
  pc : Fin procs → LogPlace
  /-- Operations begun so far. -/
  nextOp : Nat
  /-- The writes of each transaction that has been closed by its last `end_op`. -/
  transactions : List (List Write)
  /-- The writes of the open transaction. -/
  current : List Write
  /-- Calls of `commit` that have returned. -/
  commits : Nat

variable {procs : Nat}

namespace Log

/-- The log as `initlog` leaves it, over a disk. -/
def start (procs : Nat) (disk : Nat → Block) : Log procs :=
  ⟨⟨disk, fun _ => none, fun _ => false⟩, [], 0, false, fun _ => .idle, 0, [], [], 0⟩

/-- Move a process. -/
def setPc (s : Log procs) (p : Fin procs) (place : LogPlace) : Log procs :=
  { s with pc := Function.update s.pc p place }

/-- Change the buffers. -/
def setBufs (s : Log procs) (bufs : Buffers) : Log procs := { s with bufs := bufs }

/-- `wakeup(&log)`. -/
def wakeup (s : Log procs) : Log procs :=
  { s with pc := fun p => if s.pc p = .sleeping then .woken else s.pc p }

/-- The test of `begin_op`: the process has to wait. -/
def Waits (s : Log procs) : Prop :=
  s.committing = true ∨ (s.lh.length : Int) + (s.outstanding + 1) * maxOpBlocks > logSize

instance (s : Log procs) : Decidable s.Waits := inferInstanceAs (Decidable (_ ∨ _))

/-- Let a process into an operation. -/
def enter (s : Log procs) (p : Fin procs) : Log procs :=
  { s.setPc p (.inOp s.nextOp) with outstanding := s.outstanding + 1, nextOp := s.nextOp + 1 }

/-- A round of the loop of `begin_op`. -/
def beginOp (s : Log procs) (p : Fin procs) : Log procs :=
  if s.Waits then s.setPc p .sleeping else s.enter p

/-- Some process holds the buffer of a block. -/
def Held (s : Log procs) (blockno : Nat) : Prop := ∃ p, (s.pc p).held? = some blockno

instance (s : Log procs) (blockno : Nat) : Decidable (s.Held blockno) :=
  inferInstanceAs (Decidable (∃ _, _))

/-- Change the buffer of a block, which the process then holds. -/
def edit (s : Log procs) (p : Fin procs) (op blockno : Nat) (block : Block) : Log procs :=
  { s.setPc p (.editing op blockno) with bufs := s.bufs.setData blockno block }

/-- `bread` of a block and a change to its buffer, in an operation. -/
def modify (s : Log procs) (p : Fin procs) (op blockno : Nat) (block : Block) :
    Except Halt (Log procs) :=
  if s.Held blockno then .ok s  -- the process sleeps until the buffer is released
  else if blockno < fsSize then .ok (s.edit p op blockno block)
  else .error (.panic "incorrect blockno")

/-- The first test of `log_write`: the log is full. -/
def Full (area : LogArea) (s : Log procs) : Prop :=
  s.lh.length ≥ logSize ∨ (s.lh.length : Int) ≥ area.size - 1

instance (area : LogArea) (s : Log procs) : Decidable (s.Full area) :=
  inferInstanceAs (Decidable (_ ∨ _))

/-- `log_write` up to `acquire(&log.lock)`. -/
def logWriteTests (area : LogArea) (s : Log procs) (p : Fin procs) (op blockno : Nat) :
    Except Halt (Log procs) :=
  if s.Full area then .error (.panic "too big a transaction")
  else if s.outstanding < 1 then .error (.panic "log_write outside of trans")
  else .ok (s.setPc p (.logging op blockno))

/-- Leave a header and a dirty buffer behind and release the buffer. -/
def record (s : Log procs) (p : Fin procs) (op blockno : Nat) (lh : List Nat) : Log procs :=
  { s.setPc p (.inOp op) with
    lh := lh
    bufs := s.bufs.pin blockno
    current := s.current ++ [⟨op, blockno, s.bufs.view blockno⟩] }

/-- `log_write` from `acquire(&log.lock)` on, and `brelse` of the buffer. -/
def logWrite (s : Log procs) (p : Fin procs) (op blockno : Nat) : Except Halt (Log procs) :=
  if blockno ∈ s.lh then .ok (s.record p op blockno s.lh)  -- log absorption
  else if s.lh.length < logSize then .ok (s.record p op blockno (s.lh ++ [blockno]))
  else .error .outOfBounds

/-- The last operation of a transaction ends. -/
def close (s : Log procs) (p : Fin procs) : Log procs :=
  { s.setPc p .commit with
    outstanding := s.outstanding - 1
    committing := true
    transactions := s.transactions ++ [s.current]
    current := [] }

/-- An operation ends while others are outstanding. -/
def leave (s : Log procs) (p : Fin procs) : Log procs :=
  { s.setPc p .idle with outstanding := s.outstanding - 1 }.wakeup

/-- `end_op` up to its first `release`. -/
def endOp (s : Log procs) (p : Fin procs) : Except Halt (Log procs) :=
  if s.committing then .error (.panic "log.committing")
  else if s.outstanding - 1 = 0 then .ok (s.close p)
  else .ok (s.leave p)

/-- Write a block to the disk and move a process. -/
def writeBlock (s : Log procs) (p : Fin procs) (blockno : Nat) (block : Block) (place : LogPlace) :
    Except Halt (Log procs) :=
  (s.bufs.bwrite blockno block).map (s.setPc p place).setBufs

/-- `commit` returns. -/
def committed (s : Log procs) : Log procs := { s with commits := s.commits + 1 }

/-- `log.lh.n = 0` in `commit`. -/
def forget (s : Log procs) : Log procs := { s with lh := [] }

/-- The last critical section of `end_op`. -/
def reopen (s : Log procs) : Log procs := { s with committing := false }.wakeup

/-- The next step of `commit` and of the rest of `end_op`. -/
def commitStep (area : LogArea) (s : Log procs) (p : Fin procs) : Except Halt (Log procs) :=
  match s.pc p with
  | .commit =>
    if s.lh.length > 0 then .ok (s.setPc p (.writeLog 0))
    else .ok (s.setPc p .finish).committed
  | .writeLog tail =>
    match s.lh[tail]? with
    | some blockno =>
      s.writeBlock p (area.start + tail + 1) (s.bufs.view blockno) (.writeLog (tail + 1))
    | none => .ok (s.setPc p .writeHead)
  | .writeHead =>
    s.writeBlock p area.start (headBlock s.lh (s.bufs.view area.start)) (.install 0)
  | .install tail =>
    match s.lh[tail]? with
    | some blockno =>
      s.writeBlock p blockno (s.bufs.view (area.start + tail + 1)) (.install (tail + 1))
    | none => .ok (s.setPc p .clearHead).forget
  | .clearHead =>
    (s.writeBlock p area.start (headBlock s.lh (s.bufs.view area.start)) .finish).map committed
  | .finish => .ok (s.setPc p .idle).reopen
  | _ => .ok s

end Log

/-- What can happen next. -/
inductive LogEvent (procs : Nat) where
  /-- A round of `begin_op`. -/
  | beginOp (p : Fin procs)
  /-- `bread` of a block and a change to its buffer. -/
  | modify (p : Fin procs) (blockno : Nat) (block : Block)
  /-- `log_write` up to `acquire`. -/
  | logWriteTests (p : Fin procs)
  /-- `log_write` from `acquire` on. -/
  | logWrite (p : Fin procs)
  /-- `end_op` up to its first `release`. -/
  | endOp (p : Fin procs)
  /-- A step of `commit` or of the rest of `end_op`. -/
  | commit (p : Fin procs)
  /-- `kill` of a process, which makes it runnable if it sleeps. -/
  | kill (p : Fin procs)
  /-- `bread` of a block that is not cached. -/
  | fill (blockno : Nat)
  /-- `bget` recycles a buffer. -/
  | evict (blockno : Nat)

/-- The effect of an event; one that is not possible has none. -/
def Log.step (area : LogArea) (s : Log procs) : LogEvent procs → Except Halt (Log procs)
  | .beginOp p => .ok (if s.pc p = .idle ∨ s.pc p = .woken then s.beginOp p else s)
  | .modify p blockno block =>
    match s.pc p with
    | .inOp op => s.modify p op blockno block
    | _ => .ok s
  | .logWriteTests p =>
    match s.pc p with
    | .editing op blockno => s.logWriteTests area p op blockno
    | _ => .ok s
  | .logWrite p =>
    match s.pc p with
    | .logging op blockno => s.logWrite p op blockno
    | _ => .ok s
  | .endOp p =>
    match s.pc p with
    | .inOp _ => s.endOp p
    | _ => .ok s
  | .commit p => s.commitStep area p
  | .kill p => .ok (if s.pc p = .sleeping then s.setPc p .woken else s)
  | .fill blockno =>
    .ok (if s.bufs.data blockno = none then s.setBufs (s.bufs.fill blockno) else s)
  | .evict blockno =>
    .ok (if s.bufs.dirty blockno = true ∨ s.Held blockno then s
      else s.setBufs (s.bufs.evict blockno))

/-! ## Recovery -/

/-- Where `recover_from_log` is. -/
inductive RecoveryPlace where
  /-- The machine has been switched on. -/
  | boot
  /-- In the loop of `install_trans`, with the header read from the disk. -/
  | install (lh : List Nat) (tail : Nat)
  /-- At `write_head`. -/
  | clearHead
  /-- `initlog` has returned. -/
  | up
  deriving DecidableEq, Repr

/-- The disk during recovery. The cache is empty at the start and every write goes through it, so
it never differs from the disk. -/
structure Recovery where
  /-- Contents of the disk. -/
  disk : Nat → Block
  /-- Where the kernel is. -/
  place : RecoveryPlace

/-- The next step of `recover_from_log`. -/
def Recovery.step (area : LogArea) (r : Recovery) : Except Halt Recovery :=
  match r.place with
  | .boot => (readHead (r.disk area.start)).map fun lh => ⟨r.disk, .install lh 0⟩
  | .install lh tail =>
    match lh[tail]? with
    | some blockno =>
      if blockno < fsSize then
        .ok ⟨Function.update r.disk blockno (r.disk (area.start + tail + 1)),
          .install lh (tail + 1)⟩
      else .error (.panic "incorrect blockno")
    | none => .ok ⟨r.disk, .clearHead⟩
  | .clearHead =>
    .ok ⟨Function.update r.disk area.start (headBlock [] (r.disk area.start)), .up⟩
  | .up => .ok r

/-- The machine stops and is switched on again. -/
def crash (disk : Nat → Block) : Recovery := ⟨disk, .boot⟩

end MemoryEncryption
