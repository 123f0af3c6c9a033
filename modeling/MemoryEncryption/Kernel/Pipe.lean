import MemoryEncryption.Kernel.Process
import MemoryEncryption.Library.RingBuffer

/-!
# Pipes

`pipewrite`, `piperead` and `pipeclose` of one pipe, and `kill`. A step of a process
is what it does between taking the pipe's lock and giving it up, by returning or by
sleeping; `kill` takes another lock and is a step of its own. `killed` is read once
in a step, after which the step ends, so a `kill` during the step is one before it.
-/

namespace MemoryEncryption

open RingBuffer

/-- `PIPESIZE`. -/
def pipeSize : Nat := 512

/-- `struct pipe`. -/
structure BytePipe extends Pipe where
  /-- `data`, `nread` and `nwrite`. -/
  ring : Ring Byte 32

namespace BytePipe

/-- `p->nread == p->nwrite`. -/
def Empty (pipe : BytePipe) : Prop := pipe.ring.nread = pipe.ring.nwrite

/-- `p->nwrite == p->nread + PIPESIZE`. -/
def Full (pipe : BytePipe) : Prop := pipe.ring.nwrite = pipe.ring.nread + BitVec.ofNat 32 pipeSize

instance (pipe : BytePipe) : Decidable pipe.Empty := inferInstanceAs (Decidable (_ = _))

instance (pipe : BytePipe) : Decidable pipe.Full := inferInstanceAs (Decidable (_ = _))

/-- `p->data[p->nwrite++ % PIPESIZE] = byte`. -/
def store (pipe : BytePipe) (byte : Byte) : BytePipe :=
  { pipe with ring := pipe.ring.push pipeSize byte }

/-- `p->data[p->nread % PIPESIZE]`. -/
def next (pipe : BytePipe) : Byte := pipe.ring.front pipeSize

/-- `p->nread++`. -/
def advance (pipe : BytePipe) : BytePipe := { pipe with ring := pipe.ring.pop }

end BytePipe

/-- The pipe as `pipealloc` leaves it, in a page with any contents. -/
def freshPipe (data : Nat → Byte) : BytePipe := ⟨⟨true, true⟩, ⟨data, 0, 0⟩⟩

/-- How a step of `pipewrite` ends. -/
inductive WriteEnd where
  /-- All bytes are stored: `wakeup(&p->nread)` and `return n`. -/
  | finished
  /-- The pipe is full and nobody will read, or the process is killed: `return -1`. -/
  | gaveUp
  /-- The pipe is full: `wakeup(&p->nread)` and `sleep(&p->nwrite, &p->lock)`. -/
  | sleeps
  deriving DecidableEq, Repr

/-- The loops of `pipewrite` on the bytes not yet stored, with what is left of them. -/
def pipewriteLoop (killed : Bool) (pipe : BytePipe) : List Byte → BytePipe × List Byte × WriteEnd
  | [] => (pipe, [], .finished)
  | byte :: rest =>
    if pipe.Full then
      (pipe, byte :: rest, if pipe.readopen = false ∨ killed = true then .gaveUp else .sleeps)
    else pipewriteLoop killed (pipe.store byte) rest

/-- The second loop of `piperead`: the bytes copied, and the pipe after them. -/
def pipereadLoop : Nat → BytePipe → List Byte × BytePipe
  | 0, pipe => ([], pipe)
  | n + 1, pipe =>
    if pipe.Empty then ([], pipe)
    else ((pipe.next :: (pipereadLoop n pipe.advance).1), (pipereadLoop n pipe.advance).2)

/-- Where a process is in its calls. -/
inductive PipePlace where
  /-- Outside of a call, with the value its last one returned. -/
  | outside (value : Int)
  /-- In `pipewrite` of `n` bytes, about to take the lock, with the bytes not yet stored. -/
  | writing (n : Nat) (bytes : List Byte)
  /-- In `pipewrite`, sleeping on `&p->nwrite`. -/
  | sleepWrite (n : Nat) (bytes : List Byte)
  /-- In `piperead` of up to `n` bytes, about to take the lock. -/
  | reading (n : Nat)
  /-- In `piperead`, sleeping on `&p->nread`. -/
  | sleepRead (n : Nat)
  deriving DecidableEq, Repr

/-- A pipe and the processes that use it. -/
structure PipeSystem (procs : Nat) where
  /-- The pipe. -/
  pipe : BytePipe
  /-- `killed` of each process. -/
  killed : Fin procs → Bool
  /-- Where each process is. -/
  pc : Fin procs → PipePlace
  /-- The bytes stored so far, for the statements of results. -/
  stored : List Byte
  /-- The bytes removed so far. -/
  delivered : List Byte

variable {procs : Nat}

namespace PipeSystem

/-- Nobody has used the pipe yet. -/
def start (procs : Nat) (data : Nat → Byte) : PipeSystem procs :=
  ⟨freshPipe data, fun _ => false, fun _ => .outside 0, [], []⟩

/-- Move a process. -/
def setPc (s : PipeSystem procs) (p : Fin procs) (place : PipePlace) : PipeSystem procs :=
  { s with pc := Function.update s.pc p place }

/-- `wakeup(&p->nread)`. -/
def wakeReaders (s : PipeSystem procs) : PipeSystem procs :=
  { s with pc := fun p => match s.pc p with
    | .sleepRead n => .reading n
    | place => place }

/-- `wakeup(&p->nwrite)`. -/
def wakeWriters (s : PipeSystem procs) : PipeSystem procs :=
  { s with pc := fun p => match s.pc p with
    | .sleepWrite n bytes => .writing n bytes
    | place => place }

/-- The pipe after a step of `pipewrite`, with the bytes it has stored. -/
def put (s : PipeSystem procs) (pipe : BytePipe) (bytes rest : List Byte) : PipeSystem procs :=
  { s with pipe := pipe, stored := s.stored ++ bytes.take (bytes.length - rest.length) }

/-- The pipe after a step of `piperead`, with the bytes it has removed. -/
def get (s : PipeSystem procs) (pipe : BytePipe) (bytes : List Byte) : PipeSystem procs :=
  { s with pipe := pipe, delivered := s.delivered ++ bytes }

/-- A step of `pipewrite`. -/
def pipewrite (s : PipeSystem procs) (p : Fin procs) (n : Nat) (bytes : List Byte) :
    PipeSystem procs :=
  match pipewriteLoop (s.killed p) s.pipe bytes with
  | (pipe, rest, .finished) => ((s.put pipe bytes rest).wakeReaders).setPc p (.outside n)
  | (pipe, rest, .gaveUp) => (s.put pipe bytes rest).setPc p (.outside (-1))
  | (pipe, rest, .sleeps) => ((s.put pipe bytes rest).wakeReaders).setPc p (.sleepWrite n rest)

/-- A step of `piperead`. -/
def piperead (s : PipeSystem procs) (p : Fin procs) (n : Nat) : PipeSystem procs :=
  if s.pipe.Empty ∧ s.pipe.writeopen = true then
    if s.killed p then s.setPc p (.outside (-1)) else s.setPc p (.sleepRead n)
  else
    ((s.get (pipereadLoop n s.pipe).2 (pipereadLoop n s.pipe).1).wakeWriters).setPc p
      (.outside (pipereadLoop n s.pipe).1.length)

/-- `pipeclose`. -/
def pipeclose (s : PipeSystem procs) (writable : Bool) : PipeSystem procs :=
  if writable then { s with pipe := { s.pipe with writeopen := false } }.wakeReaders
  else { s with pipe := { s.pipe with readopen := false } }.wakeWriters

/-- `kill` of a process. -/
def kill (s : PipeSystem procs) (p : Fin procs) : PipeSystem procs :=
  { s with
    killed := Function.update s.killed p true
    pc := Function.update s.pc p (match s.pc p with
      | .sleepRead n => .reading n
      | .sleepWrite n bytes => .writing n bytes
      | place => place) }

end PipeSystem

/-- What can happen next. -/
inductive PipeEvent (procs : Nat) where
  /-- A process calls `pipewrite`. -/
  | write (p : Fin procs) (bytes : List Byte)
  /-- A process calls `piperead`. -/
  | read (p : Fin procs) (n : Nat)
  /-- A process takes the lock. -/
  | run (p : Fin procs)
  /-- `pipeclose` of the last descriptor of an end. -/
  | close (writable : Bool)
  /-- `kill` of a process. -/
  | kill (p : Fin procs)

/-- The effect of an event; one that is not possible has none. -/
def PipeSystem.step (s : PipeSystem procs) (event : PipeEvent procs) : PipeSystem procs :=
  if s.pipe.readopen = false ∧ s.pipe.writeopen = false then s  -- the pipe has been freed
  else match event with
    | .write p bytes =>
      match s.pc p with
      | .outside _ => s.setPc p (.writing bytes.length bytes)
      | _ => s
    | .read p n =>
      match s.pc p with
      | .outside _ => s.setPc p (.reading n)
      | _ => s
    | .run p =>
      match s.pc p with
      | .writing n bytes => s.pipewrite p n bytes
      | .reading n => s.piperead p n
      | _ => s
    | .close writable => s.pipeclose writable
    | .kill p => s.kill p

end MemoryEncryption
