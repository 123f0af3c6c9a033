import MemoryEncryption.Kernel.Exec

/-!
# Processes

The process table and the functions of `proc.c`, `exec.c`, `trap.c` and `pipe.c`
that create, change and destroy address spaces. A machine keeps one clock queue for
each process; a function runs on physical memory together with the queue of the
process that calls it. `sleep`, `wakeup` and the scheduler are not part of this
model: any process that is alive may take the next step. Open files, working
directories and the contents of kernel stacks and pipes are left out.
-/

namespace MemoryEncryption

variable {σ : Type}

/-- `NPROC`, the slots of the process table. -/
def nproc : Nat := 64

/-- `enum procstate`. -/
inductive ProcState where
  /-- The slot is free. -/
  | unused
  /-- The process is being made. -/
  | embryo
  /-- Waiting in the kernel. -/
  | sleeping
  /-- Ready to run. -/
  | runnable
  /-- On a CPU. -/
  | running
  /-- Exited, not yet waited for. -/
  | zombie
  deriving DecidableEq, Repr

/-- The registers of a trap frame that are set here. -/
structure Trapframe where
  /-- Instruction pointer. -/
  eip : Nat
  /-- Stack pointer. -/
  esp : Nat
  /-- Result of a system call. -/
  eax : Nat

/-- `struct proc`. Page directory and kernel stack are frames, with 0 for a null pointer. -/
structure Proc (σ : Type) where
  /-- Size of process memory in bytes. -/
  sz : Nat
  /-- Page directory. -/
  pgdir : Nat
  /-- Kernel stack. -/
  kstack : Nat
  /-- Process state. -/
  state : ProcState
  /-- Process ID. -/
  pid : Nat
  /-- Slot of the parent process. -/
  parent : Option Nat
  /-- Trap frame. -/
  tf : Trapframe
  /-- If true, the process exits at its next return to user mode. -/
  killed : Bool
  /-- Process name. -/
  name : List (BitVec 8)
  /-- Clock queue. -/
  queue : σ

/-- `struct pipe`, as far as it decides when the pipe is freed. -/
structure Pipe where
  /-- The read end is open. -/
  readopen : Bool
  /-- The write end is open. -/
  writeopen : Bool
  deriving DecidableEq, Repr

/-- Memory, the process table and the pipes. -/
structure Machine (σ : Type) where
  /-- Physical memory; its queue is that of the process that ran last. -/
  mem : Mem σ
  /-- `ptable.proc`. -/
  proc : Nat → Proc σ
  /-- `nextpid`. -/
  nextpid : Nat
  /-- Slot of `initproc`. -/
  initproc : Nat
  /-- `kpgdir`, the directory for CPUs without a process. -/
  kpgdir : Nat
  /-- The pipes, by the frame that holds each. -/
  pipes : Nat → Option Pipe

/-- A process that can take a step: neither a free slot, nor being made, nor exited. -/
def ProcState.alive : ProcState → Bool
  | .sleeping | .runnable | .running => true
  | .unused | .embryo | .zombie => false

namespace Machine

/-- Memory as the functions called by process `p` see it. -/
def load (s : Machine σ) (p : Nat) : Mem σ := { s.mem with queue := (s.proc p).queue }

/-- Replace memory and one process. -/
def put (s : Machine σ) (p : Nat) (m : Mem σ) (proc : Proc σ) : Machine σ :=
  { s with mem := m, proc := Function.update s.proc p proc }

@[simp]
theorem put_mem (s : Machine σ) (p : Nat) (m : Mem σ) (proc : Proc σ) : (s.put p m proc).mem = m :=
  rfl

@[simp]
theorem put_proc (s : Machine σ) (p : Nat) (m : Mem σ) (proc : Proc σ) :
    (s.put p m proc).proc = Function.update s.proc p proc :=
  rfl

@[simp]
theorem put_put (s : Machine σ) (p : Nat) (m m' : Mem σ) (proc proc' : Proc σ) :
    (s.put p m proc).put p m' proc' = s.put p m' proc' := by
  simp [put]

/-- Put memory back, with the queue of process `p`. -/
def save (s : Machine σ) (p : Nat) (m : Mem σ) : Machine σ :=
  s.put p m { s.proc p with queue := m.queue }

/-- Replace memory. -/
def setMem (s : Machine σ) (m : Mem σ) : Machine σ := { s with mem := m }

/-- Change one process. -/
def setProc (s : Machine σ) (p : Nat) (proc : Proc σ) : Machine σ :=
  { s with proc := Function.update s.proc p proc }

end Machine

/-- The slot that `allocproc` finds. -/
def findUnused (s : Machine σ) : Option Nat :=
  (List.range nproc).find? fun p => (s.proc p).state = .unused

/-- `allocproc`: a slot with a process ID and a kernel stack. -/
def allocproc (s : Machine σ) : Option Nat × Machine σ :=
  match findUnused s with
  | none => (none, s)
  | some p =>
    let s := { s.setProc p { s.proc p with state := .embryo, pid := s.nextpid } with
      nextpid := s.nextpid + 1 }
    match kalloc s.mem with
    | (none, m) =>
      (none, { s.setProc p { s.proc p with kstack := 0, state := .unused } with mem := m })
    | (some kstack, m) =>
      (some p, { s.setProc p { s.proc p with kstack := kstack } with mem := m })

/-- The child that `fork` makes in a slot of the process table. -/
def forkChild (slot parent : Proc σ) (p pgdir : Nat) : Proc σ :=
  { slot with
    pgdir := pgdir, sz := parent.sz, parent := some p, tf := { parent.tf with eax := 0 },
    name := parent.name, state := .runnable, queue := parent.queue }

/-- `fork`, as one step. The result is the child's process ID. -/
def fork (image : Image) (ops : ClockOps σ) (s : Machine σ) (p : Nat) :
    Except Halt (Option Nat × Machine σ) :=
  match allocproc s with
  | (none, s) => .ok (none, s)
  | (some np, s) => do
    let (pgdir, m) ← copyuvm image ops (s.load p) (s.proc p).pgdir (s.proc p).sz
    let s := s.save p m
    match pgdir with
    | none =>
      let m ← kfree image s.mem (s.proc np).kstack
      let slot := { s.proc np with pgdir := 0, kstack := 0, state := .unused }
      .ok (none, (s.setMem m).setProc np slot)
    | some pgdir =>
      let child := forkChild (s.proc np) (s.proc p) p pgdir
      .ok (some child.pid, s.setProc np child)

/-- The loop of `exit` that passes abandoned children to `initproc`. -/
def reparent (s : Machine σ) (p : Nat) : Machine σ :=
  { s with proc := fun q =>
      (if (s.proc q).parent = some p then { s.proc q with parent := some s.initproc }
        else s.proc q) }

/-- `exit`. -/
def exit (s : Machine σ) (p : Nat) : Except Halt (Machine σ) :=
  if p = s.initproc then .error (.panic "init exiting")
  else
    let s := reparent s p
    .ok (s.setProc p { s.proc p with state := .zombie })

/-- What a scan of `wait` comes to. -/
inductive Waited where
  /-- A child was found and its process ID returned. -/
  | reaped (pid : Nat)
  /-- The caller has no children or has been killed, and gets -1. -/
  | failed
  /-- The caller goes to sleep until a child exits. -/
  | sleeps
  deriving DecidableEq, Repr

/-- One scan of the process table by `wait`. -/
def wait (image : Image) (ops : ClockOps σ) (s : Machine σ) (p : Nat) :
    Except Halt (Waited × Machine σ) :=
  let children := (List.range nproc).filter fun q => (s.proc q).parent = some p
  match children.find? fun q => (s.proc q).state = .zombie with
  | none =>
    if children = [] ∨ (s.proc p).killed then .ok (.failed, s) else .ok (.sleeps, s)
  | some q => do
    let m ← kfree image (s.load p) (s.proc q).kstack
    let m ← freevm image ops m (s.proc q).pgdir
    let s := s.save p m
    let child := s.proc q
    .ok (.reaped child.pid, s.setProc q { child with
      kstack := 0, pid := 0, parent := none, name := [], killed := false, state := .unused })

/-- The last part of a path, which becomes the name of the process. -/
def baseName (path : List (BitVec 8)) : List (BitVec 8) :=
  (path.reverse.takeWhile (· ≠ 47)).reverse

/-- `exec`, on the file that `namei` finds. -/
def exec (image : Image) (ops : ClockOps σ) (s : Machine σ) (p : Nat)
    (file : Option (List (BitVec 8))) (path : List (BitVec 8)) (argv : List (List (BitVec 8))) :
    Except Halt (Bool × Machine σ) :=
  match file with
  | none => .ok (false, s)
  | some file => do
    let (loaded, m) ← loadImage image ops (s.load p) file argv
    match loaded with
    | none => .ok (false, s.save p m)
    | some loaded =>
      let curproc := s.proc p
      let m := { m with queue := ops.init }
      let s := s.setProc p { curproc with
        name := (baseName path).take 15, pgdir := loaded.pgdir, sz := loaded.sz,
        tf := { curproc.tf with eip := loaded.entry, esp := loaded.sp } }
      let m ← encryptAll loaded.pgdir (pageCount 0 loaded.sz) m 0
      let m ← freevm image ops m curproc.pgdir
      .ok (true, s.save p m)

/-- `growproc`. -/
def growproc (image : Image) (ops : ClockOps σ) (s : Machine σ) (p : Nat) (n : Int) :
    Except Halt (Bool × Machine σ) := do
  let proc := s.proc p
  let newsz := ((proc.sz + n) % 2 ^ 32).toNat
  let (sz, m) ←
    if 0 < n then allocuvm image ops (s.load p) proc.pgdir proc.sz newsz
    else if n < 0 then deallocuvm image ops (s.load p) proc.pgdir proc.sz newsz
    else .ok (proc.sz, s.load p)
  if n ≠ 0 ∧ sz = 0 then .ok (false, s.save p m)
  else do
    let s := s.setProc p { proc with sz := sz }
    let (done, m) ← mencrypt m proc.pgdir (pgRoundUp ((sz - n) % 2 ^ 32).toNat) (n.tdiv pgSize)
    .ok (done, s.save p m)

/-- The page fault case of `trap`, from user mode or from the kernel. -/
def pageFault (ops : ClockOps σ) (s : Machine σ) (p va : Nat) (user : Bool) :
    Except Halt (Machine σ) := do
  let (done, m) ← mdecrypt ops (s.load p) (s.proc p).pgdir va
  let s := s.save p m
  if !done && !user then .error (.panic "trap")
  else
    let s := s.setProc p { s.proc p with killed := (s.proc p).killed || !done }
    if (s.proc p).killed && user then exit s p else .ok s

/-- `pipealloc`; whether `filealloc` succeeds is given. -/
def pipealloc (s : Machine σ) (files : Bool) : Option Nat × Machine σ :=
  if !files then (none, s)
  else
    match kalloc s.mem with
    | (none, m) => (none, { s with mem := m })
    | (some frame, m) =>
      (some frame, { s with mem := m, pipes := Function.update s.pipes frame (some ⟨true, true⟩) })

/-- `pipeclose` of one end. -/
def pipeclose (image : Image) (s : Machine σ) (frame : Nat) (pipe : Pipe) (writable : Bool) :
    Except Halt (Machine σ) :=
  let pipe := if writable then { pipe with writeopen := false } else { pipe with readopen := false }
  if !pipe.readopen && !pipe.writeopen then do
    let m ← kfree image s.mem frame
    .ok { s with mem := m, pipes := Function.update s.pipes frame none }
  else .ok { s with pipes := Function.update s.pipes frame (some pipe) }

/-- An access of user code to its own memory: the hardware marks the entry, and a store replaces a
word. An access that the entry does not permit has no effect here; the page fault it raises is a
step of its own. -/
def access (s : Machine σ) (p va : Nat) (store : Option Word) : Machine σ :=
  if kernBase ≤ va then s
  else
    match (walkpgdir s.mem (s.proc p).pgdir va false).1 with
    | none => s
    | some pte =>
      let word := s.mem.get pte
      if has word pteP && has word pteU then
        match store with
        | none => { s with mem := s.mem.set pte (word ||| pteA) }
        | some value =>
          if has word pteW then
            let m := s.mem.set ⟨frameOf word, va % pgSize / 4⟩ value
            { s with mem := m.set pte (word ||| (pteA ||| pteD)) }
          else s
      else s

/-- One step of the machine. -/
inductive Action where
  /-- `exec` of a file by a process. -/
  | exec (p : Nat) (file : Option (List (BitVec 8))) (path : List (BitVec 8))
    (argv : List (List (BitVec 8)))
  /-- `fork`. -/
  | fork (p : Nat)
  /-- `exit`. -/
  | exit (p : Nat)
  /-- `wait`. -/
  | wait (p : Nat)
  /-- A page fault, in user mode or in the kernel. -/
  | fault (p : Nat) (va : Word) (user : Bool)
  /-- `sys_mencrypt`. -/
  | mencrypt (p : Nat) (va len : Word)
  /-- `growproc`. -/
  | grow (p : Nat) (n : Word)
  /-- `pipealloc`. -/
  | pipealloc (files : Bool)
  /-- `pipeclose`. -/
  | pipeclose (frame : Nat) (writable : Bool)
  /-- An access of user code. -/
  | access (p : Nat) (va : Word) (store : Option Word)

/-- The process exists and can run. -/
def Machine.ready (s : Machine σ) (p : Nat) : Bool := decide (p < nproc) && (s.proc p).state.alive

/-- The effect of an action; one of a process that cannot run has none. -/
def Machine.step (image : Image) (ops : ClockOps σ) (s : Machine σ) :
    Action → Except Halt (Machine σ)
  | .exec p file path argv =>
    if s.ready p then Prod.snd <$> MemoryEncryption.exec image ops s p file path argv else .ok s
  | .fork p => if s.ready p then Prod.snd <$> MemoryEncryption.fork image ops s p else .ok s
  | .exit p => if s.ready p then MemoryEncryption.exit s p else .ok s
  | .wait p => if s.ready p then Prod.snd <$> MemoryEncryption.wait image ops s p else .ok s
  | .fault p va user => if s.ready p then pageFault ops s p va.toNat user else .ok s
  | .mencrypt p va len =>
    if s.ready p then
      (fun result => s.save p result.2) <$>
        sysMencrypt (s.load p) (s.proc p).pgdir (s.proc p).sz va.toNat len.toInt
    else .ok s
  | .grow p n => if s.ready p then Prod.snd <$> growproc image ops s p n.toInt else .ok s
  | .pipealloc files => .ok (MemoryEncryption.pipealloc s files).2
  | .pipeclose frame writable =>
    match s.pipes frame with
    | none => .ok s
    | some pipe => MemoryEncryption.pipeclose image s frame pipe writable
  | .access p va store =>
    if s.ready p then .ok (MemoryEncryption.access s p va.toNat store) else .ok s

end MemoryEncryption
