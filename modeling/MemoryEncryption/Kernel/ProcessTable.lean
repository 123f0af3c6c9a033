import MemoryEncryption.Kernel.Process

/-!
# The process table under concurrency

`fork`, `exit`, `wait`, `kill`, `sleep`, `wakeup` and the scheduler, one step for each
section under `ptable.lock` and for each change that `fork` makes without it. Of a
process only what these functions read and write is kept; address spaces are in
`Process`. A process ID is the running number it was made from; its value is that
number modulo `2 ^ 32`.
-/

namespace MemoryEncryption

instance : NeZero nproc := ⟨by decide⟩

/-- What a process sleeps on. -/
inductive Chan where
  /-- The address of a slot, in `wait`. -/
  | proc (p : Fin nproc)
  /-- Any other address. -/
  | other (address : Nat)
  deriving DecidableEq, Repr

/-- What a process is doing. -/
inductive Task where
  /-- None of what follows. -/
  | free
  /-- In `fork`, after `allocproc` has found a slot. -/
  | allocated (np : Fin nproc)
  /-- In `fork`, after the slot has been filled. -/
  | filled (np : Fin nproc)
  /-- In the loop of `wait`. -/
  | waiting
  deriving DecidableEq, Repr

/-- `struct proc`, as far as it matters here, with two histories. -/
structure Slot where
  /-- `state`. -/
  state : ProcState
  /-- `pid`, before reduction to 32 bits. -/
  pid : Nat
  /-- `parent`. -/
  parent : Option (Fin nproc)
  /-- `killed`. -/
  killed : Bool
  /-- `chan`. -/
  chan : Option Chan
  /-- `kstack`, with 0 for a null pointer. -/
  kstack : Nat
  /-- `pgdir`, with 0 for a null pointer. -/
  pgdir : Nat
  /-- What the process is doing. -/
  task : Task
  /-- `pid` of the process that made this one. -/
  origin : Nat
  /-- `kill` has been called with this process's ID, or it has taken a fatal trap. -/
  condemned : Bool
  deriving DecidableEq, Repr

/-- The process table. -/
structure ProcTable where
  /-- `ptable.proc`. -/
  slot : Fin nproc → Slot
  /-- `nextpid`, before reduction to 32 bits. -/
  nextpid : Nat
  /-- `initproc`. -/
  initproc : Fin nproc
  /-- The IDs of the processes that have exited. -/
  exited : List Nat
  /-- The IDs that `wait` has returned. -/
  reported : List Nat

namespace ProcTable

/-- The table when `userinit` returns. -/
def start : ProcTable where
  slot p := if p = 0 then ⟨.runnable, 1, none, false, none, 1, 1, .free, 0, false⟩
    else ⟨.unused, 0, none, false, none, 0, 0, .free, 0, false⟩
  nextpid := 2
  initproc := 0
  exited := []
  reported := []

/-- Change a slot. -/
def modify (t : ProcTable) (p : Fin nproc) (change : Slot → Slot) : ProcTable :=
  { t with slot := Function.update t.slot p (change (t.slot p)) }

/-- The first slot, in the order of the table, with a property. -/
def find (t : ProcTable) (test : Slot → Bool) : Option (Fin nproc) :=
  (List.finRange nproc).find? fun p => test (t.slot p)

/-- `wakeup1`. -/
def wakeup1 (t : ProcTable) (chan : Option Chan) : ProcTable :=
  { t with slot := fun p =>
      if (t.slot p).state = .sleeping ∧ (t.slot p).chan = chan then
        { t.slot p with state := .runnable }
      else t.slot p }

/-- `allocproc` takes a slot, for `fork`. -/
def allocate (t : ProcTable) (p np : Fin nproc) : ProcTable :=
  { (t.modify np fun slot => { slot with
        state := .embryo, pid := t.nextpid, origin := (t.slot p).pid, condemned := false }).modify p
      fun slot => { slot with task := .allocated np } with
    nextpid := t.nextpid + 1 }

/-- The section of `allocproc` under the lock, called by `fork`. -/
def allocproc (t : ProcTable) (p : Fin nproc) : ProcTable :=
  match t.find fun slot => slot.state = .unused with
  | none => t
  | some np => t.allocate p np

/-- `fork` fails, in `allocproc` or later in `copyuvm`. -/
def forkFails (t : ProcTable) (p np : Fin nproc) (copying : Bool) : ProcTable :=
  (t.modify np fun slot => { slot with
      state := .unused, kstack := 0, pgdir := if copying then 0 else slot.pgdir }).modify p
    fun slot => { slot with task := .free }

/-- `fork` fills the slot, with the frames that it has got. -/
def forkFills (t : ProcTable) (p np : Fin nproc) (kstack pgdir : Nat) : ProcTable :=
  (t.modify np fun slot => { slot with
      kstack := kstack, pgdir := pgdir, parent := some p }).modify p
    fun slot => { slot with task := .filled np }

/-- The section of `fork` under the lock. -/
def forkRuns (t : ProcTable) (p np : Fin nproc) : ProcTable :=
  (t.modify np fun slot => { slot with state := .runnable }).modify p
    fun slot => { slot with task := .free }

/-- The loop of `exit` that passes abandoned children to `initproc`. -/
def reparent (t : ProcTable) (p : Fin nproc) : ProcTable :=
  { t with slot := fun q =>
      if (t.slot q).parent = some p then { t.slot q with parent := some t.initproc } else t.slot q }

/-- Some child of a process is a zombie. -/
def deadChild (t : ProcTable) (p : Fin nproc) : Bool :=
  (t.find fun slot => slot.parent = some p ∧ slot.state = .zombie).isSome

/-- The section of `exit` under the lock. -/
def exit (t : ProcTable) (p : Fin nproc) : Except Halt ProcTable :=
  if p = t.initproc then .error (.panic "init exiting")
  else
    let woken := t.wakeup1 ((t.slot p).parent.map .proc)
    let passed := (woken.reparent p)
    let told := if t.deadChild p then passed.wakeup1 (some (.proc t.initproc)) else passed
    .ok { told.modify p fun slot => { slot with state := .zombie } with
      exited := t.exited ++ [(t.slot p).pid] }

/-- `wait` frees a child. -/
def reap (t : ProcTable) (p q : Fin nproc) : ProcTable :=
  { (t.modify q fun slot => { slot with
        kstack := 0, pid := 0, parent := none, killed := false, state := .unused }).modify p
      fun slot => { slot with task := .free } with
    reported := t.reported ++ [(t.slot q).pid] }

/-- `wait` goes to sleep, on the address of the caller's slot. -/
def waitSleeps (t : ProcTable) (p : Fin nproc) : ProcTable :=
  t.modify p fun slot => { slot with
    state := .sleeping, chan := some (.proc p), task := .waiting }

/-- A round of the loop of `wait`. -/
def wait (t : ProcTable) (p : Fin nproc) : ProcTable :=
  match t.find fun slot => slot.parent = some p ∧ slot.state = .zombie with
  | some q => t.reap p q
  | none =>
    if (t.find fun slot => slot.parent = some p) = none ∨ (t.slot p).killed = true then
      t.modify p fun slot => { slot with task := .free }
    else t.waitSleeps p

/-- The slot that `kill` finds. -/
def target (t : ProcTable) (pid : Word) : Option (Fin nproc) :=
  t.find fun slot => BitVec.ofNat 32 slot.pid = pid

/-- `kill` marks a slot, and wakes its process. -/
def condemn (t : ProcTable) (p : Fin nproc) : ProcTable :=
  t.modify p fun slot => { slot with
    killed := true
    condemned := true
    state := if slot.state = .sleeping then .runnable else slot.state }

/-- `kill`. -/
def kill (t : ProcTable) (pid : Word) : ProcTable :=
  match t.target pid with
  | none => t
  | some p => t.condemn p

end ProcTable

/-- What can happen next. -/
inductive TableEvent where
  /-- `fork` calls `allocproc`. -/
  | allocproc (p : Fin nproc)
  /-- `fork` gives its slot back. -/
  | forkFails (p : Fin nproc) (copying : Bool)
  /-- `fork` fills its slot. -/
  | forkFills (p : Fin nproc) (kstack pgdir : Nat)
  /-- `fork` makes its slot runnable. -/
  | forkRuns (p : Fin nproc)
  /-- `exit`. -/
  | exit (p : Fin nproc)
  /-- `wait`, from its start or after a sleep. -/
  | wait (p : Fin nproc)
  /-- `kill`, by any process. -/
  | kill (pid : Word)
  /-- A fatal trap. -/
  | trap (p : Fin nproc)
  /-- `sleep` on something other than a slot. -/
  | sleep (p : Fin nproc) (address : Nat)
  /-- `wakeup`, by any process or an interrupt. -/
  | wakeup (address : Nat)
  /-- `yield`. -/
  | yield (p : Fin nproc)
  /-- `scheduler` runs a process. -/
  | schedule (p : Fin nproc)

/-- The effect of an event; one that is not possible has none. -/
def ProcTable.step (t : ProcTable) : TableEvent → Except Halt ProcTable
  | .allocproc p =>
    .ok (if (t.slot p).state = .running ∧ (t.slot p).task = .free then t.allocproc p else t)
  | .forkFails p copying =>
    match (t.slot p).state, (t.slot p).task with
    | .running, .allocated np => .ok (t.forkFails p np copying)
    | _, _ => .ok t
  | .forkFills p kstack pgdir =>
    match (t.slot p).state, (t.slot p).task with
    | .running, .allocated np => .ok (t.forkFills p np kstack pgdir)
    | _, _ => .ok t
  | .forkRuns p =>
    match (t.slot p).state, (t.slot p).task with
    | .running, .filled np => .ok (t.forkRuns p np)
    | _, _ => .ok t
  | .exit p => if (t.slot p).state = .running ∧ (t.slot p).task = .free then t.exit p else .ok t
  | .wait p =>
    .ok (if (t.slot p).state = .running ∧ (t.slot p).task ∈ [.free, .waiting] then t.wait p else t)
  | .kill pid => .ok (t.kill pid)
  | .trap p =>
    .ok (if (t.slot p).state = .running ∧ (t.slot p).task = .free then
      t.modify p fun slot => { slot with killed := true, condemned := true }
    else t)
  | .sleep p address =>
    .ok (if (t.slot p).state = .running ∧ (t.slot p).task = .free then
      t.modify p fun slot => { slot with state := .sleeping, chan := some (.other address) }
    else t)
  | .wakeup address => .ok (t.wakeup1 (some (.other address)))
  | .yield p =>
    .ok (if (t.slot p).state = .running then
      t.modify p fun slot => { slot with state := .runnable }
    else t)
  | .schedule p =>
    .ok (if (t.slot p).state = .runnable then
      t.modify p fun slot => { slot with state := .running }
    else t)

end MemoryEncryption
