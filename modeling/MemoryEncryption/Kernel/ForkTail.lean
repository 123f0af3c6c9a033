import MemoryEncryption.Kernel.Process

/-!
# The end of `fork`, statement by statement

`fork` makes the child `RUNNABLE` under `ptable.lock`, releases the lock, and only
then copies the clock queue into the child. Here the parent's remaining statements,
the scheduler and the child take turns in any order, one store at a time. The child
starts with whatever queue the previous occupant of its slot has left.
-/

namespace MemoryEncryption

/-- A store into one of the clock fields of a process. -/
inductive QueueStore where
  /-- `cq[i].va = value`. -/
  | va (i : Nat) (value : Nat)
  /-- `cq[i].pte = value`. -/
  | pte (i : Nat) (value : Option PteAddr)
  /-- `cq[i].empty = value`. -/
  | empty (i : Nat) (value : Int)
  /-- `clock_hand = value`. -/
  | hand (value : Int)
  deriving DecidableEq, Repr

/-- Change one slot of a queue. -/
def Queue.setSlot {α : Type} (queue : Queue α) (i : Nat) (node : CqNode α) : Queue α :=
  ⟨Function.update queue.slot i node, queue.hand⟩

/-- The queue after a store. -/
def QueueStore.apply (queue : Queue PteAddr) : QueueStore → Queue PteAddr
  | .va i value => queue.setSlot i { queue.slot i with va := value }
  | .pte i value => queue.setSlot i { queue.slot i with pte := value }
  | .empty i value => queue.setSlot i { queue.slot i with empty := value }
  | .hand value => ⟨queue.slot, value⟩

/-- The loop at the end of `fork` and the store that follows it. -/
def copyStores (curproc : Queue PteAddr) : List QueueStore :=
  (List.range clockSize).flatMap (fun i =>
    [.va i (curproc.slot i).va, .pte i (curproc.slot i).pte, .empty i (curproc.slot i).empty]) ++
  [.hand curproc.hand]

/-- The statements of `fork` from `acquire(&ptable.lock)` on. -/
inductive ForkStatement where
  /-- `acquire(&ptable.lock)`. -/
  | acquire
  /-- `np->state = RUNNABLE`. -/
  | runnable
  /-- `release(&ptable.lock)`. -/
  | release
  /-- A store into a clock field of `np`. -/
  | store (store : QueueStore)
  deriving DecidableEq, Repr

/-- The statements in order. -/
def forkTail (curproc : Queue PteAddr) : List ForkStatement :=
  [.acquire, .runnable, .release] ++ (copyStores curproc).map .store

/-- Who holds `ptable.lock`. -/
inductive Holder where
  /-- The parent, in `fork`. -/
  | fork
  /-- A scheduler. -/
  | scheduler
  /-- The child, until `forkret`, `yield` or `sleep` releases it. -/
  | child
  deriving DecidableEq, Repr

/-- The parent in `fork`, a scheduler, and the child. -/
structure Race where
  /-- The clock fields of the parent. -/
  curproc : Queue PteAddr
  /-- What is left of `fork`. -/
  rest : List ForkStatement
  /-- `ptable.lock`. -/
  lock : Option Holder
  /-- `np->state`. -/
  state : ProcState
  /-- The clock fields of the child. -/
  queue : Queue PteAddr
  /-- The stores that the child has made, for the statements of results. -/
  written : List QueueStore

/-- The parent is about to take the lock. -/
def Race.start (curproc stale : Queue PteAddr) : Race :=
  ⟨curproc, forkTail curproc, none, .embryo, stale, []⟩

/-- What can happen next. -/
inductive Turn where
  /-- The parent executes the next statement of `fork`. -/
  | fork
  /-- `scheduler` acquires the lock. -/
  | schedule
  /-- `scheduler` finds the child and switches to it, the lock being held. -/
  | dispatch
  /-- `scheduler` releases the lock. -/
  | unschedule
  /-- The child releases the lock. -/
  | resume
  /-- The child makes a store into its clock fields, in a page fault. -/
  | store (store : QueueStore)
  /-- The child acquires the lock and gives up the CPU, by `yield`, `sleep` or `exit`. -/
  | leave (state : ProcState)
  /-- `wakeup` of the child. -/
  | wakeup

/-- The child is executing its own code, in user mode or in the kernel. -/
def Race.executing (s : Race) : Bool := s.state = .running && s.lock ≠ some .child

/-- The effect of a turn; one that is not possible has none. -/
def Race.step (s : Race) : Turn → Race
  | .fork =>
    match s.rest with
    | [] => s
    | .acquire :: rest => if s.lock = none then { s with rest := rest, lock := some .fork } else s
    | .runnable :: rest => { s with rest := rest, state := .runnable }
    | .release :: rest => { s with rest := rest, lock := none }
    | .store store :: rest => { s with rest := rest, queue := store.apply s.queue }
  | .schedule => if s.lock = none then { s with lock := some .scheduler } else s
  | .dispatch =>
    if s.lock = some .scheduler ∧ s.state = .runnable then
      { s with lock := some .child, state := .running }
    else s
  | .unschedule => if s.lock = some .scheduler then { s with lock := none } else s
  | .resume => if s.lock = some .child then { s with lock := none } else s
  | .store store =>
    if s.executing then
      { s with queue := store.apply s.queue, written := s.written ++ [store] }
    else s
  | .leave state =>
    if s.executing ∧ s.lock = none ∧ state ∈ [.runnable, .sleeping, .zombie] then
      { s with lock := some .scheduler, state := state }
    else s
  | .wakeup => if s.lock = none ∧ s.state = .sleeping then { s with state := .runnable } else s

end MemoryEncryption
