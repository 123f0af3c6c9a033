import MemoryEncryption.Kernel.ForkTail
import MemoryEncryption.Verif.Faults

/-!
# The race at the end of `fork`

A child that is dispatched before `fork` has made its last store runs with the queue
of a former process, and what it puts there is overwritten. When the scheduler does
not dispatch it before, every store into its queue is its own and is kept.
-/

namespace MemoryEncryption

open ClockRing

/-! ## Queues and stores -/

/-- Two queues have the same slots and the same hand. -/
def Queue.Agrees (left right : Queue PteAddr) : Prop :=
  (∀ i < clockSize, left.slot i = right.slot i) ∧ left.hand = right.hand

theorem Queue.Agrees.apply {left right : Queue PteAddr} (same : left.Agrees right)
    (store : QueueStore) :
    (store.apply left).Agrees (store.apply right) := by
  obtain ⟨slots, hand⟩ := same
  have changed : ∀ (i : Nat) (change : CqNode PteAddr → CqNode PteAddr),
      (left.setSlot i (change (left.slot i))).Agrees (right.setSlot i (change (right.slot i))) := by
    refine fun i change => ⟨fun j bound => ?_, hand⟩
    by_cases here : j = i
    · subst here
      simp [Queue.setSlot, slots j bound]
    · simp [Queue.setSlot, here, slots j bound]
  cases store with
  | va i value => exact changed i fun node => { node with va := value }
  | pte i value => exact changed i fun node => { node with pte := value }
  | empty i value => exact changed i fun node => { node with empty := value }
  | hand value => exact ⟨slots, rfl⟩

theorem copySlot (queue : Queue PteAddr) (i : Nat) (node : CqNode PteAddr) :
    [QueueStore.va i node.va, .pte i node.pte, .empty i node.empty].foldl QueueStore.apply queue =
      queue.setSlot i node := by
  simp [QueueStore.apply, Queue.setSlot]

theorem copyStores_agrees (curproc queue : Queue PteAddr) :
    ((copyStores curproc).foldl QueueStore.apply queue).Agrees curproc := by
  have rounds : ∀ n, ∀ i < n, (((List.range n).flatMap fun i =>
      [QueueStore.va i (curproc.slot i).va, .pte i (curproc.slot i).pte,
        .empty i (curproc.slot i).empty]).foldl QueueStore.apply queue).slot i = curproc.slot i := by
    intro n
    induction n with
    | zero => simp
    | succ n ih =>
      intro i bound
      rw [List.range_succ, List.flatMap_append, List.foldl_append, List.flatMap_singleton, copySlot]
      by_cases here : i = n
      · simp [Queue.setSlot, here]
      · simp [Queue.setSlot, here, ih i (by omega)]
  rw [copyStores, List.foldl_append]
  exact ⟨rounds clockSize, rfl⟩

/-! ## Turns -/

/-- A turn that is allowed. -/
def Race.Steps (allowed : Race → Turn → Prop) (s s' : Race) : Prop :=
  ∃ turn, allowed s turn ∧ s.step turn = s'

/-- What should hold of the child at all times. -/
structure Race.Safe (s : Race) : Prop where
  /-- When the child executes, `fork` has made all its stores. -/
  initialised : s.executing = true → s.rest = []
  /-- When the child has made a store, `fork` makes no more. -/
  kept : s.written ≠ [] → s.rest = []
  /-- When the child executes, its queue is the parent's, changed by its own stores only. -/
  contents : s.executing = true → s.queue.Agrees (s.written.foldl QueueStore.apply s.curproc)

/-- The scheduler does not dispatch the child before `fork` has made its last store. -/
def WaitsForFork (s : Race) (turn : Turn) : Prop := turn = .dispatch → s.rest = []

/-- The effect of a statement of `fork` on the child's queue. -/
def ForkStatement.apply (queue : Queue PteAddr) : ForkStatement → Queue PteAddr
  | .store made => made.apply queue
  | .acquire | .runnable | .release => queue

/-- Either `fork` is under way and the child has not run, or `fork` is through. -/
inductive Race.Ordered (stale : Queue PteAddr) (s : Race) : Prop where
  /-- The child has not run, and its queue is what `fork` has stored so far. -/
  | copying (done : List ForkStatement) (order : forkTail s.curproc = done ++ s.rest)
    (unwritten : s.written = [])
    (queue : s.queue = done.foldl ForkStatement.apply stale)
    (state : s.state = .embryo ∨ s.state = .runnable)
  /-- `fork` is through, and the child's stores are its own. -/
  | through (rest : s.rest = [])
    (queue : s.queue.Agrees (s.written.foldl QueueStore.apply s.curproc))

variable {s : Race}

theorem Race.not_executing (state : s.state = .embryo ∨ s.state = .runnable) :
    s.executing = false := by
  rcases state with same | same
  · simp [Race.executing, same]
  · simp [Race.executing, same]

theorem forkTail_agrees (curproc stale : Queue PteAddr) :
    ((forkTail curproc).foldl ForkStatement.apply stale).Agrees curproc := by
  rw [forkTail, List.foldl_append, List.foldl_map]
  exact copyStores_agrees curproc _

theorem Race.Ordered.step {stale : Queue PteAddr} (ordered : s.Ordered stale) {turn : Turn}
    (waits : WaitsForFork s turn) : (s.step turn).Ordered stale := by
  cases ordered with
  | copying done order unwritten queue state =>
    have idle := Race.not_executing state
    have advance : ∀ {first : ForkStatement} {rest : List ForkStatement}, s.rest = first :: rest →
        forkTail s.curproc = (done ++ [first]) ++ rest ∧
          first.apply s.queue = (done ++ [first]).foldl ForkStatement.apply stale := by
      intro first rest shape
      rw [order, shape, queue, List.foldl_append]
      exact ⟨by simp, rfl⟩
    cases turn with
    | fork =>
      rw [Race.step]
      split
      · exact .copying done order unwritten queue state
      · rename_i shape
        split
        · exact .copying _ (advance shape).1 unwritten (advance shape).2 state
        · exact .copying done order unwritten queue state
      · rename_i shape
        exact .copying _ (advance shape).1 unwritten (advance shape).2 (.inr rfl)
      · rename_i shape
        exact .copying _ (advance shape).1 unwritten (advance shape).2 state
      · rename_i shape
        exact .copying _ (advance shape).1 unwritten (advance shape).2 state
    | dispatch =>
      rw [Race.step]
      split
      · -- the child gets the CPU, so `fork` is through
        have rest := waits rfl
        rw [rest, List.append_nil] at order
        refine .through rest ?_
        rw [unwritten, queue, ← order]
        exact forkTail_agrees s.curproc stale
      · exact .copying done order unwritten queue state
    | schedule | unschedule | resume =>
      rw [Race.step]
      split <;> exact .copying done order unwritten queue state
    | store made =>
      rw [Race.step, idle]
      exact .copying done order unwritten queue state
    | leave next =>
      rw [Race.step, idle, if_neg (by simp)]
      exact .copying done order unwritten queue state
    | wakeup =>
      rw [Race.step]
      split
      · exact .copying done order unwritten queue (.inr rfl)
      · exact .copying done order unwritten queue state
  | through rest queue =>
    cases turn with
    | fork =>
      rw [Race.step, rest]
      exact .through rest queue
    | store made =>
      rw [Race.step]
      split
      · refine .through rest ?_
        rw [List.foldl_append]
        exact queue.apply made
      · exact .through rest queue
    | schedule | dispatch | unschedule | resume | leave next | wakeup =>
      rw [Race.step]
      split <;> exact .through rest queue

/-- If the scheduler waits for `fork`, the child never runs with a queue that is not its own, and
none of its stores is overwritten. -/
theorem fork_waits_safe (curproc stale : Queue PteAddr) (s : Race)
    (reached : Relation.ReflTransGen (Race.Steps WaitsForFork) (Race.start curproc stale) s) :
    s.Safe := by
  have ordered : s.Ordered stale := by
    induction reached with
    | refl => exact .copying [] rfl rfl rfl (.inl rfl)
    | tail _ last ih =>
      obtain ⟨turn, waits, rfl⟩ := last
      exact ih.step waits
  cases ordered with
  | copying done order unwritten queue state =>
    have idle := Race.not_executing state
    exact ⟨fun executing => by simp [idle] at executing, fun written => absurd unwritten written,
      fun executing => by simp [idle] at executing⟩
  | through rest queue => exact ⟨fun _ => rest, fun _ => rest, fun _ => queue⟩

/-- The queue of a parent that has one page in it. -/
def parentQueue : Queue PteAddr :=
  ⟨fun i => if i = 0 then ⟨0, 0, some ⟨402, 0⟩⟩ else ⟨-1, 0, none⟩, 0⟩

/-- The stores of a child that faults at address 4096 and finds the first slot empty. -/
def childStores : List QueueStore := [.va 0 4096, .pte 0 (some ⟨502, 1⟩), .empty 0 0, .hand 0]

/-- The turns of a scheduler that finds the child, and of the child. -/
def childTurns : List Turn := [.schedule, .dispatch, .resume] ++ childStores.map .store

/-- Turns one after the other. -/
def Race.turns (s : Race) (turns : List Turn) : Race := turns.foldl Race.step s

theorem Race.turns_reaches {allowed : Race → Turn → Prop} (turns : List Turn) (s : Race)
    (each : ∀ before turn after, turns = before ++ turn :: after → allowed (s.turns before) turn) :
    Relation.ReflTransGen (Race.Steps allowed) s (s.turns turns) := by
  induction turns generalizing s with
  | nil => exact .refl
  | cons first rest ih =>
    have later : Relation.ReflTransGen (Race.Steps allowed) (s.step first)
        ((s.step first).turns rest) := by
      refine ih (s.step first) fun before turn after split => ?_
      exact each (first :: before) turn after (by rw [split, List.cons_append])
    exact .head ⟨first, each [] first rest rfl, rfl⟩ later

theorem Race.turns_through (turns : List Turn) (through : s.rest = []) :
    (s.turns turns).rest = [] := by
  induction turns generalizing s with
  | nil => exact through
  | cons first rest ih =>
    refine ih ?_
    cases first with
    | fork => rw [Race.step, through]; exact through
    | schedule | dispatch | unschedule | resume | store made | leave next | wakeup =>
      rw [Race.step]
      split <;> exact through

/-- The child runs after `fork` has finished, and keeps what it has stored. -/
theorem lateDispatch_safe :
    (((Race.start parentQueue cqInit).turns (List.replicate 28 .fork)).turns childTurns).Safe := by
  have copied : Relation.ReflTransGen (Race.Steps WaitsForFork) (Race.start parentQueue cqInit)
      ((Race.start parentQueue cqInit).turns (List.replicate 28 .fork)) := by
    refine Race.turns_reaches _ _ fun before turn after split dispatched => ?_
    have member : turn ∈ List.replicate 28 Turn.fork := by simp [split]
    rw [(List.mem_replicate.mp member).2] at dispatched
    simp at dispatched
  refine fork_waits_safe parentQueue cqInit _ (copied.trans ?_)
  have through : ((Race.start parentQueue cqInit).turns (List.replicate 28 .fork)).rest = [] := by
    decide +kernel
  exact Race.turns_reaches _ _ fun before _ _ _ _ => Race.turns_through before through

/-- The child runs when `fork` has just released the lock. It executes with a queue that is not its
parent's, and `fork` overwrites the page that it puts there. -/
theorem earlyDispatch_overwrites :
    ∃ early late : Race,
      early = ((Race.start parentQueue cqInit).turns (List.replicate 3 .fork)).turns childTurns ∧
      late = early.turns (List.replicate 25 .fork) ∧
      ¬ early.Safe ∧ early.executing = true ∧ early.rest ≠ [] ∧
      (early.queue.slot 0).pte = some ⟨502, 1⟩ ∧ late.executing = true ∧
      ∀ i < clockSize, (late.queue.slot i).pte ≠ some ⟨502, 1⟩ := by
  have outstanding : (((Race.start parentQueue cqInit).turns (List.replicate 3 .fork)).turns
      childTurns).rest ≠ [] := by decide +kernel
  exact ⟨_, _, rfl, rfl, fun safe => outstanding (safe.initialised (by decide +kernel)),
    by decide +kernel, outstanding, by decide +kernel, by decide +kernel, by decide +kernel⟩

end MemoryEncryption
