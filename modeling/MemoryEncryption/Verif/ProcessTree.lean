import MemoryEncryption.Kernel.ProcessTable
import MemoryEncryption.Verif.Families

/-!
# The process tree

The process table is a family: every step of it is a step of the family, or changes
nothing there. What holds of families then holds of processes.
-/

namespace MemoryEncryption

/-! ## What a step can do -/

variable {t t' : ProcTable}

namespace ProcTable

/-- What an event can do to the table. -/
inductive Move (t : ProcTable) : TableEvent → ProcTable → Prop where
  /-- The event is not possible, or changes nothing. -/
  | none (event : TableEvent) : t.Move event t
  /-- `allocproc` finds a slot. -/
  | allocproc {p np : Fin nproc} (running : (t.slot p).state = .running)
      (free : (t.slot p).task = .free) (unused : (t.slot np).state = .unused) :
      t.Move (.allocproc p) (t.allocate p np)
  /-- `fork` gives its slot back. -/
  | forkFails {p np : Fin nproc} (copying : Bool) (running : (t.slot p).state = .running)
      (task : (t.slot p).task = .allocated np) :
      t.Move (.forkFails p copying) (t.forkFails p np copying)
  /-- `fork` fills its slot. -/
  | forkFills {p np : Fin nproc} (kstack pgdir : Nat) (running : (t.slot p).state = .running)
      (task : (t.slot p).task = .allocated np) :
      t.Move (.forkFills p kstack pgdir) (t.forkFills p np kstack pgdir)
  /-- `fork` makes its slot runnable. -/
  | forkRuns {p np : Fin nproc} (running : (t.slot p).state = .running)
      (task : (t.slot p).task = .filled np) : t.Move (.forkRuns p) (t.forkRuns p np)
  /-- `exit`. -/
  | exit {p : Fin nproc} {t' : ProcTable} (running : (t.slot p).state = .running)
      (free : (t.slot p).task = .free) (returned : t.exit p = .ok t') : t.Move (.exit p) t'
  /-- `wait` frees a child. -/
  | reap {p q : Fin nproc} (running : (t.slot p).state = .running)
      (task : (t.slot p).task ∈ [.free, .waiting]) (child : (t.slot q).parent = some p)
      (zombie : (t.slot q).state = .zombie) : t.Move (.wait p) (t.reap p q)
  /-- `wait` fails. -/
  | waitFails {p : Fin nproc} (running : (t.slot p).state = .running)
      (task : (t.slot p).task ∈ [.free, .waiting]) :
      t.Move (.wait p) (t.modify p fun slot => { slot with task := .free })
  /-- `wait` goes to sleep, having found no zombie. -/
  | waitSleeps {p : Fin nproc} (running : (t.slot p).state = .running)
      (task : (t.slot p).task ∈ [.free, .waiting])
      (alive : ∀ q, (t.slot q).parent = some p → (t.slot q).state ≠ .zombie) :
      t.Move (.wait p) (t.waitSleeps p)
  /-- `kill` finds a slot. -/
  | kill {p : Fin nproc} {pid : Word} (found : t.target pid = some p) :
      t.Move (.kill pid) (t.condemn p)
  /-- A fatal trap. -/
  | trap {p : Fin nproc} (running : (t.slot p).state = .running) :
      t.Move (.trap p) (t.modify p fun slot => { slot with killed := true, condemned := true })
  /-- `sleep` on something other than a slot. -/
  | sleep {p : Fin nproc} (address : Nat) (running : (t.slot p).state = .running) :
      t.Move (.sleep p address) (t.modify p fun slot => { slot with
        state := .sleeping, chan := some (.other address) })
  /-- `wakeup`. -/
  | wakeup (address : Nat) : t.Move (.wakeup address) (t.wakeup1 (some (.other address)))
  /-- `yield`. -/
  | yield {p : Fin nproc} (running : (t.slot p).state = .running) :
      t.Move (.yield p) (t.modify p fun slot => { slot with state := .runnable })
  /-- `scheduler` runs a process. -/
  | schedule {p : Fin nproc} (runnable : (t.slot p).state = .runnable) :
      t.Move (.schedule p) (t.modify p fun slot => { slot with state := .running })

theorem find_eq_some {test : Slot → Bool} {p : Fin nproc} (found : t.find test = some p) :
    test (t.slot p) = true := by
  have passed := List.find?_some found
  exact passed

theorem find_eq_none {test : Slot → Bool} (nothing : t.find test = none) (p : Fin nproc) :
    test (t.slot p) = false := by
  have refused := List.find?_eq_none.mp nothing p (List.mem_finRange p)
  simpa using refused

theorem step_move {event : TableEvent} (stepped : t.step event = .ok t') : t.Move event t' := by
  cases event with
  | allocproc p =>
    cases stepped
    split
    case isTrue ready =>
      unfold ProcTable.allocproc
      split
      case h_1 => exact .none _
      case h_2 np found => exact .allocproc ready.1 ready.2 (by simpa using find_eq_some found)
    case isFalse => exact .none _
  | forkFails p copying =>
    simp only [step] at stepped
    split at stepped
    case h_1 np running task =>
      cases stepped
      exact .forkFails copying running task
    case h_2 =>
      cases stepped
      exact .none _
  | forkFills p kstack pgdir =>
    simp only [step] at stepped
    split at stepped
    case h_1 np running task =>
      cases stepped
      exact .forkFills kstack pgdir running task
    case h_2 =>
      cases stepped
      exact .none _
  | forkRuns p =>
    simp only [step] at stepped
    split at stepped
    case h_1 np running task =>
      cases stepped
      exact .forkRuns running task
    case h_2 =>
      cases stepped
      exact .none _
  | exit p =>
    simp only [step] at stepped
    split at stepped
    case isTrue ready => exact .exit ready.1 ready.2 stepped
    case isFalse =>
      cases stepped
      exact .none _
  | wait p =>
    cases stepped
    split
    case isTrue ready =>
      unfold ProcTable.wait
      split
      case h_1 q found =>
        have child : (t.slot q).parent = some p ∧ (t.slot q).state = .zombie := by
          simpa using find_eq_some found
        exact .reap ready.1 ready.2 child.1 child.2
      case h_2 nothing =>
        split
        · exact .waitFails ready.1 ready.2
        · apply Move.waitSleeps ready.1 ready.2
          intro q child zombie
          have refused := find_eq_none nothing q
          simp [child, zombie] at refused
    case isFalse => exact .none _
  | kill pid =>
    cases stepped
    unfold ProcTable.kill
    split
    case h_1 => exact .none _
    case h_2 p found => exact .kill found
  | trap p =>
    cases stepped
    split
    case isTrue ready => exact .trap ready.1
    case isFalse => exact .none _
  | sleep p address =>
    cases stepped
    split
    case isTrue ready => exact .sleep address ready.1
    case isFalse => exact .none _
  | wakeup address =>
    cases stepped
    exact .wakeup address
  | yield p =>
    cases stepped
    split
    case isTrue running => exact .yield running
    case isFalse => exact .none _
  | schedule p =>
    cases stepped
    split
    case isTrue runnable => exact .schedule runnable
    case isFalse => exact .none _

end ProcTable

/-! ## The family of a process table -/

/-- The stage of a process in its family. -/
def ProcState.life : ProcState → Life
  | .unused => .vacant
  | .embryo => .unborn
  | .sleeping | .runnable | .running => .living
  | .zombie => .dead

/-- The child that a process is making. -/
def Task.expects : Task → Option (Fin nproc × Bool)
  | .allocated np => some (np, false)
  | .filled np => some (np, true)
  | .free | .waiting => none

@[simp] theorem Task.expects_free : Task.free.expects = none := rfl
@[simp] theorem Task.expects_waiting : Task.waiting.expects = none := rfl
@[simp] theorem ProcState.life_sleeping : ProcState.sleeping.life = .living := rfl

/-- A slot as a member of the family. -/
def Slot.member (slot : Slot) : Member (Fin nproc) (Nat × Nat) :=
  ⟨slot.state.life, slot.pid, slot.parent, slot.origin, (slot.kstack, slot.pgdir),
    slot.task.expects⟩

namespace ProcTable

/-- The family of a process table. -/
def family (t : ProcTable) : Family (Fin nproc) (Nat × Nat) :=
  ⟨fun p => (t.slot p).member, t.initproc, t.nextpid, t.exited, t.reported⟩

theorem modify_slot (t : ProcTable) (p : Fin nproc) (change : Slot → Slot) (q : Fin nproc) :
    (t.modify p change).slot q = if q = p then change (t.slot q) else t.slot q := by
  by_cases same : q = p
  · simp [modify, same]
  · simp [modify, same]

theorem family_eq {f : Family (Fin nproc) (Nat × Nat)} (slots : ∀ p, (t.slot p).member = f.member p)
    (initproc : t.initproc = f.root) (nextpid : t.nextpid = f.nextpid)
    (exited : t.exited = f.exited) (reported : t.reported = f.reported) : t.family = f := by
  obtain ⟨member, root, next, gone, told⟩ := f
  simp only [family, initproc, nextpid, exited, reported, Family.mk.injEq, and_true]
  exact funext slots

theorem family_modify {p : Fin nproc} {change : Slot → Slot}
    (same : (change (t.slot p)).member = (t.slot p).member) :
    (t.modify p change).family = t.family := by
  refine family_eq (fun q => ?_) rfl rfl rfl rfl
  rw [modify_slot]
  split
  case isTrue here => rw [here, same]; rfl
  case isFalse => rfl

theorem family_wakeup1 (t : ProcTable) (chan : Option Chan) :
    (t.wakeup1 chan).family = t.family := by
  refine family_eq (fun p => ?_) rfl rfl rfl rfl
  simp only [wakeup1]
  split
  case isTrue asleep => simp [family, Slot.member, asleep.1, ProcState.life]
  case isFalse => rfl

theorem modify_modify_slot (t : ProcTable) {p np : Fin nproc} (child maker : Slot → Slot)
    (q : Fin nproc) (different : p ≠ np) :
    ((t.modify np child).modify p maker).slot q =
      if q = p then maker (t.slot q) else if q = np then child (t.slot q) else t.slot q := by
  simp only [modify_slot]
  by_cases here : q = p
  · subst here
    simp [different]
  · simp [here]

theorem family_allocate {p np : Fin nproc} (running : (t.slot p).state = .running)
    (free : (t.slot p).task = .free) (unused : (t.slot np).state = .unused) :
    t.family.Step (t.allocate p np).family := by
  have different : p ≠ np := by
    rintro rfl
    rw [running] at unused
    cases unused
  have conceived : t.family.Step (t.family.conceive p np) := by
    apply Family.Step.conceive
    · simp [family, Slot.member, running, ProcState.life]
    · simp [family, Slot.member, free, Task.expects]
    · simp [family, Slot.member, unused, ProcState.life]
  convert conceived using 1
  refine family_eq (fun q => ?_) rfl rfl rfl rfl
  simp only [allocate, modify_modify_slot _ _ _ _ different, Family.conceive, family]
  by_cases parent : q = p
  · subst parent
    simp [Slot.member, different, Task.expects]
  · by_cases child : q = np
    · subst child
      simp [Slot.member, parent, ProcState.life]
    · simp [Slot.member, child, parent]

theorem ne_expected (descended : t.family.Descended) {p np : Fin nproc} {ready : Bool}
    (expects : (t.slot p).task.expects = some (np, ready)) : p ≠ np := by
  rintro rfl
  have living : (t.slot p).state.life = .living := descended.expecting p p ready expects
  have unborn : (t.slot p).state.life = .unborn := (descended.expected p p ready expects).1
  rw [living] at unborn
  cases unborn

theorem family_forkFails (descended : t.family.Descended) {p np : Fin nproc}
    (task : (t.slot p).task = .allocated np) (copying : Bool) :
    t.family.Step (t.forkFails p np copying).family := by
  have expects : (t.slot p).task.expects = some (np, false) := by rw [task, Task.expects]
  have different := ne_expected descended expects
  have abandoned := Family.Step.abandon p np (0, if copying then 0 else (t.slot np).pgdir)
    (show (t.family.member p).expects = _ from expects)
  convert abandoned using 1
  refine family_eq (fun q => ?_) rfl rfl rfl rfl
  simp only [forkFails, modify_modify_slot _ _ _ _ different, Family.abandon, family]
  by_cases parent : q = p
  · subst parent
    simp [Slot.member, different, Task.expects]
  · by_cases child : q = np
    · subst child
      simp [Slot.member, parent, ProcState.life]
    · simp [Slot.member, child, parent]

theorem family_forkFills (descended : t.family.Descended) {p np : Fin nproc}
    (task : (t.slot p).task = .allocated np) (kstack pgdir : Nat) :
    t.family.Step (t.forkFills p np kstack pgdir).family := by
  have expects : (t.slot p).task.expects = some (np, false) := by rw [task, Task.expects]
  have different := ne_expected descended expects
  have equipped := Family.Step.equip p np (kstack, pgdir)
    (show (t.family.member p).expects = _ from expects)
  convert equipped using 1
  refine family_eq (fun q => ?_) rfl rfl rfl rfl
  simp only [forkFills, modify_modify_slot _ _ _ _ different, Family.equip, family]
  by_cases parent : q = p
  · subst parent
    simp [Slot.member, different, Task.expects]
  · by_cases child : q = np
    · subst child
      simp [Slot.member, parent]
    · simp [Slot.member, child, parent]

theorem family_forkRuns (descended : t.family.Descended) {p np : Fin nproc}
    (task : (t.slot p).task = .filled np) : t.family.Step (t.forkRuns p np).family := by
  have expects : (t.slot p).task.expects = some (np, true) := by rw [task, Task.expects]
  have different := ne_expected descended expects
  have born := Family.Step.bear p np (show (t.family.member p).expects = _ from expects)
  convert born using 1
  refine family_eq (fun q => ?_) rfl rfl rfl rfl
  simp only [forkRuns, modify_modify_slot _ _ _ _ different, Family.bear, family]
  by_cases parent : q = p
  · subst parent
    simp [Slot.member, different, Task.expects]
  · by_cases child : q = np
    · subst child
      simp [Slot.member, parent, ProcState.life]
    · simp [Slot.member, child, parent]

theorem wakeup1_member (t : ProcTable) (chan : Option Chan) (q : Fin nproc) :
    ((t.wakeup1 chan).slot q).member = (t.slot q).member :=
  congrFun (congrArg Family.member (t.family_wakeup1 chan)) q

theorem reparent_member (t : ProcTable) (p q : Fin nproc) :
    ((t.reparent p).slot q).member = { (t.slot q).member with
      parent := if (t.slot q).member.parent = some p then some t.initproc
        else (t.slot q).member.parent } := by
  simp only [reparent]
  split
  case isTrue child => simp [Slot.member, child]
  case isFalse other => simp [Slot.member, other]

theorem family_exit {p : Fin nproc} (running : (t.slot p).state = .running)
    (free : (t.slot p).task = .free) (returned : t.exit p = .ok t') : t.family.Step t'.family := by
  unfold exit at returned
  split at returned
  case isTrue => cases returned
  case isFalse mortal =>
    cases returned
    have died : t.family.Step (t.family.die p) := by
      apply Family.Step.die
      · simp [family, Slot.member, running, ProcState.life]
      · simp [family, Slot.member, free, Task.expects]
      · exact mortal
    convert died using 1
    have passed : ∀ told : ProcTable, (∀ q, (told.slot q).member =
        (((t.wakeup1 ((t.slot p).parent.map .proc)).reparent p).slot q).member) → ∀ q,
        ((told.modify p fun slot => { slot with state := .zombie }).slot q).member =
          (t.family.die p).member q := by
      intro told same q
      rw [modify_slot]
      have before : (told.slot q).member = { (t.slot q).member with
          parent := if (t.slot q).member.parent = some p then some t.initproc
            else (t.slot q).member.parent } := by
        rw [same, reparent_member, wakeup1_member]
        rfl
      split
      case isTrue here =>
        subst here
        have dead : ({ told.slot q with state := .zombie } : Slot).member =
            { (told.slot q).member with life := .dead } := rfl
        rw [dead, before]
        simp only [Family.die, family, if_true]
        congr
      case isFalse elsewhere =>
        rw [before]
        simp only [Family.die, family, elsewhere, if_false]
        congr
    by_cases mourned : t.deadChild p = true
    · simp only [mourned, if_true]
      exact family_eq (passed _ fun q => wakeup1_member _ _ q) rfl rfl rfl rfl
    · simp only [mourned, if_false, Bool.false_eq_true]
      exact family_eq (passed _ fun q => rfl) rfl rfl rfl rfl

theorem expects_of_waits {task : Task} (waits : task ∈ [Task.free, .waiting]) :
    task.expects = none := by
  rcases List.mem_cons.mp waits with free | waiting
  · rw [free, Task.expects]
  · rw [List.mem_singleton.mp waiting, Task.expects]

theorem family_reap {p q : Fin nproc} (running : (t.slot p).state = .running)
    (idle : (t.slot p).task.expects = none) (child : (t.slot q).parent = some p)
    (zombie : (t.slot q).state = .zombie) : t.family.Step (t.reap p q).family := by
  have living : (t.slot p).state.life = .living := by rw [running, ProcState.life]
  have different : p ≠ q := by
    rintro rfl
    rw [running] at zombie
    cases zombie
  have buried := Family.Step.bury (f := t.family) p q (0, (t.slot q).pgdir) living child
    (show (t.slot q).state.life = .dead by rw [zombie, ProcState.life])
  convert buried using 1
  refine family_eq (fun r => ?_) rfl rfl rfl rfl
  simp only [reap, modify_modify_slot _ _ _ _ different, Family.bury, family]
  by_cases parent : r = p
  · subst parent
    simp [Slot.member, different, idle]
  · by_cases here : r = q
    · subst here
      simp [Slot.member, parent, ProcState.life]
    · simp [Slot.member, here, parent]

/-- Every step of the table is a step of the family, or changes nothing there. -/
theorem Move.refines {event : TableEvent} (move : t.Move event t') (descended : t.family.Descended) :
    t'.family = t.family ∨ t.family.Step t'.family := by
  cases move with
  | none => exact .inl rfl
  | allocproc running free unused => exact .inr (family_allocate running free unused)
  | forkFails copying running task => exact .inr (family_forkFails descended task copying)
  | forkFills kstack pgdir running task =>
    exact .inr (family_forkFills descended task kstack pgdir)
  | forkRuns running task => exact .inr (family_forkRuns descended task)
  | exit running free returned => exact .inr (family_exit running free returned)
  | reap running task child zombie =>
    exact .inr (family_reap running (expects_of_waits task) child zombie)
  | waitFails running task =>
    exact .inl (family_modify (by simp [Slot.member, expects_of_waits task]))
  | waitSleeps running task =>
    left
    apply family_modify
    simp [Slot.member, expects_of_waits task, running, ProcState.life]
  | kill found =>
    left
    apply family_modify
    simp only [Slot.member]
    congr 1
    split
    case isTrue asleep => rw [asleep, ProcState.life, ProcState.life]
    case isFalse => rfl
  | trap => exact .inl (family_modify rfl)
  | sleep address running =>
    exact .inl (family_modify (by simp [Slot.member, running, ProcState.life]))
  | wakeup => exact .inl (family_wakeup1 t _)
  | yield running => exact .inl (family_modify (by simp [Slot.member, running, ProcState.life]))
  | schedule runnable =>
    exact .inl (family_modify (by simp [Slot.member, runnable, ProcState.life]))

end ProcTable

end MemoryEncryption
