import MemoryEncryption.Verif.ProcessTree

/-!
# Reaping and killing

Over all runs of the process table: the process tree is in order, a zombie lies in
its slot until its parent's `wait` returns its ID, and nobody sleeps in `wait` with a
zombie among its children. `kill` goes by the ID alone: it can mark a slot that
nobody uses, and the process that gets the slot later is born killed. In runs in
which no unused slot is left marked, no process is.
-/

namespace MemoryEncryption

open Outcome

variable {t t' : ProcTable} {event : TableEvent}

namespace ProcTable

/-! ## Sleeping in `wait` -/

/-- Nobody sleeps in `wait` with a zombie among its children. -/
structure Watchful (t : ProcTable) : Prop where
  own : ∀ p r, (t.slot p).state = .sleeping → (t.slot p).chan = some (.proc r) → r = p
  told : ∀ p q, (t.slot p).state = .sleeping → (t.slot p).chan = some (.proc p) →
    (t.slot q).parent = some p → (t.slot q).state ≠ .zombie

theorem wakeup1_slot (t : ProcTable) (chan : Option Chan) (q : Fin nproc) :
    (t.wakeup1 chan).slot q = { t.slot q with
      state := if (t.slot q).state = .sleeping ∧ (t.slot q).chan = chan then .runnable
        else (t.slot q).state } := by
  simp only [wakeup1]
  split <;> rfl

theorem reparent_slot (t : ProcTable) (p q : Fin nproc) :
    (t.reparent p).slot q = { t.slot q with
      parent := if (t.slot q).parent = some p then some t.initproc else (t.slot q).parent } := by
  simp only [reparent]
  split <;> rfl

/-- What `exit` does to a slot. -/
structure Exited (t : ProcTable) (p q : Fin nproc) (after : Slot) : Prop where
  parent : after.parent =
    if (t.slot q).parent = some p then some t.initproc else (t.slot q).parent
  /-- The process becomes a zombie, and others stay as they are or are woken. -/
  state : if q = p then after.state = .zombie
    else after.state = (t.slot q).state ∨ (t.slot q).state = .sleeping ∧ after.state = .runnable
  /-- Who still sleeps is not the parent, and not `initproc` if that has got a zombie. -/
  asleep : after.state = .sleeping → (t.slot q).chan ≠ (t.slot p).parent.map .proc ∧
    (t.deadChild p = true → (t.slot q).chan ≠ some (.proc t.initproc))
  rest : after.chan = (t.slot q).chan ∧ after.pid = (t.slot q).pid ∧
    after.kstack = (t.slot q).kstack ∧ after.pgdir = (t.slot q).pgdir ∧
    after.killed = (t.slot q).killed ∧ after.condemned = (t.slot q).condemned

theorem exit_slot {p : Fin nproc} (returned : t.exit p = .ok t') (q : Fin nproc) :
    Exited t p q (t'.slot q) ∧ t'.initproc = t.initproc := by
  unfold exit at returned
  split at returned
  case isTrue => cases returned
  case isFalse mortal =>
    cases returned
    by_cases mourned : t.deadChild p = true
    · simp only [mourned, if_true, modify_slot, wakeup1_slot, reparent_slot]
      refine ⟨⟨?_, ?_, ?_, ?_⟩, rfl⟩ <;> grind [wakeup1]
    · simp only [mourned, if_false, Bool.false_eq_true, modify_slot, wakeup1_slot, reparent_slot]
      refine ⟨⟨?_, ?_, ?_, ?_⟩, rfl⟩ <;> grind [wakeup1]

theorem deadChild_of {p q : Fin nproc} (child : (t.slot q).parent = some p)
    (zombie : (t.slot q).state = .zombie) : t.deadChild p = true := by
  unfold deadChild
  by_contra nothing
  rw [Bool.not_eq_true, Option.isSome_eq_false_iff, Option.isNone_iff_eq_none] at nothing
  have refused := find_eq_none nothing q
  simp [child, zombie] at refused

theorem Watchful.exit (watchful : t.Watchful) (descended : t.family.Descended) {p : Fin nproc}
    (returned : t.exit p = .ok t') : t'.Watchful := by
  have after := fun q => (exit_slot returned q).1
  have asleep : ∀ r, (t'.slot r).state = .sleeping → (t.slot r).state = .sleeping := by
    intro r sleeping
    have state := (after r).state
    split at state
    · rw [sleeping] at state
      cases state
    · rw [sleeping] at state
      simpa [eq_comm] using state
  constructor
  · intro r chan sleeping channel
    rw [(after r).rest.1] at channel
    exact watchful.own r chan (asleep r sleeping) channel
  · intro r q sleeping channel child zombie
    have silent := (after r).asleep sleeping
    rw [(after r).rest.1] at channel
    rw [(after q).parent] at child
    have state := (after q).state
    by_cases here : q = p
    · subst here
      have other : (t.slot q).parent ≠ some q := descended.other q
      rw [if_neg other] at child
      -- the parent of the process has been woken
      exact silent.1 (by rw [child, channel]; rfl)
    · rw [if_neg here, zombie] at state
      have dead : (t.slot q).state = .zombie := by simpa [eq_comm] using state
      by_cases orphan : (t.slot q).parent = some p
      · rw [if_pos orphan] at child
        -- an orphan that is a zombie has woken `initproc`
        refine silent.2 (deadChild_of orphan dead) ?_
        rw [channel, Option.some.inj child]
      · rw [if_neg orphan] at child
        exact watchful.told r q (asleep r sleeping) channel child dead

/-- Changes that put nobody to sleep in `wait`, make no zombies and pass none on keep it so. -/
theorem Watchful.congr (watchful : t.Watchful)
    (asleep : ∀ p r, (t'.slot p).state = .sleeping → (t'.slot p).chan = some (.proc r) →
      (t.slot p).state = .sleeping ∧ (t.slot p).chan = some (.proc r))
    (zombies : ∀ q, (t'.slot q).state = .zombie →
      (t.slot q).state = .zombie ∧ (t'.slot q).parent = (t.slot q).parent) : t'.Watchful := by
  constructor
  · intro p r sleeping channel
    have before := asleep p r sleeping channel
    exact watchful.own p r before.1 before.2
  · intro p q sleeping channel child zombie
    have before := asleep p p sleeping channel
    obtain ⟨dead, parent⟩ := zombies q zombie
    exact watchful.told p q before.1 before.2 (parent ▸ child) dead

/-- Changing one slot so that it neither sleeps in `wait` nor is a zombie keeps it so. -/
theorem Watchful.modify (watchful : t.Watchful) {p : Fin nproc} {change : Slot → Slot}
    (awake : ∀ r, (change (t.slot p)).state = .sleeping →
      (change (t.slot p)).chan ≠ some (.proc r)) (alive : (change (t.slot p)).state ≠ .zombie) :
    (t.modify p change).Watchful := by
  apply watchful.congr
  · intro q r sleeping channel
    rw [modify_slot] at sleeping channel
    split at sleeping
    case isTrue here =>
      subst here
      rw [if_pos rfl] at channel
      exact absurd channel (awake r sleeping)
    case isFalse elsewhere =>
      rw [if_neg elsewhere] at channel
      exact ⟨sleeping, channel⟩
  · intro q zombie
    rw [modify_slot] at zombie ⊢
    split at zombie
    case isTrue here => exact absurd (here ▸ zombie) alive
    case isFalse elsewhere => exact ⟨zombie, by rw [if_neg elsewhere]⟩

theorem Watchful.modify_modify (watchful : t.Watchful) {p np : Fin nproc} (child : Slot → Slot)
    (task : Task) (different : p ≠ np) (running : (t.slot p).state = .running)
    (awake : (child (t.slot np)).state ≠ .sleeping) (alive : (child (t.slot np)).state ≠ .zombie) :
    ((t.modify np child).modify p fun slot => { slot with task := task }).Watchful := by
  have changed : (t.modify np child).Watchful :=
    watchful.modify (fun _ sleeping => absurd sleeping awake) alive
  apply changed.modify
  · simp [modify_slot, different, running]
  · simp [modify_slot, different, running]

theorem embryo_of_expects (descended : t.family.Descended) {p np : Fin nproc} {ready : Bool}
    (expects : (t.slot p).task.expects = some (np, ready)) : (t.slot np).state = .embryo := by
  have unborn : (t.slot np).state.life = .unborn := (descended.expected p np ready expects).1
  cases state : (t.slot np).state with
  | embryo => rfl
  | unused | sleeping | runnable | running | zombie =>
    rw [state] at unborn
    cases unborn

/-- `wait` goes to sleep only if there is no zombie among the children. -/
theorem Watchful.waitSleeps (watchful : t.Watchful) {p : Fin nproc}
    (running : (t.slot p).state = .running)
    (alive : ∀ q, (t.slot q).parent = some p → (t.slot q).state ≠ .zombie) :
    (t.waitSleeps p).Watchful := by
  have slots := t.modify_slot p fun slot => { slot with
    state := .sleeping, chan := some (.proc p), task := .waiting }
  constructor
  · intro r chan sleeping channel
    rw [ProcTable.waitSleeps, slots] at sleeping channel
    split at channel
    case isTrue here =>
      rw [here]
      simpa [eq_comm] using channel
    case isFalse elsewhere =>
      rw [if_neg elsewhere] at sleeping
      exact watchful.own r chan sleeping channel
  · intro r q sleeping channel child zombie
    rw [ProcTable.waitSleeps, slots] at sleeping channel child zombie
    have different : q ≠ p := by
      rintro rfl
      simp at zombie
    rw [if_neg different] at child zombie
    by_cases here : r = p
    · subst here
      exact alive q child zombie
    · rw [if_neg here] at sleeping channel
      exact watchful.told r q sleeping channel child zombie

/-- Every step leaves nobody asleep in `wait` with a zombie among its children. -/
theorem Watchful.move (watchful : t.Watchful) (descended : t.family.Descended)
    (move : t.Move event t') : t'.Watchful := by
  cases move with
  | none => exact watchful
  | @allocproc p np running free unused =>
    have different : p ≠ np := by
      rintro rfl
      rw [running] at unused
      cases unused
    have made := watchful.modify_modify (fun slot => { slot with
        state := .embryo, pid := t.nextpid, origin := (t.slot p).pid, condemned := false })
      (.allocated np) different running (by simp) (by simp)
    exact ⟨made.own, made.told⟩
  | @forkFails p np copying running task =>
    have expects : (t.slot p).task.expects = some (np, false) := by rw [task, Task.expects]
    exact watchful.modify_modify _ _ (ne_expected descended expects) running (by simp) (by simp)
  | @forkFills p np kstack pgdir running task =>
    have expects : (t.slot p).task.expects = some (np, false) := by rw [task, Task.expects]
    have embryo := embryo_of_expects descended expects
    exact watchful.modify_modify _ _ (ne_expected descended expects) running
      (by simp [embryo]) (by simp [embryo])
  | @forkRuns p np running task =>
    have expects : (t.slot p).task.expects = some (np, true) := by rw [task, Task.expects]
    exact watchful.modify_modify _ _ (ne_expected descended expects) running (by simp) (by simp)
  | exit running free returned => exact watchful.exit descended returned
  | @reap p q running task child zombie =>
    have different : p ≠ q := by
      rintro rfl
      rw [running] at zombie
      cases zombie
    have reaped := watchful.modify_modify (fun slot => { slot with
        kstack := 0, pid := 0, parent := none, killed := false, state := .unused })
      .free different running (by simp) (by simp)
    exact ⟨reaped.own, reaped.told⟩
  | waitFails running => exact watchful.modify (by simp [running]) (by simp [running])
  | waitSleeps running task alive => exact watchful.waitSleeps running alive
  | kill found =>
    apply watchful.congr
    · intro q r sleeping channel
      rw [condemn, modify_slot] at sleeping channel
      grind
    · intro q zombie
      rw [condemn, modify_slot] at zombie ⊢
      grind
  | trap running => exact watchful.modify (by simp [running]) (by simp [running])
  | sleep => exact watchful.modify (by simp) (by simp)
  | wakeup =>
    apply watchful.congr
    · intro q r sleeping channel
      rw [wakeup1_slot] at sleeping channel
      grind
    · intro q zombie
      rw [wakeup1_slot] at zombie ⊢
      grind
  | yield | schedule => exact watchful.modify (by simp) (by simp)

/-! ## Zombies -/

/-- A zombie is still there, with what it owns. -/
structure Lies (before after : Slot) : Prop where
  /-- It is a zombie. -/
  zombie : after.state = .zombie
  /-- It has its ID. -/
  pid : after.pid = before.pid
  /-- It has its kernel stack. -/
  kstack : after.kstack = before.kstack
  /-- It has its page table. -/
  pgdir : after.pgdir = before.pgdir

theorem Lies.of_eq {before after : Slot} (zombie : before.state = .zombie)
    (same : after = before) : Lies before after := by
  subst same
  exact ⟨zombie, rfl, rfl, rfl⟩

theorem modify_slot_zombie {p q : Fin nproc} {change : Slot → Slot}
    (zombie : (t.slot q).state = .zombie) (alive : (t.slot p).state ≠ .zombie) :
    (t.modify p change).slot q = t.slot q := by
  have here : q ≠ p := by
    rintro rfl
    exact alive zombie
  rw [modify_slot, if_neg here]

theorem modify_modify_slot_zombie {p np q : Fin nproc} {child maker : Slot → Slot}
    (zombie : (t.slot q).state = .zombie) (parent : (t.slot p).state ≠ .zombie)
    (other : (t.slot np).state ≠ .zombie) :
    ((t.modify np child).modify p maker).slot q = t.slot q := by
  have here : q ≠ p := by
    rintro rfl
    exact parent zombie
  rw [modify_slot, if_neg here, modify_slot_zombie zombie other]

/-- A zombie lies there until its parent's `wait` returns its ID. -/
theorem Move.lies (move : t.Move event t') (descended : t.family.Descended) {q : Fin nproc}
    (zombie : (t.slot q).state = .zombie) :
    Lies (t.slot q) (t'.slot q) ∨ ∃ p, event = .wait p ∧ (t.slot q).parent = some p ∧
      t'.reported = t.reported ++ [(t.slot q).pid] := by
  cases move with
  | none => exact .inl (.of_eq zombie rfl)
  | @allocproc p np running free unused =>
    have parent : (t.slot p).state ≠ .zombie := by simp [running]
    have child : (t.slot np).state ≠ .zombie := by simp [unused]
    left
    apply Lies.of_eq zombie
    simp only [allocate]
    exact modify_modify_slot_zombie zombie parent child
  | @forkFails p np copying running task | @forkFills p np kstack pgdir running task =>
    have expects : (t.slot p).task.expects = some (np, false) := by rw [task, Task.expects]
    have embryo := embryo_of_expects descended expects
    exact .inl (.of_eq zombie
      (modify_modify_slot_zombie zombie (by simp [running]) (by simp [embryo])))
  | @forkRuns p np running task =>
    have expects : (t.slot p).task.expects = some (np, true) := by rw [task, Task.expects]
    have embryo := embryo_of_expects descended expects
    exact .inl (.of_eq zombie
      (modify_modify_slot_zombie zombie (by simp [running]) (by simp [embryo])))
  | @exit p t' running free returned =>
    left
    have after := (exit_slot returned q).1
    have state := after.state
    have different : q ≠ p := by
      rintro rfl
      rw [running] at zombie
      cases zombie
    rw [if_neg different, zombie] at state
    have lies : (t'.slot q).state = .zombie := by simpa using state
    exact ⟨lies, after.rest.2.1, after.rest.2.2.1, after.rest.2.2.2.1⟩
  | @reap p r running task child dead =>
    by_cases same : q = r
    · subst same
      exact .inr ⟨p, rfl, child, rfl⟩
    · left
      apply Lies.of_eq zombie
      have alive : (t.slot p).state ≠ .zombie := by simp [running]
      have here : q ≠ p := by
        rintro rfl
        exact alive zombie
      simp only [ProcTable.reap]
      rw [modify_slot, if_neg here, modify_slot, if_neg same]
  | waitFails running | waitSleeps running =>
    exact .inl (.of_eq zombie (modify_slot_zombie zombie (by simp [running])))
  | kill found =>
    left
    rw [condemn, modify_slot]
    split
    case isTrue => exact ⟨by simp [zombie], rfl, rfl, rfl⟩
    case isFalse => exact .of_eq zombie rfl
  | trap running => exact .inl (.of_eq zombie (modify_slot_zombie zombie (by simp [running])))
  | sleep address running =>
    exact .inl (.of_eq zombie (modify_slot_zombie zombie (by simp [running])))
  | wakeup =>
    left
    rw [wakeup1_slot]
    exact ⟨by simp [zombie], rfl, rfl, rfl⟩
  | yield running => exact .inl (.of_eq zombie (modify_slot_zombie zombie (by simp [running])))
  | schedule runnable =>
    exact .inl (.of_eq zombie (modify_slot_zombie zombie (by simp [runnable])))

/-! ## Runs -/

/-- What every step preserves. -/
structure Kept (t : ProcTable) : Prop where
  descended : t.family.Descended
  named : t.family.Named
  watchful : t.Watchful

theorem Kept.step (kept : t.Kept) (stepped : t.step event = .ok t') : t'.Kept := by
  have move := step_move stepped
  have watchful := kept.watchful.move kept.descended move
  rcases move.refines kept.descended with same | moved
  · exact ⟨same ▸ kept.descended, same ▸ kept.named, watchful⟩
  · exact ⟨kept.descended.step moved, kept.named.step kept.descended moved, watchful⟩

theorem start_kept : start.Kept := by
  have others : ∀ q, (start.family.member q).life ≠ .vacant → q = 0 := by
    intro q
    by_cases first : q = 0
    · simp [first]
    · simp [family, start, first, Slot.member, ProcState.life]
  have root : start.family.member 0 = ⟨.living, 1, none, 0, (1, 1), none⟩ := rfl
  have single : ∀ q, (start.family.member q).expects = none ∧
      (start.family.member q).parent = none := by
    intro q
    by_cases first : q = 0
    · simp [first, root]
    · simp [family, start, first, Slot.member]
  have zero : start.family.root = 0 := rfl
  have next : start.family.nextpid = 2 := rfl
  have nobody : start.family.exited = [] ∧ start.family.reported = [] := ⟨rfl, rfl⟩
  constructor
  · constructor <;> grind
  · constructor <;> grind
  · have awake : ∀ p, (start.slot p).state ≠ .sleeping := by
      intro p
      by_cases first : p = 0
      · simp [start, first]
      · simp [start, first]
    constructor
    · intro p r sleeping
      exact absurd sleeping (awake p)
    · intro p q sleeping
      exact absurd sleeping (awake p)

theorem run_kept (run : Relation.ReflTransGen (Outcome.Steps step fun _ _ => True) start t) :
    t.Kept :=
  steps_invariant Kept (fun _ _ _ kept _ stepped => kept.step stepped) start_kept run

/-- The order of the process tree. -/
structure Tree (t : ProcTable) : Prop where
  /-- Who has been forked has a parent that is there and is no zombie. -/
  parents : ∀ q, q ≠ t.initproc → (t.slot q).state ∉ [.unused, .embryo] →
    ∃ p, (t.slot q).parent = some p ∧ (t.slot p).state ∉ [.unused, .zombie]
  /-- It is `initproc` if the process that made this one has exited. -/
  adopted : ∀ q, q ≠ t.initproc → (t.slot q).state ∉ [.unused, .embryo] →
    (t.slot q).origin ∈ t.exited → (t.slot q).parent = some t.initproc
  /-- Process IDs are pairwise distinct. -/
  pids : ∀ p q, (t.slot p).state ≠ .unused → (t.slot q).state ≠ .unused →
    BitVec.ofNat 32 (t.slot p).pid = BitVec.ofNat 32 (t.slot q).pid → p = q
  /-- No two calls of `wait` return the same ID. -/
  once : (t.reported.map (BitVec.ofNat 32)).Nodup
  /-- Every ID that `wait` has returned is that of a process that has exited. -/
  exited : ∀ pid ∈ t.reported, pid ∈ t.exited
  /-- Nobody sleeps in `wait` with a zombie among its children. -/
  watchful : ∀ p q, (t.slot p).state = .sleeping → (t.slot p).chan = some (.proc p) →
    (t.slot q).parent = some p → (t.slot q).state ≠ .zombie

theorem eq_of_ofNat_eq {m n bound : Nat} (unwrapped : bound ≤ 2 ^ 32) (left : m < bound)
    (right : n < bound) (same : BitVec.ofNat 32 m = BitVec.ofNat 32 n) : m = n := by
  have values := congrArg BitVec.toNat same
  simp only [BitVec.toNat_ofNat] at values
  omega

theorem ProcState.life_of_forked {state : ProcState} (forked : state ∉ [.unused, .embryo]) :
    state.life = .living ∨ state.life = .dead := by
  cases state <;> simp_all [ProcState.life]

/-- While `nextpid` has not wrapped, the tree is in order. -/
theorem Kept.tree (kept : t.Kept) (unwrapped : t.nextpid ≤ 2 ^ 32) : t.Tree := by
  obtain ⟨descended, named, watchful⟩ := kept
  have given : ∀ q, (t.slot q).state ≠ .unused → (t.slot q).pid < t.nextpid := by
    intro q used
    refine (named.given q ?_).2
    show (t.slot q).state.life ≠ .vacant
    cases state : (t.slot q).state <;> simp_all [ProcState.life]
  constructor
  · intro q mortal forked
    obtain ⟨p, parent, living⟩ := descended.parents q mortal (ProcState.life_of_forked forked)
    refine ⟨p, parent, ?_⟩
    have alive : (t.slot p).state.life = .living := living
    cases state : (t.slot p).state <;> simp_all [ProcState.life]
  · intro q mortal forked gone
    obtain ⟨p, parent, living⟩ := descended.parents q mortal (ProcState.life_of_forked forked)
    have parent' : (t.slot q).parent = some p := parent
    rcases named.origin q mortal (ProcState.life_of_forked forked) p parent with root | maker
    · rw [parent', root]
      rfl
    · -- the maker lives, and so has not exited
      have alive := named.alive p (.inl living)
      rw [maker] at alive
      exact absurd gone alive
  · intro p q used used' same
    have vacant : ∀ r, (t.slot r).state ≠ .unused → (t.family.member r).life ≠ .vacant := by
      intro r used
      show (t.slot r).state.life ≠ .vacant
      cases state : (t.slot r).state <;> simp_all [ProcState.life]
    exact named.distinct p q (vacant p used) (vacant q used')
      (eq_of_ofNat_eq unwrapped (given p used) (given q used') same)
  · apply List.Nodup.map_on _ named.reported
    intro m member n member' same
    exact eq_of_ofNat_eq unwrapped (named.before m (named.died m member))
      (named.before n (named.died n member')) same
  · exact named.died
  · exact watchful.told

/-- In every run the tree is in order, and a zombie lies there until its parent's `wait`. -/
theorem run_tree (t : ProcTable)
    (run : Relation.ReflTransGen (Outcome.Steps step fun _ _ => True) start t)
    (unwrapped : t.nextpid ≤ 2 ^ 32) :
    t.Tree ∧ ∀ event t', t.step event = .ok t' → ∀ q, (t.slot q).state = .zombie →
      Lies (t.slot q) (t'.slot q) ∨ ∃ p, event = .wait p ∧ (t.slot q).parent = some p ∧
        t'.reported = t.reported ++ [(t.slot q).pid] := by
  have kept := run_kept run
  constructor
  · exact kept.tree unwrapped
  · intro event t' stepped q zombie
    exact (step_move stepped).lies kept.descended zombie

/-- A child exits before its parent waits for it. -/
theorem earlyExit_tree :
    ∃ t, Outcome.run step start [.schedule 0, .allocproc 0, .forkFills 0 7 8, .forkRuns 0,
        .schedule 1, .exit 1] = .ok t ∧ (t.slot 1).state = .zombie ∧ t.Tree ∧
      ∃ t', t.step (.wait 0) = .ok t' ∧ t'.reported = [2] := by
  have returns : ((Outcome.run step start [.schedule 0, .allocproc 0, .forkFills 0 7 8, .forkRuns 0,
      .schedule 1, .exit 1]).map fun t => ((t.slot 1).state, t.nextpid,
        (t.step (.wait 0)).map (·.reported) |>.toOption)).toOption =
      some (.zombie, 3, some [2]) := by decide +kernel
  obtain ⟨t, finished, seen⟩ := exists_ok returns
  obtain ⟨zombie, next, waits⟩ : (t.slot 1).state = .zombie ∧ t.nextpid = 3 ∧
      ((t.step (.wait 0)).map (·.reported)).toOption = some [2] := by simpa using seen
  have reached : Relation.ReflTransGen (Outcome.Steps step fun _ _ => True) start t :=
    run_reaches (fun _ event _ stepped => ⟨event, trivial, stepped⟩) finished
  exact ⟨t, finished, zombie, (run_tree t reached (by rw [next]; decide)).1,
    exists_ok waits⟩

/-! ## Killing -/

/-- The event leaves an unused slot marked as killed. -/
def marks (t : ProcTable) : TableEvent → Bool
  | .kill pid =>
    match t.target pid with
    | some p => (t.slot p).state = .unused
    | none => false
  | .forkFails p _ =>
    match (t.slot p).task with
    | .allocated np => (t.slot np).killed
    | _ => false
  | _ => false

/-- No slot is marked before its process has been killed. -/
structure Spared (t : ProcTable) : Prop where
  unused : ∀ q, (t.slot q).state = .unused → (t.slot q).killed = false
  condemned : ∀ q, (t.slot q).killed = true → (t.slot q).condemned = true

theorem Spared.modify (spared : t.Spared) (p : Fin nproc) (change : Slot → Slot)
    (used : (change (t.slot p)).state = .unused → (change (t.slot p)).killed = false)
    (told : (change (t.slot p)).killed = true → (change (t.slot p)).condemned = true) :
    (t.modify p change).Spared := by
  constructor
  · intro q unused
    rw [modify_slot] at unused ⊢
    split at unused
    case isTrue here =>
      subst here
      rw [if_pos rfl]
      exact used unused
    case isFalse elsewhere =>
      rw [if_neg elsewhere]
      exact spared.unused q unused
  · intro q killed
    rw [modify_slot] at killed ⊢
    split at killed
    case isTrue here =>
      subst here
      rw [if_pos rfl]
      exact told killed
    case isFalse elsewhere =>
      rw [if_neg elsewhere]
      exact spared.condemned q killed

theorem Spared.setTask (spared : t.Spared) (p : Fin nproc) (task : Task) :
    (t.modify p fun slot => { slot with task := task }).Spared :=
  spared.modify p _ (spared.unused p) (spared.condemned p)

/-- Every step that leaves no unused slot marked marks only the process that is killed. -/
theorem Spared.move (spared : t.Spared) (move : t.Move event t') (clean : t.marks event = false) :
    t'.Spared := by
  cases move with
  | none => exact spared
  | @allocproc p np running free unused =>
    have fresh := spared.unused np unused
    have taken := (spared.modify np (fun slot => { slot with
      state := .embryo, pid := t.nextpid, origin := (t.slot p).pid, condemned := false })
      (by simp) (by simp [fresh])).setTask p (.allocated np)
    exact ⟨taken.unused, taken.condemned⟩
  | @forkFails p np copying running task =>
    have unmarked : (t.slot np).killed = false := by simpa [marks, task] using clean
    exact (spared.modify np _ (by simp [unmarked]) (by simp [unmarked])).setTask p .free
  | @forkFills p np kstack pgdir running task =>
    exact (spared.modify np _ (spared.unused np) (spared.condemned np)).setTask p (.filled np)
  | @forkRuns p np running task =>
    exact (spared.modify np _ (by simp) (spared.condemned np)).setTask p .free
  | exit running free returned =>
    have after := fun q => (exit_slot returned q).1
    constructor
    · intro q unused
      have state := (after q).state
      rw [(after q).rest.2.2.2.2.1]
      apply spared.unused q
      rw [unused] at state
      split at state
      · cases state
      · simpa [eq_comm] using state
    · intro q killed
      rw [(after q).rest.2.2.2.2.1] at killed
      rw [(after q).rest.2.2.2.2.2]
      exact spared.condemned q killed
  | @reap p q running task child zombie =>
    have freed := (spared.modify q (fun slot => { slot with
      kstack := 0, pid := 0, parent := none, killed := false, state := .unused })
      (by simp) (by simp)).setTask p .free
    exact ⟨freed.unused, freed.condemned⟩
  | @waitFails p running => exact spared.setTask p .free
  | @waitSleeps p running => exact spared.modify p _ (by simp) (spared.condemned p)
  | @kill p pid found =>
    have used : (t.slot p).state ≠ .unused := by simpa [marks, found] using clean
    apply spared.modify
    · intro unused
      simp only at unused
      split at unused
      · cases unused
      · exact absurd unused used
    · simp
  | @trap p running => exact spared.modify p _ (by simp [running]) (by simp)
  | @sleep p => exact spared.modify p _ (by simp) (spared.condemned p)
  | wakeup =>
    constructor
    · intro q unused
      rw [wakeup1_slot] at unused ⊢
      apply spared.unused q
      simp only at unused
      split at unused
      · cases unused
      · exact unused
    · intro q killed
      rw [wakeup1_slot] at killed ⊢
      exact spared.condemned q killed
  | @yield p | @schedule p => exact spared.modify p _ (by simp) (spared.condemned p)

/-- When no unused slot is left marked, nobody is marked as killed who has not been. -/
theorem run_spared (t : ProcTable)
    (run : Relation.ReflTransGen (Outcome.Steps step fun t event => t.marks event = false) start t)
    (q : Fin nproc) (innocent : (t.slot q).condemned = false) : (t.slot q).killed = false := by
  have first : start.Spared := by
    constructor
    · intro p _
      by_cases zero : p = 0 <;> simp [start, zero]
    · intro p
      by_cases zero : p = 0 <;> simp [start, zero]
  have spared : t.Spared := steps_invariant Spared
    (fun _ _ _ spared clean stepped => spared.move (step_move stepped) clean) first run
  by_contra killed
  rw [Bool.not_eq_false] at killed
  have told := spared.condemned q killed
  rw [innocent] at told
  cases told

/-- A process that is forked after its parent has been killed. -/
theorem killedParent_spares :
    ∃ t, Outcome.run (Outcome.guarded step (fun t event => t.marks event = false) (.panic ""))
        start [.schedule 0, .kill 1, .allocproc 0, .forkFills 0 7 8, .forkRuns 0] = .ok t ∧
      (t.slot 0).killed = true ∧ (t.slot 1).state = .runnable ∧ (t.slot 1).killed = false := by
  have returns : ((Outcome.run (Outcome.guarded step (fun t event => t.marks event = false)
      (.panic "")) start [.schedule 0, .kill 1, .allocproc 0, .forkFills 0 7 8, .forkRuns 0]).map
        fun t => ((t.slot 0).killed, (t.slot 1).state, (t.slot 1).condemned)).toOption =
      some (true, .runnable, false) := by decide +kernel
  obtain ⟨t, finished, seen⟩ := exists_ok returns
  obtain ⟨killed, runnable, innocent⟩ : (t.slot 0).killed = true ∧
      (t.slot 1).state = .runnable ∧ (t.slot 1).condemned = false := by simpa using seen
  exact ⟨t, finished, killed, runnable,
    run_spared t (run_guarded finished) 1 innocent⟩

/-- `kill(0)` marks an unused slot, and the next child is born killed. -/
theorem killZero_marks_child :
    ∃ t, Relation.ReflTransGen (Outcome.Steps step fun _ _ => True) start t ∧
      (t.slot 1).state = .runnable ∧ (t.slot 1).pid = 2 ∧ (t.slot 1).condemned = false ∧
      (t.slot 1).killed = true := by
  have returns : ((Outcome.run step start [.schedule 0, .kill 0, .allocproc 0, .forkFills 0 7 8,
      .forkRuns 0]).map fun t => ((t.slot 1).state, (t.slot 1).pid, (t.slot 1).condemned,
        (t.slot 1).killed)).toOption = some (.runnable, 2, false, true) := by decide +kernel
  obtain ⟨t, finished, seen⟩ := exists_ok returns
  refine ⟨t, run_reaches (fun _ event _ stepped => ⟨event, trivial, stepped⟩) finished, ?_⟩
  simpa using seen

end ProcTable

end MemoryEncryption
