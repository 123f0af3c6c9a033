import MemoryEncryption.Kernel.Pipe

/-!
# Pipes deliver in order, and when they lose a wakeup

The bytes in a pipe are those stored and not yet delivered, in order, through any
number of wraps of its counters. A process sleeps on a pipe only while it has to, as
long as `pipewrite` does not return early with bytes that it has just stored: on that
path it wakes no reader.
-/

namespace MemoryEncryption

open Function RingBuffer

variable {procs : Nat}

/-! ## The loops -/

/-- The bytes in a pipe, the oldest first. -/
def BytePipe.contents (pipe : BytePipe) : List Byte := pipe.ring.contents pipeSize

/-- The number of bytes in a pipe. -/
def BytePipe.count (pipe : BytePipe) : Nat := pipe.ring.count

theorem pipeSize_divides : pipeSize ∣ 2 ^ 32 := by decide

theorem BytePipe.full_iff (pipe : BytePipe) : pipe.Full ↔ pipe.count = pipeSize :=
  (Ring.count_eq_size (by decide)).symm

theorem BytePipe.empty_iff (pipe : BytePipe) : pipe.Empty ↔ pipe.count = 0 :=
  Ring.count_eq_zero.symm

theorem BytePipe.length_contents (pipe : BytePipe) : pipe.contents.length = pipe.count := by
  simp [BytePipe.contents, BytePipe.count, Ring.contents]

/-- What a step of `pipewrite` does to the pipe. -/
structure Wrote (killed : Bool) (pipe : BytePipe) (bytes : List Byte) (after : BytePipe)
    (rest : List Byte) (ending : WriteEnd) : Prop where
  contents : ∃ stored, bytes = stored ++ rest ∧ after.contents = pipe.contents ++ stored
  bound : after.count ≤ pipeSize
  ends : after.toPipe = pipe.toPipe
  /-- The step goes to the end of the bytes, or until the pipe is full. -/
  extent : match ending with
    | .finished => rest = []
    | .gaveUp => after.Full ∧ (pipe.readopen = false ∨ killed = true)
    | .sleeps => after.Full ∧ pipe.readopen = true ∧ killed = false
  unchanged : rest.length = bytes.length → after = pipe
  room : rest.length ≠ bytes.length → ¬ pipe.Full

theorem pipewriteLoop_wrote (killed : Bool) (pipe : BytePipe) (bytes : List Byte)
    (bound : pipe.count ≤ pipeSize) :
    Wrote killed pipe bytes (pipewriteLoop killed pipe bytes).1
      (pipewriteLoop killed pipe bytes).2.1 (pipewriteLoop killed pipe bytes).2.2 := by
  induction bytes generalizing pipe with
  | nil =>
    constructor
    case contents => exact ⟨[], rfl, by simp [pipewriteLoop]⟩
    case bound => exact bound
    case ends => rfl
    case extent => rfl
    case unchanged => exact fun _ => rfl
    case room => exact fun different => absurd rfl different
  | cons byte rest ih =>
    by_cases full : pipe.Full
    · have stopped : pipewriteLoop killed pipe (byte :: rest) = (pipe, byte :: rest,
          if pipe.readopen = false ∨ killed = true then .gaveUp else .sleeps) := by
        simp [pipewriteLoop, full]
      rw [stopped]
      constructor
      case contents => exact ⟨[], rfl, by simp⟩
      case bound => exact bound
      case ends => rfl
      case extent =>
        by_cases hopeless : pipe.readopen = false ∨ killed = true
        · simp only [hopeless, if_true]
          exact ⟨full, trivial⟩
        · simp only [hopeless, if_false]
          rw [not_or, Bool.not_eq_false, Bool.not_eq_true] at hopeless
          exact ⟨full, hopeless⟩
      case unchanged => exact fun _ => rfl
      case room => exact fun different => absurd rfl different
    · have goes : pipewriteLoop killed pipe (byte :: rest) =
          pipewriteLoop killed (pipe.store byte) rest := by
        simp [pipewriteLoop, full]
      have below : pipe.count < pipeSize := by
        rw [pipe.full_iff] at full
        omega
      have more : (pipe.store byte).count = pipe.count + 1 :=
        Ring.count_push (by simp only [pipeSize] at below; show pipe.count + 1 < _; omega) byte
      have wrote := ih (pipe.store byte) (by omega)
      obtain ⟨stored, shape, contents⟩ := wrote.contents
      have shorter : (pipewriteLoop killed (pipe.store byte) rest).2.1.length ≤ rest.length := by
        conv_rhs => rw [shape]
        simp
      rw [goes]
      constructor
      case contents =>
        refine ⟨byte :: stored, by rw [List.cons_append, ← shape], ?_⟩
        have pushed : (pipe.store byte).contents = pipe.contents ++ [byte] :=
          Ring.contents_push pipeSize_divides (by decide) below byte
        rw [contents, pushed, List.append_assoc, List.singleton_append]
      case bound => exact wrote.bound
      case ends => exact wrote.ends
      case extent => exact wrote.extent
      case unchanged =>
        intro same
        rw [List.length_cons] at same
        omega
      case room => exact fun _ => full

theorem pipereadLoop_spec (n : Nat) (pipe : BytePipe) :
    (pipereadLoop n pipe).1 ++ (pipereadLoop n pipe).2.contents = pipe.contents ∧
      (pipereadLoop n pipe).2.count ≤ pipe.count ∧
      (pipereadLoop n pipe).2.toPipe = pipe.toPipe := by
  induction n generalizing pipe with
  | zero => exact ⟨rfl, le_rfl, rfl⟩
  | succ n ih =>
    by_cases empty : pipe.Empty
    · have stopped : pipereadLoop (n + 1) pipe = ([], pipe) := by simp [pipereadLoop, empty]
      rw [stopped]
      exact ⟨rfl, le_rfl, rfl⟩
    · have goes : pipereadLoop (n + 1) pipe = (pipe.next :: (pipereadLoop n pipe.advance).1,
          (pipereadLoop n pipe.advance).2) := by
        simp [pipereadLoop, empty]
      have some : 0 < pipe.count := by
        rw [pipe.empty_iff] at empty
        omega
      have taken : pipe.contents = pipe.next :: pipe.advance.contents :=
        Ring.contents_pop pipeSize_divides (by decide) some
      have fewer : pipe.advance.count + 1 = pipe.count := Ring.count_pop some
      obtain ⟨contents, count, ends⟩ := ih pipe.advance
      rw [goes]
      refine ⟨?_, by show (pipereadLoop n pipe.advance).2.count ≤ _; omega, ends⟩
      rw [taken, List.cons_append, contents]

/-! ## Order -/

variable {s : PipeSystem procs} {allowed : PipeSystem procs → PipeEvent procs → Prop}
  {p : Fin procs}

namespace PipeSystem

/-- The bytes in the pipe are those stored and not delivered. -/
structure Flows (s : PipeSystem procs) : Prop where
  contents : s.delivered ++ s.pipe.contents = s.stored
  bound : s.pipe.count ≤ pipeSize

theorem Flows.congr {s' : PipeSystem procs} (flows : s.Flows)
    (contents : s'.pipe.ring = s.pipe.ring) (stored : s'.stored = s.stored)
    (delivered : s'.delivered = s.delivered) : s'.Flows where
  contents := by
    rw [stored, delivered, BytePipe.contents, contents]
    exact flows.contents
  bound := by
    rw [BytePipe.count, contents]
    exact flows.bound

theorem Flows.put (flows : s.Flows) {killed : Bool} {bytes rest : List Byte} {pipe : BytePipe}
    {ending : WriteEnd} (wrote : Wrote killed s.pipe bytes pipe rest ending) :
    (s.put pipe bytes rest).Flows where
  contents := by
    obtain ⟨stored, shape, contents⟩ := wrote.contents
    show s.delivered ++ pipe.contents = s.stored ++ bytes.take (bytes.length - rest.length)
    have early : bytes.take (bytes.length - rest.length) = stored := by
      rw [shape, List.length_append, Nat.add_sub_cancel, List.take_left]
    rw [contents, early, ← List.append_assoc, flows.contents]
  bound := wrote.bound

theorem Flows.get (flows : s.Flows) (n : Nat) :
    (s.get (pipereadLoop n s.pipe).2 (pipereadLoop n s.pipe).1).Flows := by
  obtain ⟨contents, count, -⟩ := pipereadLoop_spec n s.pipe
  constructor
  · show s.delivered ++ (pipereadLoop n s.pipe).1 ++ (pipereadLoop n s.pipe).2.contents = s.stored
    rw [List.append_assoc, contents]
    exact flows.contents
  · exact count.trans flows.bound

theorem Flows.step (flows : s.Flows) (event : PipeEvent procs) : (s.step event).Flows := by
  unfold PipeSystem.step
  split
  case isTrue => exact flows
  case isFalse =>
    cases event with
    | write p bytes | read p n =>
      dsimp only
      split
      · exact flows.congr rfl rfl rfl
      · exact flows
    | run p =>
      dsimp only
      split
      · next n bytes here =>
        have wrote := pipewriteLoop_wrote (s.killed p) s.pipe bytes flows.bound
        unfold pipewrite
        split <;> next found =>
          rw [found] at wrote
          exact (flows.put wrote).congr rfl rfl rfl
      · next n here =>
        unfold piperead
        split
        · split <;> exact flows.congr rfl rfl rfl
        · exact (flows.get n).congr rfl rfl rfl
      · exact flows
    | close writable =>
      show (s.pipeclose writable).Flows
      unfold pipeclose
      split <;> exact flows.congr rfl rfl rfl
    | kill p => exact flows.congr rfl rfl rfl

/-- One event, allowed in the state in which it happens. -/
def Steps (allowed : PipeSystem procs → PipeEvent procs → Prop) (s s' : PipeSystem procs) : Prop :=
  ∃ event, allowed s event ∧ s.step event = s'

/-- The bytes delivered are the first of those stored, and the counters tell how many are not. -/
structure Fifo (s : PipeSystem procs) : Prop where
  /-- What has been delivered was stored first. -/
  ordered : s.delivered <+: s.stored
  /-- No more than `PIPESIZE` bytes are in the pipe. -/
  bound : (s.pipe.ring.nwrite - s.pipe.ring.nread).toNat ≤ pipeSize
  /-- The counters give the number of bytes stored and not delivered. -/
  counted : s.delivered.length + (s.pipe.ring.nwrite - s.pipe.ring.nread).toNat = s.stored.length

theorem Flows.fifo (flows : s.Flows) : s.Fifo where
  ordered := ⟨s.pipe.contents, flows.contents⟩
  bound := flows.bound
  counted := by
    have length := congrArg List.length flows.contents
    rw [List.length_append, s.pipe.length_contents] at length
    exact length

theorem start_flows (data : Nat → Byte) : (start procs data).Flows := by
  have none : (start procs data).pipe.count = 0 := by
    rw [← BytePipe.empty_iff]
    rfl
  constructor
  · show (start procs data).pipe.contents = []
    apply List.eq_nil_of_length_eq_zero
    rw [BytePipe.length_contents, none]
  · rw [none]
    exact Nat.zero_le _

/-- What every allowed event preserves holds in every state that such events lead to. -/
theorem steps_keep (inv : PipeSystem procs → Prop)
    (preserved : ∀ s event, inv s → allowed s event → inv (s.step event)) {s' : PipeSystem procs}
    (first : inv s) (run : Relation.ReflTransGen (Steps allowed) s s') : inv s' := by
  induction run with
  | refl => exact first
  | tail _ last ih =>
    obtain ⟨event, permitted, rfl⟩ := last
    exact preserved _ event ih permitted

/-- Every event of a list is allowed where it happens. -/
def Along (allowed : PipeSystem procs → PipeEvent procs → Prop) :
    PipeSystem procs → List (PipeEvent procs) → Prop
  | _, [] => True
  | s, event :: rest => allowed s event ∧ Along allowed (s.step event) rest

theorem Along.steps {events : List (PipeEvent procs)} (along : Along allowed s events) :
    Relation.ReflTransGen (Steps allowed) s (events.foldl step s) := by
  induction events generalizing s with
  | nil => exact .refl
  | cons event rest ih =>
    obtain ⟨first, later⟩ := along
    exact .head ⟨event, first, rfl⟩ (ih later)

/-- Whatever the processes do, the pipe is a queue. -/
theorem run_fifo (data : Nat → Byte) (s : PipeSystem procs)
    (run : Relation.ReflTransGen (Steps fun _ _ => True) (start procs data) s) : s.Fifo :=
  (steps_keep Flows (fun _ event flows _ => flows.step event) (start_flows data) run).fifo

/-- Two of three bytes are read, and the third is left. -/
theorem partialRead_fifo :
    (([.write 0 [1, 2, 3], .run 0, .read 1 2, .run 1].foldl step
      (start 2 fun _ => 0)).delivered = [1, 2]) ∧
    ([.write 0 [1, 2, 3], .run 0, .read 1 2, .run 1].foldl step (start 2 fun _ => 0)).Fifo :=
  ⟨by decide, run_fifo _ _ (Along.steps ⟨trivial, trivial, trivial, trivial, trivial⟩)⟩

/-! ## Wakeups -/

/-- Who sleeps on the pipe has to. -/
structure Alert (s : PipeSystem procs) : Prop where
  /-- A process sleeps in `piperead` only while the pipe is empty and its write end open. -/
  readers : ∀ p n, s.pc p = .sleepRead n → s.pipe.Empty ∧ s.pipe.writeopen = true
  /-- A process sleeps in `pipewrite` only while the pipe is full and its read end open. -/
  writers : ∀ p n bytes, s.pc p = .sleepWrite n bytes → s.pipe.Full ∧ s.pipe.readopen = true

/-- The event is a step of `pipewrite` that stores bytes and then gives up. -/
def abandons (s : PipeSystem procs) : PipeEvent procs → Bool
  | .run p =>
    match s.pc p with
    | .writing _ bytes =>
      match pipewriteLoop (s.killed p) s.pipe bytes with
      | (_, rest, .gaveUp) => rest.length ≠ bytes.length
      | _ => false
    | _ => false
  | _ => false

theorem wakeReaders_awake (s : PipeSystem procs) (p : Fin procs) (n : Nat) :
    s.wakeReaders.pc p ≠ .sleepRead n := by
  simp only [wakeReaders]
  cases s.pc p <;> simp

theorem wakeReaders_writers {n : Nat} {bytes : List Byte}
    (asleep : s.wakeReaders.pc p = .sleepWrite n bytes) : s.pc p = .sleepWrite n bytes := by
  simp only [wakeReaders] at asleep
  cases place : s.pc p <;> simp_all

theorem wakeWriters_awake (s : PipeSystem procs) (p : Fin procs) (n : Nat) (bytes : List Byte) :
    s.wakeWriters.pc p ≠ .sleepWrite n bytes := by
  simp only [wakeWriters]
  cases s.pc p <;> simp

theorem wakeWriters_readers {n : Nat} (asleep : s.wakeWriters.pc p = .sleepRead n) :
    s.pc p = .sleepRead n := by
  simp only [wakeWriters] at asleep
  cases place : s.pc p <;> simp_all

theorem Alert.setPc (alert : s.Alert) {place : PipePlace}
    (reader : ∀ n, place = .sleepRead n → s.pipe.Empty ∧ s.pipe.writeopen = true)
    (writer : ∀ n bytes, place = .sleepWrite n bytes → s.pipe.Full ∧ s.pipe.readopen = true) :
    (s.setPc p place).Alert := by
  constructor
  · intro q n asleep
    by_cases same : q = p
    · subst same
      simp only [PipeSystem.setPc, update_self] at asleep
      exact reader n asleep
    · simp only [PipeSystem.setPc, update_of_ne same] at asleep
      exact alert.readers q n asleep
  · intro q n bytes asleep
    by_cases same : q = p
    · subst same
      simp only [PipeSystem.setPc, update_self] at asleep
      exact writer n bytes asleep
    · simp only [PipeSystem.setPc, update_of_ne same] at asleep
      exact alert.writers q n bytes asleep

theorem Alert.put_wake (alert : s.Alert) {killed : Bool} {bytes rest : List Byte} {pipe : BytePipe}
    {ending : WriteEnd} (wrote : Wrote killed s.pipe bytes pipe rest ending) :
    ((s.put pipe bytes rest).wakeReaders).Alert := by
  constructor
  · exact fun p n asleep => absurd asleep (wakeReaders_awake _ p n)
  · intro p n left asleep
    have before : s.pc p = .sleepWrite n left := wakeReaders_writers asleep
    obtain ⟨full, readable⟩ := alert.writers p n left before
    -- a writer sleeps on a full pipe, to which this one cannot have added anything
    have none : rest.length = bytes.length := by
      by_contra some
      exact wrote.room some full
    show pipe.Full ∧ pipe.readopen = true
    rw [wrote.unchanged none]
    exact ⟨full, readable⟩

/-- Every step keeps sleepers justified, if it does not abandon bytes that it has stored. -/
theorem Alert.step (alert : s.Alert) (flows : s.Flows) {event : PipeEvent procs}
    (told : s.abandons event = false) : (s.step event).Alert := by
  unfold PipeSystem.step
  split
  case isTrue => exact alert
  case isFalse =>
    cases event with
    | write p bytes | read p n =>
      dsimp only
      split
      · exact alert.setPc (by simp) (by simp)
      · exact alert
    | run p =>
      dsimp only
      split
      · next n bytes here =>
        have wrote := pipewriteLoop_wrote (s.killed p) s.pipe bytes flows.bound
        unfold pipewrite
        split
        · next found =>
          rw [found] at wrote
          exact (alert.put_wake wrote).setPc (by simp) (by simp)
        · next pipe rest found =>
          rw [found] at wrote
          have none : rest.length = bytes.length := by
            simpa [abandons, here, found] using told
          have same : pipe = s.pipe := wrote.unchanged none
          have kept : (s.put pipe bytes rest).Alert := by
            constructor
            · show ∀ q m, s.pc q = .sleepRead m → pipe.Empty ∧ pipe.writeopen = true
              rw [same]
              exact alert.readers
            · show ∀ q m left, s.pc q = .sleepWrite m left → pipe.Full ∧ pipe.readopen = true
              rw [same]
              exact alert.writers
          exact kept.setPc (by simp) (by simp)
        · next pipe rest found =>
          rw [found] at wrote
          obtain ⟨full, readable, -⟩ := wrote.extent
          apply (alert.put_wake wrote).setPc (by simp)
          intro _ _ _
          show pipe.Full ∧ pipe.readopen = true
          rw [wrote.ends]
          exact ⟨full, readable⟩
      · next n here =>
        unfold piperead
        split
        · next waits =>
          split
          · exact alert.setPc (by simp) (by simp)
          · exact alert.setPc (fun _ _ => waits) (by simp)
        · next goes =>
          -- a reader that sleeps would have made this one sleep too
          have copied : (s.get (pipereadLoop n s.pipe).2
              (pipereadLoop n s.pipe).1).wakeWriters.Alert := by
            constructor
            · intro q m asleep
              exact absurd (alert.readers q m (wakeWriters_readers asleep)) goes
            · exact fun q m left asleep => absurd asleep (wakeWriters_awake _ q m left)
          exact copied.setPc (by simp) (by simp)
      · exact alert
    | close writable =>
      show (s.pipeclose writable).Alert
      unfold pipeclose
      split
      · constructor
        · exact fun p n asleep => absurd asleep (wakeReaders_awake _ p n)
        · exact fun p n bytes asleep => alert.writers p n bytes (wakeReaders_writers asleep)
      · constructor
        · exact fun p n asleep => alert.readers p n (wakeWriters_readers asleep)
        · exact fun p n bytes asleep => absurd asleep (wakeWriters_awake _ p n bytes)
    | kill p =>
      have moved : (s.setPc p ((s.kill p).pc p)).Alert := by
        apply alert.setPc
        · intro n
          cases place : s.pc p <;> simp [kill, place]
        · intro n bytes
          cases place : s.pc p <;> simp [kill, place]
      simp only [kill, update_self] at moved
      exact ⟨moved.readers, moved.writers⟩

/-- In every run in which no step of `pipewrite` gives up after storing bytes, no wakeup is lost. -/
theorem run_alert (data : Nat → Byte) (s : PipeSystem procs)
    (run : Relation.ReflTransGen (Steps fun s event => s.abandons event = false)
      (start procs data) s) : s.Alert := by
  have kept := steps_keep (fun s : PipeSystem procs => s.Flows ∧ s.Alert)
    (fun s event holds told => ⟨holds.1.step event, holds.2.step holds.1 told⟩)
    ⟨start_flows data, by constructor <;> simp [start]⟩ run
  exact kept.2

/-- A reader sleeps on an empty pipe, and is woken when bytes come. -/
theorem promptWrite_alert :
    (([.read 0 1, .run 0].foldl step (start 2 fun _ => 0)).pc 0 = .sleepRead 1) ∧
    ([.read 0 1, .run 0, .write 1 [7], .run 1].foldl step (start 2 fun _ => 0)).Alert ∧
    ([.read 0 1, .run 0, .write 1 [7], .run 1].foldl step (start 2 fun _ => 0)).pc 0 =
      .reading 1 :=
  ⟨by decide, run_alert _ _ (Along.steps ⟨by decide, by decide, by decide, by decide, trivial⟩),
    by decide⟩

/-- A writer that is killed fills the pipe and returns; the reader sleeps on. -/
theorem killedWriter_loses_wakeup :
    ∃ s, Relation.ReflTransGen (Steps fun _ _ => True) (start 2 fun _ => 0) s ∧
      s.pc 0 = .sleepRead 1 ∧ s.pc 1 = .outside (-1) ∧ ¬ s.pipe.Empty := by
  have along : Along (fun _ _ => True) (start 2 fun _ => 0)
      [.read 0 1, .run 0, .write 1 (List.replicate 513 7), .kill 1, .run 1] :=
    ⟨trivial, trivial, trivial, trivial, trivial, trivial⟩
  exact ⟨_, along.steps, by decide +kernel, by decide +kernel, by decide +kernel⟩

end PipeSystem

end MemoryEncryption
