import MemoryEncryption.Kernel.Log
import MemoryEncryption.Library.Outcome
import MemoryEncryption.Library.Tally

/-!
# Waiting for the log

What one event can do to the log, case by case (`Log.Move`), and the invariant of
`begin_op` and `end_op`: the counter of outstanding operations is exact, at most one
process commits and only while none is outstanding, and whoever sleeps has reason to.
-/

namespace MemoryEncryption

open Function Outcome

variable {procs : Nat} {s s' : Log procs} {p : Fin procs} {area : LogArea} {event : LogEvent procs}
  {halt : Halt}

namespace Log

/-! ## Moves -/

/-- What an event does, case by case. -/
inductive Move (area : LogArea) (s : Log procs) : LogEvent procs → Log procs → Prop where
  /-- The event is not possible, or changes nothing. -/
  | none (event : LogEvent procs) : s.Move area event s
  /-- `begin_op` has to wait. -/
  | sleep (p : Fin procs) (outside : s.pc p = .idle ∨ s.pc p = .woken) (waits : s.Waits) :
      s.Move area (.beginOp p) (s.setPc p .sleeping)
  /-- `begin_op` returns. -/
  | begin (p : Fin procs) (outside : s.pc p = .idle ∨ s.pc p = .woken) (free : ¬ s.Waits) :
      s.Move area (.beginOp p) (s.enter p)
  /-- A buffer is changed. -/
  | edit {op : Nat} (p : Fin procs) (blockno : Nat) (block : Block) (inside : s.pc p = .inOp op)
      (released : ¬ s.Held blockno) (bound : blockno < fsSize) :
      s.Move area (.modify p blockno block) (s.edit p op blockno block)
  /-- The tests of `log_write` pass. -/
  | test {op blockno : Nat} (p : Fin procs) (edited : s.pc p = .editing op blockno)
      (room : ¬ s.Full area) :
      s.Move area (.logWriteTests p) (s.setPc p (.logging op blockno))
  /-- `log_write` finds the block in the header. -/
  | absorb {op blockno : Nat} (p : Fin procs) (tested : s.pc p = .logging op blockno)
      (known : blockno ∈ s.lh) :
      s.Move area (.logWrite p) (s.record p op blockno s.lh)
  /-- `log_write` appends the block to the header. -/
  | append {op blockno : Nat} (p : Fin procs) (tested : s.pc p = .logging op blockno)
      (unknown : blockno ∉ s.lh) (bound : s.lh.length < logSize) :
      s.Move area (.logWrite p) (s.record p op blockno (s.lh ++ [blockno]))
  /-- The last operation ends. -/
  | close {op : Nat} (p : Fin procs) (inside : s.pc p = .inOp op) (calm : s.committing = false)
      (last : s.outstanding = 1) : s.Move area (.endOp p) (s.close p)
  /-- An operation ends while others are outstanding. -/
  | leave {op : Nat} (p : Fin procs) (inside : s.pc p = .inOp op) (calm : s.committing = false)
      (others : s.outstanding ≠ 1) : s.Move area (.endOp p) (s.leave p)
  /-- `commit` has something to do. -/
  | commit (p : Fin procs) (here : s.pc p = .commit) (some : s.lh ≠ []) :
      s.Move area (.commit p) (s.setPc p (.writeLog 0))
  /-- `commit` has nothing to do. -/
  | skip (p : Fin procs) (here : s.pc p = .commit) (nothing : s.lh = []) :
      s.Move area (.commit p) (s.setPc p .finish).committed
  /-- `write_log` copies a block. -/
  | copy {tail blockno : Nat} {bufs : Buffers} (p : Fin procs) (here : s.pc p = .writeLog tail)
      (entry : s.lh[tail]? = .some blockno)
      (written : s.bufs.bwrite (area.start + tail + 1) (s.bufs.view blockno) = .ok bufs) :
      s.Move area (.commit p) ((s.setPc p (.writeLog (tail + 1))).setBufs bufs)
  /-- `write_log` returns. -/
  | copied {tail : Nat} (p : Fin procs) (here : s.pc p = .writeLog tail)
      (past : s.lh.length ≤ tail) : s.Move area (.commit p) (s.setPc p .writeHead)
  /-- The header is written. -/
  | head {bufs : Buffers} (p : Fin procs) (here : s.pc p = .writeHead)
      (written : s.bufs.bwrite area.start (headBlock s.lh (s.bufs.view area.start)) = .ok bufs) :
      s.Move area (.commit p) ((s.setPc p (.install 0)).setBufs bufs)
  /-- `install_trans` copies a block. -/
  | install {tail blockno : Nat} {bufs : Buffers} (p : Fin procs) (here : s.pc p = .install tail)
      (entry : s.lh[tail]? = .some blockno)
      (written : s.bufs.bwrite blockno (s.bufs.view (area.start + tail + 1)) = .ok bufs) :
      s.Move area (.commit p) ((s.setPc p (.install (tail + 1))).setBufs bufs)
  /-- `install_trans` returns and the header is emptied in memory. -/
  | forget {tail : Nat} (p : Fin procs) (here : s.pc p = .install tail)
      (past : s.lh.length ≤ tail) : s.Move area (.commit p) (s.setPc p .clearHead).forget
  /-- The empty header is written. -/
  | clear {bufs : Buffers} (p : Fin procs) (here : s.pc p = .clearHead)
      (written : s.bufs.bwrite area.start (headBlock s.lh (s.bufs.view area.start)) = .ok bufs) :
      s.Move area (.commit p) ((s.setPc p .finish).setBufs bufs).committed
  /-- The log is open again. -/
  | reopen (p : Fin procs) (here : s.pc p = .finish) :
      s.Move area (.commit p) (s.setPc p .idle).reopen
  /-- A sleeping process is killed. -/
  | kill (p : Fin procs) (asleep : s.pc p = .sleeping) :
      s.Move area (.kill p) (s.setPc p .woken)
  /-- A block is read into the cache. -/
  | fill (blockno : Nat) (absent : s.bufs.data blockno = Option.none) :
      s.Move area (.fill blockno) (s.setBufs (s.bufs.fill blockno))
  /-- A buffer is recycled. -/
  | evict (blockno : Nat) (clean : s.bufs.dirty blockno = false) (released : ¬ s.Held blockno) :
      s.Move area (.evict blockno) (s.setBufs (s.bufs.evict blockno))

theorem writeBlock_eq_ok {blockno : Nat} {block : Block} {place : LogPlace}
    (written : s.writeBlock p blockno block place = .ok s') :
    ∃ bufs, s.bufs.bwrite blockno block = .ok bufs ∧ s' = (s.setPc p place).setBufs bufs := by
  obtain ⟨bufs, stored, rfl⟩ := map_eq_ok.mp written
  exact ⟨bufs, stored, rfl⟩

theorem commitStep_moves (stepped : s.commitStep area p = .ok s') : s.Move area (.commit p) s' := by
  unfold commitStep at stepped
  split at stepped
  case h_1 here =>
    split at stepped
    case isTrue some =>
      cases stepped
      exact .commit p here (List.length_pos_iff.mp some)
    case isFalse nothing =>
      cases stepped
      exact .skip p here (by simpa using nothing)
  case h_2 tail here =>
    split at stepped
    case h_1 blockno entry =>
      obtain ⟨bufs, written, rfl⟩ := writeBlock_eq_ok stepped
      exact .copy p here entry written
    case h_2 past =>
      cases stepped
      exact .copied p here (List.getElem?_eq_none_iff.mp past)
  case h_3 here =>
    obtain ⟨bufs, written, rfl⟩ := writeBlock_eq_ok stepped
    exact .head p here written
  case h_4 tail here =>
    split at stepped
    case h_1 blockno entry =>
      obtain ⟨bufs, written, rfl⟩ := writeBlock_eq_ok stepped
      exact .install p here entry written
    case h_2 past =>
      cases stepped
      exact .forget p here (List.getElem?_eq_none_iff.mp past)
  case h_5 here =>
    obtain ⟨_, wrote, rfl⟩ := map_eq_ok.mp stepped
    obtain ⟨bufs, written, rfl⟩ := writeBlock_eq_ok wrote
    exact .clear p here written
  case h_6 here =>
    cases stepped
    exact .reopen p here
  case h_7 =>
    cases stepped
    exact .none _

theorem step_moves (stepped : s.step area event = .ok s') : s.Move area event s' := by
  cases event with
  | beginOp p =>
    cases stepped
    split
    case isTrue outside =>
      unfold beginOp
      split
      case isTrue waits => exact .sleep p outside waits
      case isFalse free => exact .begin p outside free
    case isFalse => exact .none _
  | modify p blockno block =>
    simp only [step] at stepped
    split at stepped
    case h_1 op inside =>
      unfold modify at stepped
      split at stepped
      case isTrue =>
        cases stepped
        exact .none _
      case isFalse released =>
        split at stepped
        case isTrue bound =>
          cases stepped
          exact .edit p blockno block inside released bound
        case isFalse => cases stepped
    case h_2 =>
      cases stepped
      exact .none _
  | logWriteTests p =>
    simp only [step] at stepped
    split at stepped
    case h_1 op blockno edited =>
      unfold logWriteTests at stepped
      split at stepped
      case isTrue => cases stepped
      case isFalse room =>
        split at stepped
        case isTrue => cases stepped
        case isFalse =>
          cases stepped
          exact .test p edited room
    case h_2 =>
      cases stepped
      exact .none _
  | logWrite p =>
    simp only [step] at stepped
    split at stepped
    case h_1 op blockno tested =>
      unfold logWrite at stepped
      split at stepped
      case isTrue known =>
        cases stepped
        exact .absorb p tested known
      case isFalse unknown =>
        split at stepped
        case isTrue bound =>
          cases stepped
          exact .append p tested unknown bound
        case isFalse => cases stepped
    case h_2 =>
      cases stepped
      exact .none _
  | endOp p =>
    simp only [step] at stepped
    split at stepped
    case h_1 op inside =>
      unfold endOp at stepped
      split at stepped
      case isTrue => cases stepped
      case isFalse calm =>
        rw [Bool.not_eq_true] at calm
        split at stepped
        case isTrue last =>
          cases stepped
          exact .close p inside calm (by omega)
        case isFalse others =>
          cases stepped
          exact .leave p inside calm (by omega)
    case h_2 =>
      cases stepped
      exact .none _
  | commit p => exact commitStep_moves stepped
  | kill p =>
    cases stepped
    split
    case isTrue asleep => exact .kill p asleep
    case isFalse => exact .none _
  | fill blockno =>
    cases stepped
    split
    case isTrue absent => exact .fill blockno absent
    case isFalse => exact .none _
  | evict blockno =>
    cases stepped
    split
    case isTrue => exact .none _
    case isFalse free =>
      rw [not_or, Bool.not_eq_true] at free
      exact .evict blockno free.1 free.2

/-- The ways in which an event does not return. -/
inductive Stops (area : LogArea) (s : Log procs) : LogEvent procs → Halt → Prop where
  /-- A block is not on the disk. -/
  | block (event : LogEvent procs) : s.Stops area event (.panic "incorrect blockno")
  /-- `log_write` finds the log full. -/
  | full {op blockno : Nat} (p : Fin procs) (edited : s.pc p = .editing op blockno)
      (full : s.Full area) : s.Stops area (.logWriteTests p) (.panic "too big a transaction")
  /-- `log_write` finds no operation outstanding. -/
  | outside {op blockno : Nat} (p : Fin procs) (edited : s.pc p = .editing op blockno)
      (none : s.outstanding < 1) :
      s.Stops area (.logWriteTests p) (.panic "log_write outside of trans")
  /-- `log_write` has no entry left in the header. -/
  | overflow {op blockno : Nat} (p : Fin procs) (tested : s.pc p = .logging op blockno)
      (unknown : blockno ∉ s.lh) (full : logSize ≤ s.lh.length) :
      s.Stops area (.logWrite p) .outOfBounds
  /-- `end_op` finds a commit in progress. -/
  | busy {op : Nat} (p : Fin procs) (inside : s.pc p = .inOp op) (busy : s.committing = true) :
      s.Stops area (.endOp p) (.panic "log.committing")

theorem writeBlock_stops {blockno : Nat} {block : Block} {place : LogPlace}
    (stopped : s.writeBlock p blockno block place = .error halt) :
    halt = .panic "incorrect blockno" := by
  unfold writeBlock Buffers.bwrite at stopped
  split at stopped
  case isTrue => cases stopped
  case isFalse => exact (Except.error.inj stopped).symm

theorem commitStep_stops (stopped : s.commitStep area p = .error halt) :
    halt = .panic "incorrect blockno" := by
  unfold commitStep at stopped
  split at stopped
  case h_1 => split at stopped <;> cases stopped
  case h_2 | h_4 =>
    split at stopped
    case h_1 => exact writeBlock_stops stopped
    case h_2 => cases stopped
  case h_3 => exact writeBlock_stops stopped
  case h_5 =>
    cases written : s.writeBlock p area.start (headBlock s.lh (s.bufs.view area.start)) .finish with
    | ok next => simp [written, Except.map] at stopped
    | error other =>
      obtain rfl : other = halt := by simpa [written, Except.map] using stopped
      exact writeBlock_stops written
  case h_6 | h_7 => cases stopped

/-- Every step that does not return stops in one of these ways. -/
theorem step_stops (stopped : s.step area event = .error halt) : s.Stops area event halt := by
  cases event with
  | beginOp p | kill p | fill blockno | evict blockno => cases stopped
  | modify p blockno block =>
    simp only [step] at stopped
    split at stopped
    case h_1 op inside =>
      unfold modify at stopped
      split at stopped
      case isTrue => cases stopped
      case isFalse =>
        split at stopped
        case isTrue => cases stopped
        case isFalse =>
          obtain rfl := Except.error.inj stopped
          exact .block _
    case h_2 => cases stopped
  | logWriteTests p =>
    simp only [step] at stopped
    split at stopped
    case h_1 op blockno edited =>
      unfold logWriteTests at stopped
      split at stopped
      case isTrue full =>
        obtain rfl := Except.error.inj stopped
        exact .full p edited full
      case isFalse =>
        split at stopped
        case isTrue none =>
          obtain rfl := Except.error.inj stopped
          exact .outside p edited none
        case isFalse => cases stopped
    case h_2 => cases stopped
  | logWrite p =>
    simp only [step] at stopped
    split at stopped
    case h_1 op blockno tested =>
      unfold logWrite at stopped
      split at stopped
      case isTrue => cases stopped
      case isFalse unknown =>
        split at stopped
        case isTrue => cases stopped
        case isFalse full =>
          obtain rfl := Except.error.inj stopped
          exact .overflow p tested unknown (Nat.le_of_not_lt full)
    case h_2 => cases stopped
  | endOp p =>
    simp only [step] at stopped
    split at stopped
    case h_1 op inside =>
      unfold endOp at stopped
      split at stopped
      case isTrue busy =>
        obtain rfl := Except.error.inj stopped
        exact .busy p inside busy
      case isFalse => split at stopped <;> cases stopped
    case h_2 => cases stopped
  | commit p =>
    obtain rfl := commitStep_stops stopped
    exact .block _

/-! ## Counting processes -/

end Log

/-- A process counts as outstanding between `begin_op` and `end_op`. -/
def LogPlace.active (place : LogPlace) : Nat := if place.op?.isSome then 1 else 0

/-- A process counts as a committer from the last `end_op` on, until the log is open again. -/
def LogPlace.committer (place : LogPlace) : Nat := if place.inCommit then 1 else 0

theorem LogPlace.active_inOp (op : Nat) : (LogPlace.inOp op).active = 1 := rfl
theorem LogPlace.active_idle : LogPlace.idle.active = 0 := rfl
/-- A process that starts to commit does not count as outstanding. -/
theorem LogPlace.active_commit : LogPlace.commit.active = 0 := rfl
/-- A process in an operation does not count as a committer. -/
theorem LogPlace.committer_inOp (op : Nat) : (LogPlace.inOp op).committer = 0 := rfl
theorem LogPlace.committer_idle : LogPlace.idle.committer = 0 := rfl
/-- A process that starts to commit counts as a committer. -/
theorem LogPlace.committer_commit : LogPlace.commit.committer = 1 := rfl

variable {op : Nat}

namespace Log

/-- The counters of the log are right, and whoever sleeps has to wait. -/
structure Synced (s : Log procs) : Prop where
  counted : s.outstanding = tally LogPlace.active s.pc
  /-- One process commits while `log.committing` is set, and none otherwise. -/
  single : tally LogPlace.committer s.pc = s.committing.toNat
  quiet : s.committing = true → s.outstanding = 0
  empty : s.committing = false → s.outstanding = 0 → s.lh = []
  /-- The header is empty once `commit` has installed the transaction. -/
  cleared : ∀ p, s.pc p = .clearHead ∨ s.pc p = .finish → s.lh = []
  waits : ∀ p, s.pc p = .sleeping → s.Waits

theorem tally_setPc (s : Log procs) {worth : LogPlace → Nat} {place : LogPlace} {old new : Nat}
    (before : worth (s.pc p) = old) (after : worth place = new) :
    tally worth (s.setPc p place).pc + old = tally worth s.pc + new := by
  rw [← before, ← after]
  exact tally_update worth s.pc p place

theorem tally_wakeup (worth : LogPlace → Nat) (same : worth .woken = worth .sleeping)
    (s : Log procs) : tally worth s.wakeup.pc = tally worth s.pc := by
  refine tally_congr fun p => ?_
  simp only [wakeup]
  split
  case isTrue asleep => rw [asleep, same]
  case isFalse => rfl

theorem wakeup_not_sleeping (s : Log procs) (p : Fin procs) : s.wakeup.pc p ≠ .sleeping := by
  simp only [wakeup]
  split
  case isTrue => simp
  case isFalse awake => exact awake

theorem wakeup_eq {place : LogPlace} (here : s.wakeup.pc p = place) (other : place ≠ .woken) :
    s.pc p = place := by
  simp only [wakeup] at here
  split at here
  case isTrue => exact absurd here.symm other
  case isFalse => exact here

theorem start_synced (disk : Nat → Block) : (start procs disk).Synced where
  counted := by simp [start, tally, LogPlace.active, LogPlace.op?]
  single := by simp [start, tally, LogPlace.committer, LogPlace.inCommit]
  quiet := by simp [start]
  empty := by simp [start]
  cleared := by simp [start]
  waits := by simp [start]

/-- Moving a process without changing what it counts for keeps the log synchronised, when the
header, the flags and the reasons to wait stay as they are. -/
theorem Synced.move (synced : s.Synced) {place : LogPlace} (active : place.active = (s.pc p).active)
    (committer : place.committer = (s.pc p).committer)
    (cleared : place = .clearHead ∨ place = .finish → s.lh = [])
    (waits : place = .sleeping → s.Waits) : (s.setPc p place).Synced where
  counted := by
    have moved := s.tally_setPc (p := p) rfl active
    have counted : s.outstanding = tally LogPlace.active s.pc := synced.counted
    change s.outstanding = _
    omega
  single := by
    have moved := s.tally_setPc (p := p) rfl committer
    have single : tally LogPlace.committer s.pc = s.committing.toNat := synced.single
    change _ = s.committing.toNat
    omega
  quiet := synced.quiet
  empty := synced.empty
  cleared q here := by
    by_cases same : q = p
    · subst same
      simp only [setPc, update_self] at here
      exact cleared here
    · simp only [setPc, update_of_ne same] at here
      exact synced.cleared q here
  waits q asleep := by
    by_cases same : q = p
    · subst same
      simp only [setPc, update_self] at asleep
      exact waits asleep
    · simp only [setPc, update_of_ne same] at asleep
      exact synced.waits q asleep

theorem Synced.congr (synced : s.Synced) (lh : s'.lh = s.lh)
    (outstanding : s'.outstanding = s.outstanding) (committing : s'.committing = s.committing)
    (pc : s'.pc = s.pc) : s'.Synced where
  counted := by rw [outstanding, pc]; exact synced.counted
  single := by rw [committing, pc]; exact synced.single
  quiet := by rw [outstanding, committing]; exact synced.quiet
  empty := by rw [outstanding, committing, lh]; exact synced.empty
  cleared := by rw [pc, lh]; exact synced.cleared
  waits p asleep := by
    rw [pc] at asleep
    simpa only [Waits, lh, outstanding, committing] using synced.waits p asleep

theorem Synced.calm (synced : s.Synced) (inside : (s.pc p).op? = some op) :
    s.committing = false ∧ 1 ≤ s.outstanding := by
  have counted := synced.counted
  have mine := le_tally LogPlace.active s.pc p
  simp only [LogPlace.active, inside, Option.isSome_some, if_true] at mine
  have positive : 1 ≤ s.outstanding := by omega
  refine ⟨?_, positive⟩
  by_contra busy
  rw [Bool.not_eq_false] at busy
  have none := synced.quiet busy
  omega

theorem Synced.busy (synced : s.Synced) (commits : (s.pc p).inCommit = true) :
    s.committing = true := by
  have mine := le_tally LogPlace.committer s.pc p
  simp only [LogPlace.committer, commits, if_true] at mine
  have single := synced.single
  cases busy : s.committing with
  | true => rfl
  | false =>
    rw [busy] at single
    simp only [Bool.toNat_false, tally_eq_zero] at single
    have zero := single p
    simp [LogPlace.committer, commits] at zero

theorem Synced.alone (synced : s.Synced) (commits : (s.pc p).inCommit = true) (q : Fin procs) :
    (s.pc q).op? = none := by
  cases operation : (s.pc q).op? with
  | none => rfl
  | some op =>
    have calm := (synced.calm operation).1
    simp [synced.busy commits] at calm

theorem Synced.unique (synced : s.Synced) {q : Fin procs} (first : (s.pc p).inCommit = true)
    (second : (s.pc q).inCommit = true) : p = q := by
  by_contra different
  -- moving the first committer away leaves the second
  have one : (s.pc p).committer = 1 ∧ (s.pc q).committer = 1 := by
    simp [LogPlace.committer, first, second]
  have moved := s.tally_setPc one.1 LogPlace.committer_idle
  have left := le_tally LogPlace.committer (s.setPc p .idle).pc q
  simp only [setPc, update_of_ne (Ne.symm different), one.2] at left moved
  have single := synced.single
  rw [synced.busy first, Bool.toNat_true] at single
  omega

/-! ## Steps -/

theorem Synced.enter (synced : s.Synced) (outside : s.pc p = .idle ∨ s.pc p = .woken)
    (free : ¬ s.Waits) : (s.enter p).Synced := by
  obtain ⟨active, committer⟩ : (s.pc p).active = 0 ∧ (s.pc p).committer = 0 := by
    rcases outside with here | here <;> rw [here] <;> exact ⟨rfl, rfl⟩
  have calm : s.committing = false := by
    by_contra busy
    exact free (.inl (by simpa using busy))
  have moved := s.tally_setPc active (LogPlace.active_inOp s.nextOp)
  have kept := s.tally_setPc committer (LogPlace.committer_inOp s.nextOp)
  have counted := synced.counted
  have single := synced.single
  refine ⟨?_, kept.trans single, ?_, ?_, ?_, ?_⟩
  · change s.outstanding + 1 = tally LogPlace.active (s.setPc p (.inOp s.nextOp)).pc
    omega
  · simp [Log.enter, setPc, calm]
  · simp only [Log.enter, setPc]
    omega
  · intro q here
    by_cases same : q = p
    · subst same
      simp [Log.enter, setPc] at here
    · simp only [Log.enter, setPc, update_of_ne same] at here
      exact synced.cleared q here
  · intro q asleep
    by_cases same : q = p
    · subst same
      simp [Log.enter, setPc] at asleep
    · simp only [Log.enter, setPc, update_of_ne same] at asleep
      exact absurd (synced.waits q asleep) free

/-- Logging a block keeps the log synchronised, whether or not the header grows. -/
theorem Synced.record (synced : s.Synced) {blockno : Nat} {lh : List Nat}
    (tested : s.pc p = .logging op blockno) (grown : s.lh.length ≤ lh.length) :
    (s.record p op blockno lh).Synced := by
  have inside : (s.pc p).op? = some op := by rw [tested, LogPlace.op?]
  obtain ⟨calm, positive⟩ := synced.calm inside
  have moved : (s.setPc p (.inOp op)).Synced :=
    synced.move (by rw [tested]; rfl) (by rw [tested]; rfl) (by simp) (by simp)
  refine ⟨moved.counted, moved.single, moved.quiet, ?_, ?_, ?_⟩
  · intro _ none
    change s.outstanding = 0 at none
    omega
  · intro q here
    have commits : ((s.setPc p (.inOp op)).pc q).inCommit = true := by
      rcases here with here | here <;> exact congrArg LogPlace.inCommit here
    have busy := moved.busy commits
    change s.committing = true at busy
    simp [calm] at busy
  · intro q asleep
    rcases moved.waits q asleep with busy | long
    · exact .inl busy
    · refine .inr ?_
      simp only [setPc] at long
      simp only [Log.record, setPc]
      omega

theorem Synced.close (synced : s.Synced) (inside : s.pc p = .inOp op) (calm : s.committing = false)
    (last : s.outstanding = 1) : (s.close p).Synced := by
  have active : (s.pc p).active = 1 := by rw [inside, LogPlace.active_inOp]
  have committer : (s.pc p).committer = 0 := by rw [inside, LogPlace.committer_inOp]
  have moved := s.tally_setPc active LogPlace.active_commit
  have kept := s.tally_setPc committer LogPlace.committer_commit
  have counted := synced.counted
  have single := synced.single
  rw [calm, Bool.toNat_false] at single
  refine ⟨?_, ?_, ?_, ?_, ?_, fun _ _ => .inl rfl⟩
  · change s.outstanding - 1 = tally LogPlace.active (s.setPc p .commit).pc
    omega
  · change tally LogPlace.committer (s.setPc p .commit).pc = 1
    omega
  · intro _
    change s.outstanding - 1 = 0
    omega
  · exact fun open' => absurd open' (by simp [Log.close])
  · intro q here
    by_cases same : q = p
    · subst same
      simp [Log.close, setPc] at here
    · simp only [Log.close, setPc, update_of_ne same] at here
      exact synced.cleared q here

/-- An operation that is not the last one leaves and wakes the sleepers. -/
theorem Synced.leave (synced : s.Synced) (inside : s.pc p = .inOp op) (calm : s.committing = false)
    (others : s.outstanding ≠ 1) : (s.leave p).Synced := by
  have active : (s.pc p).active = 1 := by rw [inside, LogPlace.active_inOp]
  have committer : (s.pc p).committer = 0 := by rw [inside, LogPlace.committer_inOp]
  have moved := s.tally_setPc active LogPlace.active_idle
  have kept := s.tally_setPc committer LogPlace.committer_idle
  have counted := synced.counted
  refine ⟨?_, ?_, ?_, ?_, ?_, fun q asleep => absurd asleep (wakeup_not_sleeping _ q)⟩
  · rw [Log.leave, tally_wakeup LogPlace.active rfl]
    change s.outstanding - 1 = tally LogPlace.active (s.setPc p .idle).pc
    omega
  · rw [Log.leave, tally_wakeup LogPlace.committer rfl]
    exact kept.trans synced.single
  · exact fun busy => absurd (show s.committing = true from busy) (by simp [calm])
  · intro _ none
    change s.outstanding - 1 = 0 at none
    omega
  · intro q here
    have before : (s.setPc p .idle).pc q = .clearHead ∨ (s.setPc p .idle).pc q = .finish :=
      here.imp (wakeup_eq · (by simp)) (wakeup_eq · (by simp))
    by_cases same : q = p
    · subst same
      simp [setPc] at before
    · simp only [setPc, update_of_ne same] at before
      exact synced.cleared q before

/-- The committer opens the log and wakes the sleepers. -/
theorem Synced.reopen (synced : s.Synced) (here : s.pc p = .finish) :
    (s.setPc p .idle).reopen.Synced := by
  have commits : (s.pc p).inCommit = true := by rw [here, LogPlace.inCommit]
  have committer : (s.pc p).committer = 1 := by rw [here]; rfl
  have active : (s.pc p).active = 0 := by rw [here]; rfl
  have moved := s.tally_setPc active LogPlace.active_idle
  have kept := s.tally_setPc committer LogPlace.committer_idle
  have counted := synced.counted
  have single := synced.single
  rw [synced.busy commits, Bool.toNat_true] at single
  have empty : s.lh = [] := synced.cleared p (.inr here)
  refine ⟨?_, ?_, fun busy => absurd busy (by simp [Log.reopen, wakeup]), fun _ _ => empty,
    fun _ _ => empty, fun q asleep => absurd asleep (wakeup_not_sleeping _ q)⟩
  · rw [Log.reopen, tally_wakeup LogPlace.active rfl]
    change s.outstanding = tally LogPlace.active (s.setPc p .idle).pc
    omega
  · rw [Log.reopen, tally_wakeup LogPlace.committer rfl]
    change tally LogPlace.committer (s.setPc p .idle).pc = 0
    omega

theorem Synced.forget (synced : s.Synced) {tail : Nat} (here : s.pc p = .install tail) :
    (s.setPc p .clearHead).forget.Synced := by
  have busy := synced.busy (p := p) (by rw [here, LogPlace.inCommit])
  have emptied : s.forget.Synced :=
    ⟨synced.counted, synced.single, synced.quiet, fun _ _ => rfl, fun _ _ => rfl,
      fun _ _ => .inl busy⟩
  have place : s.forget.pc p = .install tail := here
  exact emptied.move (by rw [place]; rfl) (by rw [place]; rfl) (fun _ => rfl) (by simp)

theorem Synced.step (synced : s.Synced) (stepped : s.step area event = .ok s') : s'.Synced := by
  cases step_moves stepped with
  | none => exact synced
  | sleep p outside waits =>
    refine synced.move ?_ ?_ (by simp) fun _ => waits <;>
      rcases outside with here | here <;> rw [here] <;> rfl
  | begin p outside free => exact synced.enter outside free
  | edit p blockno block inside =>
    exact (synced.move (by rw [inside]; rfl) (by rw [inside]; rfl) (by simp) (by simp)).congr
      rfl rfl rfl rfl
  | test p edited =>
    exact synced.move (by rw [edited]; rfl) (by rw [edited]; rfl) (by simp) (by simp)
  | absorb p tested => exact synced.record tested le_rfl
  | append p tested => exact synced.record tested (by simp)
  | close p inside calm last => exact synced.close inside calm last
  | leave p inside calm others => exact synced.leave inside calm others
  | commit p here => exact synced.move (by rw [here]; rfl) (by rw [here]; rfl) (by simp) (by simp)
  | skip p here nothing =>
    exact (synced.move (by rw [here]; rfl) (by rw [here]; rfl) (fun _ => nothing)
      (by simp)).congr rfl rfl rfl rfl
  | copy p here | head p here | install p here =>
    exact (synced.move (by rw [here]; rfl) (by rw [here]; rfl) (by simp) (by simp)).congr
      rfl rfl rfl rfl
  | copied p here => exact synced.move (by rw [here]; rfl) (by rw [here]; rfl) (by simp) (by simp)
  | forget p here => exact synced.forget here
  | clear p here =>
    exact (synced.move (by rw [here]; rfl) (by rw [here]; rfl)
      (fun _ => synced.cleared p (.inl here)) (by simp)).congr rfl rfl rfl rfl
  | reopen p here => exact synced.reopen here
  | kill p asleep =>
    exact synced.move (by rw [asleep]; rfl) (by rw [asleep]; rfl) (by simp) (by simp)
  | fill | evict => exact synced.congr rfl rfl rfl rfl

theorem Synced.exists_committer (synced : s.Synced) (busy : s.committing = true) :
    ∃ p, (s.pc p).inCommit = true := by
  by_contra nobody
  simp only [not_exists, Bool.not_eq_true] at nobody
  have single := synced.single
  rw [busy, tally_eq_zero.mpr fun q => by simp [LogPlace.committer, nobody q]] at single
  simp at single

/-- What holds of the log between critical sections, whatever the interleaving. -/
structure Orderly (area : LogArea) (s : Log procs) : Prop where
  /-- No operation is outstanding while `log.committing` is set. -/
  quiet : s.committing = true → s.outstanding = 0
  /-- `end_op` does not panic. -/
  ends : ∀ p, s.step area (.endOp p) ≠ .error (.panic "log.committing")
  /-- `commit` runs only when no process is in an operation. -/
  alone : ∀ p, (s.pc p).inCommit = true → ∀ q, (s.pc q).op? = none
  /-- A process that sleeps has to wait, for an operation or for a commit. -/
  sleepers : ∀ p, s.pc p = .sleeping →
    s.Waits ∧ ((∃ q, ((s.pc q).op?).isSome) ∨ ∃ q, (s.pc q).inCommit = true)

theorem Synced.orderly (synced : s.Synced) (area : LogArea) :
    s.Orderly area where
  quiet := synced.quiet
  ends p stopped := by
    generalize named : Halt.panic "log.committing" = halt at stopped
    cases step_stops stopped with
    | busy _ inside busy =>
      have calm := (synced.calm (p := p) (by rw [inside, LogPlace.op?])).1
      simp [busy] at calm
    | block => simp at named
  alone p commits := synced.alone commits
  sleepers p asleep := by
    refine ⟨synced.waits p asleep, ?_⟩
    by_cases busy : s.committing = true
    · exact .inr (synced.exists_committer busy)
    · left
      rw [Bool.not_eq_true] at busy
      by_contra nobody
      simp only [not_exists, Option.isSome_iff_ne_none, ne_eq, not_not] at nobody
      have counted := synced.counted
      rw [tally_eq_zero.mpr fun q => by simp [LogPlace.active, nobody q]] at counted
      have empty := synced.empty busy (by simpa using counted)
      rcases synced.waits p asleep with closed | full
      · simp [busy] at closed
      · simp [empty, counted, maxOpBlocks, logSize] at full

/-- Whatever the processes do, the log is orderly between critical sections. -/
theorem run_orderly (area : LogArea) (disk : Nat → Block) (s : Log procs)
    (run : Relation.ReflTransGen (Outcome.Steps (Log.step area) fun _ _ => True)
      (start procs disk) s) : s.Orderly area :=
  (steps_invariant Synced (fun _ _ _ synced _ stepped => synced.step stepped)
    (start_synced disk) run).orderly area

/-- Three operations reserve the whole log and a fourth one has to wait. -/
theorem crowded_orderly :
    ∃ s, Outcome.run (Log.step mkfsLogArea) (start 4 fun _ _ => 0)
        [.beginOp 0, .beginOp 1, .beginOp 2, .beginOp 3] = .ok s ∧
      s.pc 3 = .sleeping ∧ s.Orderly mkfsLogArea := by
  have returns : ((Outcome.run (Log.step mkfsLogArea) (start 4 fun _ _ => 0)
      [.beginOp 0, .beginOp 1, .beginOp 2, .beginOp 3]).map fun s => s.pc 3).toOption =
        some .sleeping := by decide +kernel
  obtain ⟨s, finished, asleep⟩ := exists_ok returns
  exact ⟨s, finished, asleep, run_orderly mkfsLogArea _ s
    (run_reaches (fun _ event _ stepped => ⟨event, trivial, stepped⟩) finished)⟩

end Log

end MemoryEncryption
