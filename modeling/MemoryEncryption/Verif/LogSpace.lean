import MemoryEncryption.Verif.LogSync
import Mathlib.Algebra.BigOperators.Ring.Finset

/-!
# Room in the log

`begin_op` admits an operation when `MAXOPBLOCKS` blocks for each outstanding one fit
in `LOGSIZE` entries. The log area that `mkfs` makes has one block less for entries,
since `nlog` counts the header, and `log_write` refuses the last of them. So the
reservation suffices for operations that log at most `MAXOPBLOCKS - 1` distinct
blocks, and not for those that log `MAXOPBLOCKS`.
-/

namespace MemoryEncryption

open Function Outcome

variable {procs op : Nat} {s s' : Log procs} {p : Fin procs} {area : LogArea}
  {event : LogEvent procs}

namespace Log

/-! ## Operations and their numbers -/

/-- Operations are numbered apart: those that are outstanding, those of the open transaction and
those of each closed one. -/
structure Numbered (s : Log procs) : Prop where
  begun : ∀ p op, (s.pc p).op? = some op → op < s.nextOp
  distinct : ∀ p q op, (s.pc p).op? = some op → (s.pc q).op? = some op → p = q
  /-- The writes of the open transaction are of operations that have been begun. -/
  current : ∀ write ∈ s.current, write.op < s.nextOp
  closed : ∀ writes ∈ s.transactions, ∀ write ∈ writes, write.op < s.nextOp
  ended : ∀ writes ∈ s.transactions, ∀ write ∈ writes, ∀ p, (s.pc p).op? ≠ some write.op
  apart : ∀ writes ∈ s.transactions, ∀ write ∈ writes, ∀ other ∈ s.current, write.op ≠ other.op
  pairwise : s.transactions.Pairwise fun writes others =>
    ∀ write ∈ writes, ∀ other ∈ others, write.op ≠ other.op

theorem start_numbered (disk : Nat → Block) : (start procs disk).Numbered := by
  constructor <;> simp [start, LogPlace.op?]

theorem Numbered.congr (numbered : s.Numbered)
    (ops : ∀ p op, (s'.pc p).op? = some op → (s.pc p).op? = some op) (nextOp : s'.nextOp = s.nextOp)
    (current : s'.current = s.current) (transactions : s'.transactions = s.transactions) :
    s'.Numbered where
  begun p op inside := by rw [nextOp]; exact numbered.begun p op (ops p op inside)
  distinct p q op first second := numbered.distinct p q op (ops p op first) (ops q op second)
  current := by rw [nextOp, current]; exact numbered.current
  closed := by rw [nextOp, transactions]; exact numbered.closed
  ended := by
    rw [transactions]
    exact fun writes member write mine p inside =>
      numbered.ended writes member write mine p (ops p _ inside)
  apart := by rw [current, transactions]; exact numbered.apart
  pairwise := by rw [transactions]; exact numbered.pairwise

theorem ops_setPc {place : LogPlace} (same : ∀ op, place.op? = some op → (s.pc p).op? = some op)
    (q : Fin procs) (op : Nat) (inside : ((s.setPc p place).pc q).op? = some op) :
    (s.pc q).op? = some op := by
  by_cases here : q = p
  · subst here
    simp only [setPc, update_self] at inside
    exact same op inside
  · simpa only [setPc, update_of_ne here] using inside

theorem ops_wakeup (p : Fin procs) (op : Nat) (inside : (s.wakeup.pc p).op? = some op) :
    (s.pc p).op? = some op := by
  simp only [wakeup] at inside
  split at inside
  case isTrue => simp [LogPlace.op?] at inside
  case isFalse => exact inside

theorem Numbered.enter (numbered : s.Numbered) (p : Fin procs) : (s.enter p).Numbered := by
  have other : ∀ q op, ((s.enter p).pc q).op? = some op →
      (q = p ∧ op = s.nextOp) ∨ (q ≠ p ∧ (s.pc q).op? = some op) := by
    intro q op inside
    by_cases here : q = p
    · subst here
      simp only [Log.enter, setPc, update_self, LogPlace.op?, Option.some.injEq] at inside
      exact .inl ⟨rfl, inside.symm⟩
    · simp only [Log.enter, setPc, update_of_ne here] at inside
      exact .inr ⟨here, inside⟩
  constructor
  case begun =>
    intro q op inside
    change op < s.nextOp + 1
    rcases other q op inside with ⟨-, rfl⟩ | ⟨-, before⟩
    · omega
    · have begun := numbered.begun q op before
      omega
  case distinct =>
    intro q r op first second
    rcases other q op first with ⟨rfl, rfl⟩ | ⟨_, before⟩
    · rcases other r _ second with ⟨rfl, -⟩ | ⟨_, before⟩
      · rfl
      · exact absurd (numbered.begun r _ before) (Nat.lt_irrefl _)
    · rcases other r op second with ⟨rfl, rfl⟩ | ⟨_, again⟩
      · exact absurd (numbered.begun q _ before) (Nat.lt_irrefl _)
      · exact numbered.distinct q r op before again
  case current =>
    exact fun write member => Nat.lt_succ_of_lt (numbered.current write member)
  case closed =>
    exact fun writes member write mine =>
      Nat.lt_succ_of_lt (numbered.closed writes member write mine)
  case ended =>
    intro writes member write mine q inside
    rcases other q _ inside with ⟨rfl, number⟩ | ⟨_, before⟩
    · have begun := numbered.closed writes member write mine
      omega
    · exact numbered.ended writes member write mine q before
  case apart => exact numbered.apart
  case pairwise => exact numbered.pairwise

/-- Logging a block adds a write of an outstanding operation. -/
theorem Numbered.record (numbered : s.Numbered) {blockno : Nat} (inside : (s.pc p).op? = some op)
    (lh : List Nat) : (s.record p op blockno lh).Numbered := by
  have moved : (s.setPc p (.inOp op)).Numbered :=
    numbered.congr (ops_setPc fun other same => by rw [inside]; exact same) rfl rfl rfl
  have added : ∀ write ∈ (s.record p op blockno lh).current, write ∈ s.current ∨ write.op = op := by
    intro write member
    rcases List.mem_append.mp member with before | last
    · exact .inl before
    · obtain rfl := List.mem_singleton.mp last
      exact .inr rfl
  refine ⟨moved.begun, moved.distinct, ?_, moved.closed, moved.ended, ?_, moved.pairwise⟩
  · intro write member
    rcases added write member with before | rfl
    · exact numbered.current write before
    · exact numbered.begun p _ inside
  · intro writes closed write mine other member
    rcases added other member with before | rfl
    · exact numbered.apart writes closed write mine other before
    · exact fun same => numbered.ended writes closed write mine p (same ▸ inside)

/-- A transaction closes when no operation is outstanding. -/
theorem Numbered.close (numbered : s.Numbered) (none : ∀ q, ((s.close p).pc q).op? = none) :
    (s.close p).Numbered := by
  have nobody : ∀ q op, ((s.close p).pc q).op? ≠ some op := fun q op => by simp [none q]
  have either : ∀ writes ∈ (s.close p).transactions, writes ∈ s.transactions ∨ writes = s.current :=
    fun writes member => by simpa [Log.close] using member
  constructor
  case begun => exact fun q op inside => absurd inside (nobody q op)
  case distinct => exact fun q _ op inside => absurd inside (nobody q op)
  case current => simp [Log.close]
  case closed =>
    intro writes member write mine
    rcases either writes member with before | rfl
    · exact numbered.closed writes before write mine
    · exact numbered.current write mine
  case ended => exact fun _ _ write _ q => nobody q write.op
  case apart => simp [Log.close]
  case pairwise =>
    simp only [Log.close, List.pairwise_append, List.pairwise_singleton, List.mem_singleton,
      true_and]
    refine ⟨numbered.pairwise, fun writes member others last => ?_⟩
    subst last
    exact fun write mine other theirs => numbered.apart writes member write mine other theirs

theorem Synced.close_ops (synced : s.Synced) (inside : s.pc p = .inOp op)
    (calm : s.committing = false) (last : s.outstanding = 1) (q : Fin procs) :
    ((s.close p).pc q).op? = none :=
  (synced.close inside calm last).alone (p := p) (by simp [Log.close, setPc, LogPlace.inCommit]) q

theorem Numbered.step (numbered : s.Numbered) (synced : s.Synced)
    (stepped : s.step area event = .ok s') : s'.Numbered := by
  cases step_moves stepped with
  | none => exact numbered
  | sleep p outside => exact numbered.congr (ops_setPc (by simp [LogPlace.op?])) rfl rfl rfl
  | begin p outside => exact numbered.enter p
  | edit p blockno block inside =>
    exact numbered.congr (ops_setPc fun op same => by rw [inside]; exact same) rfl rfl rfl
  | test p edited =>
    exact numbered.congr (ops_setPc fun op same => by rw [edited]; exact same) rfl rfl rfl
  | absorb p tested | append p tested => exact numbered.record (by rw [tested, LogPlace.op?]) _
  | close p inside calm last => exact numbered.close (synced.close_ops inside calm last)
  | leave p =>
    exact numbered.congr (fun q op inside => ops_setPc (by simp [LogPlace.op?]) q op
      (ops_wakeup q op inside)) rfl rfl rfl
  | commit p | skip p | copy p | copied p | head p | install p | forget p | clear p | kill p =>
    exact numbered.congr (ops_setPc (by simp [LogPlace.op?])) rfl rfl rfl
  | reopen p =>
    exact numbered.congr (fun q op inside => ops_setPc (by simp [LogPlace.op?]) q op
      (ops_wakeup q op inside)) rfl rfl rfl
  | fill | evict => exact numbered.congr (fun _ _ inside => inside) rfl rfl rfl

/-! ## Reservations -/

/-- The distinct blocks that an operation has logged. -/
def opBlocks (s : Log procs) (op : Nat) : Finset Nat :=
  ((s.current.filter (·.op = op)).map Write.blockno).toFinset

/-- No operation changes more than `limit` distinct blocks. -/
def Limited (limit : Nat) (s : Log procs) : LogEvent procs → Prop
  | .modify p blockno _ => ∀ op ∈ (s.pc p).op?, (insert blockno (s.opBlocks op)).card ≤ limit
  | _ => True

instance (limit : Nat) (s : Log procs) (event : LogEvent procs) :
    Decidable (s.Limited limit event) :=
  match event with
  | .modify p blockno _ =>
    inferInstanceAs (Decidable (∀ op ∈ (s.pc p).op?, (insert blockno (s.opBlocks op)).card ≤ limit))
  | .beginOp _ | .logWriteTests _ | .logWrite _ | .endOp _ | .commit _ | .kill _ | .fill _
  | .evict _ => .isTrue trivial

/-- The blocks that a process may still log in its operation. -/
def reserve (s : Log procs) (p : Fin procs) : Nat :=
  match (s.pc p).op? with
  | some op => maxOpBlocks - 1 - (s.opBlocks op).card
  | none => 0

/-- The log has room for what the outstanding operations may still log. -/
structure Reserved (s : Log procs) : Prop where
  logged : ∀ write ∈ s.current, write.blockno ∈ s.lh
  limited : ∀ p op blockno, s.pc p = .editing op blockno ∨ s.pc p = .logging op blockno →
    (insert blockno (s.opBlocks op)).card ≤ maxOpBlocks - 1
  budget : s.lh.length + tally id s.reserve ≤ logSize - 2

theorem opBlocks_record (s : Log procs) (p : Fin procs) (op blockno other : Nat) (lh : List Nat) :
    (s.record p op blockno lh).opBlocks other =
      if other = op then insert blockno (s.opBlocks op) else s.opBlocks other := by
  by_cases same : op = other
  · subst same
    ext found
    simp [opBlocks, Log.record, List.filter_append]
  · simp [opBlocks, Log.record, List.filter_append, same, Ne.symm same]

theorem start_reserved (disk : Nat → Block) : (start procs disk).Reserved where
  logged := by simp [start]
  limited := by simp [start]
  budget := by
    have none : tally id (start procs disk).reserve = 0 :=
      tally_eq_zero.mpr fun p => by simp [reserve, start, LogPlace.op?]
    rw [none]
    simp [start, logSize, maxOpBlocks]

theorem Reserved.congr (reserved : s.Reserved) (lh : s'.lh = s.lh)
    (current : s'.current = s.current)
    (ops : ∀ p op, (s'.pc p).op? = some op → (s.pc p).op? = some op)
    (limited : ∀ p op blockno, s'.pc p = .editing op blockno ∨ s'.pc p = .logging op blockno →
      (insert blockno (s.opBlocks op)).card ≤ maxOpBlocks - 1) : s'.Reserved where
  logged := by rw [current, lh]; exact reserved.logged
  limited := by simpa only [opBlocks, current] using limited
  budget := by
    have less : tally id s'.reserve ≤ tally id s.reserve := by
      refine Finset.sum_le_sum fun p _ => ?_
      simp only [id, reserve]
      cases inside : (s'.pc p).op? with
      | none => exact Nat.zero_le _
      | some op => simp [ops p op inside, opBlocks, current]
    have budget := reserved.budget
    rw [lh]
    omega

theorem Reserved.same (reserved : s.Reserved) (lh : s'.lh = s.lh) (current : s'.current = s.current)
    (pc : s'.pc = s.pc) : s'.Reserved :=
  reserved.congr lh current (by simp [pc]) (by rw [pc]; exact reserved.limited)

/-- Who changes a block after a move changed it before, unless it is the process that moved. -/
theorem Reserved.limited_setPc (reserved : s.Reserved) {place : LogPlace}
    (mine : ∀ op blockno, place = .editing op blockno ∨ place = .logging op blockno →
      (insert blockno (s.opBlocks op)).card ≤ maxOpBlocks - 1) (q : Fin procs) (op blockno : Nat)
    (here : (s.setPc p place).pc q = .editing op blockno ∨
      (s.setPc p place).pc q = .logging op blockno) :
    (insert blockno (s.opBlocks op)).card ≤ maxOpBlocks - 1 := by
  by_cases same : q = p
  · subst same
    simp only [setPc, update_self] at here
    exact mine op blockno here
  · simp only [setPc, update_of_ne same] at here
    exact reserved.limited q op blockno here

theorem Reserved.move (reserved : s.Reserved) {place : LogPlace}
    (ops : ∀ op, place.op? = some op → (s.pc p).op? = some op)
    (mine : ∀ op blockno, place = .editing op blockno ∨ place = .logging op blockno →
      (insert blockno (s.opBlocks op)).card ≤ maxOpBlocks - 1) : (s.setPc p place).Reserved :=
  reserved.congr rfl rfl (ops_setPc ops) (reserved.limited_setPc mine)

theorem Reserved.wakeup (reserved : s.Reserved) : s.wakeup.Reserved :=
  reserved.congr rfl rfl ops_wakeup fun p op blockno here =>
    reserved.limited p op blockno (here.imp (wakeup_eq · (by simp)) (wakeup_eq · (by simp)))

/-- A new operation finds room for all it may log: a second one leaves at most `MAXOPBLOCKS`
entries to the first, and a third one finds the header empty. -/
theorem Reserved.enter (reserved : s.Reserved) (synced : s.Synced) (numbered : s.Numbered)
    (free : ¬ s.Waits) : (s.enter p).Reserved := by
  have blocks : s.opBlocks s.nextOp = ∅ := by
    simp only [opBlocks, List.toFinset_eq_empty_iff, List.map_eq_nil_iff, List.filter_eq_nil_iff,
      decide_eq_true_eq]
    exact fun write member same => absurd (numbered.current write member) (by omega)
  have changed : (s.enter p).reserve = update s.reserve p (maxOpBlocks - 1) := by
    funext q
    by_cases here : q = p
    · subst here
      have none : (s.enter q).opBlocks s.nextOp = ∅ := blocks
      simp [reserve, Log.enter, setPc, LogPlace.op?] at none ⊢
      simp [none]
    · simp [reserve, Log.enter, setPc, update_of_ne here, opBlocks]
  have each : tally id s.reserve ≤ (maxOpBlocks - 1) * tally LogPlace.active s.pc := by
    rw [tally, tally, Finset.mul_sum]
    refine Finset.sum_le_sum fun q _ => ?_
    simp only [id, reserve, LogPlace.active]
    cases (s.pc q).op? with
    | none => simp
    | some op => simp
  have bound : ∀ q op blockno, (s.enter p).pc q = .editing op blockno ∨
      (s.enter p).pc q = .logging op blockno →
      (insert blockno (s.opBlocks op)).card ≤ maxOpBlocks - 1 :=
    reserved.limited_setPc (by simp)
  refine ⟨reserved.logged, bound, ?_⟩
  rw [changed]
  have moved := tally_update id s.reserve p (maxOpBlocks - 1)
  simp only [Waits, not_or, Bool.not_eq_true] at free
  obtain ⟨calm, room⟩ := free
  have counted := synced.counted
  change s.lh.length + _ ≤ _
  simp only [id, maxOpBlocks, logSize] at moved each room ⊢
  by_cases first : s.outstanding = 0
  · have empty : s.lh.length = 0 := by rw [synced.empty calm first, List.length_nil]
    omega
  · omega

theorem Reserved.record (reserved : s.Reserved) (numbered : s.Numbered) {blockno : Nat}
    (tested : s.pc p = .logging op blockno) {lh : List Nat}
    (found : blockno ∈ s.lh ∧ lh = s.lh ∨ blockno ∉ s.lh ∧ lh = s.lh ++ [blockno]) :
    (s.record p op blockno lh).Reserved := by
  have inside : (s.pc p).op? = some op := by rw [tested, LogPlace.op?]
  have kept : ∀ other ∈ s.lh, other ∈ lh := by
    rcases found with ⟨-, rfl⟩ | ⟨-, rfl⟩ <;> simp +contextual
  have mine : blockno ∈ lh := by
    rcases found with ⟨known, rfl⟩ | ⟨-, rfl⟩
    · exact known
    · simp
  have others : ∀ q other, q ≠ p → (s.pc q).op? = some other → other ≠ op :=
    fun q other different theirs same =>
      different (numbered.distinct q p op (same ▸ theirs) inside)
  have changed : (s.record p op blockno lh).reserve =
      update s.reserve p (maxOpBlocks - 1 - (insert blockno (s.opBlocks op)).card) := by
    funext q
    by_cases here : q = p
    · subst here
      simp only [reserve, opBlocks_record]
      simp [Log.record, setPc, LogPlace.op?]
    · simp only [reserve, opBlocks_record, update_of_ne here]
      simp only [Log.record, setPc, update_of_ne here]
      cases theirs : (s.pc q).op? with
      | none => rfl
      | some other => simp [others q other here theirs]
  have limit := reserved.limited p op blockno (.inr tested)
  have budget := reserved.budget
  refine ⟨?_, ?_, ?_⟩
  · intro write member
    rcases List.mem_append.mp member with before | last
    · exact kept _ (reserved.logged write before)
    · obtain rfl := List.mem_singleton.mp last
      exact mine
  · intro q other changing here
    have different : q ≠ p := by
      rintro rfl
      simp [Log.record, setPc] at here
    simp only [Log.record, setPc, update_of_ne different] at here
    have theirs : (s.pc q).op? = some other := by
      rcases here with here | here <;> rw [here, LogPlace.op?]
    rw [opBlocks_record, if_neg (others q other different theirs)]
    exact reserved.limited q other changing here
  · rw [changed]
    have moved := tally_update id s.reserve p
      (maxOpBlocks - 1 - (insert blockno (s.opBlocks op)).card)
    have before : s.reserve p = maxOpBlocks - 1 - (s.opBlocks op).card := by
      simp [reserve, inside]
    simp only [id, before] at moved
    change lh.length + _ ≤ _
    rcases found with ⟨-, rfl⟩ | ⟨unknown, rfl⟩
    · have grown := Finset.card_le_card (Finset.subset_insert blockno (s.opBlocks op))
      omega
    · -- a block that is new to the header is new to the operation
      have new : blockno ∉ s.opBlocks op := by
        intro member
        simp only [opBlocks, List.mem_toFinset, List.mem_map, List.mem_filter] at member
        obtain ⟨write, ⟨logged, -⟩, rfl⟩ := member
        exact unknown (reserved.logged write logged)
      rw [Finset.card_insert_of_notMem new] at moved limit ⊢
      simp only [List.length_append, List.length_singleton]
      omega

theorem Reserved.close (reserved : s.Reserved) (none : ∀ q, ((s.close p).pc q).op? = none) :
    (s.close p).Reserved where
  logged := by simp [Log.close]
  limited q op blockno here := by
    have idle := none q
    rcases here with here | here <;> simp [here, LogPlace.op?] at idle
  budget := by
    have unreserved : tally id (s.close p).reserve = 0 :=
      tally_eq_zero.mpr fun q => by simp [reserve, none q]
    have budget := reserved.budget
    change s.lh.length + _ ≤ _
    omega

theorem Reserved.forget (reserved : s.Reserved) (idle : s.current = []) :
    s.forget.Reserved where
  logged := by simp [Log.forget, idle]
  limited := reserved.limited
  budget := by
    have budget := reserved.budget
    change 0 + tally id s.reserve ≤ _
    omega

/-- The history of the open transaction is empty while the log is closed. -/
def Settled (s : Log procs) : Prop := s.committing = true → s.current = []

/-- Every step keeps the history of the open transaction empty while the log is closed. -/
theorem Settled.step (settled : s.Settled) (synced : s.Synced)
    (stepped : s.step area event = .ok s') : s'.Settled := by
  cases step_moves stepped with
  | absorb p tested | append p tested =>
    have calm := (synced.calm (p := p) (by rw [tested, LogPlace.op?])).1
    exact fun busy => absurd (show s.committing = true from busy) (by simp [calm])
  | close => exact fun _ => rfl
  | leave p inside calm =>
    exact fun busy => absurd (show s.committing = true from busy) (by simp [calm])
  | reopen => exact fun busy => absurd busy (by simp [Log.reopen, Log.wakeup])
  | none | sleep | begin | edit | test | commit | skip | copy | copied | head | install | forget
  | clear | kill | fill | evict => exact settled

/-- Every step by an operation within its limit keeps the reservations. -/
theorem Reserved.step (reserved : s.Reserved) (synced : s.Synced) (numbered : s.Numbered)
    (settled : s.Settled) (limited : s.Limited (maxOpBlocks - 1) event)
    (stepped : s.step area event = .ok s') : s'.Reserved := by
  cases step_moves stepped with
  | none => exact reserved
  | begin p outside free => exact reserved.enter synced numbered free
  | @edit op p blockno block inside =>
    have moved : (s.setPc p (.editing op blockno)).Reserved := by
      refine reserved.move (fun other same => by rw [inside]; exact same) ?_
      intro other changed here
      obtain ⟨rfl, rfl⟩ : op = other ∧ blockno = changed := by simpa using here
      exact limited op (by rw [inside]; rfl)
    exact moved.same rfl rfl rfl
  | @test op blockno p edited =>
    refine reserved.move (fun other same => by rw [edited]; exact same) ?_
    intro other changed here
    obtain ⟨rfl, rfl⟩ : op = other ∧ blockno = changed := by simpa using here
    exact reserved.limited p op blockno (.inl edited)
  | absorb p tested known => exact reserved.record numbered tested (.inl ⟨known, rfl⟩)
  | append p tested unknown => exact reserved.record numbered tested (.inr ⟨unknown, rfl⟩)
  | close p inside calm last => exact reserved.close (synced.close_ops inside calm last)
  | leave p | reopen p =>
    have moved : (s.setPc p .idle).Reserved := reserved.move (by simp [LogPlace.op?]) (by simp)
    exact moved.wakeup.same rfl rfl rfl
  | forget p here =>
    have busy := synced.busy (p := p) (by rw [here, LogPlace.inCommit])
    exact (reserved.move (by simp [LogPlace.op?]) (by simp)).forget (settled busy)
  | sleep p | commit p | copied p | kill p => exact reserved.move (by simp [LogPlace.op?]) (by simp)
  | skip p | copy p | head p | install p | clear p =>
    exact (reserved.move (p := p) (by simp [LogPlace.op?]) (by simp)).same rfl rfl rfl
  | fill | evict => exact reserved.same rfl rfl rfl

/-! ## Runs -/

/-- The log that `mkfs` makes takes whatever is logged next, and only its own blocks are written
as log blocks. -/
structure Fits (s : Log procs) : Prop where
  /-- `log_write` does not panic. -/
  accepts : ∀ event, s.step mkfsLogArea event ≠ .error (.panic "too big a transaction")
  /-- The header does not overflow. -/
  entries : ∀ event, s.step mkfsLogArea event ≠ .error .outOfBounds
  /-- `write_log` writes inside the log area. -/
  inside : ∀ p tail, s.pc p = .writeLog tail → tail < s.lh.length →
    mkfsLogArea.Contains (mkfsLogArea.start + tail + 1)

theorem Reserved.fits (reserved : s.Reserved) : s.Fits := by
  have short : s.lh.length ≤ 28 := by
    have budget := reserved.budget
    simp only [logSize, maxOpBlocks] at budget
    omega
  refine ⟨fun event stopped => ?_, fun event stopped => ?_, fun p tail _ bound => ?_⟩
  · generalize named : Halt.panic "too big a transaction" = halt at stopped
    cases step_stops stopped with
    | full p edited full =>
      simp only [Full, mkfsLogArea, logSize, maxOpBlocks] at full
      omega
    | block | outside | overflow | busy => simp at named
  · cases step_stops stopped with
    | overflow p tested unknown full =>
      simp only [logSize, maxOpBlocks] at full
      omega
  · simp only [LogArea.Contains, mkfsLogArea, logSize, maxOpBlocks]
    omega

/-- While every operation logs at most `MAXOPBLOCKS - 1` distinct blocks, the log has room,
whatever the interleaving. -/
theorem run_fits (disk : Nat → Block) (s : Log procs)
    (run : Relation.ReflTransGen
      (Outcome.Steps (Log.step mkfsLogArea) (Limited (maxOpBlocks - 1))) (start procs disk) s) :
    s.Fits := by
  have kept := steps_invariant
    (fun s : Log procs => s.Synced ∧ s.Numbered ∧ s.Settled ∧ s.Reserved) ?_
    ⟨start_synced disk, start_numbered disk, fun _ => rfl, start_reserved disk⟩ run
  · exact kept.2.2.2.fits
  · intro s event s' ⟨synced, numbered, settled, reserved⟩ limited stepped
    exact ⟨synced.step stepped, numbered.step synced stepped, settled.step synced stepped,
      reserved.step synced numbered settled limited stepped⟩

/-- Three processes begin an operation each and log `count` distinct blocks in all, `share` to an
operation. -/
def fillLog (share count : Nat) : List (LogEvent 3) :=
  [.beginOp 0, .beginOp 1, .beginOp 2] ++ (List.range count).flatMap fun i =>
    [.modify (Fin.ofNat 3 (i / share)) (100 + i) fun _ => 1,
      .logWriteTests (Fin.ofNat 3 (i / share)), .logWrite (Fin.ofNat 3 (i / share))]

/-- Three operations log 28 blocks; then two of them pass the test of `log_write` together, log a
block each, and the last of the 30 is copied to the block behind the log. -/
def raceLog : List (LogEvent 3) :=
  fillLog 9 27 ++ [.modify 0 127 fun _ => 1, .logWriteTests 0, .logWrite 0,
    .modify 1 128 fun _ => 1, .modify 2 129 fun _ => 1, .logWriteTests 1, .logWriteTests 2,
    .logWrite 1, .logWrite 2, .endOp 0, .endOp 1, .endOp 2] ++ List.replicate 31 (.commit 2)

/-- Three operations with nine blocks each fit, and nobody else gets in. -/
theorem nineEach_fits :
    ∃ s, Outcome.run (Outcome.guarded (Log.step mkfsLogArea) (Limited (maxOpBlocks - 1)) .endless)
        (start 3 fun _ _ => 0) (fillLog 9 27) = .ok s ∧ s.lh.length = 27 ∧ s.Fits := by
  have returns : ((Outcome.run
      (Outcome.guarded (Log.step mkfsLogArea) (Limited (maxOpBlocks - 1)) .endless)
      (start 3 fun _ _ => 0) (fillLog 9 27)).map fun s => s.lh.length).toOption = some 27 := by
    decide +kernel
  obtain ⟨s, finished, entries⟩ := exists_ok returns
  exact ⟨s, finished, entries, run_fits _ s
    (run_guarded finished)⟩

/-- The halt of a step that does not return. -/
def halts {α : Type} : Except Halt α → Option Halt
  | .ok _ => none
  | .error halt => some halt

/-- Three operations with ten blocks each, as many as they may log, do not fit: the thirtieth
`log_write` panics. -/
theorem tenEach_panics :
    ∃ s, Relation.ReflTransGen (Outcome.Steps (Log.step mkfsLogArea) (Limited maxOpBlocks))
        (start 3 fun _ _ => 0) s ∧
      s.Limited maxOpBlocks (.logWriteTests 2) ∧
      halts (s.step mkfsLogArea (.logWriteTests 2)) = some (.panic "too big a transaction") := by
  have returns : ((Outcome.run
      (Outcome.guarded (Log.step mkfsLogArea) (Limited maxOpBlocks) .endless)
      (start 3 fun _ _ => 0) (fillLog 10 29 ++ [.modify 2 129 fun _ => 1])).map fun s =>
        halts (s.step mkfsLogArea (.logWriteTests 2))).toOption =
      some (some (.panic "too big a transaction")) := by
    decide +kernel
  obtain ⟨s, finished, stopped⟩ := exists_ok returns
  exact ⟨s, run_guarded finished, trivial, stopped⟩

end Log

end MemoryEncryption
