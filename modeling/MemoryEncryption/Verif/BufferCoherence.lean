import MemoryEncryption.Kernel.BufferCache
import MemoryEncryption.Library.Outcome
import MemoryEncryption.Library.Tally

/-!
# Coherence of the buffer cache

Along every run the list of buffers is a ring through all of them, no two buffers have
the same block, and reference counts and locks are those of the calls in progress. On
top of that a valid buffer has the last contents that its block was given, and the disk
has them when no valid buffer still owes them: this is what makes the buffer that
`bget` recycles one that nobody misses.
-/

namespace MemoryEncryption

open Function Outcome

/-- The buffer that a call has or waits for. -/
def BufStage.buf? : BufStage → Option (Fin nBuf)
  | .idle => none
  | .waiting b | .transferring b | .holding b _ | .leaving b => some b

/-- The buffer whose sleep lock a call holds. -/
def BufStage.lock? : BufStage → Option (Fin nBuf)
  | .idle | .waiting _ | .leaving _ => none
  | .transferring b | .holding b _ => some b

/-- A call counts as one of those for its buffer. -/
def countsFor (place : BufStage → Option (Fin nBuf)) (b : Fin nBuf) (stage : BufStage) : Nat :=
  if place stage = some b then 1 else 0

theorem countsFor_eq_one {place : BufStage → Option (Fin nBuf)} {b : Fin nBuf} {stage : BufStage}
    (here : place stage = some b) : countsFor place b stage = 1 := if_pos here

theorem countsFor_holding (b : Fin nBuf) (changed : Bool) :
    countsFor BufStage.lock? b (.holding b changed) = 1 := countsFor_eq_one rfl

theorem countsFor_eq_zero {place : BufStage → Option (Fin nBuf)} {b : Fin nBuf} {stage : BufStage}
    (away : place stage ≠ some b) : countsFor place b stage = 0 := if_neg away

theorem BufStage.buf_of_lock {stage : BufStage} {b : Fin nBuf} (locks : stage.lock? = some b) :
    stage.buf? = some b := by
  cases stage <;> first | exact locks | cases locks

/-! ## Searches -/

namespace Bcache

variable {D : Type} {s s' : Bcache D} {b : Fin nBuf} {dev blockno : Nat}

/-- The links make a ring through all buffers. -/
def Linked (s : Bcache D) : Prop :=
  ∃ order : List (Fin nBuf), s.links.Ring none (order.map some) ∧ order.Perm (List.finRange nBuf)

/-- The buffer has the block. -/
def Has (s : Bcache D) (b : Fin nBuf) (dev blockno : Nat) : Prop :=
  (s.buf b).dev = dev ∧ (s.buf b).blockno = blockno

theorem find?_nodes (order : List (Fin nBuf)) (test : Buf D → Bool) :
    (order.map some).find? (s.onBuf test) = (order.find? fun b => test (s.buf b)).map some := by
  rw [List.find?_map]
  rfl

/-- What `bget` returns: the buffer with the block, or a buffer that is recycled because no buffer
has the block. -/
theorem bget_cases (linked : s.Linked) (got : s.bget dev blockno = .ok (b, s')) :
    (s.Has b dev blockno ∧ s' = s.set b { s.buf b with refcnt := (s.buf b).refcnt + 1 }) ∨
      ((∀ a, ¬ s.Has a dev blockno) ∧ (s.buf b).refcnt = 0 ∧ (s.buf b).dirty = false ∧
        s' = s.set b { s.buf b with dev, blockno, valid := false, dirty := false, refcnt := 1 }) := by
  obtain ⟨order, ring, all⟩ := linked
  have length : (order.map some).length < nBuf + 1 := by
    rw [List.length_map, all.length_eq, List.length_finRange]
    omega
  have apart := (List.nodup_cons.mp ring.nodup).1
  have forth := ring.path.walk_next apart Halt.endless
    (s.onBuf fun b => decide (b.dev = dev ∧ b.blockno = blockno)) length
  have back := ring.path.walk_prev apart Halt.endless
    (s.onBuf fun b => decide (b.refcnt = 0 ∧ b.dirty = false)) length
  rw [find?_nodes] at forth
  rw [← List.map_reverse, find?_nodes] at back
  rw [bget, cachedBuf, forth, unusedBuf, back, ok_bind] at got
  cases found : order.find? fun b => decide ((s.buf b).dev = dev ∧ (s.buf b).blockno = blockno) with
  | some a =>
    rw [found] at got
    cases got
    have has := List.find?_some found
    exact .inl ⟨by simpa [Has] using has, rfl⟩
  | none =>
    rw [found, Option.map_none, ok_bind] at got
    have absent : ∀ a, ¬ s.Has a dev blockno := by
      intro a has
      rw [List.find?_eq_none] at found
      exact found a (all.mem_iff.mpr (List.mem_finRange a)) (decide_eq_true has)
    cases unused : order.reverse.find? fun b =>
        decide ((s.buf b).refcnt = 0 ∧ (s.buf b).dirty = false) with
    | none =>
      rw [unused] at got
      cases got
    | some a =>
      rw [unused] at got
      cases got
      have free := List.find?_some unused
      rw [decide_eq_true_eq] at free
      exact .inr ⟨absent, free.1, free.2, rfl⟩

theorem binit_linked (zero : D) : (binit zero).Linked := by
  have pushed : ∀ (left done : List (Fin nBuf)) (links : Links BufNode),
      links.Ring none (done.map some) → (left ++ done).Nodup →
      ((left.foldl (fun links b => links.push none (some b)) links).Ring none
        ((left.reverse ++ done).map some)) := by
    intro left
    induction left with
    | nil =>
      intro done links ring _
      exact ring
    | cons b left ih =>
      intro done links ring nodup
      have fresh : b ∉ done := by
        intro member
        exact (List.nodup_cons.mp nodup).1 (List.mem_append_right _ member)
      have next := ih (b :: done) (links.push none (some b)) (ring.push (by simpa using fresh))
        (List.perm_middle.symm.nodup nodup)
      simpa using next
  refine ⟨(List.finRange nBuf).reverse, ?_, List.reverse_perm _⟩
  have ring := pushed (List.finRange nBuf) [] ⟨fun _ => none, fun _ => none⟩
    ⟨⟨rfl, rfl⟩, by simp⟩ (by simpa using List.nodup_finRange nBuf)
  rw [List.append_nil] at ring
  exact ring

theorem Linked.toFront (linked : s.Linked) (b : Fin nBuf) :
    Linked { s with links := (s.links.unlink (some b)).push none (some b) } := by
  obtain ⟨order, ring, all⟩ := linked
  have member : b ∈ order := all.mem_iff.mpr (List.mem_finRange b)
  obtain ⟨before, after, rfl⟩ := List.append_of_mem member
  rw [List.map_append, List.map_cons] at ring
  have fresh : some b ∉ (none : BufNode) :: (before.map some ++ after.map some) := by
    have nodup := (all.nodup_iff.mpr (List.nodup_finRange nBuf))
    have out := (List.nodup_cons.mp (List.perm_middle.nodup nodup)).1
    simpa using out
  refine ⟨b :: (before ++ after), ?_, List.perm_middle.symm.trans all⟩
  rw [List.map_cons, List.map_append]
  exact ring.unlink.push fresh

theorem buf_set (s : Bcache D) (b a : Fin nBuf) (buf : Buf D) :
    (s.set b buf).buf a = if a = b then buf else s.buf a := by
  simp only [set, update_apply]

theorem buf_brelse (s : Bcache D) (b : Fin nBuf) :
    (s.brelse b).buf = (s.set b { s.buf b with refcnt := (s.buf b).refcnt - 1 }).buf := by
  unfold brelse
  dsimp only
  split <;> rfl

theorem Linked.brelse (linked : s.Linked) (b : Fin nBuf) : (s.brelse b).Linked := by
  unfold Bcache.brelse
  dsimp only
  split
  · exact Linked.toFront (s := s.set b _) linked b
  · exact linked

end Bcache

/-! ## Reference counts, locks and blocks -/

namespace Bio

variable {calls : Nat} {D : Type} {s s' : Bio calls D} {c : Fin calls} {b : Fin nBuf}

/-- What holds of the list, the reference counts, the locks and the blocks of the buffers. -/
structure Tidy (s : Bio calls D) : Prop where
  linked : s.bcache.Linked
  unique : ∀ a b dev blockno, dev ≠ 0 → s.bcache.Has a dev blockno → s.bcache.Has b dev blockno →
    a = b
  refs : ∀ b, (s.bcache.buf b).refcnt = tally (countsFor BufStage.buf? b) s.stage
  locks : ∀ b, (if (s.bcache.buf b).locked then 1 else 0) =
    tally (countsFor BufStage.lock? b) s.stage
  request : ∀ c b, (s.stage c).buf? = some b → (s.request c).1 ≠ 0 ∧
    s.bcache.Has b (s.request c).1 (s.request c).2

theorem Tidy.alone (tidy : s.Tidy) (locks : (s.stage c).lock? = some b) {d : Fin calls}
    (other : d ≠ c) : (s.stage d).lock? ≠ some b := by
  intro also
  have total := tidy.locks b
  have none : countsFor BufStage.lock? b .idle = 0 := countsFor_eq_zero (by simp [BufStage.lock?])
  have removed := tally_update (countsFor BufStage.lock? b) s.stage c .idle
  have left := le_tally (countsFor BufStage.lock? b) (update s.stage c .idle) d
  rw [update_of_ne other, countsFor_eq_one also] at left
  rw [countsFor_eq_one locks] at removed
  split at total <;> omega

theorem Tidy.free (tidy : s.Tidy) (unlocked : (s.bcache.buf b).locked = false)
    (d : Fin calls) : (s.stage d).lock? ≠ some b := by
  intro locks
  have total := tidy.locks b
  rw [unlocked, if_neg (by simp), eq_comm, tally_eq_zero] at total
  have none := total d
  simp [countsFor, locks] at none

theorem Tidy.unused (tidy : s.Tidy) (unused : (s.bcache.buf b).refcnt = 0) (d : Fin calls) :
    (s.stage d).buf? ≠ some b := by
  intro has
  have total := tidy.refs b
  rw [unused, eq_comm, tally_eq_zero] at total
  have none := total d
  simp [countsFor, has] at none

theorem Tidy.refs_after {stage : BufStage} {bcache : Bcache D} (tidy : s.Tidy)
    (refcnt : ∀ a, (bcache.buf a).refcnt + countsFor BufStage.buf? a (s.stage c) =
      (s.bcache.buf a).refcnt + countsFor BufStage.buf? a stage) (a : Fin nBuf) :
    (bcache.buf a).refcnt = tally (countsFor BufStage.buf? a) (update s.stage c stage) := by
  have counted := tally_update (countsFor BufStage.buf? a) s.stage c stage
  have before := tidy.refs a
  have change := refcnt a
  omega

theorem Tidy.locks_after {stage : BufStage} {bcache : Bcache D} (tidy : s.Tidy)
    (locked : ∀ a, (if (bcache.buf a).locked then 1 else 0) +
        countsFor BufStage.lock? a (s.stage c) =
      (if (s.bcache.buf a).locked then 1 else 0) + countsFor BufStage.lock? a stage)
    (a : Fin nBuf) : (if (bcache.buf a).locked then 1 else 0) =
      tally (countsFor BufStage.lock? a) (update s.stage c stage) := by
  have counted := tally_update (countsFor BufStage.lock? a) s.stage c stage
  have before := tidy.locks a
  have change := locked a
  omega

/-- A call goes on with its buffer, whose block and references stay. -/
theorem Tidy.go {stage : BufStage} {buf : Buf D} (tidy : s.Tidy)
    (here : (s.stage c).buf? = some b) (stays : stage.buf? = some b)
    (dev : buf.dev = (s.bcache.buf b).dev) (blockno : buf.blockno = (s.bcache.buf b).blockno)
    (refcnt : buf.refcnt = (s.bcache.buf b).refcnt)
    (lock : (if buf.locked then 1 else 0) + countsFor BufStage.lock? b (s.stage c) =
      (if (s.bcache.buf b).locked then 1 else 0) + countsFor BufStage.lock? b stage) :
    (s.go c stage b buf).Tidy := by
  have bufs : ∀ a, (s.go c stage b buf).bcache.buf a = if a = b then buf else s.bcache.buf a :=
    fun a => Bcache.buf_set _ _ _ _
  have has : ∀ a dev blockno, (s.go c stage b buf).bcache.Has a dev blockno ↔
      s.bcache.Has a dev blockno := by
    intro a _ _
    rw [Bcache.Has, bufs]
    split
    case isTrue same => rw [same, dev, blockno, Bcache.Has]
    case isFalse => rfl
  have elsewhere : ∀ a, a ≠ b → ∀ stage : BufStage, stage.buf? = some b →
      countsFor BufStage.lock? a stage = 0 := by
    intro a other stage has
    apply countsFor_eq_zero
    intro locks
    rw [BufStage.buf_of_lock locks] at has
    exact other (Option.some.inj has)
  refine ⟨tidy.linked, ?_, tidy.refs_after ?_, tidy.locks_after ?_, ?_⟩
  · intro a d dev blockno used first second
    exact tidy.unique a d dev blockno used ((has a _ _).mp first) ((has d _ _).mp second)
  · intro a
    rw [bufs, countsFor, countsFor, here, stays]
    split
    case isTrue same => rw [same, refcnt]
    case isFalse => rfl
  · intro a
    rw [bufs]
    split
    case isTrue same => rw [same, lock]
    case isFalse other => rw [elsewhere a other _ here, elsewhere a other _ stays]
  · intro d a refers
    have before : (s.stage d).buf? = some a := by
      by_cases same : d = c
      · subst same
        rw [show (s.go d stage b buf).stage d = stage from update_self .., stays] at refers
        rw [here, refers]
      · rwa [show (s.go c stage b buf).stage d = s.stage d from
          update_of_ne same ..] at refers
    obtain ⟨used, block⟩ := tidy.request d a before
    exact ⟨used, (has a _ _).mpr block⟩

theorem Tidy.bread {dev blockno : Nat} {bcache : Bcache D} (tidy : s.Tidy) (used : dev ≠ 0)
    (idle : s.stage c = .idle) (got : s.bcache.bget dev blockno = .ok (b, bcache)) :
    Tidy { s with bcache
                  stage := update s.stage c (.waiting b)
                  request := update s.request c (dev, blockno) } := by
  have waits : ∀ a, countsFor BufStage.buf? a (.waiting b) = if a = b then 1 else 0 := by
    intro a
    simp [countsFor, BufStage.buf?, eq_comm]
  have before : ∀ a, countsFor BufStage.buf? a (s.stage c) = 0 := by
    intro a
    rw [idle]
    exact countsFor_eq_zero (by simp [BufStage.buf?])
  have unlocked : ∀ a, countsFor BufStage.lock? a (s.stage c) =
      countsFor BufStage.lock? a (.waiting b) := by
    intro a
    rw [idle]
    rfl
  have request : ∀ d a, (update s.stage c (.waiting b) d).buf? = some a →
      (d = c ∧ a = b) ∨ (d ≠ c ∧ (s.stage d).buf? = some a) := by
    intro d a refers
    by_cases same : d = c
    · subst same
      rw [update_self] at refers
      exact .inl ⟨rfl, (Option.some.inj refers).symm⟩
    · rw [update_of_ne same] at refers
      exact .inr ⟨same, refers⟩
  rcases Bcache.bget_cases tidy.linked got with ⟨hit, rfl⟩ | ⟨absent, free, clean, rfl⟩
  · have has : ∀ a dev blockno, (s.bcache.set b { s.bcache.buf b with
        refcnt := (s.bcache.buf b).refcnt + 1 }).Has a dev blockno ↔
        s.bcache.Has a dev blockno := by
      intro a _ _
      rw [Bcache.Has, Bcache.buf_set]
      split
      case isTrue same => rw [same, Bcache.Has]
      case isFalse => rfl
    refine ⟨tidy.linked, ?_, tidy.refs_after ?_, tidy.locks_after ?_, ?_⟩
    · intro a d dev blockno used first second
      exact tidy.unique a d dev blockno used ((has a _ _).mp first) ((has d _ _).mp second)
    · intro a
      rw [before, waits, Bcache.buf_set]
      split
      case isTrue same => rw [same]
      case isFalse => rfl
    · intro a
      rw [unlocked, Bcache.buf_set]
      split
      case isTrue same => rw [same]
      case isFalse => rfl
    · intro d a refers
      obtain ⟨rfl, rfl⟩ | ⟨other, had⟩ := request d a refers
      · simp only [update_self]
        exact ⟨used, (has _ _ _).mpr hit⟩
      · simp only [update_of_ne other]
        obtain ⟨usedD, block⟩ := tidy.request d a had
        exact ⟨usedD, (has a _ _).mpr block⟩
  · have has : ∀ a dev' blockno', (s.bcache.set b { s.bcache.buf b with
        dev, blockno, valid := false, dirty := false, refcnt := 1 }).Has a dev' blockno' ↔
        if a = b then dev = dev' ∧ blockno = blockno' else s.bcache.Has a dev' blockno' := by
      intro a _ _
      rw [Bcache.Has, Bcache.buf_set]
      split <;> rfl
    refine ⟨tidy.linked, ?_, tidy.refs_after ?_, tidy.locks_after ?_, ?_⟩
    · intro a d dev' blockno' used' first second
      have first := (has a _ _).mp first
      have second := (has d _ _).mp second
      split at first <;> split at second
      case isTrue.isTrue same also => rw [same, also]
      case isTrue.isFalse => exact absurd (first.1 ▸ first.2 ▸ second) (absent d)
      case isFalse.isTrue => exact absurd (second.1 ▸ second.2 ▸ first) (absent a)
      case isFalse.isFalse => exact tidy.unique a d dev' blockno' used' first second
    · intro a
      rw [before, waits, Bcache.buf_set]
      split
      case isTrue same => rw [same, free]
      case isFalse => rfl
    · intro a
      rw [unlocked, Bcache.buf_set]
      split
      case isTrue same => rw [same]
      case isFalse => rfl
    · intro d a refers
      obtain ⟨rfl, rfl⟩ | ⟨other, had⟩ := request d a refers
      · simp only [update_self]
        exact ⟨used, (has _ _ _).mpr (by rw [if_pos rfl]; exact ⟨rfl, rfl⟩)⟩
      · have away : a ≠ b := by
          rintro rfl
          exact tidy.unused free d had
        simp only [update_of_ne other]
        obtain ⟨usedD, block⟩ := tidy.request d a had
        exact ⟨usedD, (has a _ _).mpr (by rwa [if_neg away])⟩

theorem Tidy.brelse (tidy : s.Tidy) (leaving : s.stage c = .leaving b) :
    Tidy { s with bcache := s.bcache.brelse b, stage := update s.stage c .idle } := by
  have bufs : ∀ a, (s.bcache.brelse b).buf a = if a = b then
      { s.bcache.buf b with refcnt := (s.bcache.buf b).refcnt - 1 } else s.bcache.buf a := by
    intro a
    rw [Bcache.buf_brelse, Bcache.buf_set]
  have has : ∀ a dev blockno, (s.bcache.brelse b).Has a dev blockno ↔
      s.bcache.Has a dev blockno := by
    intro a _ _
    rw [Bcache.Has, bufs]
    split
    case isTrue same => rw [same, Bcache.Has]
    case isFalse => rfl
  have here : ∀ a, countsFor BufStage.buf? a (s.stage c) = if a = b then 1 else 0 := by
    intro a
    rw [leaving]
    simp [countsFor, BufStage.buf?, eq_comm]
  have positive : 0 < (s.bcache.buf b).refcnt := by
    have counted := le_tally (countsFor BufStage.buf? b) s.stage c
    rw [here, if_pos rfl] at counted
    rw [tidy.refs]
    omega
  refine ⟨tidy.linked.brelse b, ?_, tidy.refs_after ?_, tidy.locks_after ?_, ?_⟩
  · intro a d dev blockno used first second
    exact tidy.unique a d dev blockno used ((has a _ _).mp first) ((has d _ _).mp second)
  · intro a
    rw [bufs, here, countsFor_eq_zero (show BufStage.buf? .idle ≠ some a by simp [BufStage.buf?])]
    split
    case isTrue same =>
      rw [same]
      dsimp only
      omega
    case isFalse => rfl
  · intro a
    rw [bufs, leaving]
    split
    case isTrue same =>
      rw [same]
      rfl
    case isFalse => rfl
  · intro d a refers
    by_cases same : d = c
    · subst same
      simp only [update_self, BufStage.buf?] at refers
      cases refers
    · simp only [update_of_ne same] at refers
      obtain ⟨used, block⟩ := tidy.request d a refers
      exact ⟨used, (has a _ _).mpr block⟩

/-! ## Contents -/

/-- What holds of the contents of the buffers and of the disks, given what the blocks contain. -/
structure Coherent (content : Nat → Nat → D) (s : Bio calls D) : Prop where
  dirty : ∀ b, (s.bcache.buf b).dirty = true → (s.bcache.buf b).valid = true
  held : ∀ c b changed, s.stage c = .holding b changed → (s.bcache.buf b).valid = true
  moving : ∀ c b, s.stage c = .transferring b → (s.bcache.buf b).valid = true →
    (s.bcache.buf b).dirty = true
  data : ∀ b, (s.bcache.buf b).dev ≠ 0 → (s.bcache.buf b).valid = true →
    (s.bcache.buf b).data = content (s.bcache.buf b).dev (s.bcache.buf b).blockno
  /-- The disk has the contents of a block, unless a valid buffer still owes them. -/
  disk : ∀ dev blockno, dev ≠ 0 → s.disk dev blockno = content dev blockno ∨
    ∃ b, s.bcache.Has b dev blockno ∧ (s.bcache.buf b).valid = true ∧
      ((s.bcache.buf b).dirty = true ∨ ∃ c, s.stage c = .holding b true)

theorem Coherent.clean {content : Nat → Nat → D} (coherent : s.Coherent content) (tidy : s.Tidy)
    (used : (s.bcache.buf b).dev ≠ 0)
    (settled : (s.bcache.buf b).valid = true → (s.bcache.buf b).dirty = false ∧
      ∀ c, s.stage c ≠ .holding b true) :
    s.disk (s.bcache.buf b).dev (s.bcache.buf b).blockno =
      content (s.bcache.buf b).dev (s.bcache.buf b).blockno := by
  rcases coherent.disk _ (s.bcache.buf b).blockno used with same | ⟨a, has, valid, owes⟩
  · exact same
  · obtain rfl := tidy.unique a b _ _ used has ⟨rfl, rfl⟩
    obtain ⟨clean, free⟩ := settled valid
    rcases owes with dirty | ⟨c, held⟩
    · rw [clean] at dirty
      cases dirty
    · exact absurd held (free c)

/-- A call goes on with its buffer while no other call holds the lock; the contents of other blocks
and their places on the disks stay. -/
theorem Coherent.go {content content' : Nat → Nat → D} {disk' : Nat → Nat → D} {stage : BufStage}
    {buf : Buf D} (coherent : s.Coherent content) (tidy : s.Tidy)
    (here : (s.stage c).buf? = some b) (stays : stage.buf? = some b)
    (alone : ∀ d, d ≠ c → (s.stage d).lock? ≠ some b)
    (dev : buf.dev = (s.bcache.buf b).dev) (blockno : buf.blockno = (s.bcache.buf b).blockno)
    (others : ∀ dev' blockno', ¬ s.bcache.Has b dev' blockno' →
      disk' dev' blockno' = s.disk dev' blockno' ∧ content' dev' blockno' = content dev' blockno')
    (dirty : buf.dirty = true → buf.valid = true)
    (held : ∀ changed, stage = .holding b changed → buf.valid = true)
    (moving : stage = .transferring b → buf.valid = true → buf.dirty = true)
    (data : buf.dev ≠ 0 → buf.valid = true → buf.data = content' buf.dev buf.blockno)
    (settled : buf.dev ≠ 0 → disk' buf.dev buf.blockno = content' buf.dev buf.blockno ∨
      (buf.valid = true ∧ (buf.dirty = true ∨ stage = .holding b true))) :
    Coherent content' { s.go c stage b buf with disk := disk' } := by
  have bufs : ∀ a, (s.go c stage b buf).bcache.buf a = if a = b then buf else s.bcache.buf a :=
    fun a => Bcache.buf_set _ _ _ _
  have stages : ∀ d, (s.go c stage b buf).stage d = if d = c then stage else s.stage d := by
    intro d
    simp only [Bio.go, update_apply]
  have mine : ∀ a changed, stage = .holding a changed → a = b := by
    intro a changed same
    rw [same] at stays
    exact Option.some.inj stays
  constructor
  · intro a isDirty
    simp only [bufs] at isDirty ⊢
    split
    case isTrue same => exact dirty (by rwa [if_pos same] at isDirty)
    case isFalse other => exact coherent.dirty a (by rwa [if_neg other] at isDirty)
  · intro d a changed holds
    simp only [bufs, stages] at holds ⊢
    split at holds
    case isTrue =>
      obtain rfl := mine a changed holds
      rw [if_pos rfl]
      exact held changed holds
    case isFalse other =>
      have away : a ≠ b := by
        rintro rfl
        exact alone d other (by rw [holds]; rfl)
      rw [if_neg away]
      exact coherent.held d a changed holds
  · intro d a moves
    simp only [bufs, stages] at moves ⊢
    split at moves
    case isTrue =>
      have same : a = b := by
        rw [moves] at stays
        exact Option.some.inj stays
      subst same
      rw [if_pos rfl]
      exact moving moves
    case isFalse other =>
      have away : a ≠ b := by
        rintro rfl
        exact alone d other (by rw [moves]; rfl)
      rw [if_neg away]
      exact coherent.moving d a moves
  · intro a used valid
    simp only [bufs] at used valid ⊢
    by_cases same : a = b
    · rw [if_pos same] at used valid ⊢
      exact data used valid
    · rw [if_neg same] at used valid ⊢
      have apart : ¬ s.bcache.Has b (s.bcache.buf a).dev (s.bcache.buf a).blockno := by
        intro has
        exact same (tidy.unique a b _ _ used ⟨rfl, rfl⟩ has)
      rw [(others _ _ apart).2]
      exact coherent.data a used valid
  · intro dev' blockno' used
    by_cases has : s.bcache.Has b dev' blockno'
    · obtain ⟨rfl, rfl⟩ := has
      rw [← dev, ← blockno] at *
      rcases settled used with same | ⟨valid, owes⟩
      · exact .inl same
      · refine .inr ⟨b, ?_, ?_, ?_⟩
        · simp only [Bcache.Has, bufs, if_pos, and_self]
        · simpa only [bufs, if_pos] using valid
        · simp only [bufs, stages, if_pos]
          rcases owes with isDirty | holds
          · exact .inl isDirty
          · exact .inr ⟨c, by rw [if_pos rfl]; exact holds⟩
    · obtain ⟨onDisk, contents⟩ := others _ _ has
      rw [contents]
      show disk' dev' blockno' = _ ∨ _
      rw [onDisk]
      rcases coherent.disk dev' blockno' used with same | ⟨a, hasA, valid, owes⟩
      · exact .inl same
      · have away : a ≠ b := by
          rintro rfl
          exact has hasA
        refine .inr ⟨a, ?_, ?_, ?_⟩
        · simpa only [Bcache.Has, bufs, if_neg away] using hasA
        · simpa only [bufs, if_neg away] using valid
        · simp only [bufs, stages, if_neg away]
          rcases owes with isDirty | ⟨d, holds⟩
          · exact .inl isDirty
          · refine .inr ⟨d, ?_⟩
            rw [if_neg]
            · exact holds
            · rintro rfl
              rw [holds] at here
              exact away (Option.some.inj here)

theorem locking_update {stage : BufStage} (before : (s.stage c).lock? = none)
    (after : stage.lock? = none) (d : Fin calls) {locks : BufStage} (some : locks.lock? ≠ none) :
    update s.stage c stage d = locks ↔ s.stage d = locks := by
  by_cases own : d = c
  · subst own
    rw [update_self]
    constructor
    · rintro rfl
      exact absurd after some
    · rintro rfl
      exact absurd before some
  · rw [update_of_ne own]

/-- The buffers differ in references and locks at most. -/
structure Alike (left right : Buf D) : Prop where
  dev : left.dev = right.dev
  blockno : left.blockno = right.blockno
  valid : left.valid = right.valid
  dirty : left.dirty = right.dirty
  data : left.data = right.data

/-- A call that holds no lock moves, and no buffer changes but in its references. -/
theorem Coherent.quiet {content : Nat → Nat → D} {stage : BufStage} {bcache : Bcache D}
    (coherent : s.Coherent content) (request : Fin calls → Nat × Nat)
    (before : (s.stage c).lock? = none) (after : stage.lock? = none)
    (same : ∀ a, Alike (bcache.buf a) (s.bcache.buf a)) :
    Coherent content { s with bcache, stage := update s.stage c stage, request } := by
  constructor
  · intro a
    rw [(same a).dirty, (same a).valid]
    exact coherent.dirty a
  · intro d a changed holds
    rw [(same a).valid]
    exact coherent.held d a changed
      ((locking_update before after d (by simp [BufStage.lock?])).mp holds)
  · intro d a moves
    rw [(same a).valid, (same a).dirty]
    exact coherent.moving d a
      ((locking_update before after d (by simp [BufStage.lock?])).mp moves)
  · intro a
    rw [(same a).dev, (same a).blockno, (same a).valid, (same a).data]
    exact coherent.data a
  · intro dev' blockno' used
    rcases coherent.disk dev' blockno' used with onDisk | ⟨a, has, isValid, owes⟩
    · exact .inl onDisk
    · refine .inr ⟨a, ?_, by rwa [(same a).valid], ?_⟩
      · rw [Bcache.Has, (same a).dev, (same a).blockno]
        exact has
      · rw [(same a).dirty]
        rcases owes with isDirty | ⟨d, holds⟩
        · exact .inl isDirty
        · exact .inr ⟨d, (locking_update before after d (by simp [BufStage.lock?])).mpr holds⟩

/-- A buffer that no call has and that is not dirty is given to another block. -/
theorem Coherent.recycle {content : Nat → Nat → D} (coherent : s.Coherent content) (tidy : s.Tidy)
    (request : Fin calls → Nat × Nat) (dev blockno : Nat) (idle : s.stage c = .idle)
    (free : (s.bcache.buf b).refcnt = 0) (clean : (s.bcache.buf b).dirty = false) :
    Coherent content { s with
      bcache := s.bcache.set b { s.bcache.buf b with
        dev, blockno, valid := false, dirty := false, refcnt := 1 }
      stage := update s.stage c (.waiting b)
      request } := by
  have unused := tidy.unused free
  have locking : ∀ d (locks : BufStage), locks.lock? ≠ none →
      (update s.stage c (.waiting b) d = locks ↔ s.stage d = locks) :=
    fun d _ some => locking_update (by rw [idle]; rfl) rfl d some
  have away : ∀ d a changed, s.stage d = .holding a changed → a ≠ b := by
    rintro d a changed holds rfl
    exact unused d (by rw [holds]; rfl)
  constructor
  · intro a isDirty
    simp only [Bcache.buf_set] at isDirty ⊢
    split at isDirty
    case isTrue => cases isDirty
    case isFalse other =>
      rw [if_neg other]
      exact coherent.dirty a isDirty
  · intro d a changed holds
    have before := (locking d _ (by simp [BufStage.lock?])).mp holds
    simp only [Bcache.buf_set, if_neg (away d a changed before)]
    exact coherent.held d a changed before
  · intro d a moves
    have before := (locking d _ (by simp [BufStage.lock?])).mp moves
    have other : a ≠ b := by
      rintro rfl
      exact unused d (by rw [before]; rfl)
    simp only [Bcache.buf_set, if_neg other]
    exact coherent.moving d a before
  · intro a used valid
    simp only [Bcache.buf_set] at used valid ⊢
    by_cases same : a = b
    · rw [if_pos same] at valid
      cases valid
    · rw [if_neg same] at used valid ⊢
      exact coherent.data a used valid
  · intro dev' blockno' used
    rcases coherent.disk dev' blockno' used with onDisk | ⟨a, has, valid, owes⟩
    · exact .inl onDisk
    · have other : a ≠ b := by
        rintro rfl
        rcases owes with isDirty | ⟨d, holds⟩
        · rw [clean] at isDirty
          cases isDirty
        · exact away d a true holds rfl
      refine .inr ⟨a, ?_, ?_, ?_⟩
      · simpa only [Bcache.Has, Bcache.buf_set, if_neg other] using has
      · simpa only [Bcache.buf_set, if_neg other] using valid
      · simp only [Bcache.buf_set, if_neg other]
        rcases owes with isDirty | ⟨d, holds⟩
        · exact .inl isDirty
        · exact .inr ⟨d, (locking d _ (by simp [BufStage.lock?])).mpr holds⟩

/-! ## Steps -/

/-- What one step can do. -/
inductive Move (s : Bio calls D) : BufEvent calls D → Bio calls D → Prop
  /-- `bget` finds or recycles a buffer. -/
  | bread {c : Fin calls} {dev blockno : Nat} {b : Fin nBuf} {bcache : Bcache D}
      (idle : s.stage c = .idle) (got : s.bcache.bget dev blockno = .ok (b, bcache)) :
      s.Move (.bread c dev blockno)
        { s with bcache
                 stage := Function.update s.stage c (.waiting b)
                 request := Function.update s.request c (dev, blockno) }
  /-- The lock is free. -/
  | acquiresleep {c : Fin calls} {b : Fin nBuf} {stage : BufStage}
      (waiting : s.stage c = .waiting b) (unlocked : (s.bcache.buf b).locked = false)
      (next : stage = if (s.bcache.buf b).valid then .holding b false else .transferring b) :
      s.Move (.acquiresleep c) (s.go c stage b { s.bcache.buf b with locked := true })
  /-- The transfer ends. -/
  | ideintr {c : Fin calls} {b : Fin nBuf} (moves : s.stage c = .transferring b) :
      s.Move (.ideintr c) (s.ideintr c b)
  /-- The data change. -/
  | modify {c : Fin calls} {b : Fin nBuf} {changed : Bool} {data : D}
      (holds : s.stage c = .holding b changed) :
      s.Move (.modify c data) (s.go c (.holding b true) b { s.bcache.buf b with data })
  /-- The buffer is pinned. -/
  | logWrite {c : Fin calls} {b : Fin nBuf} {changed : Bool}
      (holds : s.stage c = .holding b changed) :
      s.Move (.logWrite c) (s.go c (.holding b false) b { s.bcache.buf b with dirty := true })
  /-- The buffer is to be written. -/
  | bwrite {c : Fin calls} {b : Fin nBuf} {changed : Bool}
      (holds : s.stage c = .holding b changed) :
      s.Move (.bwrite c) (s.go c (.transferring b) b { s.bcache.buf b with dirty := true })
  /-- The lock is released. -/
  | releasesleep {c : Fin calls} {b : Fin nBuf} {changed : Bool}
      (holds : s.stage c = .holding b changed) :
      s.Move (.releasesleep c) (s.go c (.leaving b) b { s.bcache.buf b with locked := false })
  /-- The reference is dropped. -/
  | brelse {c : Fin calls} {b : Fin nBuf} (leaving : s.stage c = .leaving b) :
      s.Move (.brelse c)
        { s with bcache := s.bcache.brelse b, stage := Function.update s.stage c .idle }

theorem step_moves {event : BufEvent calls D} (stepped : s.step event = .ok s') :
    s.Move event s' := by
  cases event with
  | bread c dev blockno =>
    cases place : s.stage c <;> simp only [step, place] at stepped <;> try cases stepped
    obtain ⟨⟨b, bcache⟩, got, returned⟩ := bind_eq_ok.mp stepped
    cases returned
    exact .bread place got
  | acquiresleep c =>
    cases place : s.stage c <;> simp only [step, place] at stepped <;> try cases stepped
    rename_i b
    split at stepped
    case isTrue => cases stepped
    case isFalse free =>
      have unlocked : (s.bcache.buf b).locked = false := by simpa using free
      split at stepped
      case isTrue valid =>
        cases stepped
        exact .acquiresleep place unlocked (by rw [if_pos valid])
      case isFalse invalid =>
        cases stepped
        exact .acquiresleep place unlocked (by rw [if_neg invalid])
  | ideintr c =>
    cases place : s.stage c <;> simp only [step, place] at stepped <;> try cases stepped
    exact .ideintr place
  | modify c data =>
    cases place : s.stage c <;> simp only [step, place] at stepped <;> try cases stepped
    exact .modify place
  | logWrite c =>
    cases place : s.stage c <;> simp only [step, place] at stepped <;> try cases stepped
    exact .logWrite place
  | bwrite c =>
    cases place : s.stage c <;> simp only [step, place] at stepped <;> try cases stepped
    exact .bwrite place
  | releasesleep c =>
    cases place : s.stage c <;> simp only [step, place] at stepped <;> try cases stepped
    exact .releasesleep place
  | brelse c =>
    cases place : s.stage c <;> simp only [step, place] at stepped <;> try cases stepped
    exact .brelse place

/-- A buffer that is replaced by one for the same block, valid if it was, keeps its block. -/
theorem keeps_set (s : Bcache D) (b : Fin nBuf) {a : Fin nBuf} {buf : Buf D}
    (dev : buf.dev = (s.buf a).dev) (blockno : buf.blockno = (s.buf a).blockno)
    (valid : (s.buf a).valid = true → buf.valid = true) :
    (s.set a buf).Has b (s.buf b).dev (s.buf b).blockno ∧
      ((s.buf b).valid = true → ((s.set a buf).buf b).valid = true) := by
  rw [Bcache.Has, Bcache.buf_set]
  split
  case isTrue same =>
    rw [same]
    exact ⟨⟨dev, blockno⟩, valid⟩
  case isFalse => exact ⟨⟨rfl, rfl⟩, id⟩

/-- A buffer that is dirty or has references keeps its block. -/
theorem Move.keeps_block {event : BufEvent calls D} (move : s.Move event s') (tidy : s.Tidy)
    (busy : (s.bcache.buf b).dirty = true ∨ 0 < (s.bcache.buf b).refcnt) :
    s'.bcache.Has b (s.bcache.buf b).dev (s.bcache.buf b).blockno ∧
      ((s.bcache.buf b).valid = true → (s'.bcache.buf b).valid = true) := by
  cases move with
  | bread idle got =>
    rename_i a _
    rcases Bcache.bget_cases tidy.linked got with ⟨_, rfl⟩ | ⟨_, free, clean, rfl⟩
    · exact keeps_set s.bcache b rfl rfl id
    · have other : b ≠ a := by
        rintro rfl
        rcases busy with dirty | referenced
        · rw [clean] at dirty
          cases dirty
        · omega
      simp [Bcache.Has, Bcache.buf_set, other]
  | acquiresleep => exact keeps_set s.bcache b rfl rfl id
  | ideintr =>
    unfold Bio.ideintr
    dsimp only
    split
    · exact keeps_set s.bcache b rfl rfl fun _ => rfl
    · exact keeps_set s.bcache b rfl rfl fun _ => rfl
  | modify | logWrite | bwrite | releasesleep => exact keeps_set s.bcache b rfl rfl id
  | brelse =>
    rename_i a _
    rw [Bcache.Has, Bcache.buf_brelse]
    exact keeps_set s.bcache b rfl rfl id

end Bio

/-! ## Runs -/

/-- The buffer cache with the last modification of each block. -/
structure TracedBio (calls : Nat) (D : Type) where
  /-- The state. -/
  bio : Bio calls D
  /-- The last modification of each block, if there is one. -/
  last : Nat → Nat → Option D

namespace TracedBio

variable {calls : Nat} {D : Type} {t t' : TracedBio calls D} {event : BufEvent calls D}

/-- The last modification of a block is one of its buffer. -/
def lastAfter (t : TracedBio calls D) : BufEvent calls D → Nat → Nat → Option D
  | .modify c data =>
    match t.bio.stage c with
    | .holding b _ =>
      let buf := t.bio.bcache.buf b
      Function.update t.last buf.dev (Function.update (t.last buf.dev) buf.blockno (some data))
    | _ => t.last
  | _ => t.last

/-- One step. -/
def step (t : TracedBio calls D) (event : BufEvent calls D) : Except Halt (TracedBio calls D) := do
  let bio ← t.bio.step event
  pure ⟨bio, t.lastAfter event⟩

/-- Device numbers are not zero, and a modification is passed to `log_write` or `bwrite` before the
buffer is released. -/
def Allowed (t : TracedBio calls D) : BufEvent calls D → Prop
  | .bread _ dev _ => dev ≠ 0
  | .releasesleep c => ∀ b, t.bio.stage c ≠ .holding b true
  | _ => True

/-- What the blocks contain: their last modification, or what was on the disk. -/
def content (t : TracedBio calls D) (disk : Nat → Nat → D) (dev blockno : Nat) : D :=
  (t.last dev blockno).getD (disk dev blockno)

/-- The invariant of runs. -/
structure Good (disk : Nat → Nat → D) (t : TracedBio calls D) : Prop where
  tidy : t.bio.Tidy
  coherent : t.bio.Coherent (t.content disk)

theorem good_boot (zero : D) (disk : Nat → Nat → D) :
    Good disk (⟨.boot zero disk, fun _ _ => none⟩ : TracedBio calls D) where
  tidy := {
    linked := Bcache.binit_linked zero
    unique := by
      rintro a b dev blockno used ⟨rfl, _⟩
      exact absurd rfl used
    refs := by
      intro b
      exact (tally_eq_zero.mpr fun c => rfl).symm
    locks := by
      intro b
      exact (tally_eq_zero.mpr fun c => rfl).symm
    request := by
      intro c b refers
      cases refers }
  coherent := {
    dirty := by
      intro b dirty
      cases dirty
    held := by
      intro c b changed holds
      cases holds
    moving := by
      intro c b moves
      cases moves
    data := by
      intro b used
      exact absurd rfl used
    disk := fun _ _ _ => .inl rfl }

theorem Good.bread {disk : Nat → Nat → D} {c : Fin calls} {b : Fin nBuf} {dev blockno : Nat}
    {bcache : Bcache D} (good : t.Good disk) (used : dev ≠ 0) (idle : t.bio.stage c = .idle)
    (got : t.bio.bcache.bget dev blockno = .ok (b, bcache)) :
    Good disk ⟨{ t.bio with bcache
                            stage := update t.bio.stage c (.waiting b)
                            request := update t.bio.request c (dev, blockno) }, t.last⟩ := by
  refine ⟨good.tidy.bread used idle got, ?_⟩
  rcases Bcache.bget_cases good.tidy.linked got with ⟨_, rfl⟩ | ⟨_, free, clean, rfl⟩
  · apply good.coherent.quiet
    · rw [idle]
      rfl
    · rfl
    · intro a
      rw [Bcache.buf_set]
      split
      case isTrue same =>
        rw [same]
        exact ⟨rfl, rfl, rfl, rfl, rfl⟩
      case isFalse => exact ⟨rfl, rfl, rfl, rfl, rfl⟩
  · exact good.coherent.recycle good.tidy _ dev blockno idle free clean

theorem Good.brelse {disk : Nat → Nat → D} {c : Fin calls} {b : Fin nBuf} (good : t.Good disk)
    (leaving : t.bio.stage c = .leaving b) :
    Good disk ⟨{ t.bio with bcache := t.bio.bcache.brelse b
                            stage := update t.bio.stage c .idle }, t.last⟩ := by
  refine ⟨good.tidy.brelse leaving, good.coherent.quiet _ ?_ rfl ?_⟩
  · rw [leaving]
    rfl
  · intro a
    rw [Bcache.buf_brelse, Bcache.buf_set]
    split
    case isTrue same =>
      rw [same]
      exact ⟨rfl, rfl, rfl, rfl, rfl⟩
    case isFalse => exact ⟨rfl, rfl, rfl, rfl, rfl⟩

theorem Good.acquiresleep {disk : Nat → Nat → D} {c : Fin calls} {b : Fin nBuf} {stage : BufStage}
    (good : t.Good disk) (waiting : t.bio.stage c = .waiting b)
    (unlocked : (t.bio.bcache.buf b).locked = false)
    (next : stage = if (t.bio.bcache.buf b).valid then .holding b false else .transferring b) :
    Good disk ⟨t.bio.go c stage b { t.bio.bcache.buf b with locked := true }, t.last⟩ := by
  have here : (t.bio.stage c).buf? = some b := by
    rw [waiting]
    rfl
  have lock : stage.lock? = some b := by
    rw [next]
    split <;> rfl
  have stays := BufStage.buf_of_lock lock
  have free := good.tidy.free unlocked
  refine ⟨good.tidy.go here stays rfl rfl rfl ?_, good.coherent.go good.tidy here stays
    (fun d _ => free d) rfl rfl (fun _ _ _ => ⟨rfl, rfl⟩) (good.coherent.dirty b) ?_ ?_
    (good.coherent.data b) ?_⟩
  · rw [unlocked, countsFor_eq_one lock, countsFor_eq_zero (free c)]
    rfl
  · intro changed holds
    rw [holds] at next
    split at next
    case isTrue valid => exact valid
    case isFalse => cases next
  · intro moves valid
    rw [moves, if_pos valid] at next
    cases next
  · intro used
    rcases good.coherent.disk _ (t.bio.bcache.buf b).blockno used with same | ⟨a, has, valid, owes⟩
    · exact .inl same
    · obtain rfl := good.tidy.unique a b _ _ used has ⟨rfl, rfl⟩
      rcases owes with dirty | ⟨d, holds⟩
      · exact .inr ⟨valid, .inl dirty⟩
      · exact absurd (by rw [holds]; rfl) (free d)

theorem update_other {α : Type} (table : Nat → Nat → α) {dev blockno dev' blockno' : Nat} (value : α)
    (other : ¬ (dev = dev' ∧ blockno = blockno')) :
    update table dev (update (table dev) blockno value) dev' blockno' =
      table dev' blockno' := by
  by_cases same : dev' = dev
  · subst same
    rw [update_self, update_of_ne]
    rintro rfl
    exact other ⟨rfl, rfl⟩
  · rw [update_of_ne same]

/-- A call that has the lock goes on with its buffer, with or without the lock. -/
theorem Good.holder {disk : Nat → Nat → D} {c : Fin calls} {b : Fin nBuf} {stage : BufStage}
    {buf : Buf D} {disk' : Nat → Nat → D} {last : Nat → Nat → Option D} (good : t.Good disk)
    (locks : (t.bio.stage c).lock? = some b) (stays : stage.buf? = some b)
    (dev : buf.dev = (t.bio.bcache.buf b).dev) (blockno : buf.blockno = (t.bio.bcache.buf b).blockno)
    (refcnt : buf.refcnt = (t.bio.bcache.buf b).refcnt)
    (lock : (if buf.locked then 1 else 0) + 1 =
      (if (t.bio.bcache.buf b).locked then 1 else 0) + countsFor BufStage.lock? b stage)
    (others : ∀ dev' blockno', ¬ t.bio.bcache.Has b dev' blockno' →
      disk' dev' blockno' = t.bio.disk dev' blockno' ∧
        last dev' blockno' = t.last dev' blockno')
    (dirty : buf.dirty = true → buf.valid = true)
    (held : ∀ changed, stage = .holding b changed → buf.valid = true)
    (moving : stage = .transferring b → buf.valid = true → buf.dirty = true)
    (data : buf.dev ≠ 0 → buf.valid = true →
      buf.data = (last buf.dev buf.blockno).getD (disk buf.dev buf.blockno))
    (settled : buf.dev ≠ 0 →
      disk' buf.dev buf.blockno = (last buf.dev buf.blockno).getD (disk buf.dev buf.blockno) ∨
        (buf.valid = true ∧ (buf.dirty = true ∨ stage = .holding b true))) :
    Good disk ⟨{ t.bio.go c stage b buf with disk := disk' }, last⟩ := by
  have here := BufStage.buf_of_lock locks
  refine ⟨?_, good.coherent.go good.tidy here stays (fun d other => good.tidy.alone locks other)
    dev blockno ?_ dirty held moving data settled⟩
  · have moved := good.tidy.go here stays dev blockno refcnt (by rwa [countsFor_eq_one locks])
    exact ⟨moved.linked, moved.unique, moved.refs, moved.locks, moved.request⟩
  · intro dev' blockno' apart
    obtain ⟨onDisk, same⟩ := others dev' blockno' apart
    refine ⟨onDisk, ?_⟩
    simp only [content, same]

theorem Good.ideintr {disk : Nat → Nat → D} {c : Fin calls} {b : Fin nBuf} (good : t.Good disk)
    (moves : t.bio.stage c = .transferring b) : Good disk ⟨t.bio.ideintr c b, t.last⟩ := by
  have locks : (t.bio.stage c).lock? = some b := by
    rw [moves]
    rfl
  unfold Bio.ideintr
  dsimp only
  split
  case isTrue dirty =>
    have valid := good.coherent.dirty b dirty
    refine good.holder locks rfl rfl rfl rfl (by rw [countsFor_holding]) ?_ (fun _ => rfl)
      (fun _ _ => rfl) ?_ ?_ ?_
    · intro dev' blockno' apart
      exact ⟨update_other _ _ apart, rfl⟩
    · intro same
      cases same
    · intro used _
      exact good.coherent.data b used valid
    · intro used
      refine .inl ?_
      dsimp only
      rw [update_self, update_self]
      exact good.coherent.data b used valid
  case isFalse clean =>
    have invalid : (t.bio.bcache.buf b).valid ≠ true := by
      intro valid
      exact clean (good.coherent.moving c b moves valid)
    have onDisk : (t.bio.bcache.buf b).dev ≠ 0 → _ := fun used =>
      good.coherent.clean good.tidy used fun valid => absurd valid invalid
    refine good.holder locks rfl rfl rfl rfl (by rw [countsFor_holding])
      (fun _ _ _ => ⟨rfl, rfl⟩) (fun _ => rfl) (fun _ _ => rfl) ?_ ?_ ?_
    · intro same
      cases same
    · intro used _
      exact onDisk used
    · intro used
      exact .inl (onDisk used)

theorem Good.modify {disk : Nat → Nat → D} {c : Fin calls} {b : Fin nBuf} {changed : Bool}
    (good : t.Good disk) (holds : t.bio.stage c = .holding b changed) (data : D) :
    Good disk ⟨t.bio.go c (.holding b true) b { t.bio.bcache.buf b with data },
      t.lastAfter (.modify c data)⟩ := by
  have locks : (t.bio.stage c).lock? = some b := by
    rw [holds]
    rfl
  have valid := good.coherent.held c b changed holds
  have last : t.lastAfter (.modify c data) = update t.last (t.bio.bcache.buf b).dev
      (update (t.last (t.bio.bcache.buf b).dev) (t.bio.bcache.buf b).blockno
        (some data)) := by
    simp only [lastAfter, holds]
  rw [last]
  refine good.holder locks rfl rfl rfl rfl (by rw [countsFor_holding]) ?_ (fun _ => valid)
    (fun _ _ => valid) ?_ ?_ ?_
  · intro dev' blockno' apart
    exact ⟨rfl, update_other _ _ apart⟩
  · intro same
    cases same
  · intro _ _
    dsimp only
    rw [update_self, update_self]
    rfl
  · intro _
    exact .inr ⟨valid, .inr rfl⟩

theorem Good.pin {disk : Nat → Nat → D} {c : Fin calls} {b : Fin nBuf} {changed : Bool}
    {stage : BufStage} (good : t.Good disk) (holds : t.bio.stage c = .holding b changed)
    (next : stage.lock? = some b) :
    Good disk ⟨t.bio.go c stage b { t.bio.bcache.buf b with dirty := true }, t.last⟩ := by
  have locks : (t.bio.stage c).lock? = some b := by
    rw [holds]
    rfl
  have valid := good.coherent.held c b changed holds
  refine good.holder locks (BufStage.buf_of_lock next) rfl rfl rfl ?_ (fun _ _ _ => ⟨rfl, rfl⟩)
    (fun _ => valid) (fun _ _ => valid) (fun _ _ => rfl) (good.coherent.data b) ?_
  · rw [countsFor_eq_one next]
  · intro _
    exact .inr ⟨valid, .inl rfl⟩

/-- The caller releases the lock of a buffer that it has not modified since it passed it on. -/
theorem Good.releasesleep {disk : Nat → Nat → D} {c : Fin calls} {b : Fin nBuf}
    (good : t.Good disk) (holds : t.bio.stage c = .holding b false) :
    Good disk ⟨t.bio.go c (.leaving b) b { t.bio.bcache.buf b with locked := false }, t.last⟩ := by
  have locks : (t.bio.stage c).lock? = some b := by
    rw [holds]
    rfl
  have locked : (t.bio.bcache.buf b).locked = true := by
    by_contra unlocked
    exact good.tidy.free (by simpa using unlocked) c locks
  refine good.holder locks rfl rfl rfl rfl ?_ (fun _ _ _ => ⟨rfl, rfl⟩) (good.coherent.dirty b) ?_ ?_
    (good.coherent.data b) ?_
  · rw [locked]
    rfl
  · intro changed same
    cases same
  · intro same
    cases same
  · intro used
    rcases good.coherent.disk _ (t.bio.bcache.buf b).blockno used with same | ⟨a, has, valid, owes⟩
    · exact .inl same
    · obtain rfl := good.tidy.unique a b _ _ used has ⟨rfl, rfl⟩
      rcases owes with dirty | ⟨d, changed⟩
      · exact .inr ⟨valid, .inl dirty⟩
      · have other : d ≠ c := by
          rintro rfl
          rw [holds] at changed
          cases changed
        exact absurd (by rw [changed]; rfl) (good.tidy.alone locks other)

theorem Good.step {disk : Nat → Nat → D} (good : t.Good disk) (allowed : t.Allowed event)
    (stepped : t.step event = .ok t') : t'.Good disk := by
  obtain ⟨bio, ran, returned⟩ := bind_eq_ok.mp stepped
  cases returned
  cases Bio.step_moves ran with
  | bread idle got => exact good.bread allowed idle got
  | acquiresleep waiting unlocked next => exact good.acquiresleep waiting unlocked next
  | ideintr moves => exact good.ideintr moves
  | modify holds => exact good.modify holds _
  | logWrite holds | bwrite holds => exact good.pin holds rfl
  | releasesleep holds =>
    rename_i b changed
    cases changed with
    | true => exact absurd holds (allowed b)
    | false => exact good.releasesleep holds
  | brelse leaving => exact good.brelse leaving

theorem good_run (zero : D) (disk : Nat → Nat → D)
    (run : Relation.ReflTransGen (Steps step Allowed)
      (⟨.boot zero disk, fun _ _ => none⟩ : TracedBio calls D) t) : t.Good disk :=
  steps_invariant (Good disk) (fun _ _ _ good allowed stepped => good.step allowed stepped)
    (good_boot zero disk) run

/-- In every run from boot, on devices other than 0 and with every modification passed to
`log_write` or `bwrite` before the buffer is released: the list through `bcache.head` has each
buffer once, and its links forth and back undo each other; no two buffers have the same block; a
buffer that is dirty or has references is not recycled; and the buffer that `bread` has returned has
the block that was asked for, with its last modification or with what was on the disk. -/
theorem cache_coherent (zero : D) (disk : Nat → Nat → D)
    (run : Relation.ReflTransGen (Steps step Allowed)
      (⟨.boot zero disk, fun _ _ => none⟩ : TracedBio calls D) t) :
    (∃ order : List (Fin nBuf), t.bio.bcache.links.Ring none (order.map some) ∧
      order.Perm (List.finRange nBuf)) ∧
    (∀ node, t.bio.bcache.links.prev (t.bio.bcache.links.next node) = node ∧
      t.bio.bcache.links.next (t.bio.bcache.links.prev node) = node) ∧
    (∀ a b dev blockno, dev ≠ 0 → t.bio.bcache.Has a dev blockno → t.bio.bcache.Has b dev blockno →
      a = b) ∧
    (∀ event t', t.Allowed event → t.step event = .ok t' → ∀ b,
      (t.bio.bcache.buf b).dirty = true ∨ 0 < (t.bio.bcache.buf b).refcnt →
      t'.bio.bcache.Has b (t.bio.bcache.buf b).dev (t.bio.bcache.buf b).blockno ∧
        ((t.bio.bcache.buf b).valid = true → (t'.bio.bcache.buf b).valid = true)) ∧
    ∀ c b changed, t.bio.stage c = .holding b changed →
      t.bio.bcache.Has b (t.bio.request c).1 (t.bio.request c).2 ∧
        (t.bio.bcache.buf b).data = (t.last (t.bio.request c).1 (t.bio.request c).2).getD
          (disk (t.bio.request c).1 (t.bio.request c).2) := by
  have good := good_run zero disk run
  refine ⟨good.tidy.linked, ?_, good.tidy.unique, ?_, ?_⟩
  · intro node
    obtain ⟨order, ring, all⟩ := good.tidy.linked
    apply ring.inverse
    cases node with
    | none => simp
    | some b => simpa using all.mem_iff.mpr (List.mem_finRange b)
  · intro event t' _ stepped b busy
    obtain ⟨bio, ran, returned⟩ := bind_eq_ok.mp stepped
    cases returned
    exact (Bio.step_moves ran).keeps_block good.tidy busy
  · intro c b changed holds
    have here : (t.bio.stage c).buf? = some b := by
      rw [holds]
      rfl
    obtain ⟨used, dev, blockno⟩ := good.tidy.request c b here
    refine ⟨⟨dev, blockno⟩, ?_⟩
    rw [good.coherent.data b (by rwa [dev]) (good.coherent.held c b changed holds), dev, blockno]
    rfl

instance decidableAllowed (t : TracedBio calls D) (event : BufEvent calls D) :
    Decidable (t.Allowed event) :=
  match event with
  | .bread _ dev _ => inferInstanceAs (Decidable (dev ≠ 0))
  | .releasesleep c => inferInstanceAs (Decidable (∀ b, t.bio.stage c ≠ .holding b true))
  | .acquiresleep _ | .ideintr _ | .modify _ _ | .logWrite _ | .bwrite _ | .brelse _ =>
    inferInstanceAs (Decidable True)

/-- A process modifies a block through the log and releases the buffer, and another one reads the
block. -/
def shareBlock : List (BufEvent 2 Nat) :=
  [.bread 0 1 5, .acquiresleep 0, .ideintr 0, .modify 0 42, .logWrite 0, .releasesleep 0, .brelse 0,
    .bread 1 1 5, .acquiresleep 1]

/-- The second process gets the buffer of the first one, with the modification. -/
theorem shareBlock_reads : ∃ t b,
    Outcome.run (guarded step Allowed .endless) ⟨.boot 0 fun _ _ => 7, fun _ _ => none⟩ shareBlock =
      .ok t ∧ t.bio.stage 1 = .holding b false ∧ t.bio.bcache.Has b 1 5 ∧
      (t.bio.bcache.buf b).data = 42 := by
  have returns : ((Outcome.run (guarded step Allowed .endless)
      (⟨.boot 0 fun _ _ => 7, fun _ _ => none⟩ : TracedBio 2 Nat) shareBlock).map fun t =>
        (t.bio.stage 1, t.bio.request 1, t.last 1 5)).toOption =
      some (.holding ⟨0, by decide⟩ false, (1, 5), some 42) := by
    decide +kernel
  obtain ⟨t, returned, seen⟩ := exists_ok returns
  simp only [Prod.mk.injEq] at seen
  obtain ⟨holds, request, last⟩ := seen
  obtain ⟨has, data⟩ := (cache_coherent 0 (fun _ _ => 7) (run_guarded returned)).2.2.2.2 1 _ _ holds
  rw [request] at has data
  rw [last] at data
  exact ⟨t, _, returned, holds, has, data⟩

end TracedBio

end MemoryEncryption
