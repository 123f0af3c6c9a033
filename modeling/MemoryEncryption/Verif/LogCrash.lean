import MemoryEncryption.Verif.LogSpace

/-!
# Crashes and recovery

A crash may come after any disk write, and recovery may itself crash. What is on the
disk is described by one predicate: either the header is empty and the home blocks
are those of the transactions committed before, or it lists a transaction whose
blocks are all in the log (`Committed`). Installing a block and clearing the header
keep that, so `commit` and `recover_from_log` share their lemmas.
-/

namespace MemoryEncryption

open Function Outcome

variable {procs : Nat}

/-- The disk after a list of writes. -/
def applyWrites (disk : Nat → Block) (writes : List Write) : Nat → Block :=
  writes.foldl (fun disk write => Function.update disk write.blockno write.block) disk

theorem applyWrites_of_absent {disk : Nat → Block} {writes : List Write} {blockno : Nat}
    (absent : ∀ write ∈ writes, write.blockno ≠ blockno) :
    applyWrites disk writes blockno = disk blockno := by
  induction writes generalizing disk with
  | nil => rfl
  | cons write rest ih =>
    have other : blockno ≠ write.blockno := (absent write (by simp)).symm
    simp only [applyWrites, List.foldl_cons]
    refine (ih fun later member => absent later (by simp [member])).trans ?_
    rw [update_of_ne other]

theorem applyWrites_concat (disk : Nat → Block) (writes : List Write) (write : Write) :
    applyWrites disk (writes ++ [write]) =
      update (applyWrites disk writes) write.blockno write.block := by
  simp [applyWrites]

/-! ## The header block -/

theorem readHead_headBlock {lh : List Nat} (short : lh.length ≤ logSize)
    (bounded : ∀ blockno ∈ lh, blockno < fsSize) (old : Block) :
    readHead (headBlock lh old) = .ok lh := by
  have count : (headBlock lh old 0).toInt = lh.length := by
    simp only [headBlock, if_true, BitVec.toInt_ofNat', Nat.reducePow]
    rw [Int.bmod_eq_of_le] <;> simp only [logSize, maxOpBlocks] at short <;> omega
  unfold readHead
  rw [count, if_pos (by exact_mod_cast short), Int.toNat_natCast]
  congr 1
  refine List.ext_getElem (by simp) fun i before after => ?_
  have inside : lh[i]? = some lh[i] := List.getElem?_eq_getElem after
  have small := bounded lh[i] (List.getElem_mem after)
  simp only [fsSize] at small
  simp only [List.getElem_map, List.getElem_range, headBlock, Nat.add_one_ne_zero, if_false,
    Nat.add_sub_cancel, inside, BitVec.toNat_ofNat]
  omega

/-! ## Committed transactions -/

/-- The header on the disk lists blocks whose copies in the log are those of the target, and all
other home blocks are those of the target already. -/
structure Committed (area : LogArea) (disk : Nat → Block) (lh : List Nat)
    (target : Nat → Block) : Prop where
  header : readHead (disk area.start) = .ok lh
  nodup : lh.Nodup
  home : ∀ blockno ∈ lh, ¬ area.Contains blockno
  bounded : ∀ blockno ∈ lh, blockno < fsSize
  room : lh.length < area.size
  copies : ∀ i blockno, lh[i]? = some blockno → disk (area.start + i + 1) = target blockno
  rest : ∀ blockno, ¬ area.Contains blockno → blockno ∉ lh → disk blockno = target blockno

/-- The first `tail` listed blocks have been copied home. -/
def Installed (disk : Nat → Block) (lh : List Nat) (target : Nat → Block) (tail : Nat) : Prop :=
  ∀ i < tail, ∀ blockno, lh[i]? = some blockno → disk blockno = target blockno

variable {tail : Nat}

section Committed

variable {area : LogArea} {disk target : Nat → Block} {lh : List Nat}

theorem LogArea.contains_copy {i : Nat} (room : lh.length < area.size) (bound : i < lh.length) :
    area.Contains (area.start + i + 1) ∧ area.start + i + 1 ≠ area.start :=
  ⟨⟨by omega, by omega⟩, by omega⟩

theorem LogArea.contains_start (area : LogArea) : area.Contains area.start :=
  ⟨le_rfl, Nat.lt_add_of_pos_right area.positive⟩

theorem Committed.empty (header : readHead (disk area.start) = .ok [])
    (same : ∀ blockno, ¬ area.Contains blockno → disk blockno = target blockno) :
    Committed area disk [] target where
  header := header
  nodup := .nil
  home := by simp
  bounded := by simp
  room := area.positive
  copies := by simp
  rest blockno outside _ := same blockno outside

/-- Copying a listed block home keeps the transaction committed, with one more block installed. -/
theorem Committed.install (committed : Committed area disk lh target) {blockno : Nat}
    (entry : lh[tail]? = some blockno) (installed : Installed disk lh target tail) :
    Committed area (update disk blockno (disk (area.start + tail + 1))) lh target ∧
      Installed (update disk blockno (disk (area.start + tail + 1))) lh target
        (tail + 1) := by
  have member : blockno ∈ lh := List.mem_of_getElem? entry
  have outside := committed.home blockno member
  have inside : ∀ other, area.Contains other →
      update disk blockno (disk (area.start + tail + 1)) other = disk other :=
    fun other here => update_of_ne (by rintro rfl; exact outside here) _ _
  have copied : update disk blockno (disk (area.start + tail + 1)) blockno =
      target blockno := by
    rw [update_self]
    exact committed.copies tail blockno entry
  refine ⟨⟨?_, committed.nodup, committed.home, committed.bounded, committed.room, ?_, ?_⟩, ?_⟩
  · rw [inside _ area.contains_start]
    exact committed.header
  · intro i other listed
    obtain ⟨bound, -⟩ := List.getElem?_eq_some_iff.mp listed
    rw [inside _ (LogArea.contains_copy committed.room bound).1]
    exact committed.copies i other listed
  · intro other free unlisted
    have different : other ≠ blockno := by
      rintro rfl
      exact unlisted member
    rw [update_of_ne different]
    exact committed.rest other free unlisted
  · intro i early other listed
    by_cases same : other = blockno
    · rw [same]
      exact copied
    · rw [update_of_ne same]
      refine installed i ?_ other listed
      rcases Nat.lt_succ_iff_lt_or_eq.mp early with before | rfl
      · exact before
      · rw [entry] at listed
        exact absurd (Option.some.inj listed).symm same

theorem Committed.complete (committed : Committed area disk lh target) (past : lh.length ≤ tail)
    (installed : Installed disk lh target tail) (blockno : Nat) (outside : ¬ area.Contains blockno) :
    disk blockno = target blockno := by
  by_cases listed : blockno ∈ lh
  · obtain ⟨i, entry⟩ := List.mem_iff_getElem?.mp listed
    obtain ⟨bound, -⟩ := List.getElem?_eq_some_iff.mp entry
    exact installed i (by omega) blockno entry
  · exact committed.rest blockno outside listed

theorem Committed.clear (same : ∀ blockno, ¬ area.Contains blockno → disk blockno = target blockno)
    (old : Block) :
    Committed area (update disk area.start (headBlock [] old)) [] target := by
  refine .empty ?_ fun blockno outside => ?_
  · rw [update_self]
    exact readHead_headBlock (by simp) (by simp) old
  · have different : blockno ≠ area.start := by
      rintro rfl
      exact outside area.contains_start
    rw [update_of_ne different]
    exact same blockno outside

end Committed

/-! ## Recovery -/

/-- Recovery makes a step, or the machine stops and is switched on again. -/
def Recovery.Moves (area : LogArea) (r r' : Recovery) : Prop :=
  r.step area = .ok r' ∨ r' = crash r.disk

/-- Recovery makes a step. -/
def Recovery.Proceeds (area : LogArea) (r r' : Recovery) : Prop := r.step area = .ok r'

/-- Recovery is on its way to the target. -/
def Recovery.Sound (area : LogArea) (target : Nat → Block) (r : Recovery) : Prop :=
  match r.place with
  | .boot => ∃ lh, Committed area r.disk lh target
  | .install lh tail => Committed area r.disk lh target ∧ Installed r.disk lh target tail
  | .clearHead => (∃ lh, Committed area r.disk lh target) ∧
      ∀ blockno, ¬ area.Contains blockno → r.disk blockno = target blockno
  | .up => Committed area r.disk [] target

section Recovery

variable {area : LogArea} {target : Nat → Block} {r r' : Recovery}

theorem Recovery.Sound.committed (sound : r.Sound area target) :
    ∃ lh, Committed area r.disk lh target := by
  obtain ⟨disk, place⟩ := r
  cases place with
  | boot => exact sound
  | install lh tail => exact ⟨lh, sound.1⟩
  | clearHead => exact sound.1
  | up => exact ⟨[], sound⟩

/-- Recovery returns from every step and stays on its way. -/
theorem Recovery.Sound.step (sound : r.Sound area target) :
    ∃ next, r.step area = .ok next ∧ next.Sound area target := by
  obtain ⟨disk, place⟩ := r
  cases place with
  | boot =>
    obtain ⟨lh, committed⟩ := sound
    have header : readHead (disk area.start) = .ok lh := committed.header
    refine ⟨⟨disk, .install lh 0⟩, ?_, committed, ?_⟩
    · simp [Recovery.step, header, Except.map]
    · intro i early
      omega
  | install lh tail =>
    obtain ⟨committed, installed⟩ := sound
    cases entry : lh[tail]? with
    | some blockno =>
      have bound := committed.bounded blockno (List.mem_of_getElem? entry)
      refine ⟨⟨update disk blockno (disk (area.start + tail + 1)),
        .install lh (tail + 1)⟩, ?_, committed.install entry installed⟩
      simp only [Recovery.step, entry, bound, if_true]
    | none =>
      have past := List.getElem?_eq_none_iff.mp entry
      exact ⟨⟨disk, .clearHead⟩, by simp only [Recovery.step, entry], ⟨lh, committed⟩,
        committed.complete past installed⟩
  | clearHead =>
    obtain ⟨-, same⟩ := sound
    exact ⟨_, rfl, Committed.clear same _⟩
  | up => exact ⟨_, rfl, sound⟩

theorem Recovery.Sound.moves (sound : r.Sound area target)
    (run : Relation.ReflTransGen (Recovery.Moves area) r r') : r'.Sound area target := by
  induction run with
  | refl => exact sound
  | tail _ last ih =>
    rcases last with stepped | rfl
    · obtain ⟨next, returned, kept⟩ := ih.step
      rw [stepped] at returned
      exact (Except.ok.inj returned) ▸ kept
    · exact ih.committed

/-- The steps that recovery has left. -/
def Recovery.left (r : Recovery) : Nat :=
  match r.place with
  | .boot => logSize + 4
  | .install lh tail => lh.length - tail + 2
  | .clearHead => 1
  | .up => 0

theorem Recovery.step_left (running : r.place ≠ .up) (stepped : r.step area = .ok r') :
    r'.left < r.left := by
  obtain ⟨disk, place⟩ := r
  cases place with
  | boot =>
    obtain ⟨lh, read, rfl⟩ := map_eq_ok.mp stepped
    unfold readHead at read
    split at read
    case isTrue short =>
      cases read
      simp only [Recovery.left, List.length_map, List.length_range]
      simp only at short
      omega
    case isFalse => cases read
  | install lh tail =>
    simp only [Recovery.step] at stepped
    split at stepped
    case h_1 blockno entry =>
      obtain ⟨bound, -⟩ := List.getElem?_eq_some_iff.mp entry
      split at stepped
      case isTrue =>
        cases stepped
        simp only [Recovery.left]
        omega
      case isFalse => cases stepped
    case h_2 =>
      cases stepped
      simp only [Recovery.left]
      omega
  | clearHead =>
    cases stepped
    simp [Recovery.left]
  | up => exact absurd rfl running

theorem Recovery.Sound.completes (sound : r.Sound area target) :
    ∃ disk, Relation.ReflTransGen (Recovery.Proceeds area) r ⟨disk, .up⟩ := by
  induction measure : r.left using Nat.strong_induction_on generalizing r with
  | _ steps ih =>
    by_cases done : r.place = .up
    · obtain ⟨disk, place⟩ := r
      subst done
      exact ⟨disk, .refl⟩
    · obtain ⟨next, stepped, kept⟩ := sound.step
      obtain ⟨disk, rest⟩ := ih _ (measure ▸ Recovery.step_left done stepped) kept rfl
      exact ⟨disk, .head stepped rest⟩

/-- Recovery from an empty header writes the header and nothing else. -/
theorem recovery_of_empty (area : LogArea) {disk : Nat → Block}
    (header : (readHead (disk area.start)).toOption = some []) :
    Relation.ReflTransGen (Recovery.Moves area) (crash disk)
      ⟨update disk area.start (headBlock [] (disk area.start)), .up⟩ := by
  have read : readHead (disk area.start) = .ok [] := by
    cases found : readHead (disk area.start) with
    | error halt => simp [found, Except.toOption] at header
    | ok lh =>
      obtain rfl : lh = [] := by simpa [found, Except.toOption] using header
      rfl
  have boot : Recovery.Moves area (crash disk) ⟨disk, .install [] 0⟩ :=
    .inl (by simp [Recovery.step, crash, read, Except.map])
  have install : Recovery.Moves area ⟨disk, .install [] 0⟩ ⟨disk, .clearHead⟩ := .inl rfl
  have clear : Recovery.Moves area ⟨disk, .clearHead⟩
      ⟨update disk area.start (headBlock [] (disk area.start)), .up⟩ := .inl rfl
  exact ((Relation.ReflTransGen.single boot).tail install).tail clear

end Recovery

/-! ## The cache and the disk during a run -/

variable {p : Fin procs} {op : Nat}

namespace Log

/-- Operations change home blocks only. -/
def HomeOnly (area : LogArea) : LogEvent procs → Prop
  | .modify _ blockno _ => ¬ area.Contains blockno
  | _ => True

instance (area : LogArea) (event : LogEvent procs) : Decidable (HomeOnly area event) :=
  match event with
  | .modify _ blockno _ => inferInstanceAs (Decidable (¬ area.Contains blockno))
  | .beginOp _ | .logWriteTests _ | .logWrite _ | .endOp _ | .commit _ | .kill _ | .fill _
  | .evict _ => .isTrue trivial

/-- When `log_write` takes the lock, its test still passes or the block is listed already. -/
def StillFits (area : LogArea) (s : Log procs) : LogEvent procs → Prop
  | .logWrite p => ∀ blockno ∈ (s.pc p).held?, blockno ∈ s.lh ∨ ¬ s.Full area
  | _ => True

instance (area : LogArea) (s : Log procs) (event : LogEvent procs) :
    Decidable (s.StillFits area event) :=
  match event with
  | .logWrite p =>
    inferInstanceAs (Decidable (∀ blockno ∈ (s.pc p).held?, blockno ∈ s.lh ∨ ¬ s.Full area))
  | .beginOp _ | .logWriteTests _ | .modify _ _ _ | .endOp _ | .commit _ | .kill _ | .fill _
  | .evict _ => .isTrue trivial

/-- All writes so far, in order. -/
def writes (s : Log procs) : List Write := s.transactions.flatten ++ s.current

/-- The disk that the first `k` transactions make of another one. -/
def target (s : Log procs) (first : Nat → Block) (k : Nat) : Nat → Block :=
  applyWrites first (s.transactions.take k).flatten

/-- The cache holds what has been written, and differs from the disk only in blocks that are
listed in the header or being changed. -/
structure Cached (area : LogArea) (first : Nat → Block) (s : Log procs) : Prop where
  nodup : s.lh.Nodup
  home : ∀ blockno ∈ s.lh, ¬ area.Contains blockno
  bounded : ∀ blockno ∈ s.lh, blockno < fsSize
  short : s.lh.length ≤ logSize
  room : s.lh.length < area.size
  held : ∀ blockno, s.Held blockno → ¬ area.Contains blockno ∧ blockno < fsSize
  dirty : ∀ blockno, s.bufs.dirty blockno = true → blockno ∈ s.lh
  clean : ∀ blockno, s.bufs.dirty blockno = false → ¬ s.Held blockno →
    s.bufs.view blockno = s.bufs.disk blockno
  /-- A home block that nobody changes is as the writes so far make it. -/
  view : ∀ blockno, ¬ area.Contains blockno → ¬ s.Held blockno →
    s.bufs.view blockno = applyWrites first s.writes blockno

section Cached

variable {area : LogArea} {first : Nat → Block} {s s' : Log procs}

theorem start_cached (area : LogArea) (disk : Nat → Block) :
    (start procs disk).Cached area disk where
  nodup := .nil
  home := by simp [start]
  bounded := by simp [start]
  short := by simp [start]
  room := area.positive
  held blockno held := by
    obtain ⟨p, here⟩ := held
    simp [start, LogPlace.held?] at here
  dirty := by simp [start]
  clean _ _ _ := rfl
  view _ _ _ := rfl

theorem Cached.congr (cached : s.Cached area first) (bufs : s'.bufs = s.bufs) (lh : s'.lh = s.lh)
    (writes : s'.writes = s.writes) (held : ∀ blockno, s'.Held blockno ↔ s.Held blockno) :
    s'.Cached area first where
  nodup := by rw [lh]; exact cached.nodup
  home := by rw [lh]; exact cached.home
  bounded := by rw [lh]; exact cached.bounded
  short := by rw [lh]; exact cached.short
  room := by rw [lh]; exact cached.room
  held blockno here := cached.held blockno ((held blockno).mp here)
  dirty := by rw [lh, bufs]; exact cached.dirty
  clean blockno clean free := by
    rw [bufs] at clean ⊢
    exact cached.clean blockno clean fun here => free ((held blockno).mpr here)
  view blockno outside free := by
    rw [bufs, writes]
    exact cached.view blockno outside fun here => free ((held blockno).mpr here)

theorem held_setPc {place : LogPlace} (same : place.held? = (s.pc p).held?) (blockno : Nat) :
    (s.setPc p place).Held blockno ↔ s.Held blockno := by
  refine exists_congr fun q => ?_
  by_cases here : q = p
  · subst here
    simp [setPc, same]
  · simp [setPc, update_of_ne here]

theorem held_wakeup (blockno : Nat) : s.wakeup.Held blockno ↔ s.Held blockno := by
  refine exists_congr fun p => ?_
  simp only [wakeup]
  split
  case isTrue asleep => simp [asleep, LogPlace.held?]
  case isFalse => rfl

theorem Cached.move (cached : s.Cached area first) {place : LogPlace}
    (same : place.held? = (s.pc p).held?) : (s.setPc p place).Cached area first :=
  cached.congr rfl rfl rfl (held_setPc same)

theorem view_fill (bufs : Buffers) (blockno other : Nat) (absent : bufs.data blockno = none) :
    (bufs.fill blockno).view other = bufs.view other := by
  by_cases same : other = blockno
  · subst same
    simp [Buffers.fill, Buffers.setData, Buffers.view, absent]
  · simp [Buffers.fill, Buffers.setData, Buffers.view, update_of_ne same]

theorem view_evict (bufs : Buffers) (blockno other : Nat)
    (clean : bufs.view blockno = bufs.disk blockno) :
    (bufs.evict blockno).view other = bufs.view other := by
  by_cases same : other = blockno
  · subst same
    rw [clean]
    simp [Buffers.evict, Buffers.view]
  · simp [Buffers.evict, Buffers.view, update_of_ne same]

theorem Cached.views (cached : s.Cached area first) {bufs : Buffers}
    (disk : bufs.disk = s.bufs.disk) (dirty : bufs.dirty = s.bufs.dirty)
    (view : ∀ blockno, bufs.view blockno = s.bufs.view blockno) :
    (s.setBufs bufs).Cached area first where
  nodup := cached.nodup
  home := cached.home
  bounded := cached.bounded
  short := cached.short
  room := cached.room
  held := cached.held
  dirty blockno marked := cached.dirty blockno (by rw [← dirty]; exact marked)
  clean blockno unmarked free := by
    change bufs.view blockno = bufs.disk blockno
    rw [view, disk]
    exact cached.clean blockno (by rw [← dirty]; exact unmarked) free
  view blockno outside free := (view blockno).trans (cached.view blockno outside free)

/-- Changing a buffer: nobody else looks at it until it is logged. -/
theorem Cached.edit (cached : s.Cached area first) {blockno : Nat} {block : Block}
    (inside : s.pc p = .inOp op) (bound : blockno < fsSize) (outside : ¬ area.Contains blockno) :
    (s.edit p op blockno block).Cached area first := by
  have holds : ∀ other, (s.edit p op blockno block).Held other ↔
      s.Held other ∨ other = blockno := by
    intro other
    constructor
    · rintro ⟨q, here⟩
      by_cases same : q = p
      · subst same
        simp only [Log.edit, setPc, update_self, LogPlace.held?, Option.some.injEq] at here
        exact .inr here.symm
      · simp only [Log.edit, setPc, update_of_ne same] at here
        exact .inl ⟨q, here⟩
    · rintro (⟨q, here⟩ | rfl)
      · have different : q ≠ p := by
          rintro rfl
          simp [inside, LogPlace.held?] at here
        exact ⟨q, by simpa only [Log.edit, setPc, update_of_ne different] using here⟩
      · exact ⟨p, by simp [Log.edit, setPc, LogPlace.held?]⟩
  have views : ∀ other, ¬ (s.edit p op blockno block).Held other →
      ¬ s.Held other ∧ (s.edit p op blockno block).bufs.view other = s.bufs.view other := by
    intro other free
    rw [holds, not_or] at free
    exact ⟨free.1, by simp [Log.edit, Buffers.view, Buffers.setData, update_of_ne free.2]⟩
  refine ⟨cached.nodup, cached.home, cached.bounded, cached.short, cached.room, ?_, cached.dirty,
    ?_, ?_⟩
  · intro other here
    rcases (holds other).mp here with before | rfl
    · exact cached.held other before
    · exact ⟨outside, bound⟩
  · intro other unmarked free
    obtain ⟨before, same⟩ := views other free
    exact same.trans (cached.clean other unmarked before)
  · intro other home free
    obtain ⟨before, same⟩ := views other free
    exact same.trans (cached.view other home before)

/-- Logging a block: what the buffer holds is the last write. -/
theorem Cached.record (cached : s.Cached area first) {blockno : Nat}
    (tested : s.pc p = .logging op blockno) {lh : List Nat}
    (found : blockno ∈ s.lh ∧ lh = s.lh ∨ blockno ∉ s.lh ∧ lh = s.lh ++ [blockno] ∧
      s.lh.length < logSize ∧ s.lh.length + 1 < area.size) :
    (s.record p op blockno lh).Cached area first := by
  have mine : s.Held blockno := ⟨p, by rw [tested, LogPlace.held?]⟩
  obtain ⟨outside, bound⟩ := cached.held blockno mine
  have listed : ∀ other, other ∈ lh ↔ other ∈ s.lh ∨ other = blockno := by
    intro other
    rcases found with ⟨known, rfl⟩ | ⟨-, rfl, -, -⟩
    · exact ⟨.inl, fun either => either.elim id fun same => same ▸ known⟩
    · simp
  have held : ∀ other, (s.record p op blockno lh).Held other → s.Held other := by
    rintro other ⟨q, here⟩
    by_cases same : q = p
    · subst same
      simp [Log.record, setPc, LogPlace.held?] at here
    · exact ⟨q, by simpa only [Log.record, setPc, update_of_ne same] using here⟩
  have others : ∀ other, ¬ (s.record p op blockno lh).Held other → other ≠ blockno →
      ¬ s.Held other := by
    rintro other free different ⟨q, here⟩
    refine free ⟨q, ?_⟩
    have elsewhere : q ≠ p := by
      rintro rfl
      rw [tested] at here
      exact different (Option.some.inj here).symm
    simpa only [Log.record, setPc, update_of_ne elsewhere] using here
  refine ⟨?_, ?_, ?_, ?_, ?_, fun other here => cached.held other (held other here), ?_, ?_, ?_⟩
  · change lh.Nodup
    rcases found with ⟨-, rfl⟩ | ⟨unknown, rfl, -, -⟩
    · exact cached.nodup
    · exact List.nodup_append.mpr ⟨cached.nodup, by simp, fun one member other last => by
        obtain rfl := List.mem_singleton.mp last
        rintro rfl
        exact unknown member⟩
  · intro other member
    rcases (listed other).mp member with before | rfl
    · exact cached.home other before
    · exact outside
  · intro other member
    rcases (listed other).mp member with before | rfl
    · exact cached.bounded other before
    · exact bound
  · change lh.length ≤ logSize
    rcases found with ⟨-, rfl⟩ | ⟨-, rfl, short, -⟩
    · exact cached.short
    · simp only [List.length_append, List.length_singleton]
      omega
  · change lh.length < area.size
    rcases found with ⟨-, rfl⟩ | ⟨-, rfl, -, room⟩
    · exact cached.room
    · simpa using room
  · intro other marked
    change update s.bufs.dirty blockno true other = true at marked
    refine (listed other).mpr ?_
    by_cases same : other = blockno
    · exact .inr same
    · rw [update_of_ne same] at marked
      exact .inl (cached.dirty other marked)
  · intro other unmarked free
    change update s.bufs.dirty blockno true other = false at unmarked
    by_cases same : other = blockno
    · simp [same] at unmarked
    · rw [update_of_ne same] at unmarked
      exact cached.clean other unmarked (others other free same)
  · intro other home free
    change s.bufs.view other = applyWrites first (s.transactions.flatten ++
      (s.current ++ [⟨op, blockno, s.bufs.view blockno⟩])) other
    rw [← List.append_assoc, applyWrites_concat]
    by_cases same : other = blockno
    · rw [same, update_self]
    · rw [update_of_ne same]
      exact cached.view other home (others other free same)

/-- A write that returns has stored the block on the disk and left it clean in the cache. -/
theorem bwrite_eq_ok {bufs bufs' : Buffers} {blockno : Nat} {block : Block}
    (written : bufs.bwrite blockno block = .ok bufs') :
    bufs'.disk = update bufs.disk blockno block ∧
      bufs'.dirty = update bufs.dirty blockno false ∧
      ∀ other, bufs'.view other = update bufs.view blockno block other := by
  unfold Buffers.bwrite at written
  split at written
  case isTrue =>
    cases written
    refine ⟨rfl, rfl, fun other => ?_⟩
    by_cases same : other = blockno
    · subst same
      simp [Buffers.view]
    · simp [Buffers.view, update_of_ne same]
  case isFalse => cases written

/-- Writing a log block, or a home block as it is in the cache. -/
theorem Cached.bwrite (cached : s.Cached area first) {bufs : Buffers} {blockno : Nat}
    {block : Block} (written : s.bufs.bwrite blockno block = .ok bufs)
    (kind : area.Contains blockno ∨ block = s.bufs.view blockno) :
    (s.setBufs bufs).Cached area first := by
  obtain ⟨disk, dirty, view⟩ := bwrite_eq_ok written
  refine ⟨cached.nodup, cached.home, cached.bounded, cached.short, cached.room, cached.held,
    ?_, ?_, ?_⟩
  · intro other marked
    change bufs.dirty other = true at marked
    by_cases same : other = blockno
    · simp [dirty, same] at marked
    · rw [dirty, update_of_ne same] at marked
      exact cached.dirty other marked
  · intro other unmarked free
    change bufs.view other = bufs.disk other
    rw [view, disk]
    by_cases same : other = blockno
    · simp [same]
    · change bufs.dirty other = false at unmarked
      rw [dirty, update_of_ne same] at unmarked
      rw [update_of_ne same, update_of_ne same]
      exact cached.clean other unmarked free
  · intro other outside free
    change bufs.view other = _
    rw [view]
    by_cases same : other = blockno
    · subst same
      rcases kind with inside | rfl
      · exact absurd inside outside
      · rw [update_self]
        exact cached.view other outside free
    · rw [update_of_ne same]
      exact cached.view other outside free

end Cached

/-! ## The phases of a commit -/

/-- Nothing is left to commit: the disk is that of all closed transactions. -/
def Rested (area : LogArea) (first : Nat → Block) (s : Log procs) : Prop :=
  s.commits = s.transactions.length ∧
    Committed area s.bufs.disk [] (s.target first s.transactions.length)

/-- One transaction is closed and not on the disk. -/
def Pending (area : LogArea) (first : Nat → Block) (s : Log procs) : Prop :=
  s.commits + 1 = s.transactions.length ∧ Committed area s.bufs.disk [] (s.target first s.commits)

/-- The first `tail` listed blocks are in the log. -/
def Copied (area : LogArea) (first : Nat → Block) (s : Log procs) (tail : Nat) : Prop :=
  ∀ i < tail, ∀ blockno, s.lh[i]? = some blockno →
    s.bufs.disk (area.start + i + 1) = s.target first s.transactions.length blockno

/-- What is on the disk, by the place of the committer. -/
def Phase (area : LogArea) (first : Nat → Block) (s : Log procs) : LogPlace → Prop
  | .commit => s.Pending area first
  | .writeLog tail => s.Pending area first ∧ s.Copied area first tail
  | .writeHead => s.Pending area first ∧ s.Copied area first s.lh.length
  | .install tail => s.commits + 1 = s.transactions.length ∧
      Committed area s.bufs.disk s.lh (s.target first s.transactions.length) ∧
      Installed s.bufs.disk s.lh (s.target first s.transactions.length) tail ∧
      ∀ i < tail, ∀ blockno, s.lh[i]? = some blockno → s.bufs.dirty blockno = false
  | .clearHead => s.commits + 1 = s.transactions.length ∧
      (∃ lh, Committed area s.bufs.disk lh (s.target first s.transactions.length)) ∧
      ∀ blockno, ¬ area.Contains blockno →
        s.bufs.disk blockno = s.target first s.transactions.length blockno
  | .finish => s.Rested area first
  | _ => True

/-- The disk is in the phase of the committer, and at rest when there is none. -/
structure Durable (area : LogArea) (first : Nat → Block) (s : Log procs) : Prop where
  cached : s.Cached area first
  rested : s.committing = false → s.Rested area first
  phase : ∀ p, s.Phase area first (s.pc p)

section Durable

variable {area : LogArea} {first : Nat → Block} {s s' : Log procs}

/-- A phase speaks about the disk, the dirty bits, the header and the closed transactions only. -/
theorem Phase.congr {place : LogPlace} (phase : s.Phase area first place)
    (disk : s'.bufs.disk = s.bufs.disk) (dirty : s'.bufs.dirty = s.bufs.dirty)
    (lh : s'.lh = s.lh) (transactions : s'.transactions = s.transactions)
    (commits : s'.commits = s.commits) : s'.Phase area first place := by
  have targets : s'.target first = s.target first := by
    funext k
    simp [target, transactions]
  cases place with
  | idle | sleeping | woken | inOp op | editing op blockno | logging op blockno => trivial
  | commit | writeLog tail | writeHead | install tail | clearHead | finish =>
    simpa only [Phase, Pending, Copied, Rested, disk, dirty, lh, transactions, commits, targets]
      using phase

theorem phase_of_not_inCommit {place : LogPlace} (outside : place.inCommit = false) :
    s.Phase area first place := by
  cases place with
  | idle | sleeping | woken | inOp op | editing op blockno | logging op blockno => trivial
  | commit | writeLog tail | writeHead | install tail | clearHead | finish =>
    simp [LogPlace.inCommit] at outside

theorem Durable.quiet (durable : s.Durable area first) (cached : s'.Cached area first)
    (disk : s'.bufs.disk = s.bufs.disk) (committing : s'.committing = s.committing)
    (transactions : s'.transactions = s.transactions) (commits : s'.commits = s.commits)
    (phase : ∀ p, (s'.pc p).inCommit = true →
      s'.pc p = s.pc p ∧ s'.bufs.dirty = s.bufs.dirty ∧ s'.lh = s.lh) : s'.Durable area first where
  cached := cached
  rested calm := by
    have rested := durable.rested (committing ▸ calm)
    simpa only [Rested, target, disk, transactions, commits] using rested
  phase p := by
    cases commits' : (s'.pc p).inCommit with
    | false => exact phase_of_not_inCommit commits'
    | true =>
      obtain ⟨place, dirty, lh⟩ := phase p commits'
      rw [place]
      exact (durable.phase p).congr disk dirty lh transactions commits

theorem setPc_inCommit (place : LogPlace) (outside : place.inCommit = false) (q : Fin procs)
    (commits : ((s.setPc p place).pc q).inCommit = true) : (s.setPc p place).pc q = s.pc q := by
  by_cases here : q = p
  · subst here
    simp only [setPc, update_self, outside, Bool.false_eq_true] at commits
  · simp only [setPc, update_of_ne here]

theorem wakeup_inCommit (q : Fin procs) (commits : (s.wakeup.pc q).inCommit = true) :
    s.wakeup.pc q = s.pc q := by
  simp only [wakeup] at commits ⊢
  split at commits
  case isTrue => simp [LogPlace.inCommit] at commits
  case isFalse awake => rw [if_neg awake]

theorem Durable.of_advance (synced : s.Synced) {place : LogPlace} (here : (s.pc p).inCommit = true)
    (cached : s'.Cached area first) (committing : s'.committing = s.committing)
    (pc : s'.pc = update s.pc p place) (phase : s'.Phase area first place) :
    s'.Durable area first where
  cached := cached
  rested calm := by
    rw [committing, synced.busy here] at calm
    cases calm
  phase q := by
    by_cases same : q = p
    · rw [pc, same, update_self]
      exact phase
    · rw [pc, update_of_ne same]
      refine phase_of_not_inCommit ?_
      by_contra commits
      exact same (synced.unique (by simpa using commits) here)

theorem Synced.released (synced : s.Synced) (here : (s.pc p).inCommit = true) (blockno : Nat) :
    ¬ s.Held blockno := by
  rintro ⟨q, holds⟩
  have idle := synced.alone here q
  cases place : s.pc q <;> simp [place, LogPlace.held?, LogPlace.op?] at holds idle

/-- During a commit the cache holds what all closed transactions have written. -/
theorem Cached.committing (cached : s.Cached area first) (synced : s.Synced) (settled : s.Settled)
    (here : (s.pc p).inCommit = true) :
    (∀ blockno, ¬ area.Contains blockno →
      s.bufs.view blockno = s.target first s.transactions.length blockno) ∧
    (∀ blockno, ¬ area.Contains blockno → blockno ∉ s.lh →
      s.bufs.disk blockno = s.target first s.transactions.length blockno) ∧
    ∀ blockno, area.Contains blockno → s.bufs.view blockno = s.bufs.disk blockno := by
  have free := synced.released here
  have all : s.writes = (s.transactions.take s.transactions.length).flatten := by
    simp [writes, settled (synced.busy here)]
  have unlisted : ∀ blockno, blockno ∉ s.lh → s.bufs.view blockno = s.bufs.disk blockno :=
    fun blockno absent => cached.clean blockno
      (by by_contra marked; exact absent (cached.dirty blockno (by simpa using marked)))
      (free blockno)
  have views : ∀ blockno, ¬ area.Contains blockno →
      s.bufs.view blockno = s.target first s.transactions.length blockno := by
    intro blockno outside
    rw [cached.view blockno outside (free blockno), target, all]
  exact ⟨views, fun blockno outside absent => (unlisted blockno absent).symm.trans
    (views blockno outside), fun blockno inside => unlisted blockno fun listed =>
      cached.home blockno listed inside⟩

theorem start_durable (disk : Nat → Block) (clean : readHead (disk area.start) = .ok []) :
    (start procs disk).Durable area disk where
  cached := start_cached area disk
  rested _ := ⟨rfl, .empty clean fun _ _ => rfl⟩
  phase _ := trivial

theorem Durable.close (durable : s.Durable area first) (synced : s.Synced)
    (inside : s.pc p = .inOp op) (calm : s.committing = false) :
    (s.close p).Durable area first := by
  obtain ⟨counted, committed⟩ := durable.rested calm
  refine ⟨?_, fun open' => absurd open' (by simp [Log.close]), fun q => ?_⟩
  · refine durable.cached.congr rfl rfl (by simp [writes, Log.close]) ?_
    exact held_setPc (by rw [inside]; rfl)
  · by_cases same : q = p
    · subst same
      have place : (s.close q).pc q = .commit := by simp [Log.close, setPc]
      rw [place]
      refine ⟨by simp [Log.close, setPc, counted], ?_⟩
      have before : (s.close q).target first s.commits =
          s.target first s.transactions.length := by
        simp [target, Log.close, counted]
      change Committed area s.bufs.disk [] ((s.close q).target first s.commits)
      rw [before]
      exact committed
    · have place : (s.close p).pc q = s.pc q := by
        simp [Log.close, setPc, update_of_ne same]
      refine phase_of_not_inCommit ?_
      rw [place]
      by_contra commits
      simp [synced.busy (p := q) (by simpa using commits)] at calm

theorem Durable.copy (durable : s.Durable area first) (synced : s.Synced) (settled : s.Settled)
    {blockno : Nat} {bufs : Buffers} (here : s.pc p = .writeLog tail)
    (entry : s.lh[tail]? = some blockno)
    (written : s.bufs.bwrite (area.start + tail + 1) (s.bufs.view blockno) = .ok bufs) :
    ((s.setPc p (.writeLog (tail + 1))).setBufs bufs).Durable area first := by
  have busy : (s.pc p).inCommit = true := by rw [here, LogPlace.inCommit]
  obtain ⟨bound, -⟩ := List.getElem?_eq_some_iff.mp entry
  obtain ⟨inside, other⟩ := LogArea.contains_copy durable.cached.room bound
  obtain ⟨views, -, -⟩ := durable.cached.committing synced settled busy
  obtain ⟨disk, -, -⟩ := bwrite_eq_ok written
  have phase := durable.phase p
  rw [here] at phase
  obtain ⟨⟨counted, committed⟩, copied⟩ := phase
  have cached : ((s.setPc p (.writeLog (tail + 1))).setBufs bufs).Cached area first :=
    (durable.cached.move (by rw [here]; rfl)).bwrite written (.inl inside)
  refine Durable.of_advance synced busy cached rfl rfl ⟨⟨counted, .empty ?_ ?_⟩, ?_⟩
  · change readHead (bufs.disk area.start) = _
    rw [disk, update_of_ne other.symm]
    exact committed.header
  · intro home outside
    change bufs.disk home = _
    rw [disk, update_of_ne (by rintro rfl; exact outside inside)]
    exact committed.rest home outside (by simp)
  · intro i early listed found
    change bufs.disk (area.start + i + 1) = s.target first s.transactions.length listed
    rw [disk]
    by_cases same : i = tail
    · subst same
      obtain rfl : blockno = listed := Option.some.inj (entry.symm.trans found)
      rw [update_self]
      exact views blockno (durable.cached.home blockno (List.mem_of_getElem? entry))
    · rw [update_of_ne (by omega)]
      exact copied i (by omega) listed found

theorem Durable.head (durable : s.Durable area first) (synced : s.Synced) (settled : s.Settled)
    {bufs : Buffers} (here : s.pc p = .writeHead)
    (written : s.bufs.bwrite area.start (headBlock s.lh (s.bufs.view area.start)) = .ok bufs) :
    ((s.setPc p (.install 0)).setBufs bufs).Durable area first := by
  have busy : (s.pc p).inCommit = true := by rw [here, LogPlace.inCommit]
  obtain ⟨-, unlisted, -⟩ := durable.cached.committing synced settled busy
  obtain ⟨disk, -, -⟩ := bwrite_eq_ok written
  have phase := durable.phase p
  rw [here] at phase
  obtain ⟨⟨counted, -⟩, copied⟩ := phase
  have cached : ((s.setPc p (.install 0)).setBufs bufs).Cached area first :=
    (durable.cached.move (by rw [here]; rfl)).bwrite written (.inl area.contains_start)
  refine Durable.of_advance synced busy cached rfl rfl ⟨counted, ?_, ?_, ?_⟩
  · refine ⟨?_, cached.nodup, cached.home, cached.bounded, cached.room, ?_, ?_⟩
    · change readHead (bufs.disk area.start) = _
      rw [disk, update_self]
      exact readHead_headBlock cached.short cached.bounded _
    · intro i blockno entry
      obtain ⟨bound, -⟩ := List.getElem?_eq_some_iff.mp entry
      change bufs.disk (area.start + i + 1) = _
      rw [disk, update_of_ne (by omega)]
      exact copied i bound blockno entry
    · intro blockno outside absent
      change bufs.disk blockno = _
      rw [disk, update_of_ne (by rintro rfl; exact outside area.contains_start)]
      exact unlisted blockno outside absent
  · intro i early
    omega
  · intro i early
    omega

theorem Durable.install (durable : s.Durable area first) (synced : s.Synced) (settled : s.Settled)
    {blockno : Nat} {bufs : Buffers} (here : s.pc p = .install tail)
    (entry : s.lh[tail]? = some blockno)
    (written : s.bufs.bwrite blockno (s.bufs.view (area.start + tail + 1)) = .ok bufs) :
    ((s.setPc p (.install (tail + 1))).setBufs bufs).Durable area first := by
  have busy : (s.pc p).inCommit = true := by rw [here, LogPlace.inCommit]
  obtain ⟨bound, -⟩ := List.getElem?_eq_some_iff.mp entry
  obtain ⟨inside, -⟩ := LogArea.contains_copy durable.cached.room bound
  obtain ⟨views, -, copies⟩ := durable.cached.committing synced settled busy
  obtain ⟨disk, dirty, -⟩ := bwrite_eq_ok written
  have phase := durable.phase p
  rw [here] at phase
  obtain ⟨counted, committed, installed, unmarked⟩ := phase
  rw [copies _ inside] at written disk
  have same : s.bufs.disk (area.start + tail + 1) = s.bufs.view blockno :=
    (committed.copies tail blockno entry).trans
      (views blockno (durable.cached.home blockno (List.mem_of_getElem? entry))).symm
  have cached : ((s.setPc p (.install (tail + 1))).setBufs bufs).Cached area first :=
    (durable.cached.move (by rw [here]; rfl)).bwrite written (.inr same)
  obtain ⟨kept, further⟩ := committed.install entry installed
  refine Durable.of_advance synced busy cached rfl rfl ⟨counted, ?_, ?_, ?_⟩
  · change Committed area bufs.disk s.lh _
    rw [disk]
    exact kept
  · change Installed bufs.disk s.lh _ _
    rw [disk]
    exact further
  · intro i early other (listed : s.lh[i]? = some other)
    change bufs.dirty other = false
    rw [dirty]
    by_cases again : other = blockno
    · rw [again, update_self]
    · rw [update_of_ne again]
      refine unmarked i ?_ other listed
      rcases Nat.lt_succ_iff_lt_or_eq.mp early with before | rfl
      · exact before
      · rw [entry] at listed
        exact absurd (Option.some.inj listed).symm again

/-- `install_trans` returns: no block is dirty any more. -/
theorem Durable.forget (durable : s.Durable area first) (synced : s.Synced)
    (here : s.pc p = .install tail) (past : s.lh.length ≤ tail) :
    (s.setPc p .clearHead).forget.Durable area first := by
  have busy : (s.pc p).inCommit = true := by rw [here, LogPlace.inCommit]
  have phase := durable.phase p
  rw [here] at phase
  obtain ⟨counted, committed, installed, unmarked⟩ := phase
  have moved : (s.setPc p .clearHead).Cached area first :=
    durable.cached.move (by rw [here]; rfl)
  have cached : (s.setPc p .clearHead).forget.Cached area first := by
    refine ⟨.nil, by simp [Log.forget], by simp [Log.forget], Nat.zero_le _, area.positive,
      moved.held, fun blockno marked => ?_, moved.clean, moved.view⟩
    obtain ⟨i, entry⟩ := List.mem_iff_getElem?.mp (durable.cached.dirty blockno marked)
    obtain ⟨bound, -⟩ := List.getElem?_eq_some_iff.mp entry
    have clean := unmarked i (by omega) blockno entry
    change s.bufs.dirty blockno = true at marked
    simp [clean] at marked
  exact Durable.of_advance synced busy cached rfl rfl
    ⟨counted, ⟨s.lh, committed⟩, committed.complete past installed⟩

theorem Durable.clear (durable : s.Durable area first) (synced : s.Synced) {bufs : Buffers}
    (here : s.pc p = .clearHead)
    (written : s.bufs.bwrite area.start (headBlock s.lh (s.bufs.view area.start)) = .ok bufs) :
    ((s.setPc p .finish).setBufs bufs).committed.Durable area first := by
  have busy : (s.pc p).inCommit = true := by rw [here, LogPlace.inCommit]
  have phase := durable.phase p
  rw [here] at phase
  obtain ⟨counted, -, same⟩ := phase
  rw [synced.cleared p (.inl here)] at written
  obtain ⟨disk, -, -⟩ := bwrite_eq_ok written
  have moved : ((s.setPc p .finish).setBufs bufs).Cached area first :=
    (durable.cached.move (by rw [here]; rfl)).bwrite written (.inl area.contains_start)
  have cached : ((s.setPc p .finish).setBufs bufs).committed.Cached area first :=
    moved.congr rfl rfl rfl fun _ => Iff.rfl
  refine Durable.of_advance synced busy cached rfl rfl ⟨counted, ?_⟩
  change Committed area bufs.disk [] _
  rw [disk]
  exact Committed.clear same _

theorem Durable.record (durable : s.Durable area first) (synced : s.Synced) {blockno : Nat}
    {lh : List Nat} (here : s.pc p = .logging op blockno)
    (cached : (s.record p op blockno lh).Cached area first) :
    (s.record p op blockno lh).Durable area first := by
  refine durable.quiet cached rfl rfl rfl rfl fun q commits => ?_
  have place : (s.record p op blockno lh).pc q = s.pc q :=
    setPc_inCommit (.inOp op) rfl q commits
  have idle := synced.alone (place ▸ commits) p
  simp [here, LogPlace.op?] at idle

theorem Durable.skip (durable : s.Durable area first) (synced : s.Synced) (settled : s.Settled)
    (here : s.pc p = .commit) (nothing : s.lh = []) :
    (s.setPc p .finish).committed.Durable area first := by
  have busy : (s.pc p).inCommit = true := by rw [here, LogPlace.inCommit]
  obtain ⟨-, unlisted, -⟩ := durable.cached.committing synced settled busy
  have phase := durable.phase p
  rw [here] at phase
  have moved : (s.setPc p .finish).Cached area first := durable.cached.move (by rw [here]; rfl)
  refine .of_advance synced busy (moved.congr rfl rfl rfl fun _ => Iff.rfl) rfl rfl
    ⟨phase.1, .empty phase.2.header fun blockno outside => ?_⟩
  exact unlisted blockno outside (by simp [nothing])

theorem Durable.reopen (durable : s.Durable area first) (synced : s.Synced)
    (here : s.pc p = .finish) : (s.setPc p .idle).reopen.Durable area first := by
  have phase := durable.phase p
  rw [here] at phase
  have moved : (s.setPc p .idle).Cached area first := durable.cached.move (by rw [here]; rfl)
  refine ⟨moved.congr rfl rfl rfl held_wakeup, fun _ => phase, fun q => ?_⟩
  refine phase_of_not_inCommit ?_
  by_contra commits
  rw [Bool.not_eq_false] at commits
  have awake := wakeup_inCommit q commits
  have before := setPc_inCommit (s := s) (p := p) .idle rfl q (awake ▸ commits)
  have theirs : (s.pc q).inCommit = true := by
    rw [← before]
    exact awake ▸ commits
  obtain rfl := synced.unique theirs (by rw [here, LogPlace.inCommit])
  simp [setPc, here] at before

/-- Every step keeps the log durable, as long as the tests of `log_write` still pass when it takes
the lock. -/
theorem Durable.step (durable : s.Durable area first) (synced : s.Synced) (settled : s.Settled)
    {event : LogEvent procs} (home : HomeOnly area event) (fits : s.StillFits area event)
    (stepped : s.step area event = .ok s') : s'.Durable area first := by
  have cached := durable.cached
  cases step_moves stepped with
  | none => exact durable
  | sleep p outside =>
    have moved : (s.setPc p .sleeping).Cached area first :=
      cached.move (by rcases outside with here | here <;> rw [here] <;> rfl)
    exact durable.quiet moved rfl rfl rfl rfl fun q commits =>
      ⟨setPc_inCommit _ rfl q commits, rfl, rfl⟩
  | begin p outside =>
    have moved : (s.setPc p (.inOp s.nextOp)).Cached area first :=
      cached.move (by rcases outside with here | here <;> rw [here] <;> rfl)
    exact durable.quiet (moved.congr rfl rfl rfl fun _ => Iff.rfl) rfl rfl rfl rfl
      fun q commits => ⟨setPc_inCommit (.inOp s.nextOp) rfl q commits, rfl, rfl⟩
  | @edit op p blockno block inside released bound =>
    exact durable.quiet (cached.edit inside bound home) rfl rfl rfl rfl fun q commits =>
      ⟨setPc_inCommit (.editing op blockno) rfl q commits, rfl, rfl⟩
  | test p edited =>
    exact durable.quiet (cached.move (by rw [edited]; rfl)) rfl rfl rfl rfl fun q commits =>
      ⟨setPc_inCommit _ rfl q commits, rfl, rfl⟩
  | @absorb op blockno p here known =>
    exact durable.record synced here (cached.record here (.inl ⟨known, rfl⟩))
  | @append op blockno p here unknown bound =>
    have room : ¬ s.Full area := (fits blockno (by rw [here]; rfl)).resolve_left unknown
    simp only [Full, not_or] at room
    exact durable.record synced here (cached.record here
      (.inr ⟨unknown, rfl, bound, by omega⟩))
  | close p inside calm => exact durable.close synced inside calm
  | leave p inside =>
    have moved : (s.setPc p .idle).Cached area first := cached.move (by rw [inside]; rfl)
    exact durable.quiet (moved.congr rfl rfl rfl held_wakeup) rfl rfl rfl rfl fun q commits =>
      ⟨(wakeup_inCommit q commits).trans (setPc_inCommit .idle rfl q
        (wakeup_inCommit q commits ▸ commits)), rfl, rfl⟩
  | commit p here =>
    have phase := durable.phase p
    rw [here] at phase
    exact .of_advance synced (by rw [here, LogPlace.inCommit]) (cached.move (by rw [here]; rfl))
      rfl rfl ⟨phase, fun i early => absurd early (Nat.not_lt_zero i)⟩
  | skip p here nothing => exact durable.skip synced settled here nothing
  | copy p here entry written => exact durable.copy synced settled here entry written
  | copied p here past =>
    have phase := durable.phase p
    rw [here] at phase
    exact .of_advance synced (by rw [here, LogPlace.inCommit]) (cached.move (by rw [here]; rfl))
      rfl rfl ⟨phase.1, fun i early => phase.2 i (Nat.lt_of_lt_of_le early past)⟩
  | head p here written => exact durable.head synced settled here written
  | install p here entry written => exact durable.install synced settled here entry written
  | forget p here past => exact durable.forget synced here past
  | clear p here written => exact durable.clear synced here written
  | reopen p here => exact durable.reopen synced here
  | kill p asleep =>
    exact durable.quiet (cached.move (by rw [asleep]; rfl)) rfl rfl rfl rfl fun q commits =>
      ⟨setPc_inCommit _ rfl q commits, rfl, rfl⟩
  | fill blockno absent =>
    exact durable.quiet (cached.views rfl rfl (view_fill _ blockno · absent)) rfl rfl rfl rfl
      fun _ _ => ⟨rfl, rfl, rfl⟩
  | evict blockno clean released =>
    exact durable.quiet (cached.views rfl rfl (view_evict _ blockno ·
      (cached.clean blockno clean released))) rfl rfl rfl rfl fun _ _ => ⟨rfl, rfl, rfl⟩

/-- Whenever the machine stops, the disk is on its way to a number of transactions. -/
theorem Durable.crashes (durable : s.Durable area first) (synced : s.Synced) :
    ∃ k lh, s.commits ≤ k ∧ k ≤ s.transactions.length ∧
      Committed area s.bufs.disk lh (s.target first k) := by
  cases busy : s.committing with
  | false =>
    obtain ⟨counted, committed⟩ := durable.rested busy
    exact ⟨_, [], counted.le, le_rfl, committed⟩
  | true =>
    obtain ⟨p, here⟩ := synced.exists_committer busy
    have phase := durable.phase p
    cases place : s.pc p with
    | idle | sleeping | woken | inOp op | editing op blockno | logging op blockno =>
      simp [place, LogPlace.inCommit] at here
    | commit =>
      rw [place] at phase
      exact ⟨_, [], le_rfl, by have := phase.1; omega, phase.2⟩
    | writeLog tail | writeHead =>
      rw [place] at phase
      exact ⟨_, [], le_rfl, by have := phase.1.1; omega, phase.1.2⟩
    | install tail =>
      rw [place] at phase
      exact ⟨_, s.lh, by have := phase.1; omega, le_rfl, phase.2.1⟩
    | clearHead =>
      rw [place] at phase
      obtain ⟨counted, ⟨lh, committed⟩, -⟩ := phase
      exact ⟨_, lh, by omega, le_rfl, committed⟩
    | finish =>
      rw [place] at phase
      exact ⟨_, [], phase.1.le, le_rfl, phase.2⟩

end Durable

/-! ## Crashes -/

/-- The writes of an operation are all present, or none is. -/
def AllOrNone (op : Nat) (present all : List Write) : Prop :=
  present.filter (·.op = op) = all.filter (·.op = op) ∨ present.filter (·.op = op) = []

/-- The transactions of a durable log are whole operations. -/
theorem Numbered.allOrNone {s : Log procs} (numbered : s.Numbered) (k op : Nat) :
    AllOrNone op (s.transactions.take k).flatten s.writes := by
  have split : s.writes = (s.transactions.take k).flatten ++
      ((s.transactions.drop k).flatten ++ s.current) := by
    rw [writes, ← List.append_assoc, ← List.flatten_append, List.take_append_drop]
  by_cases present : ∃ write ∈ (s.transactions.take k).flatten, write.op = op
  · left
    obtain ⟨write, member, rfl⟩ := present
    obtain ⟨mine, taken, inside⟩ := List.mem_flatten.mp member
    have pairwise := numbered.pairwise
    rw [← List.take_append_drop k s.transactions, List.pairwise_append] at pairwise
    have later : ((s.transactions.drop k).flatten ++ s.current).filter (·.op = write.op) = [] := by
      rw [List.filter_eq_nil_iff]
      intro other found
      rw [decide_eq_true_eq]
      rcases List.mem_append.mp found with dropped | open'
      · obtain ⟨theirs, left, among⟩ := List.mem_flatten.mp dropped
        exact (pairwise.2.2 mine taken theirs left write inside other among).symm
      · exact (numbered.apart mine (List.mem_of_mem_take taken) write inside other open').symm
    rw [split, List.filter_append, later, List.append_nil]
  · right
    rw [List.filter_eq_nil_iff]
    intro write member
    rw [decide_eq_true_eq]
    exact fun same => present ⟨write, member, same⟩

/-- If the machine stops now, recovery ends however often it is interrupted, and leaves the home
blocks as the first transactions have made them, at least those whose commit had returned, with
the writes of each operation all present or all absent. -/
structure Recovers (area : LogArea) (first : Nat → Block) (s : Log procs) : Prop where
  /-- Recovery can always be completed. -/
  completes : ∀ r, Relation.ReflTransGen (Recovery.Moves area) (crash s.bufs.disk) r →
    ∃ disk, Relation.ReflTransGen (Recovery.Proceeds area) r ⟨disk, .up⟩
  /-- What it leaves. -/
  atomic : ∀ disk, Relation.ReflTransGen (Recovery.Moves area) (crash s.bufs.disk) ⟨disk, .up⟩ →
    ∃ k, s.commits ≤ k ∧ k ≤ s.transactions.length ∧
      (∀ blockno, ¬ area.Contains blockno → disk blockno = s.target first k blockno) ∧
      ∀ op, AllOrNone op (s.transactions.take k).flatten s.writes

end Log

end MemoryEncryption
