import MemoryEncryption.Verif.WorkingSet

/-!
# The pointers in the clock queues

A slot in use should point to the entry of its address in the page table of its own
process. Faults, growth, `exec`, `exit` and `wait` keep this for all processes.
`fork` does not: it gives the child the parent's pointers, so it keeps it exactly if
no slot of the parent is in use.
-/

namespace MemoryEncryption

open ClockRing Outcome

variable {image : Image} {own own' : Nat → Owner} {s s' : Machine (Queue PteAddr)}

/-! ## The invariant -/

/-- Every slot in use points to the entry of its address in the page table of its own process. -/
def OwnPointers (s : Machine (Queue PteAddr)) : Prop :=
  ∀ p, HasSpace s.proc p → ∀ i < clockSize, ((s.proc p).queue.slot i).empty ≠ -1 →
    ((s.proc p).queue.slot i).pte ≠ none ∧
      pteAt s.mem (s.proc p).pgdir (((s.proc p).queue.slot i).va / pgSize) =
        ((s.proc p).queue.slot i).pte

/-- A queue that points into the page table of address space `d` only. -/
structure Queue.Private {σ : Type} (m : Mem σ) (d : Nat) (queue : Queue PteAddr) : Prop where
  hand : -1 ≤ queue.hand ∧ queue.hand < clockSize
  used : ∀ i < clockSize, (queue.slot i).empty ≠ -1 → (queue.slot i).va < kernBase ∧
    mapped (entry m d ((queue.slot i).va / pgSize)) = true ∧
    pteAt m d ((queue.slot i).va / pgSize) = (queue.slot i).pte
  unused : ∀ i < clockSize, (queue.slot i).empty = -1 → (queue.slot i).pte = none

section Private

variable {σ : Type} {m m' : Mem σ} {d : Nat} {queue : Queue PteAddr}

theorem cqInit_private (m : Mem σ) (d : Nat) : cqInit.Private m d :=
  ⟨by decide, fun _ _ inUse => absurd rfl inUse, fun _ _ _ => rfl⟩

theorem Queue.Private.sound (mine : queue.Private m d) : queue.Sound m (· = d) d := by
  refine ⟨mine.hand, fun i bound => ⟨fun pte same => ?_, fun inUse => ?_⟩⟩
  · have inUse : (queue.slot i).empty ≠ -1 := by
      intro vacant
      rw [mine.unused i bound vacant] at same
      simp at same
    obtain ⟨small, isMapped, found⟩ := mine.used i bound inUse
    exact ⟨d, _, rfl, page_of_va small, isMapped, found.trans same⟩
  · obtain ⟨small, isMapped, found⟩ := mine.used i bound inUse
    obtain ⟨pte, found', -⟩ := exists_pteAt isMapped
    refine ⟨?_, small, isMapped⟩
    rw [← found, found']
    simp

theorem Queue.Private.stays (mine : queue.Private m d)
    (pages : ∀ v < userPages, mapped (entry m d v) = true →
      mapped (entry m' d v) = true ∧ pteAt m' d v = pteAt m d v) : queue.Private m' d := by
  refine ⟨mine.hand, fun i bound inUse => ?_, mine.unused⟩
  obtain ⟨small, isMapped, found⟩ := mine.used i bound inUse
  obtain ⟨kept, address⟩ := pages _ (page_of_va small) isMapped
  exact ⟨small, kept, address.trans found⟩

theorem Queue.Private.insert {after : Queue PteAddr} {va : Nat} {pte : PteAddr}
    (mine : queue.Private m d) (hand : -1 ≤ after.hand ∧ after.hand < clockSize)
    (small : va < kernBase) (isMapped : mapped (entry m d (va / pgSize)) = true)
    (found : pteAt m d (va / pgSize) = some pte) (nodes : Inserted m d va pte queue after) :
    after.Private m d := by
  refine ⟨hand, fun i bound inUse => ?_, fun i bound vacant => ?_⟩
  · rcases nodes.origin i bound with ⟨j, bound', same⟩ | ⟨sameVa, samePte, -⟩
    · rw [same] at inUse ⊢
      exact mine.used j bound' inUse
    · rw [sameVa, samePte]
      exact ⟨small, isMapped, found⟩
  · rcases nodes.origin i bound with ⟨j, bound', same⟩ | ⟨-, -, inUse⟩
    · rw [same] at vacant ⊢
      exact mine.unused j bound' vacant
    · exact absurd vacant inUse

theorem Queue.Private.vacant (mine : queue.Private m d)
    (vacant : ∀ i < clockSize, (queue.slot i).empty = -1) (other : Mem σ) (d' : Nat) :
    queue.Private other d' :=
  ⟨mine.hand, fun i bound inUse => absurd (vacant i bound) inUse, mine.unused⟩

end Private

/-- The queues of all processes are private. -/
def PrivateQueues (s : Machine (Queue PteAddr)) : Prop :=
  ∀ p, HasSpace s.proc p → (s.proc p).queue.Private s.mem (s.proc p).pgdir

/-- A machine whose labels are right and whose queues are private. -/
structure Separate (image : Image) (s : Machine (Queue PteAddr)) (own : Nat → Owner) : Prop where
  sane : Sane image s own
  queues : PrivateQueues s

/-- A step keeps queues private if every process has its queue and its pages as before, or a private
queue for another reason. -/
theorem Separate.change (separate : Separate image s own) (sane : Sane image s' own')
    (kept : ∀ q, HasSpace s'.proc q →
      (HasSpace s.proc q ∧ (s'.proc q).pgdir = (s.proc q).pgdir ∧
        (s'.proc q).queue = (s.proc q).queue ∧
        ∀ v < userPages, mapped (entry s.mem (s.proc q).pgdir v) = true →
          mapped (entry s'.mem (s.proc q).pgdir v) = true ∧
            pteAt s'.mem (s.proc q).pgdir v = pteAt s.mem (s.proc q).pgdir v) ∨
      (s'.proc q).queue.Private s'.mem (s'.proc q).pgdir) : Separate image s' own' := by
  refine ⟨sane, fun q member => ?_⟩
  rcases kept q member with ⟨before, pgdir, queue, pages⟩ | mine
  · rw [pgdir, queue]
    exact (separate.queues q before).stays pages
  · exact mine

theorem Separate.stays (separate : Separate image s own) (sane : Sane image s' own')
    (change : Stays own own' s.mem s'.mem)
    (kept : ∀ q, HasSpace s'.proc q → HasSpace s.proc q ∧
      (s'.proc q).pgdir = (s.proc q).pgdir ∧ (s'.proc q).queue = (s.proc q).queue) :
    Separate image s' own' := by
  refine separate.change sane fun q member => .inl ?_
  obtain ⟨before, pgdir, queue⟩ := kept q member
  exact ⟨before, pgdir, queue, fun v => change.pages _ v (separate.sane.live before)⟩

/-! ## Steps -/

/-- The steps of the result. A process calls `fork` only while no slot of its queue is in use. -/
def PointsHome (s : Machine (Queue PteAddr)) : Action → Prop
  | .fork p => ∀ i < clockSize, ((s.proc p).queue.slot i).empty = -1
  | .grow _ n => 0 ≤ n.toInt
  | .exec _ _ _ _ | .exit _ | .wait _ | .fault _ _ _ | .mencrypt _ _ _ | .access _ _ _ => True
  | .pipealloc _ | .pipeclose _ _ => False

section Steps

variable (separate : Separate image s own) {p : Nat} (member : HasSpace s.proc p)

include separate member

theorem Separate.points : Points s own p (· = (s.proc p).pgdir) := by
  refine ⟨?_, rfl, (separate.queues p member).sound⟩
  rintro e rfl
  exact separate.sane.live member

theorem exec_separate {file : Option (List (BitVec 8))} {path : List (BitVec 8)}
    {argv : List (List (BitVec 8))} {done : Bool}
    (returned : exec image clockOps s p file path argv = .ok (done, s')) :
    ∃ own', Separate image s' own' := by
  obtain ⟨own', sane', outcome⟩ := exec_spec clockOps separate.sane member cqInit_remove
    (fun _ => (separate.points member).quiet separate.sane) returned
  refine ⟨own', ?_⟩
  rcases outcome with ⟨-, -, apart, procs⟩ | ⟨-, d, facts⟩
  · refine separate.stays sane' (Apart.carries apart separate.sane.owned).toStays fun q memberQ => ?_
    rw [procs] at memberQ ⊢
    exact ⟨memberQ, rfl, rfl⟩
  · refine separate.change sane' fun q memberQ => ?_
    by_cases here : q = p
    · subst here
      rw [facts.proc.2.2]
      exact .inr (cqInit_private _ _)
    · rw [HasSpace, facts.procs q here] at memberQ
      rw [facts.procs q here]
      have other : (s.proc q).pgdir ≠ (s.proc p).pgdir :=
        fun same => here (separate.sane.distinct q p memberQ member same)
      obtain ⟨-, addresses, entries⟩ := facts.others _ (separate.sane.live memberQ) other
      exact .inl ⟨memberQ, rfl, rfl, fun v user isMapped =>
        ⟨by rw [entries v (page_lt user), isMapped], addresses v⟩⟩

omit member in
/-- `wait`. The pages of the child are not in the queue of the caller. -/
theorem wait_separate {result : Waited} (ready : s.ready p = true)
    (returned : wait image clockOps s p = .ok (result, s')) : ∃ own', Separate image s' own' := by
  have member := hasSpace_of_ready ready
  have mine := separate.queues p member
  have quiet : ∀ q v pte, HasSpace s.proc q → (s.proc q).state = .zombie → v < userPages →
      pteAt s.mem (s.proc q).pgdir v = some pte →
      mapped (entry s.mem (s.proc q).pgdir v) = true →
      clockOps.remove (s.proc p).queue pte = .ok (s.proc p).queue := by
    intro q v pte memberQ zombie user found _
    refine mine.sound.remove ?_
    rintro ⟨e, v', rfl, user', -, found'⟩
    have same := (separate.sane.owned.pteAt_injective (separate.sane.live memberQ)
      (separate.sane.live member) (page_lt user) (page_lt user') found found').1
    obtain rfl := separate.sane.distinct p q member memberQ same
    simp [Machine.ready, zombie, ProcState.alive] at ready
  obtain ⟨_, _, own', waited, sane', outcome⟩ := wait_spec clockOps separate.sane quiet
  rw [returned] at waited
  cases waited
  rcases outcome with ⟨rfl, rfl⟩ | ⟨q, facts⟩
  · exact ⟨_, separate⟩
  refine ⟨own', separate.change sane' fun r memberR => .inl ?_⟩
  have other : r ≠ q := by
    rintro rfl
    exact memberR.2.1 facts.slot
  rw [HasSpace, facts.procs r other] at memberR
  rw [facts.procs r other]
  have apart : (s.proc r).pgdir ≠ (s.proc q).pgdir :=
    fun same => other (separate.sane.distinct r q memberR facts.zombie.1 same)
  refine ⟨memberR, rfl, rfl, fun v user isMapped => ?_⟩
  obtain ⟨same, address, -⟩ := facts.apart.carries_page separate.sane.owned
    (separate.sane.live memberR) apart user isMapped
  exact ⟨by rw [same, isMapped], address⟩

end Steps

variable {action : Action} {spaces : Nat → Nat → Prop}

theorem Effect.separate (effect : Effect image spaces s own action s')
    (separate : Separate image s own) (allowed : PointsHome s action) :
    ∃ own', Separate image s' own' := by
  cases effect with
  | idle => exact ⟨own, separate⟩
  | @fault p va user _ member sane frames change sound others outcome =>
    have mine := separate.queues p member
    have dir := separate.sane.live member
    refine ⟨own, separate.change sane fun q memberQ => ?_⟩
    have before := (hasSpace_congr frames q).mp memberQ
    have pgdir : (s'.proc q).pgdir = (s.proc q).pgdir := (frames q).pgdir before.2.1
    have pages := fun v => change.stays.pages _ v (separate.sane.live before)
    by_cases here : q = p
    · subst here
      rcases outcome with ⟨queue, -⟩ | served
      · exact .inl ⟨before, pgdir, queue, pages⟩
      · have user := page_of_va served.bound
        obtain ⟨pte, found, nodes⟩ := served.nodes
        rw [pgdir]
        exact .inr ((mine.stays pages).insert sound.hand served.bound
          (by rw [change.maps _ _ dir user, served.isMapped])
          (by rw [change.addresses _ _ dir, found]) nodes)
    · exact .inl ⟨before, pgdir, others q here, pages⟩
  | recode sane _ change =>
    exact ⟨own, separate.stays sane change.stays fun q member => ⟨member, rfl, rfl⟩⟩
  | @grow p n _ own' facts =>
    exact ⟨own', separate.stays facts.sane facts.carries.toStays fun q memberQ =>
      ⟨(hasSpace_congr (fun r => (facts.same r).1) q).mp memberQ, (facts.same q).2⟩⟩
  | @fork p _ own' member facts =>
    refine ⟨own', separate.change facts.sane fun q memberQ => ?_⟩
    rcases facts.new q memberQ with before | ⟨d, made⟩
    · rw [(facts.old q before).2]
      exact .inl ⟨before, rfl, rfl, fun v => facts.carries.pages _ v (separate.sane.live before)⟩
    · rw [made.child.2.2.2]
      exact .inr ((separate.queues p member).vacant allowed _ _)

theorem step_separate (separate : Separate image s own) (allowed : PointsHome s action)
    (stepped : s.step image clockOps action = .ok s') : ∃ own', Separate image s' own' := by
  have usual : action.Usual → ∃ own', Separate image s' own' := by
    intro usual
    rcases step_effect separate.sane usual fun p _ member => separate.points member with
      ⟨_, taken, effect⟩ | ⟨_, stopped, -⟩
    · rw [stepped] at taken
      cases taken
      exact effect.separate separate allowed
    · rw [stepped] at stopped
      simp at stopped
  have idle : .ok s = (.ok s' : Except Halt (Machine (Queue PteAddr))) →
      ∃ own', Separate image s' own' := by
    intro same
    cases same
    exact ⟨own, separate⟩
  cases action with
  | exec p file path argv =>
    rw [Machine.step] at stepped
    split at stepped
    · obtain ⟨⟨done, _⟩, returned, rfl⟩ := map_eq_ok.mp stepped
      exact exec_separate separate (hasSpace_of_ready ‹_›) returned
    · exact idle stepped
  | exit p =>
    rw [Machine.step] at stepped
    split at stepped
    · rename_i ready
      rcases exit_spec (hasSpace_of_ready ready) with ⟨_, exited, kept⟩ | ⟨message, stopped⟩
      · rw [stepped] at exited
        cases exited
        refine ⟨own, separate.stays (separate.sane.keeps kept) ?_ fun q member => ?_⟩
        · rw [kept.mem]
          exact (Recoded.refl separate.sane.owned).stays
        · have before := (hasSpace_congr (fun r => (kept.procs r).toSameFrames) q).mp member
          exact ⟨before, (kept.procs q).pgdir before.2.1, (kept.procs q).queue⟩
      · rw [stepped] at stopped
        simp at stopped
    · exact idle stepped
  | wait p =>
    rw [Machine.step] at stepped
    split at stepped
    · obtain ⟨⟨result, _⟩, returned, rfl⟩ := map_eq_ok.mp stepped
      exact wait_separate separate ‹_› returned
    · exact idle stepped
  | grow p n => exact usual allowed
  | fault | mencrypt | fork | access => exact usual trivial
  | pipealloc | pipeclose => exact allowed.elim

/-! ## Runs -/

theorem PrivateQueues.ownPointers (queues : PrivateQueues s) : OwnPointers s := by
  intro p member i bound inUse
  have mine := queues p member
  exact ⟨((mine.sound.slots i bound).used inUse).1, (mine.used i bound inUse).2.2⟩

theorem roomySetup_private : PrivateQueues roomySetup.machine := by
  intro p member
  obtain rfl := roomySetup.hasSpace_iff.mp member
  exact cqInit_private _ _

/-- A child gets the parent's pointers, which are not its own. -/
theorem Forked.shares_pointers {p np d i : Nat} (made : Forked p s own s' own' np d)
    (sane : Sane image s own) (member : HasSpace s.proc p)
    (facts : Branched image p s own s' own') (mine : (s.proc p).queue.Private s.mem (s.proc p).pgdir)
    (bound : i < clockSize) (inUse : ((s.proc p).queue.slot i).empty ≠ -1) : ¬ OwnPointers s' := by
  intro all
  obtain ⟨small, isMapped, found⟩ := mine.used i bound inUse
  obtain ⟨-, address⟩ := facts.carries.pages _ _ (sane.live member) (page_of_va small) isMapped
  obtain ⟨pgdir, -, -, queue⟩ := made.child
  have child : HasSpace s'.proc np := (made.hasSpace_iff np).mpr (.inl rfl)
  have own := all np child i bound (by rw [queue]; exact inUse)
  rw [queue, pgdir] at own
  obtain ⟨pte, pointed⟩ := Option.ne_none_iff_exists'.mp own.1
  have parentLive := facts.carries.live _ (sane.live member)
  have childLive : own' d = .dir := by
    rw [← pgdir]
    exact facts.sane.live child
  have same := (facts.sane.owned.pteAt_injective childLive parentLive
    (page_lt (page_of_va small)) (page_lt (page_of_va small)) (own.2.trans pointed)
    ((address.trans found).trans pointed)).1
  have fresh := made.fresh
  rw [← same, sane.live member] at fresh
  simp at fresh

end MemoryEncryption
