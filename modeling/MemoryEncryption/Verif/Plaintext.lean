import MemoryEncryption.Verif.QueueSteps

/-!
# Plaintexts

Faults, encryption, growth and `fork` keep the plaintext of every page, as long as
the pointers in the clock queues lead to entries of pages that are there. The
condition is needed: a pointer into a frame that now holds user data lets a fault
of one process clear a bit in another page.
-/

namespace MemoryEncryption

open ClockRing

variable {image : Image} {own own' : Nat → Owner} {s : Machine (Queue PteAddr)}

/-! ## The invariant -/

/-- Every mapped user page has exactly one of the two flags. -/
def OneFlag {σ : Type} (s : Machine σ) : Prop :=
  ∀ p v, HasSpace s.proc p → v < userPages → mapped (entry s.mem (s.proc p).pgdir v) = true →
    exactlyOne (entry s.mem (s.proc p).pgdir v) = true

/-- Every queue has its hand in range; all its pointers are null or lead to entries of mapped pages
of processes; and a slot in use has a pointer and the address of a mapped page of its process. -/
def QueuesSound (s : Machine (Queue PteAddr)) : Prop :=
  ∀ p, HasSpace s.proc p →
    (s.proc p).queue.Sound s.mem (processDirs s) (s.proc p).pgdir

/-- The labels agree with the machine, and its pages and queues are well formed. -/
structure Coded (image : Image) (s : Machine (Queue PteAddr)) (own : Nat → Owner) : Prop where
  sane : Sane image s own
  one : OneFlag s
  queues : QueuesSound s

/-- Every process lives on in its address space, and all plaintexts are kept. -/
structure Continues (s : Machine (Queue PteAddr)) (own : Nat → Owner)
    (s' : Machine (Queue PteAddr)) (own' : Nat → Owner) : Prop where
  carries : Carries own own' s.mem s'.mem
  procs : ∀ p, HasSpace s.proc p → HasSpace s'.proc p ∧ (s'.proc p).pgdir = (s.proc p).pgdir

theorem Continues.refl (sane : Sane image s own) : Continues s own s own :=
  ⟨(Recoded.refl sane.owned).carries (.refl own s.mem), fun _ member => ⟨member, rfl⟩⟩

variable {s' : Machine (Queue PteAddr)}

theorem Continues.trans {s'' : Machine (Queue PteAddr)} {own'' : Nat → Owner}
    (first : Continues s own s' own') (second : Continues s' own' s'' own'') :
    Continues s own s'' own'' where
  carries := first.carries.trans second.carries
  procs p member := by
    obtain ⟨kept, same⟩ := first.procs p member
    obtain ⟨kept', same'⟩ := second.procs p kept
    exact ⟨kept', same'.trans same⟩

/-- A change of code flags keeps the invariant, whatever happens to fields that own nothing. -/
theorem Coded.recoded (coded : Coded image s own) (change : Recoded image own s.mem s'.mem)
    (preserved : Preserved own s.mem s'.mem) (sane : Sane image s' own)
    (procs : ∀ q, (s.proc q).SameFrames (s'.proc q))
    (queues : ∀ q, HasSpace s.proc q →
      (s'.proc q).queue.Sound s'.mem (processDirs s) (s.proc q).pgdir) :
    Coded image s' own ∧ Continues s own s' own := by
  have same := hasSpace_congr procs
  have pgdir : ∀ q, HasSpace s.proc q → (s'.proc q).pgdir = (s.proc q).pgdir :=
    fun q member => (procs q).pgdir member.2.1
  refine ⟨⟨sane, fun q v member bound isMapped => ?_, fun q member => ?_⟩,
    ⟨change.carries preserved, fun q member => ⟨(same q).mpr member, pgdir q member⟩⟩⟩
  · have before := (same q).mp member
    rw [pgdir q before] at isMapped ⊢
    rw [change.maps _ v (coded.sane.live before) bound] at isMapped
    exact (preserved _ v (coded.sane.live before) bound (coded.one q v before bound isMapped)).1
  · have before := (same q).mp member
    rw [pgdir q before]
    have wider : ∀ e, processDirs s e → processDirs s' e := by
      rintro e ⟨r, memberR, rfl⟩
      exact ⟨r, (same r).mpr memberR, pgdir r memberR⟩
    have live := coded.sane.processDirs_live
    exact (queues q before).stays live (coded.sane.live before) wider
      (Recoded.refl change.owned).stays

/-! ## Steps -/

/-- The steps of the result: page faults where the entry lacks `PTE_P`, calls of `sys_mencrypt`,
growth, `fork`, and loads of user code. -/
def KeepsPlaintext (s : Machine (Queue PteAddr)) : Action → Prop
  | .fault p va _ => has (entry s.mem (s.proc p).pgdir (va.toNat / pgSize)) pteP = false
  | .mencrypt _ _ _ => True
  | .grow _ n => 0 ≤ n.toInt
  | .fork _ => True
  | .access _ _ store => store = none
  | .exec _ _ _ _ | .exit _ | .wait _ | .pipealloc _ | .pipeclose _ _ => False

variable {action : Action} {spaces : Nat → Nat → Prop}

theorem KeepsPlaintext.usual (allowed : KeepsPlaintext s action) : action.Usual := by
  cases action <;> trivial

theorem Forked.one {p np d v : Nat} (made : Forked p s own s' own' np d) (bound : v < userPages)
    (isMapped : mapped (entry s'.mem d v) = true) : exactlyOne (entry s'.mem d v) = true := by
  by_cases inside : v < pagesBelow (s.proc p).sz
  · exact (made.copied v inside).flags.2.1
  · rw [made.vacant v (by omega) bound] at isMapped
    simp at isMapped

theorem Effect.coded (effect : Effect image (fun _ => processDirs s) s own action s')
    (coded : Coded image s own) (allowed : KeepsPlaintext s action) :
    ∃ own', Coded image s' own' ∧ Continues s own s' own' := by
  have live := coded.sane.processDirs_live
  have stays : ∀ {m : Mem (Queue PteAddr)} q, HasSpace s.proc q → Recoded image own s.mem m →
      (s.proc q).queue.Sound m (processDirs s) (s.proc q).pgdir :=
    fun q memberQ change => (coded.queues q memberQ).stays live (coded.sane.live memberQ)
      (fun _ part => part) change.stays
  cases effect with
  | idle => exact ⟨own, coded, .refl coded.sane⟩
  | @fault p va _ _ member sane frames change sound others outcome =>
    have preserved : Preserved own s.mem s'.mem := by
      rcases outcome with ⟨-, preserved, -⟩ | served
      · exact preserved
      · have absent : has (entry s.mem (s.proc p).pgdir (va.toNat / pgSize)) pteP = false := allowed
        have one := coded.one p _ member (page_of_va served.bound) served.isMapped
        rw [exactlyOne, absent] at one
        exact served.preserved (by simpa using one)
    refine ⟨own, coded.recoded change preserved sane frames fun q memberQ => ?_⟩
    by_cases here : q = p
    · subst here
      exact sound
    · rw [others q here]
      exact stays q memberQ change
  | recode sane _ change _ _ preserved =>
    refine ⟨own, coded.recoded change (preserved ?_) sane (fun q => .refl _)
      fun q memberQ => stays q memberQ change⟩
    rintro p va word rfl
    exact absurd allowed (by simp [KeepsPlaintext])
  | @grow p n _ own' facts =>
    have same := facts.same
    have members := hasSpace_congr fun q => (same q).1
    refine ⟨own', ⟨facts.sane, fun q v memberQ bound isMapped => ?_, fun q memberQ => ?_⟩,
      ⟨facts.carries, fun q memberQ => ⟨(members q).mpr memberQ, (same q).2.1⟩⟩⟩
    · have before := (members q).mp memberQ
      rw [(same q).2.1] at isMapped ⊢
      rcases facts.grown.pages _ v (coded.sane.live before) bound isMapped with old | ⟨-, one⟩
      · exact (facts.carries.preserved _ v (coded.sane.live before) bound
          (coded.one q v before bound old)).1
      · exact one
    · have before := (members q).mp memberQ
      rw [(same q).2.1, (same q).2.2]
      refine (coded.queues q before).stays live (coded.sane.live before) ?_ facts.carries.toStays
      rintro e ⟨r, memberR, rfl⟩
      exact ⟨r, (members r).mpr memberR, (same r).2.1⟩
  | @fork p _ own' member facts =>
    have wider : ∀ e, processDirs s e → processDirs s' e := by
      rintro e ⟨q, memberQ, rfl⟩
      exact ⟨q, (facts.old q memberQ).1, by rw [(facts.old q memberQ).2]⟩
    refine ⟨own', ⟨facts.sane, fun q v memberQ bound isMapped => ?_, fun q memberQ => ?_⟩,
      ⟨facts.carries, fun q memberQ => ⟨(facts.old q memberQ).1, by
        rw [(facts.old q memberQ).2]⟩⟩⟩
    · rcases facts.new q memberQ with before | ⟨d, made⟩
      · rw [(facts.old q before).2, facts.entries _ v (coded.sane.live before) bound] at isMapped ⊢
        exact coded.one q v before bound isMapped
      · rw [made.child.1] at isMapped ⊢
        exact made.one bound isMapped
    · rcases facts.new q memberQ with before | ⟨d, made⟩
      · rw [(facts.old q before).2]
        exact (coded.queues q before).stays live (coded.sane.live before) wider
          facts.carries.toStays
      · exact facts.child_sound made coded.sane member live wider (coded.queues p member)

theorem Coded.effect (coded : Coded image s own) (usual : action.Usual) :
    (∃ s', s.step image clockOps action = .ok s' ∧
        Effect image (fun _ => processDirs s) s own action s') ∨
      ∃ stop, s.step image clockOps action = .error stop ∧ Stops action stop :=
  step_effect coded.sane usual fun p _ member =>
    ⟨coded.sane.processDirs_live, ⟨p, member, rfl⟩, coded.queues p member⟩

theorem run_coded (coded : Coded image s own)
    (reached : Relation.ReflTransGen (Machine.Steps image clockOps KeepsPlaintext) s s') :
    ∃ own', Coded image s' own' ∧ Continues s own s' own' := by
  induction reached with
  | refl => exact ⟨own, coded, .refl coded.sane⟩
  | tail _ last ih =>
    obtain ⟨own', coded', continues⟩ := ih
    obtain ⟨action, allowed, stepped⟩ := last
    rcases coded'.effect allowed.usual with ⟨next, taken, effect⟩ | ⟨_, stopped, -⟩
    · rw [stepped] at taken
      cases taken
      obtain ⟨own'', coded'', more⟩ := effect.coded coded' allowed
      exact ⟨own'', coded'', continues.trans more⟩
    · rw [stepped] at stopped
      simp at stopped

theorem fork_copies (coded : Coded image s own) {p : Nat} {t : Machine (Queue PteAddr)}
    (stepped : s.step image clockOps (.fork p) = .ok t) {np : Nat} (before : ¬ HasSpace s.proc np)
    (after : HasSpace t.proc np) {v : Nat} (bound : v < userPages) :
    mapped (entry t.mem (t.proc np).pgdir v) = mapped (entry s.mem (s.proc p).pgdir v) ∧
      (mapped (entry s.mem (s.proc p).pgdir v) = true →
        plaintext t.mem (t.proc np).pgdir v = plaintext s.mem (s.proc p).pgdir v) := by
  rcases coded.effect (show (Action.fork p).Usual from trivial) with ⟨_, taken, effect⟩ | ⟨_, stopped, -⟩
  swap
  · rw [stepped] at stopped
    simp at stopped
  rw [stepped] at taken
  cases taken
  cases effect with
  | idle | recode => exact absurd after before
  | fork member facts =>
    obtain ⟨d, made⟩ := (facts.new np after).resolve_left before
    rw [made.child.1]
    by_cases inside : v < pagesBelow (s.proc p).sz
    · have copied := made.copied v inside
      exact ⟨by rw [copied.flags.1, copied.1], fun _ => copied.plaintext_eq⟩
    · rw [made.vacant v (by omega) bound, (coded.sane.sizes p member).2 v (by omega) bound]
      exact ⟨rfl, fun isMapped => by simp at isMapped⟩

/-- What a run from `s` to `s'` keeps. -/
structure PlaintextsKept (image : Image) (s s' : Machine (Queue PteAddr)) : Prop where
  /-- A page that was mapped at the start is there at the end, with the same plaintext. -/
  pages : ∀ p v, HasSpace s.proc p → v < userPages →
    mapped (entry s.mem (s.proc p).pgdir v) = true →
    HasSpace s'.proc p ∧ mapped (entry s'.mem (s'.proc p).pgdir v) = true ∧
      plaintext s'.mem (s'.proc p).pgdir v = plaintext s.mem (s.proc p).pgdir v
  /-- Every mapped user page has exactly one of `PTE_P` and `PTE_E`. -/
  one : OneFlag s'
  /-- A child that is forked now gets the parent's pages, with the parent's plaintexts. -/
  forks : ∀ p t np v, s'.step image clockOps (.fork p) = .ok t → ¬ HasSpace s'.proc np →
    HasSpace t.proc np → v < userPages →
    mapped (entry t.mem (t.proc np).pgdir v) = mapped (entry s'.mem (s'.proc p).pgdir v) ∧
      (mapped (entry s'.mem (s'.proc p).pgdir v) = true →
        plaintext t.mem (t.proc np).pgdir v = plaintext s'.mem (s'.proc p).pgdir v)
  /-- The next step returns, or the kernel panics, or `sys_mencrypt` does not return. -/
  stops : ∀ action stop, KeepsPlaintext s' action →
    s'.step image clockOps action = .error stop → Stops action stop

/-- From a machine whose frames are in order, whose pages have exactly one of the two flags, and
whose queues are sound, no sequence of page faults, calls of `sys_mencrypt`, growth and `fork`
changes the plaintext of any page. -/
theorem run_keeps_plaintexts (image : Image) (managed : Nat → Prop)
    (s s' : Machine (Queue PteAddr)) (start : Consistent image managed s) (one : OneFlag s)
    (queues : QueuesSound s)
    (reached : Relation.ReflTransGen (Machine.Steps image clockOps KeepsPlaintext) s s') :
    PlaintextsKept image s s' := by
  obtain ⟨sane, -⟩ := start.sane
  obtain ⟨own', coded, continues⟩ := run_coded ⟨sane, one, queues⟩ reached
  refine ⟨fun p v member bound isMapped => ?_, coded.one, fun p t np v stepped before after bound =>
    fork_copies coded stepped before after bound, fun action stop allowed stopped => ?_⟩
  · obtain ⟨kept, same⟩ := continues.procs p member
    have live := sane.live member
    rw [same]
    exact ⟨kept, (continues.carries.pages _ v live bound isMapped).1,
      (continues.carries.preserved _ v live bound (one p v member bound isMapped)).2⟩
  · rcases coded.effect allowed.usual with ⟨next, taken, -⟩ | ⟨_, stopped', reason⟩
    · rw [stopped] at taken
      simp at taken
    · rw [stopped] at stopped'
      obtain rfl := Except.error.inj stopped'
      exact reason

theorem stalePages_one (queue : Queue PteAddr) : OneFlag (stalePages queue).machine := by
  intro p v member _ isMapped
  obtain rfl := (stalePages queue).hasSpace_iff.mp member
  have shape := (stalePages queue).entry_eq ((stalePages queue).own_dir.mpr (.inr rfl)) v
  change mapped (entry (stalePages queue).mem 401 v) = true at isMapped
  change exactlyOne (entry (stalePages queue).mem 401 v) = true
  rw [shape] at isMapped ⊢
  split at isMapped
  · rename_i inside
    rw [if_pos inside]
    have few : ∀ v < 10, exactlyOne (makePte (404 + v)
        (if v = 0 ∨ v = 9 then pteE ||| pteW ||| pteU else pteP ||| pteW ||| pteU)) = true := by
      decide
    exact few v inside.2
  · simp at isMapped

/-- With an empty queue, a fault at the encrypted page changes no plaintext. -/
theorem emptyQueue_keeps_plaintexts :
    ∃ s', (stalePages cqInit).machine.step sampleImage clockOps (.fault 0 0 true) = .ok s' ∧
      PlaintextsKept sampleImage (stalePages cqInit).machine s' := by
  have returns : (((stalePages cqInit).machine.step sampleImage clockOps
      (.fault 0 0 true)).map fun _ => ()).toOption = some () := by decide +kernel
  obtain ⟨s', finished, -⟩ := Outcome.exists_ok returns
  have absent : has (entry (stalePages cqInit).mem 401 0) pteP = false := by decide +kernel
  have sound : QueuesSound (stalePages cqInit).machine := by
    intro p member
    obtain rfl := (stalePages cqInit).hasSpace_iff.mp member
    exact cqInit_sound _ _ _
  exact ⟨s', finished, run_keeps_plaintexts sampleImage _ _ s' (stalePages cqInit).sane.consistent
    (stalePages_one cqInit) sound (.single ⟨.fault 0 0 true, absent, finished⟩)⟩

/-- The queue that a child has from its parent, after the parent is gone and the frame of its page
table holds the last page of the child. -/
def staleQueue : Queue PteAddr :=
  ⟨fun i => ⟨0, (i + 1) * pgSize, some ⟨413, i + 1⟩⟩, 7⟩

/-- With such a queue, a fault at the first page changes the plaintext of the last. -/
theorem stalePointer_changes_plaintext :
    Consistent sampleImage (fun f => (stalePages staleQueue).own f ≠ .outside)
        (stalePages staleQueue).machine ∧
      OneFlag (stalePages staleQueue).machine ∧
      ∃ s', Relation.ReflTransGen (Machine.Steps sampleImage clockOps KeepsPlaintext)
          (stalePages staleQueue).machine s' ∧
        mapped (entry (stalePages staleQueue).machine.mem 401 9) = true ∧
        has (entry (stalePages staleQueue).machine.mem 401 9) pteU = true ∧
        plaintext s'.mem 401 9 1 ≠ plaintext (stalePages staleQueue).machine.mem 401 9 1 := by
  have returns : (((stalePages staleQueue).machine.step sampleImage clockOps
      (.fault 0 0 true)).map (plaintext ·.mem 401 9 1)).toOption = some 0x20 := by decide +kernel
  obtain ⟨s', finished, changed⟩ := Outcome.exists_ok returns
  have absent : has (entry (stalePages staleQueue).mem 401 0) pteP = false := by decide +kernel
  refine ⟨(stalePages staleQueue).sane.consistent, stalePages_one staleQueue, s',
    .single ⟨.fault 0 0 true, absent, finished⟩, by decide +kernel, by decide +kernel, ?_⟩
  rw [changed]
  decide +kernel

end MemoryEncryption
