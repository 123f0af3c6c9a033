import MemoryEncryption.Verif.FrameOwnership

/-!
# Steps and the clock queues

What the steps of a process do to the queues of all processes. A queue that is sound
has no business with frames that are free or with pages that are not there, so the
code that frees pages leaves it alone, and it stays sound as long as the address
spaces it points into live on.
-/

namespace MemoryEncryption

open ClockRing

variable {image : Image} {own own' : Nat → Owner}

/-- A step that an action takes, of those that are allowed. -/
def Machine.Steps {σ : Type} (image : Image) (ops : ClockOps σ)
    (allowed : Machine σ → Action → Prop) (s s' : Machine σ) : Prop :=
  ∃ action, allowed s action ∧ s.step image ops action = .ok s'

/-- How a step can stop: the kernel panics, or `sys_mencrypt` follows the null pointer of a page
table that is missing in its range. -/
def Stops (action : Action) (stop : Halt) : Prop :=
  (∃ message, stop = .panic message) ∨
    ∃ p va len, action = .mencrypt p va len ∧ stop = .nullDeref

/-! ## Sound queues -/

section Sound

variable {σ : Type} {m m' : Mem σ} {spaces spaces' : Nat → Prop} {d : Nat}
  {queue : Queue PteAddr}

theorem cqInit_sound (m : Mem σ) (spaces : Nat → Prop) (d : Nat) : cqInit.Sound m spaces d :=
  ⟨by decide, fun _ _ => ⟨by simp [cqInit], by simp [cqInit]⟩⟩

theorem cqRemove_absent {α : Type} [DecidableEq α] {queue : Queue α} {pte : α}
    (absent : ∀ i < clockSize, (queue.slot i).pte ≠ some pte) :
    cqRemove queue pte = .ok queue := by
  have missing : queue.find pte = none := by
    rw [Queue.find, List.find?_eq_none]
    intro i member
    simpa using absent i (List.mem_range.mp member)
  rw [cqRemove, missing]

theorem cqInit_remove (pte : PteAddr) : clockOps.remove clockOps.init pte = .ok clockOps.init := by
  change cqRemove cqInit pte = .ok cqInit
  exact cqRemove_absent fun i _ => by simp [cqInit]

/-- A sound queue is not changed by `cq_remove` of an entry that is of no mapped page. -/
theorem Queue.Sound.remove (sound : queue.Sound m spaces d) {pte : PteAddr}
    (loose : ¬ LeadsTo m spaces pte) : cqRemove queue pte = .ok queue :=
  cqRemove_absent fun i bound same => loose ((sound.slots i bound).pointer pte same)

theorem Owned.not_leadsTo_free (owned : Owned image m own) (live : ∀ e, spaces e → own e = .dir)
    {pte : PteAddr} (free : own pte.frame = .free) : ¬ LeadsTo m spaces pte := by
  rintro ⟨e, v, inside, bound, -, found⟩
  have label := (owned.pteAt_table (live e inside) (page_lt bound) found).1
  rw [free] at label
  simp at label

theorem Owned.not_leadsTo_vacant (owned : Owned image m own)
    (live : ∀ e, spaces e → own e = .dir) (dir : own d = .dir) {v : Nat} {pte : PteAddr}
    (bound : v < userPages) (found : pteAt m d v = some pte) (vacant : entry m d v = 0) :
    ¬ LeadsTo m spaces pte := by
  rintro ⟨e, v', inside, bound', isMapped, found'⟩
  obtain ⟨rfl, rfl⟩ := owned.pteAt_injective dir (live e inside) (page_lt bound) (page_lt bound')
    found found'
  rw [vacant] at isMapped
  simp at isMapped

theorem Queue.Sound.stays (sound : queue.Sound m spaces d) (live : ∀ e, spaces e → own e = .dir)
    (dir : own d = .dir) (wider : ∀ e, spaces e → spaces' e) (change : Stays own own' m m') :
    queue.Sound m' spaces' d := by
  refine ⟨sound.hand, fun i bound => ⟨fun pte same => ?_, fun inUse => ?_⟩⟩
  · obtain ⟨e, v, inside, user, isMapped, found⟩ := (sound.slots i bound).pointer pte same
    obtain ⟨kept, address⟩ := change.pages e v (live e inside) user isMapped
    exact ⟨e, v, wider e inside, user, kept, by rw [address, found]⟩
  · obtain ⟨pointed, small, isMapped⟩ := (sound.slots i bound).used inUse
    exact ⟨pointed, small, (change.pages d _ dir (page_of_va small) isMapped).1⟩

/-- Every slot in use points to the entry of its own address in one of the address spaces. -/
def Queue.Aligned (m : Mem σ) (spaces : Nat → Prop) (queue : Queue PteAddr) : Prop :=
  ∀ i < clockSize, (queue.slot i).empty ≠ -1 → ∃ e, spaces e ∧ (queue.slot i).va < kernBase ∧
    mapped (entry m e ((queue.slot i).va / pgSize)) = true ∧
    pteAt m e ((queue.slot i).va / pgSize) = (queue.slot i).pte

theorem cqInit_aligned (m : Mem σ) (spaces : Nat → Prop) : cqInit.Aligned m spaces :=
  fun _ _ inUse => absurd rfl inUse

theorem Queue.Aligned.stays (aligned : queue.Aligned m spaces)
    (live : ∀ e, spaces e → own e = .dir) (wider : ∀ e, spaces e → spaces' e)
    (change : Stays own own' m m') : queue.Aligned m' spaces' := by
  intro i bound inUse
  obtain ⟨e, inside, small, isMapped, found⟩ := aligned i bound inUse
  obtain ⟨kept, address⟩ := change.pages e _ (live e inside) (page_of_va small) isMapped
  exact ⟨e, wider e inside, small, kept, by rw [address, found]⟩

theorem Queue.Aligned.insert {after : Queue PteAddr} {va : Nat} {pte : PteAddr}
    (aligned : queue.Aligned m spaces) (inside : spaces d) (small : va < kernBase)
    (isMapped : mapped (entry m d (va / pgSize)) = true)
    (found : pteAt m d (va / pgSize) = some pte) (nodes : Inserted m d va pte queue after) :
    after.Aligned m spaces := by
  intro i bound inUse
  rcases nodes.origin i bound with ⟨j, bound', same⟩ | ⟨sameVa, samePte, -⟩
  · rw [same] at inUse ⊢
    exact aligned j bound' inUse
  · rw [sameVa, samePte]
    exact ⟨d, inside, small, isMapped, found⟩

/-- In an aligned queue, the slot that points to the entry of a page has an address of the page. -/
theorem Queue.Aligned.page (aligned : queue.Aligned m spaces) (owned : Owned image m own)
    (live : ∀ e, spaces e → own e = .dir) (dir : own d = .dir) {v i : Nat} {pte : PteAddr}
    (user : v < userPages) (found : pteAt m d v = some pte) (bound : i < clockSize)
    (inUse : (queue.slot i).empty ≠ -1) (same : (queue.slot i).pte = some pte) :
    (queue.slot i).va / pgSize = v := by
  obtain ⟨e, inside, small, -, found'⟩ := aligned i bound inUse
  rw [same] at found'
  exact (owned.pteAt_injective (live e inside) dir (page_lt (page_of_va small)) (page_lt user)
    found' found).2.symm

end Sound

/-- The directories of all processes. -/
def processDirs {σ : Type} (s : Machine σ) (e : Nat) : Prop :=
  ∃ q, HasSpace s.proc q ∧ (s.proc q).pgdir = e

theorem Sane.processDirs_live {σ : Type} {s : Machine σ} (sane : Sane image s own) (e : Nat)
    (part : processDirs s e) : own e = .dir := by
  obtain ⟨q, member, rfl⟩ := part
  exact sane.live member

/-! ## `fork` -/

section Branch

variable {s final : Machine (Queue PteAddr)} {p : Nat}

/-- What `fork` leaves: all that was there, and a child if it succeeded. -/
structure Branched (image : Image) (p : Nat) (s : Machine (Queue PteAddr)) (own : Nat → Owner)
    (final : Machine (Queue PteAddr)) (own' : Nat → Owner) : Prop where
  sane : Sane image final own'
  carries : Carries own own' s.mem final.mem
  entries : ∀ e v, own e = .dir → v < userPages → entry final.mem e v = entry s.mem e v
  old : ∀ q, HasSpace s.proc q → HasSpace final.proc q ∧ final.proc q = s.proc q
  new : ∀ q, HasSpace final.proc q → HasSpace s.proc q ∨ ∃ d, Forked p s own final own' q d

/-- A call of `fork` that made a child, or undid everything. -/
theorem Branched.of_fork (sane : Sane image s own) (sane' : Sane image final own')
    (apart : ∀ e, Apart e s.mem own final.mem own')
    (outcome : (∃ np d, Forked p s own final own' np d) ∨ Undone s own final own') :
    Branched image p s own final own' where
  sane := sane'
  carries := Apart.carries apart sane.owned
  entries e v live bound :=
    ((apart (e + 1)).lookups sane.owned live (by omega)).2.2.1 v (page_lt bound)
  old q member := by
    rcases outcome with ⟨np, d, made⟩ | undone
    · have other : q ≠ np := by
        rintro rfl
        exact member.2.1 made.slot.2
      exact ⟨(made.hasSpace_iff q).mpr (.inr member), made.procs q other⟩
    · exact ⟨(undone.hasSpace_iff q).mpr member, undone.procs q member.2.1⟩
  new q member := by
    rcases outcome with ⟨np, d, made⟩ | undone
    · exact ((made.hasSpace_iff q).mp member).elim (fun here => .inr ⟨d, here ▸ made⟩) .inl
    · exact .inl ((undone.hasSpace_iff q).mp member)

/-- The queue of a new process points where its parent's queue does, and its addresses are those of
copied pages. -/
theorem Branched.child_sound {np d : Nat} {spaces spaces' : Nat → Prop}
    (facts : Branched image p s own final own') (made : Forked p s own final own' np d)
    (sane : Sane image s own) (member : HasSpace s.proc p)
    (live : ∀ e, spaces e → own e = .dir) (wider : ∀ e, spaces e → spaces' e)
    (sound : (s.proc p).queue.Sound s.mem spaces (s.proc p).pgdir) :
    (final.proc np).queue.Sound final.mem spaces' (final.proc np).pgdir := by
  obtain ⟨pgdir, -, -, queue⟩ := made.child
  rw [pgdir, queue]
  have parent := sound.stays live (sane.live member) wider facts.carries.toStays
  refine ⟨parent.hand, fun i bound => ⟨(parent.slots i bound).pointer, fun inUse => ?_⟩⟩
  obtain ⟨pointed, small, isMapped⟩ := (parent.slots i bound).used inUse
  refine ⟨pointed, small, ?_⟩
  have user := page_of_va small
  by_cases inside : ((s.proc p).queue.slot i).va / pgSize < pagesBelow (s.proc p).sz
  · exact (made.copied _ inside).flags.1
  · rw [facts.entries _ _ (sane.live member) user,
      (sane.sizes p member).2 _ (by omega) user] at isMapped
    simp at isMapped

end Branch

/-! ## Steps of a process with a sound queue -/

section Steps

variable {s : Machine (Queue PteAddr)}

/-- The queue of process `p` is sound, and the address spaces it points into are there. -/
structure Points (s : Machine (Queue PteAddr)) (own : Nat → Owner) (p : Nat) (spaces : Nat → Prop) :
    Prop where
  live : ∀ e, spaces e → own e = .dir
  inside : spaces (s.proc p).pgdir
  sound : (s.proc p).queue.Sound s.mem spaces (s.proc p).pgdir

/-- What a step does that a process takes within its own address space, and `fork`. -/
inductive Effect (image : Image) (spaces : Nat → Nat → Prop) (s : Machine (Queue PteAddr))
    (own : Nat → Owner) : Action → Machine (Queue PteAddr) → Prop where
  /-- The process cannot run. -/
  | idle (action : Action) : Effect image spaces s own action s
  /-- A page fault decrypts the page and puts it into the queue, or finds no page. -/
  | fault {p : Nat} {va : Word} {user : Bool} {s' : Machine (Queue PteAddr)}
      (member : HasSpace s.proc p) (sane : Sane image s' own)
      (frames : ∀ q, (s.proc q).SameFrames (s'.proc q)) (change : Recoded image own s.mem s'.mem)
      (sound : (s'.proc p).queue.Sound s'.mem (spaces p) (s.proc p).pgdir)
      (others : ∀ q, q ≠ p → (s'.proc q).queue = (s.proc q).queue)
      (outcome : ((s'.proc p).queue = (s.proc p).queue ∧ Preserved own s.mem s'.mem ∧
          Hides own s.mem s'.mem) ∨
        Served own (s.proc p).pgdir va.toNat s.mem s'.mem (s.proc p).queue (s'.proc p).queue) :
      Effect image spaces s own (.fault p va user) s'
  /-- `sys_mencrypt` and accesses of user code change memory only. -/
  | recode {action : Action} {m : Mem (Queue PteAddr)} (sane : Sane image (s.setMem m) own)
      (other : ∀ p, action ≠ .fork p) (change : Recoded image own s.mem m)
      (hides : Hides own s.mem m) (keeps : KeepsOne own s.mem m)
      (preserved : (∀ p va word, action ≠ .access p va (some word)) → Preserved own s.mem m) :
      Effect image spaces s own action (s.setMem m)
  /-- Growth. -/
  | grow {p : Nat} {n : Word} {s' : Machine (Queue PteAddr)} {own' : Nat → Owner}
      (facts : Regrown image p n.toInt s own s' own') : Effect image spaces s own (.grow p n) s'
  /-- `fork`. -/
  | fork {p : Nat} {s' : Machine (Queue PteAddr)} {own' : Nat → Owner}
      (member : HasSpace s.proc p) (facts : Branched image p s own s' own') :
      Effect image spaces s own (.fork p) s'

variable (sane : Sane image s own) {p : Nat} (member : HasSpace s.proc p)

include sane member

theorem pageFault_effect {spaces : Nat → Nat → Prop} (points : Points s own p (spaces p)) (va : Word)
    (user : Bool) :
    (∃ message, pageFault clockOps s p va.toNat user = .error (.panic message)) ∨
      ∃ s', pageFault clockOps s p va.toNat user = .ok s' ∧
        Effect image spaces s own (.fault p va user) s' := by
  have idle : Recoded image own s.mem (s.load p) := (Recoded.refl sane.owned).of_queue _
  have loaded : (s.load p).queue.Sound (s.load p) (spaces p) (s.proc p).pgdir :=
    points.sound.stays points.live (points.live _ points.inside) (fun _ part => part) idle.stays
  -- what the kernel does after `mdecrypt` touches neither memory nor queues
  have finish : ∀ {done : Bool} {m : Mem (Queue PteAddr)},
      mdecrypt clockOps (s.load p) (s.proc p).pgdir va.toNat = .ok (done, m) →
      Recoded image own s.mem m → m.queue.Sound m (spaces p) (s.proc p).pgdir →
      ((m.queue = (s.proc p).queue ∧ Preserved own s.mem m ∧ Hides own s.mem m) ∨
        Served own (s.proc p).pgdir va.toNat s.mem m (s.proc p).queue m.queue) →
      (∃ message, pageFault clockOps s p va.toNat user = .error (.panic message)) ∨
        ∃ s', pageFault clockOps s p va.toNat user = .ok s' ∧
          Effect image spaces s own (.fault p va user) s' := by
    intro done m decrypted change sound outcome
    rcases pageFault_spec clockOps user member decrypted with ⟨s', faulted, kept⟩ | stopped
    · have saved : Sane image (s.save p m) own :=
        sane.recoded change ⟨fun _ => rfl, fun _ => rfl, .rfl, .rfl⟩ rfl
      have memory : s'.mem = m := kept.mem
      have queue : (s'.proc p).queue = m.queue := by
        rw [(kept.procs p).queue]
        simp [Machine.save]
      refine .inr ⟨s', faulted, .fault member (saved.keeps kept)
        (fun q => (save_sameFrames s p m q).trans (kept.procs q).toSameFrames) ?_ ?_
        (fun q other => ?_) ?_⟩
      · rwa [memory]
      · rwa [queue, memory]
      · rw [(kept.procs q).queue]
        simp [Machine.save, Function.update_of_ne other]
      · rwa [queue, memory]
    · exact .inl stopped
  rcases mdecrypt_spec va.toNat (sane.load p) points.live points.inside loaded with
    ⟨failed, -⟩ | ⟨m, done, recoded, sound, served⟩
  · exact finish failed idle loaded
      (.inl ⟨rfl, .refl own s.mem, fun _ _ _ _ exposed => exposed⟩)
  · exact finish done { recoded with } sound (.inr { served with })

theorem growproc_clock {spaces : Nat → Prop} (points : Points s own p spaces) {n : Int}
    (lower : 0 ≤ n) (upper : n < 2 ^ 31) :
    ∃ done final own', growproc image clockOps s p n = .ok (done, final) ∧
      Regrown image p n s own final own' := by
  refine growproc_spec clockOps sane member lower upper fun pte part => points.sound.remove ?_
  rcases part with free | ⟨v, above, bound, found⟩
  · exact sane.owned.not_leadsTo_free points.live free
  · exact sane.owned.not_leadsTo_vacant points.live (sane.live member) bound found
      ((sane.sizes p member).2 v above bound)

omit member in
/-- The queue of the caller is not changed by the frames that `fork` and `exec` give back. -/
theorem Points.quiet {spaces : Nat → Prop} (points : Points s own p spaces) (pte : PteAddr)
    (free : own pte.frame = .free) :
    clockOps.remove (s.proc p).queue pte = .ok (s.proc p).queue :=
  points.sound.remove (sane.owned.not_leadsTo_free points.live free)

end Steps

/-- The steps that have such an effect. -/
def Action.Usual : Action → Prop
  | .grow _ n => 0 ≤ n.toInt
  | .fault _ _ _ | .mencrypt _ _ _ | .fork _ | .access _ _ _ => True
  | .exec _ _ _ _ | .exit _ | .wait _ | .pipealloc _ | .pipeclose _ _ => False

/-- The process whose queue an action may use. -/
def Action.Uses (p : Nat) : Action → Prop
  | .fault q _ _ | .grow q _ | .fork q => q = p
  | _ => False

/-- What the steps can do: have their effect, or stop. -/
theorem step_effect {s : Machine (Queue PteAddr)} (sane : Sane image s own) {action : Action}
    (usual : action.Usual) {spaces : Nat → Nat → Prop}
    (points : ∀ p, action.Uses p → HasSpace s.proc p → Points s own p (spaces p)) :
    (∃ s', s.step image clockOps action = .ok s' ∧ Effect image spaces s own action s') ∨
      ∃ stop, s.step image clockOps action = .error stop ∧ Stops action stop := by
  have idle : (∃ s', (.ok s : Except Halt (Machine (Queue PteAddr))) = .ok s' ∧
      Effect image spaces s own action s') ∨
      ∃ stop, (.ok s : Except Halt (Machine (Queue PteAddr))) = .error stop ∧ Stops action stop :=
    .inl ⟨s, rfl, .idle action⟩
  have saneMem : ∀ (p : Nat) {m : Mem (Queue PteAddr)}, Recoded image own s.mem m →
      Sane image (s.setMem m) own := by
    intro p m change
    rw [setMem_eq_put s m p]
    exact sane.recoded change (.refl _) rfl
  cases action with
  | fault p va user =>
    rw [Machine.step]
    split
    case isFalse => exact idle
    case isTrue ready =>
      have member := hasSpace_of_ready ready
      rcases pageFault_effect sane member (points p rfl member) va user with
        ⟨message, stopped⟩ | served
      · exact .inr ⟨_, stopped, .inl ⟨message, rfl⟩⟩
      · exact .inl served
  | mencrypt p va len =>
    rw [Machine.step]
    split
    case isFalse => exact idle
    case isTrue ready =>
      rcases sysMencrypt_spec (s.proc p).sz len.toInt (sane.load p)
        (sane.live (hasSpace_of_ready ready)) va.isLt with stopped | ⟨done, m, encrypted, change⟩
      · exact .inr ⟨.nullDeref, by rw [stopped]; rfl, .inr ⟨p, va, len, rfl, rfl⟩⟩
      · have recoded : Recoded image own s.mem m := { change.recoded with }
        refine .inl ⟨s.setMem m, ?_, .recode (saneMem p recoded) (by simp) recoded change.hides
          change.preserved.keepsOne fun _ => change.preserved⟩
        rw [encrypted, ← save_eq change.queue]
        rfl
  | grow p n =>
    rw [Machine.step]
    split
    case isFalse => exact idle
    case isTrue ready =>
      have member := hasSpace_of_ready ready
      obtain ⟨done, s', own', grown, facts⟩ := growproc_clock sane member (points p rfl member) usual
        (BitVec.toInt_lt (x := n))
      exact .inl ⟨s', by rw [grown]; rfl, .grow facts⟩
  | fork p =>
    rw [Machine.step]
    split
    case isFalse => exact idle
    case isTrue ready =>
      have member := hasSpace_of_ready ready
      rcases fork_spec clockOps sane member ((points p rfl member).quiet sane) with
        ⟨result, s', own', forked, sane', apart, outcome, -⟩ | ⟨message, -, stopped, -⟩
      · exact .inl ⟨s', by rw [forked]; rfl,
          .fork member (.of_fork sane sane' apart (outcome.imp id And.right))⟩
      · exact .inr ⟨_, by rw [stopped]; rfl, .inl ⟨message, rfl⟩⟩
  | access p va store =>
    rw [Machine.step]
    split
    case isFalse => exact idle
    case isTrue ready =>
      obtain ⟨m, accessed, change, hides, keeps, preserved⟩ :=
        access_spec sane (hasSpace_of_ready ready) va.toNat store
      rw [accessed]
      refine .inl ⟨_, rfl, .recode (saneMem p change) (by simp) change hides keeps fun load =>
        preserved ?_⟩
      cases store with
      | none => rfl
      | some word => exact absurd rfl (load p va word)
  | _ => exact usual.elim

end MemoryEncryption
