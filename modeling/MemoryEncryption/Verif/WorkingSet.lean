import MemoryEncryption.Verif.QueueSteps

/-!
# The working set

After `exec`, a process and its descendants never have more than `CLOCKSIZE` pages
open to user code: an open page is in the clock queue of its process. The family of
a process that called `exec` is followed through a run of the whole machine. The
queues in it may point into the page tables of relatives, since `fork` copies
pointers, but every slot in use has the entry of its own address in one of them.
-/

namespace MemoryEncryption

open ClockRing

variable {image : Image} {own own' : Nat → Owner} {s s' : Machine (Queue PteAddr)}
  {family : Nat → Prop}

/-! ## The invariant -/

/-- The directories of the processes in a family. -/
def familyDirs (s : Machine (Queue PteAddr)) (family : Nat → Prop) (e : Nat) : Prop :=
  ∃ q, family q ∧ (s.proc q).pgdir = e

/-- Every page open to user code is in a slot in use. -/
def Covered {σ : Type} (m : Mem σ) (d : Nat) (queue : Queue PteAddr) : Prop :=
  ∀ v < userPages, Exposed m d v →
    ∃ i < clockSize, (queue.slot i).empty ≠ -1 ∧ (queue.slot i).va / pgSize = v

variable {σ : Type} {m : Mem σ} {d : Nat}

/-- A queue stays aligned and open pages stay covered when a page is opened and inserted. -/
theorem Served.insert {m' : Mem σ} {spaces : Nat → Prop} {va : Nat} {queue after : Queue PteAddr}
    (served : Served own d va m m' queue after) (live : ∀ e, spaces e → own e = .dir)
    (inside : spaces d) (change : Recoded image own m m') (aligned : queue.Aligned m spaces)
    (covered : Covered m d queue) : after.Aligned m' spaces ∧ Covered m' d after := by
  have dir := live d inside
  have user := page_of_va served.bound
  obtain ⟨pte, found, nodes⟩ := served.nodes
  have found' : pteAt m' d (va / pgSize) = some pte := by rw [change.addresses d _ dir, found]
  have aligned' : after.Aligned m' spaces :=
    (aligned.stays live (fun _ part => part) change.stays).insert inside served.bound
      (by rw [change.maps d _ dir user, served.isMapped]) found' nodes
  refine ⟨aligned', fun v bound open' => ?_⟩
  rcases served.exposed d v dir (page_lt bound) open' with old | ⟨-, rfl⟩
  · -- an open page stays in its slot, or the slot was reused and the page hidden
    obtain ⟨i, inRange, inUse, rfl⟩ := covered v bound old
    rcases nodes.fate i inRange inUse with ⟨j, inRange', same⟩ | hidden
    · exact ⟨j, inRange', by rw [same]; exact inUse, by rw [same]⟩
    · exact absurd open' hidden
  · obtain ⟨j, inRange, inUse, same⟩ := nodes.present
    exact ⟨j, inRange, inUse, aligned'.page change.owned live dir user found' inRange inUse same⟩

/-- A process of a family, with all it needs to keep its pages covered. -/
structure Guarded (s : Machine (Queue PteAddr)) (family : Nat → Prop) (q : Nat) : Prop where
  member : HasSpace s.proc q
  sound : (s.proc q).queue.Sound s.mem (familyDirs s family) (s.proc q).pgdir
  aligned : (s.proc q).queue.Aligned s.mem (familyDirs s family)
  covered : Covered s.mem (s.proc q).pgdir (s.proc q).queue

/-- A machine whose labels are right and in which a family is guarded. -/
structure Watched (image : Image) (s : Machine (Queue PteAddr)) (own : Nat → Owner)
    (family : Nat → Prop) : Prop where
  sane : Sane image s own
  guarded : ∀ q, family q → Guarded s family q

theorem Watched.live (watched : Watched image s own family) (e : Nat)
    (part : familyDirs s family e) : own e = .dir := by
  obtain ⟨q, inFamily, rfl⟩ := part
  exact watched.sane.live (watched.guarded q inFamily).member

theorem Guarded.widen {q : Nat} (guarded : Guarded s family q) (watched : Watched image s own family)
    {family' : Nat → Prop} (wider : ∀ r, family r → family' r) : Guarded s family' q := by
  have dirs : ∀ e, familyDirs s family e → familyDirs s family' e :=
    fun _ ⟨r, inFamily, same⟩ => ⟨r, wider r inFamily, same⟩
  have same := (Recoded.refl watched.sane.owned).stays
  exact ⟨guarded.member,
    guarded.sound.stays watched.live (watched.sane.live guarded.member) dirs same,
    guarded.aligned.stays watched.live dirs same, guarded.covered⟩

/-- A step keeps a family guarded if every process in it keeps its queue and has no page opened, or
is guarded afterwards for another reason. -/
theorem Watched.change (watched : Watched image s own family) (sane : Sane image s' own')
    (stays : Stays own own' s.mem s'.mem)
    (procs : ∀ q, family q → HasSpace s'.proc q ∧ (s'.proc q).pgdir = (s.proc q).pgdir)
    (kept : ∀ q, family q → ((s'.proc q).queue = (s.proc q).queue ∧
      ∀ v < userPages, Exposed s'.mem (s.proc q).pgdir v → Exposed s.mem (s.proc q).pgdir v) ∨
      Guarded s' family q) : Watched image s' own' family := by
  refine ⟨sane, fun q inFamily => ?_⟩
  rcases kept q inFamily with ⟨queue, hides⟩ | guarded
  · obtain ⟨member, pgdir⟩ := procs q inFamily
    have before := watched.guarded q inFamily
    have dirs : ∀ e, familyDirs s family e → familyDirs s' family e :=
      fun _ ⟨r, inFamily', same⟩ => ⟨r, inFamily', (procs r inFamily').2.trans same⟩
    refine ⟨member, ?_, ?_, ?_⟩
    · rw [queue, pgdir]
      exact before.sound.stays watched.live (watched.sane.live before.member) dirs stays
    · rw [queue]
      exact before.aligned.stays watched.live dirs stays
    · rw [queue, pgdir]
      exact fun v bound exposed => before.covered v bound (hides v bound exposed)
  · exact guarded

/-! ## Steps -/

/-- The pointers in the queue of a process lead to entries of processes. -/
def SoundQueue (s : Machine (Queue PteAddr)) (p : Nat) : Prop :=
  (s.proc p).queue.Sound s.mem (processDirs s) (s.proc p).pgdir

/-- The steps of the result: page faults, calls of `sys_mencrypt`, growth by whole pages, `fork`,
and accesses of user code. A process outside the family needs a sound queue to use it. -/
def Confined (family : Nat → Prop) (s : Machine (Queue PteAddr)) : Action → Prop
  | .fault p _ _ => family p ∨ SoundQueue s p
  | .mencrypt _ _ _ => True
  | .grow p n => (family p ∨ SoundQueue s p) ∧ 0 ≤ n.toInt ∧ (pgSize : Int) ∣ n.toInt
  | .fork p => family p ∨ SoundQueue s p
  | .access _ _ _ => True
  | .exec _ _ _ _ | .exit _ | .wait _ | .pipealloc _ | .pipeclose _ _ => False

/-- The family after a step: a child belongs to the family of its parent. -/
def descendants (family : Nat → Prop) (s s' : Machine (Queue PteAddr)) (action : Action)
    (q : Nat) : Prop :=
  family q ∨ ∃ p, action = .fork p ∧ family p ∧ ¬ HasSpace s.proc q ∧ HasSpace s'.proc q

theorem Watched.points (watched : Watched image s own family) {p : Nat} (member : HasSpace s.proc p)
    (allowed : family p ∨ SoundQueue s p) :
    ∃ spaces, Points s own p spaces ∧ (family p → spaces = familyDirs s family) := by
  by_cases mine : family p
  · exact ⟨familyDirs s family, ⟨watched.live, ⟨p, mine, rfl⟩, (watched.guarded p mine).sound⟩,
      fun _ => rfl⟩
  · exact ⟨processDirs s, ⟨watched.sane.processDirs_live, ⟨p, member, rfl⟩,
      allowed.resolve_left mine⟩, fun inFamily => absurd inFamily mine⟩

theorem Forked.exposed {p np v : Nat} (made : Forked p s own s' own' np d) (user : v < userPages)
    (exposed : Exposed s'.mem d v) : Exposed s.mem (s.proc p).pgdir v := by
  by_cases inside : v < pagesBelow (s.proc p).sz
  · have copied := made.copied v inside
    obtain ⟨-, -, keepE, keepU⟩ := copied.flags
    obtain ⟨-, open', accessible⟩ := exposed
    rw [keepE] at open'
    rw [keepU] at accessible
    refine ⟨?_, open', accessible⟩
    have isMapped := copied.1
    rw [mapped_iff, ← has_pteE, open', ← has_pteP] at isMapped
    simpa using isMapped
  · rw [Exposed, made.vacant v (by omega) user] at exposed
    exact absurd exposed.1 (by decide)

variable {action : Action} {spaces : Nat → Nat → Prop}

theorem Confined.usual (allowed : Confined family s action) : action.Usual := by
  cases action <;> first | trivial | exact allowed | exact allowed.2.1

theorem descendants_eq (other : ∀ p, action ≠ .fork p) :
    descendants family s s' action = family := by
  funext q
  refine propext ⟨fun part => part.resolve_right ?_, .inl⟩
  rintro ⟨p, same, -⟩
  exact other p same

theorem Effect.watched (effect : Effect image spaces s own action s')
    (watched : Watched image s own family) (allowed : Confined family s action)
    (points : ∀ p, action.Uses p → HasSpace s.proc p →
      Points s own p (spaces p) ∧ (family p → spaces p = familyDirs s family)) :
    ∃ own', Watched image s' own' (descendants family s s' action) := by
  have members : ∀ q, family q → HasSpace s.proc q :=
    fun q inFamily => (watched.guarded q inFamily).member
  cases effect with
  | idle =>
    have whole : descendants family s s action = family :=
      funext fun q => propext ⟨fun part => part.resolve_right fun ⟨_, _, _, before, after⟩ =>
        before after, .inl⟩
    exact ⟨own, by rw [whole]; exact watched⟩
  | @fault p va user _ member sane frames change sound others outcome =>
    have kept : ∀ q, family q → HasSpace s'.proc q ∧ (s'.proc q).pgdir = (s.proc q).pgdir :=
      fun q inFamily => ⟨(hasSpace_congr frames q).mpr (members q inFamily),
        (frames q).pgdir (members q inFamily).2.1⟩
    refine ⟨own, ?_⟩
    rw [descendants_eq (by simp)]
    refine watched.change sane change.stays kept fun q inFamily => ?_
    have before := watched.guarded q inFamily
    by_cases here : q = p
    · subst here
      rcases outcome with ⟨queue, -, hides⟩ | served
      · exact .inl ⟨queue, fun v user => hides _ v (watched.sane.live member) (page_lt user)⟩
      obtain ⟨points, mine⟩ := points q rfl member
      have spacesEq : familyDirs s family = familyDirs s' family := by
        funext e
        refine propext (exists_congr fun r => and_congr_right fun part => ?_)
        rw [(kept r part).2]
      rw [mine inFamily] at sound
      obtain ⟨aligned, covered⟩ := served.insert watched.live ⟨q, inFamily, rfl⟩ change before.aligned
        before.covered
      rw [spacesEq] at sound aligned
      refine .inr ⟨(kept q inFamily).1, ?_, aligned, ?_⟩
      · rwa [(kept q inFamily).2]
      · rwa [(kept q inFamily).2]
    · have other : (s.proc q).pgdir ≠ (s.proc p).pgdir :=
        fun same => here (watched.sane.distinct q p before.member member same)
      have dir := watched.sane.live before.member
      refine .inl ⟨others q here, fun v bound open' => ?_⟩
      rcases outcome with ⟨-, -, hides⟩ | served
      · exact hides _ v dir (page_lt bound) open'
      · exact (served.exposed _ v dir (page_lt bound) open').resolve_right fun same => other same.1
  | recode sane other change hides =>
    refine ⟨own, ?_⟩
    rw [descendants_eq other]
    exact watched.change sane change.stays (fun q inFamily => ⟨members q inFamily, rfl⟩)
      fun q inFamily => .inl ⟨rfl, fun v user =>
        hides _ v (watched.sane.live (members q inFamily)) (page_lt user)⟩
  | @grow p n _ own' facts =>
    have same := hasSpace_congr fun q => (facts.same q).1
    refine ⟨own', ?_⟩
    rw [descendants_eq (by simp)]
    exact watched.change facts.sane facts.carries.toStays
      (fun q inFamily => ⟨(same q).mpr (members q inFamily), (facts.same q).2.1⟩)
      fun q inFamily => .inl ⟨(facts.same q).2.2, fun v user =>
        facts.grown.hides allowed.2.2 _ v (watched.sane.live (members q inFamily)) user⟩
  | @fork p _ own' member facts =>
    have old : ∀ q, family q → HasSpace s'.proc q ∧ s'.proc q = s.proc q :=
      fun q inFamily => facts.old q (members q inFamily)
    have watched' : Watched image s' own' family := by
      refine watched.change facts.sane facts.carries.toStays
        (fun q inFamily => ⟨(old q inFamily).1, by rw [(old q inFamily).2]⟩)
        fun q inFamily => .inl ⟨by rw [(old q inFamily).2], fun v user exposed => ?_⟩
      rwa [Exposed, facts.entries _ v (watched.sane.live (members q inFamily)) user] at exposed
    refine ⟨own', facts.sane, ?_⟩
    rintro q (inFamily | ⟨_, ⟨⟩, inFamily, before, after⟩)
    · exact (watched'.guarded q inFamily).widen watched' fun _ => .inl
    · -- the child has the queue of its parent, whose open pages include its own
      obtain ⟨d, made⟩ := (facts.new q after).resolve_left before
      have parent := watched.guarded p inFamily
      have wider : ∀ e, familyDirs s family e →
          familyDirs s' (descendants family s s' (.fork p)) e := by
        rintro e ⟨r, inFamily', rfl⟩
        exact ⟨r, .inl inFamily', by rw [(old r inFamily').2]⟩
      obtain ⟨pgdir, -, -, queue⟩ := made.child
      refine ⟨after, ?_, ?_, ?_⟩
      · exact facts.child_sound made watched.sane member watched.live wider parent.sound
      · rw [queue]
        exact parent.aligned.stays watched.live wider facts.carries.toStays
      · rw [queue, pgdir]
        exact fun v user exposed => parent.covered v user (made.exposed user exposed)

/-- A step has its effect, or stops. -/
theorem Watched.effect (watched : Watched image s own family) (allowed : Confined family s action) :
    ∃ spaces : Nat → Nat → Prop, (∀ p, action.Uses p → HasSpace s.proc p →
        Points s own p (spaces p) ∧ (family p → spaces p = familyDirs s family)) ∧
      ((∃ s', s.step image clockOps action = .ok s' ∧ Effect image spaces s own action s') ∨
        ∃ stop, s.step image clockOps action = .error stop ∧ Stops action stop) := by
  have each : ∀ p, ∃ spaces : Nat → Prop, action.Uses p → HasSpace s.proc p →
      Points s own p spaces ∧ (family p → spaces = familyDirs s family) := by
    intro p
    by_cases uses : action.Uses p ∧ HasSpace s.proc p
    · have actor : family p ∨ SoundQueue s p := by
        obtain ⟨uses, -⟩ := uses
        cases action <;> first | exact uses.elim | cases uses
        · exact allowed
        · exact allowed
        · exact allowed.1
      obtain ⟨spaces, facts⟩ := watched.points uses.2 actor
      exact ⟨spaces, fun _ _ => facts⟩
    · exact ⟨fun _ => False, fun uses' member => absurd ⟨uses', member⟩ uses⟩
  choose spaces points using each
  exact ⟨spaces, points, step_effect watched.sane allowed.usual fun p uses member =>
    (points p uses member).1⟩

theorem step_watched (watched : Watched image s own family) (allowed : Confined family s action) :
    (∃ s' own', s.step image clockOps action = .ok s' ∧
        Watched image s' own' (descendants family s s' action)) ∨
      ∃ stop, s.step image clockOps action = .error stop ∧ Stops action stop := by
  obtain ⟨spaces, points, ⟨s', stepped, effect⟩ | stopped⟩ := watched.effect allowed
  · obtain ⟨own', watched'⟩ := effect.watched watched allowed points
    exact .inl ⟨s', own', stepped, watched'⟩
  · exact .inr stopped

/-! ## Runs -/

/-- A step of the machine, together with the family it leaves. -/
def FamilyStep (image : Image) (before after : (Nat → Prop) × Machine (Queue PteAddr)) : Prop :=
  ∃ action, Confined before.1 before.2 action ∧
    before.2.step image clockOps action = .ok after.2 ∧
    after.1 = descendants before.1 before.2 after.2 action

theorem run_watched {before after : (Nat → Prop) × Machine (Queue PteAddr)}
    (watched : Watched image before.2 own before.1)
    (reached : Relation.ReflTransGen (FamilyStep image) before after) :
    ∃ own', Watched image after.2 own' after.1 ∧ ∀ q, before.1 q → after.1 q := by
  induction reached with
  | refl => exact ⟨own, watched, fun _ => id⟩
  | tail _ last ih =>
    obtain ⟨own', watched', wider⟩ := ih
    obtain ⟨action, allowed, taken, family⟩ := last
    rcases step_watched watched' allowed with ⟨s', own'', taken', watched''⟩ | ⟨stop, stopped, -⟩
    · rw [taken] at taken'
      cases taken'
      rw [← family] at watched''
      exact ⟨own'', watched'', fun q inFamily => by rw [family]; exact .inl (wider q inFamily)⟩
    · rw [taken] at stopped
      simp at stopped

theorem exec_watched (sane : Sane image s own) {p : Nat} (member : HasSpace s.proc p)
    {file : Option (List (BitVec 8))} {path : List (BitVec 8)} {argv : List (List (BitVec 8))}
    (loaded : exec image clockOps s p file path argv = .ok (true, s')) :
    ∃ own', Watched image s' own' (· = p) := by
  obtain ⟨own', sane', outcome⟩ := exec_spec clockOps sane member cqInit_remove (by simp) loaded
  obtain ⟨d, facts⟩ := (outcome.resolve_left (by simp)).2
  obtain ⟨pgdir, state, queue⟩ := facts.proc
  refine ⟨own', sane', ?_⟩
  rintro q rfl
  refine ⟨⟨member.1, by rw [state]; exact member.2.1, by rw [state]; exact member.2.2⟩, ?_, ?_, ?_⟩
  · rw [queue]
    exact cqInit_sound _ _ _
  · rw [queue]
    exact cqInit_aligned _ _
  · rw [pgdir]
    exact fun v user exposed => absurd exposed (facts.hidden v user)

/-! ## The bound -/

/-- Whether a page is open can be read off its entry. -/
instance {σ : Type} (m : Mem σ) (d v : Nat) : Decidable (Exposed m d v) :=
  inferInstanceAs (Decidable (_ ∧ _ ∧ _))

/-- The pages of an address space that are open to user code. -/
def exposedPages {σ : Type} (m : Mem σ) (d : Nat) : Finset Nat :=
  (Finset.range userPages).filter (Exposed m d)

theorem Covered.card_le {queue : Queue PteAddr} (covered : Covered m d queue) :
    (exposedPages m d).card ≤ clockSize := by
  have inside : exposedPages m d ⊆
      (Finset.range clockSize).image fun i => (queue.slot i).va / pgSize := by
    intro v part
    obtain ⟨bound, exposed⟩ := Finset.mem_filter.mp part
    obtain ⟨i, inRange, -, same⟩ := covered v (Finset.mem_range.mp bound) exposed
    exact Finset.mem_image.mpr ⟨i, Finset.mem_range.mpr inRange, same⟩
  calc
    (exposedPages m d).card ≤ _ := Finset.card_le_card inside
    _ ≤ (Finset.range clockSize).card := Finset.card_image_le
    _ = clockSize := Finset.card_range clockSize

/-- What holds of a family after a run. -/
structure WorkingSets (image : Image) (s : Machine (Queue PteAddr)) (family : Nat → Prop) : Prop where
  /-- An open page of a process in the family has its address in a slot in use. -/
  covered : ∀ q, family q → ∀ v < userPages, Exposed s.mem (s.proc q).pgdir v →
    ∃ i < clockSize, ((s.proc q).queue.slot i).empty ≠ -1 ∧
      ((s.proc q).queue.slot i).va / pgSize = v
  /-- No process in the family has more open pages than there are slots. -/
  few : ∀ q, family q → (exposedPages s.mem (s.proc q).pgdir).card ≤ clockSize
  /-- The next step returns, or the kernel panics, or `sys_mencrypt` does not return. -/
  stops : ∀ action stop, Confined family s action →
    s.step image clockOps action = .error stop → Stops action stop

/-- After `exec`, no sequence of page faults, calls of `sys_mencrypt`, growth by whole pages, `fork`
and accesses leaves an open page of the process or of a descendant outside its clock queue. -/
theorem exec_confines_pages (image : Image) (managed : Nat → Prop)
    (s₀ s s' : Machine (Queue PteAddr)) (p : Nat) (file : Option (List (BitVec 8)))
    (path : List (BitVec 8)) (argv : List (List (BitVec 8))) (family : Nat → Prop)
    (start : Consistent image managed s₀) (ready : s₀.ready p = true)
    (loaded : exec image clockOps s₀ p file path argv = .ok (true, s))
    (reached : Relation.ReflTransGen (FamilyStep image) ((· = p), s) (family, s')) :
    family p ∧ WorkingSets image s' family := by
  obtain ⟨sane, -⟩ := start.sane
  obtain ⟨own, watched⟩ := exec_watched sane (hasSpace_of_ready ready) loaded
  obtain ⟨own', watched', wider⟩ := run_watched watched reached
  refine ⟨wider p rfl, fun q inFamily => (watched'.guarded q inFamily).covered,
    fun q inFamily => (watched'.guarded q inFamily).covered.card_le,
    fun action stop allowed stopped => ?_⟩
  rcases step_watched watched' allowed with ⟨next, _, taken, -⟩ | ⟨_, stopped', reason⟩
  · rw [stopped] at taken
    simp at taken
  · rw [stopped] at stopped'
    obtain rfl := Except.error.inj stopped'
    exact reason

/-! ## A run -/

/-- A file that is no more than a header can be loaded where there is room for page tables and a
stack. -/
theorem loadImage_bare (ops : ClockOps σ) (owned : Owned image m own)
    (quiet : ∀ pte, ops.remove m.queue pte = .ok m.queue) (calm : m.oom = [])
    (room : 1027 ≤ m.freelist.length) {file header : List (BitVec 8)}
    (read : readHeader file 0 elfHdrSize = some header) (magic : (elfHdr header).magic = elfMagic)
    (bare : (elfHdr header).phnum = 0) :
    ∃ program final, loadImage image ops m file [] = .ok (some program, final) := by
  obtain ⟨made, m₁, own₁, setup, owned₁, apart, queue, outcome, progress⟩ := setupkvm_spec owned
  obtain ⟨d, rfl, ample⟩ := progress 2 calm room
  rcases outcome with ⟨_, same, fresh, live, kind, empty, covered⟩ | ⟨failed, -⟩
  swap
  · simp at failed
  cases same
  have kernel := covered _ (kmap_covers_last image)
  have start : Building image m own d 0 m₁ own₁ :=
    ⟨owned₁, live, apart d, kind, queue, by omega, by simp [pagesBelow],
      fun v _ upper => empty v upper, kernel⟩
  obtain ⟨done, m₂, own₂, grown, change, kind₂, queue₂, pages, more⟩ := allocuvm_spec
    ops owned₁ live (show 2 * pgSize < kernBase by decide)
    (fun v (_ : pagesBelow 0 ≤ v) upper => empty v (lt_of_lt_of_le upper (by decide)))
    (fun pte _ => by rw [queue]; exact quiet pte) (by omega)
  obtain ⟨rfl, -⟩ := more 0 ample
  obtain ⟨-, blank⟩ := pages.resolve_right (by simp)
  have larger : Building image m own d (2 * pgSize) m₂ own₂ := by
    refine ⟨change.owned, change.live, (apart d).trans change.apart, kind₂.trans kind,
      queue₂.trans queue, by decide, fun v upper => (blank v (Nat.zero_le v) upper).accessible.1,
      fun v lower upper => ?_, ?_⟩
    · rw [change.entries v (page_lt upper) (.inr lower)]
      exact empty v upper
    · rw [change.entries _ (by decide) (.inr (by decide))]
      exact kernel
  obtain ⟨m₃, guarded, -, others, -⟩ := larger.guard (v := 0) (by decide)
  have top : Accessible m₃ d 1 := by
    rw [Accessible, others 1 (by decide), if_neg (by decide)]
    exact (blank 1 (by decide) (by decide)).accessible
  obtain ⟨m₄, copied⟩ := copyout_page (2 * pgSize - 16)
    ([0xFFFFFFFF, 0, 2 * pgSize - 4, 0].flatMap wordBytes) 15 (by decide) top (by decide)
  refine ⟨⟨d, 2 * pgSize, 2 * pgSize - 16, (elfHdr header).entry⟩, m₄, ?_⟩
  have stack : setupStack image ops d m₁ 0 [] =
      .ok (some (2 * pgSize, 2 * pgSize - 16), m₄) := by
    rw [setupStack]
    change (allocuvm image ops m₁ d 0 (2 * pgSize) >>= _) = _
    rw [grown]
    change (clearpteu m₂ d (0 * pgSize) >>= _) = _
    rw [guarded]
    change (copyout d (15 + 1) m₃ (2 * pgSize - 16)
      ([0xFFFFFFFF, 0, 2 * pgSize - 4, 0].flatMap wordBytes) >>= _) = _
    rw [copied]
    rfl
  rw [loadImage, read]
  simp [magic, bare, setup, loadSegments, Outcome.ok_bind, stack]

/-- A file with a header and nothing else. -/
def bareFile : List (BitVec 8) := wordBytes elfMagic ++ List.replicate 48 0

/-- The process loads the file, and then grows by one page. -/
theorem bareFile_confines_pages :
    ∃ s s', exec sampleImage clockOps roomySetup.machine 0 (some bareFile) [] [] = .ok (true, s) ∧
      s.step sampleImage clockOps (.grow 0 4096) = .ok s' ∧
      WorkingSets sampleImage s' (· = 0) := by
  have read : readHeader bareFile 0 elfHdrSize = some bareFile := by decide +kernel
  have room : 1027 ≤ (List.range' 500 1100).length := by simp
  obtain ⟨program, m, loading⟩ := loadImage_bare clockOps (roomySetup.sane.load 0) cqInit_remove rfl
    room read (by decide) (by decide)
  obtain ⟨s, own, loaded, -, facts⟩ := exec_loaded clockOps roomySetup.sane
    (roomySetup.hasSpace_iff.mpr rfl) cqInit_remove loading []
  have ready : s.ready 0 = true := by
    rw [Machine.ready, facts.proc.2.1]
    rfl
  obtain ⟨own', watched⟩ := exec_watched roomySetup.sane (roomySetup.hasSpace_iff.mpr rfl) loaded
  have member := hasSpace_of_ready ready
  obtain ⟨spaces, points, -⟩ := watched.points member (.inl rfl)
  obtain ⟨done, s', -, grown, -⟩ := growproc_clock watched.sane member points
    (n := (4096 : Word).toInt) (by decide) (by decide)
  have stepped : s.step sampleImage clockOps (.grow 0 4096) = .ok s' := by
    rw [Machine.step, if_pos ready, grown]
    rfl
  refine ⟨s, s', loaded, stepped, (exec_confines_pages sampleImage _ _ s s' 0 _ [] [] (· = 0)
    roomySetup.sane.consistent rfl loaded (.single ⟨.grow 0 4096, ?_, stepped, ?_⟩)).2⟩
  · exact ⟨.inl rfl, by decide, by decide⟩
  · exact (descendants_eq (by simp)).symm

end MemoryEncryption
