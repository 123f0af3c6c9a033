import MemoryEncryption.Kernel.Process
import MemoryEncryption.Verif.Faults
import MemoryEncryption.Verif.Loading

/-!
# The processes and their frames

`Sane` ties the labels of frames to the process table: the directories are those of
the processes and `kpgdir`, every process has its kernel stack, every pipe its
buffer, and nothing is in anybody's hands between two steps. Each function of the
kernel keeps it; what a function does to address spaces is stated along with it, for
the results about the clock queues.
-/

namespace MemoryEncryption

open Function

variable {σ : Type} {image : Image} {s : Machine σ} {own own' : Nat → Owner}

/-! ## Address spaces that live on -/

/-- Every address space lives on, with all its pages at their entries' addresses. -/
structure Stays (own own' : Nat → Owner) (m m' : Mem σ) : Prop where
  live : ∀ e, own e = .dir → own' e = .dir
  pages : ∀ e v, own e = .dir → v < userPages → mapped (entry m e v) = true →
    mapped (entry m' e v) = true ∧ pteAt m' e v = pteAt m e v

/-- Every address space lives on, with the plaintext of each page that had exactly one of its two
flags. -/
structure Carries (own own' : Nat → Owner) (m m' : Mem σ) : Prop extends Stays own own' m m' where
  preserved : Preserved own m m'

variable {m m' : Mem σ}

theorem Carries.trans {own'' : Nat → Owner} {m'' : Mem σ} (first : Carries own own' m m')
    (second : Carries own' own'' m' m'') : Carries own own'' m m'' where
  live e live := second.live e (first.live e live)
  pages e v live bound isMapped := by
    obtain ⟨kept, address⟩ := first.pages e v live bound isMapped
    obtain ⟨kept', address'⟩ := second.pages e v (first.live e live) bound kept
    exact ⟨kept', address'.trans address⟩
  preserved e v live bound one := by
    obtain ⟨kept, plain⟩ := first.preserved e v live bound one
    obtain ⟨kept', plain'⟩ := second.preserved e v (first.live e live) bound kept
    exact ⟨kept', plain'.trans plain⟩

variable {p : Nat}

theorem Carries.of_load (carries : Carries own own' (s.load p) m') : Carries own own' s.mem m' :=
  ⟨⟨carries.live, carries.pages⟩, carries.preserved⟩

theorem Recoded.stays (change : Recoded image own m m') : Stays own own m m' :=
  ⟨fun _ live => live, fun e v live bound isMapped =>
    ⟨by rw [change.maps e v live bound, isMapped], change.addresses e v live⟩⟩

theorem Recoded.carries (change : Recoded image own m m') (preserved : Preserved own m m') :
    Carries own own m m' :=
  ⟨change.stays, preserved⟩

theorem plaintext_eq {e v : Nat} (same : entry m' e v = entry m e v)
    (words : m'.word (frameOf (entry m e v)) = m.word (frameOf (entry m e v))) :
    plaintext m' e v = plaintext m e v := by
  funext i
  rw [plaintext, plaintext, same, words]

variable {d : Nat}

theorem Apart.carries_page {e v : Nat} (apart : Apart d m own m' own') (owned : Owned image m own)
    (live : own e = .dir) (other : e ≠ d) (bound : v < userPages)
    (isMapped : mapped (entry m e v) = true) :
    entry m' e v = entry m e v ∧ pteAt m' e v = pteAt m e v ∧
      plaintext m' e v = plaintext m e v := by
  obtain ⟨-, addresses, entries, contents⟩ := apart.lookups owned live other
  have same := entries v (page_lt bound)
  exact ⟨same, addresses v, plaintext_eq same
    (contents _ v (owned.user e v live bound isMapped)).2⟩

theorem Apart.carries (apart : ∀ e, Apart e m own m' own') (owned : Owned image m own) :
    Carries own own' m m' where
  live e live := ((apart (e + 1)).lookups owned live (by omega)).1
  pages e v live bound isMapped := by
    obtain ⟨same, address, -⟩ :=
      (apart (e + 1)).carries_page owned live (by omega) bound isMapped
    exact ⟨by rw [same, isMapped], address⟩
  preserved e v live bound one := by
    obtain ⟨same, -, plain⟩ :=
      (apart (e + 1)).carries_page owned live (by omega) bound (mapped_of_exactlyOne one)
    exact ⟨by rw [same, one], plain⟩

/-- A change in a range without pages carries every address space. -/
theorem Within.carries {low high : Nat} (change : Within image d low high m own m' own')
    (owned : Owned image m own) (live : own d = .dir)
    (vacant : ∀ v, low ≤ v → v < high → mapped (entry m d v) = false) : Carries own own' m m' := by
  have page : ∀ e v, own e = .dir → v < userPages → mapped (entry m e v) = true →
      entry m' e v = entry m e v ∧ pteAt m' e v = pteAt m e v ∧
        plaintext m' e v = plaintext m e v := by
    intro e v isDir bound isMapped
    by_cases here : e = d
    · subst here
      have outside : v < low ∨ high ≤ v := by
        by_contra inside
        rw [vacant v (by omega) (by omega)] at isMapped
        simp at isMapped
      have same := change.entries v (page_lt bound) outside
      obtain ⟨pte, found, -⟩ := exists_pteAt isMapped
      exact ⟨same, by rw [change.pteAt_eq (page_lt bound) found, found], plaintext_eq same
        (change.contents _ v outside (owned.user e v isDir bound isMapped)).2⟩
    · exact change.apart.carries_page owned isDir here bound isMapped
  refine ⟨⟨fun e isDir => ?_, fun e v isDir bound isMapped => ?_⟩, fun e v isDir bound one => ?_⟩
  · by_cases here : e = d
    · subst here
      exact change.live
    · exact (change.apart.lookups owned isDir here).1
  · obtain ⟨same, address, -⟩ := page e v isDir bound isMapped
    exact ⟨by rw [same, isMapped], address⟩
  · obtain ⟨same, -, plain⟩ := page e v isDir bound (mapped_of_exactlyOne one)
    exact ⟨by rw [same, one], plain⟩

/-! ## Labels and the process table -/

/-- The process has an address space: it is neither a free slot nor being made. -/
def HasSpace (proc : Nat → Proc σ) (p : Nat) : Prop :=
  p < nproc ∧ (proc p).state ≠ .unused ∧ (proc p).state ≠ .embryo

/-- The kinds of frames agree with the process table and the pipes. -/
structure Tidy (kind : Nat → Kind) (kpgdir : Nat) (proc : Nat → Proc σ)
    (pipes : Nat → Option Pipe) : Prop where
  dirs : ∀ f, kind f = .dir ↔ f = kpgdir ∨ ∃ p, HasSpace proc p ∧ (proc p).pgdir = f
  distinct : ∀ p q, HasSpace proc p → HasSpace proc q → (proc p).pgdir = (proc q).pgdir → p = q
  kernelDir : ∀ p, HasSpace proc p → (proc p).pgdir ≠ kpgdir
  kstacks : ∀ f p, kind f = .kstack p ↔
    p < nproc ∧ (proc p).state ≠ .unused ∧ (proc p).kstack = f
  pipes : ∀ f, kind f = .pipe ↔ (pipes f).isSome = true
  settled : ∀ f, kind f ≠ .held

/-- The labels agree with memory, the process table and the pipes. -/
structure Sane (image : Image) (s : Machine σ) (own : Nat → Owner) : Prop
    extends Tidy (kinds own) s.kpgdir s.proc s.pipes where
  owned : Owned image s.mem own
  kernelEmpty : ∀ v < userPages, entry s.mem s.kpgdir v = 0
  sizes : ∀ p, HasSpace s.proc p → (s.proc p).sz ≤ kernBase ∧
    ∀ v, pagesBelow (s.proc p).sz ≤ v → v < userPages → entry s.mem (s.proc p).pgdir v = 0

variable {f : Nat}

theorem kinds_dir : kinds own f = .dir ↔ own f = .dir := by
  simp only [kinds]
  cases own f <;> simp [Owner.kind]

theorem kinds_kstack : kinds own f = .kstack p ↔ own f = .kstack p := by
  simp only [kinds]
  cases own f <;> simp [Owner.kind]

theorem kinds_pipe : kinds own f = .pipe ↔ own f = .pipe := by
  simp only [kinds]
  cases own f <;> simp [Owner.kind]

theorem Sane.live (sane : Sane image s own) (member : HasSpace s.proc p) :
    own (s.proc p).pgdir = .dir :=
  kinds_dir.mp ((sane.dirs _).mpr (.inr ⟨p, member, rfl⟩))

theorem Sane.kernelLive (sane : Sane image s own) : own s.kpgdir = .dir :=
  kinds_dir.mp ((sane.dirs _).mpr (.inl rfl))

theorem hasSpace_of_ready (ready : s.ready p = true) : HasSpace s.proc p := by
  simp only [Machine.ready, Bool.and_eq_true, decide_eq_true_eq] at ready
  refine ⟨ready.1, ?_, ?_⟩
  · intro state
    simp [state, ProcState.alive] at ready
  · intro state
    simp [state, ProcState.alive] at ready

/-- What a process keeps when only its memory, its size or its private fields change. -/
structure Proc.SameFrames (before after : Proc σ) : Prop where
  pgdir : before.state ≠ .unused → after.pgdir = before.pgdir
  kstack : before.state ≠ .unused → after.kstack = before.kstack
  unused : after.state = .unused ↔ before.state = .unused
  embryo : after.state = .embryo ↔ before.state = .embryo

theorem Proc.SameFrames.refl (proc : Proc σ) : proc.SameFrames proc :=
  ⟨fun _ => rfl, fun _ => rfl, Iff.rfl, Iff.rfl⟩

theorem Proc.SameFrames.trans {first second third : Proc σ} (before : first.SameFrames second)
    (after : second.SameFrames third) : first.SameFrames third where
  pgdir used := by rw [after.pgdir (mt before.unused.mp used), before.pgdir used]
  kstack used := by rw [after.kstack (mt before.unused.mp used), before.kstack used]
  unused := after.unused.trans before.unused
  embryo := after.embryo.trans before.embryo

variable {proc' : Nat → Proc σ}

theorem hasSpace_congr {proc : Nat → Proc σ} (procs : ∀ q, (proc q).SameFrames (proc' q)) (q : Nat) :
    HasSpace proc' q ↔ HasSpace proc q := by
  simp only [HasSpace, ne_eq, (procs q).unused, (procs q).embryo]

theorem Tidy.congr {kind : Nat → Kind} {kpgdir : Nat} {proc : Nat → Proc σ}
    {pipes : Nat → Option Pipe} (tidy : Tidy kind kpgdir proc pipes)
    (procs : ∀ q, (proc q).SameFrames (proc' q)) : Tidy kind kpgdir proc' pipes := by
  have same := hasSpace_congr procs
  have pgdir : ∀ q, HasSpace proc' q → (proc' q).pgdir = (proc q).pgdir :=
    fun q member => (procs q).pgdir ((same q).mp member).2.1
  refine ⟨?_, ?_, ?_, ?_, tidy.pipes, tidy.settled⟩
  · intro f
    rw [tidy.dirs]
    refine or_congr_right (exists_congr fun q => ?_)
    constructor
    · rintro ⟨member, rfl⟩
      exact ⟨(same q).mpr member, pgdir q ((same q).mpr member)⟩
    · rintro ⟨member, rfl⟩
      exact ⟨(same q).mp member, (pgdir q member).symm⟩
  · intro q r memberQ memberR equal
    rw [pgdir q memberQ, pgdir r memberR] at equal
    exact tidy.distinct q r ((same q).mp memberQ) ((same r).mp memberR) equal
  · intro q member
    rw [pgdir q member]
    exact tidy.kernelDir q ((same q).mp member)
  · intro f q
    rw [tidy.kstacks, ne_eq, ne_eq, (procs q).unused]
    refine and_congr_right fun _ => and_congr_right fun used => ?_
    rw [(procs q).kstack used]

theorem Tidy.replace {kind kind' : Nat → Kind} {kpgdir : Nat} {procs : Nat → Proc σ}
    {pipes : Nat → Option Pipe} (tidy : Tidy kind kpgdir procs pipes) {proc : Proc σ}
    (dirs : ∀ f, kind' f = .dir ↔
      (kind f = .dir ∧ ¬ (HasSpace procs p ∧ (procs p).pgdir = f)) ∨
        (HasSpace (update procs p proc) p ∧ proc.pgdir = f))
    (fresh : HasSpace (update procs p proc) p → kind proc.pgdir ≠ .dir)
    (kstacks : ∀ f q, kind' f = .kstack q ↔
      if q = p then p < nproc ∧ proc.state ≠ .unused ∧ proc.kstack = f else kind f = .kstack q)
    (others : ∀ f, (kind' f = .pipe ↔ kind f = .pipe) ∧ kind' f ≠ .held) :
    Tidy kind' kpgdir (update procs p proc) pipes := by
  have same : ∀ {q}, q ≠ p → (HasSpace (update procs p proc) q ↔ HasSpace procs q) := by
    intro q other
    rw [HasSpace, HasSpace, update_of_ne other]
  have taken : ∀ q, HasSpace procs q → kind (procs q).pgdir = .dir :=
    fun q member => (tidy.dirs _).mpr (.inr ⟨q, member, rfl⟩)
  refine ⟨fun f => ?_, ?_, ?_, fun f q => ?_, fun f => (others f).1.trans (tidy.pipes f),
    fun f => (others f).2⟩
  · rw [dirs, tidy.dirs]
    constructor
    · rintro (⟨rfl | ⟨q, member, rfl⟩, kept⟩ | ⟨member, rfl⟩)
      · exact .inl rfl
      · have other : q ≠ p := by
          rintro rfl
          exact kept ⟨member, rfl⟩
        exact .inr ⟨q, (same other).mpr member, by rw [update_of_ne other]⟩
      · exact .inr ⟨p, member, by rw [update_self]⟩
    · rintro (rfl | ⟨q, member, rfl⟩)
      · exact .inl ⟨.inl rfl, fun mine => tidy.kernelDir p mine.1 mine.2⟩
      · by_cases here : q = p
        · subst here
          exact .inr ⟨member, by rw [update_self]⟩
        · rw [update_of_ne here]
          have before := (same here).mp member
          exact .inl ⟨.inr ⟨q, before, rfl⟩,
            fun mine => here (tidy.distinct q p before mine.1 mine.2.symm)⟩
  · intro q r memberQ memberR equal
    by_cases hereQ : q = p <;> by_cases hereR : r = p
    · rw [hereQ, hereR]
    · subst hereQ
      rw [update_self, update_of_ne hereR] at equal
      rw [equal] at fresh
      exact absurd (taken r ((same hereR).mp memberR)) (fresh memberQ)
    · subst hereR
      rw [update_self, update_of_ne hereQ] at equal
      rw [← equal] at fresh
      exact absurd (taken q ((same hereQ).mp memberQ)) (fresh memberR)
    · rw [update_of_ne hereQ, update_of_ne hereR] at equal
      exact tidy.distinct q r ((same hereQ).mp memberQ) ((same hereR).mp memberR) equal
  · intro q member
    by_cases here : q = p
    · subst here
      rw [update_self]
      rintro rfl
      exact fresh member ((tidy.dirs _).mpr (.inl rfl))
    · rw [update_of_ne here]
      exact tidy.kernelDir q ((same here).mp member)
  · rw [kstacks]
    by_cases here : q = p
    · subst here
      rw [if_pos rfl, update_self]
    · rw [if_neg here, update_of_ne here, tidy.kstacks]

/-- A machine in which every process keeps its frames and no frame changes its kind. -/
theorem Sane.change (sane : Sane image s own) {s' : Machine σ} (owned : Owned image s'.mem own')
    (kind : kinds own' = kinds own) (kpgdir : s'.kpgdir = s.kpgdir) (pipes : s'.pipes = s.pipes)
    (procs : ∀ q, (s.proc q).SameFrames (s'.proc q))
    (kernelEmpty : ∀ v < userPages, entry s'.mem s.kpgdir v = 0)
    (sizes : ∀ q, HasSpace s.proc q → (s'.proc q).sz ≤ kernBase ∧
      ∀ v, pagesBelow (s'.proc q).sz ≤ v → v < userPages →
        entry s'.mem (s.proc q).pgdir v = 0) : Sane image s' own' := by
  refine ⟨?_, owned, by rwa [kpgdir], fun q member => ?_⟩
  · rw [kind, kpgdir, pipes]
    exact sane.toTidy.congr procs
  · have before := (hasSpace_congr procs q).mp member
    rw [(procs q).pgdir before.2.1]
    exact sizes q before

/-- One slot gives up its frames and takes others, and address space `d` changes. -/
theorem Sane.replace (sane : Sane image s own) {proc : Proc σ}
    (tidy : Tidy (kinds own') s.kpgdir (update s.proc p proc) s.pipes)
    (owned : Owned image m' own') (kernel : s.kpgdir ≠ d)
    (only : ∀ q, q ≠ p → HasSpace s.proc q → (s.proc q).pgdir ≠ d)
    (zeros : ∀ e v, own e = .dir → e ≠ d → v < userPages → entry s.mem e v = 0 →
      entry m' e v = 0)
    (sizes : HasSpace (update s.proc p proc) p → proc.sz ≤ kernBase ∧
      ∀ v, pagesBelow proc.sz ≤ v → v < userPages → entry m' proc.pgdir v = 0) :
    Sane image (s.put p m' proc) own' := by
  refine ⟨tidy, owned, fun v bound => ?_, fun q member => ?_⟩
  · exact zeros _ v sane.kernelLive kernel bound (sane.kernelEmpty v bound)
  · rw [Machine.put_proc, Machine.put_mem] at *
    by_cases here : q = p
    · subst here
      rw [update_self]
      exact sizes member
    · rw [HasSpace, update_of_ne here] at member
      rw [update_of_ne here]
      refine ⟨(sane.sizes q member).1, fun v lower upper => ?_⟩
      exact zeros _ v (sane.live member) (only q here member) upper
        ((sane.sizes q member).2 v lower upper)

/-- Memory is recoded, and one process changes in fields that own no frames. -/
theorem Sane.recoded (sane : Sane image s own) {proc : Proc σ} (change : Recoded image own s.mem m')
    (same : (s.proc p).SameFrames proc) (size : proc.sz = (s.proc p).sz) :
    Sane image (s.put p m' proc) own := by
  have zeros : ∀ d v, own d = .dir → v < userPages → entry s.mem d v = 0 → entry m' d v = 0 := by
    intro d v live bound zero
    refine change.owned.zero d v live bound ?_
    rw [change.maps d v live bound, zero]
    decide
  refine sane.change change.owned rfl rfl rfl ?_
    (fun v bound => zeros _ v sane.kernelLive bound (sane.kernelEmpty v bound)) ?_
  · intro q
    by_cases here : q = p
    · subst here
      simpa using same
    · simpa [update_of_ne here] using .refl _
  · intro q member
    have sizes : (update s.proc p proc q).sz = (s.proc q).sz := by
      by_cases here : q = p
      · subst here
        simpa using size
      · simp [update_of_ne here]
    rw [Machine.put_proc, sizes]
    refine ⟨(sane.sizes q member).1, fun v lower upper => ?_⟩
    exact zeros _ v (sane.live member) upper ((sane.sizes q member).2 v lower upper)

/-- Memory changes in the address space of one process, whose size changes accordingly. -/
theorem Sane.resized (sane : Sane image s own) (member : HasSpace s.proc p) {proc : Proc σ}
    (owned : Owned image m' own') (kind : kinds own' = kinds own)
    (apart : Apart (s.proc p).pgdir s.mem own m' own') (same : (s.proc p).SameFrames proc)
    (size : proc.sz ≤ kernBase)
    (vacant : ∀ v, pagesBelow proc.sz ≤ v → v < userPages → entry m' (s.proc p).pgdir v = 0) :
    Sane image (s.put p m' proc) own' := by
  refine sane.change owned kind rfl rfl ?_ ?_ ?_
  · intro q
    by_cases here : q = p
    · subst here
      simpa using same
    · simpa [update_of_ne here] using .refl _
  · intro v bound
    obtain ⟨-, -, entries, -⟩ := apart.lookups sane.owned sane.kernelLive
      (Ne.symm (sane.kernelDir p member))
    rw [Machine.put_mem, entries v (page_lt bound)]
    exact sane.kernelEmpty v bound
  · intro q memberQ
    rw [Machine.put_proc, Machine.put_mem]
    by_cases here : q = p
    · subst here
      simp only [update_self]
      exact ⟨size, vacant⟩
    · simp only [update_of_ne here]
      have other : (s.proc q).pgdir ≠ (s.proc p).pgdir :=
        fun equal => here (sane.distinct q p memberQ member equal)
      obtain ⟨-, -, entries, -⟩ := apart.lookups sane.owned (sane.live memberQ) other
      refine ⟨(sane.sizes q memberQ).1, fun v lower upper => ?_⟩
      rw [entries v (page_lt upper)]
      exact (sane.sizes q memberQ).2 v lower upper

theorem Sane.load (sane : Sane image s own) (p : Nat) : Owned image (s.load p) own :=
  sane.owned.of_queue _

theorem setMem_eq_put (s : Machine σ) (m : Mem σ) (p : Nat) :
    s.setMem m = s.put p m (s.proc p) := by
  rw [Machine.setMem, Machine.put, update_eq_self]

theorem save_setProc (s : Machine σ) (p : Nat) (proc : Proc σ) (m : Mem σ) :
    (s.setProc p proc).save p m = s.put p m { proc with queue := m.queue } := by
  simp [Machine.save, Machine.setProc, Machine.put]

end MemoryEncryption
