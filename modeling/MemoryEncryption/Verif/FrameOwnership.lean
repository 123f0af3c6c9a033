import MemoryEncryption.Verif.OneProcess
import MemoryEncryption.Verif.Processes

/-!
# Every frame is in one place

The frames that `kalloc` manages, in the terms of the machine alone: `Holds` reads
off the free list, the page tables, the process table and the pipes where a frame
is. `Consistent` says that every managed frame is in exactly one place. It is
equivalent to the existence of labels that agree with the machine, and so every
step keeps it.
-/

namespace MemoryEncryption

open Function Outcome

variable {σ : Type} {image : Image} {s : Machine σ} {own own' : Nat → Owner}

/-! ## Places -/

/-- A place where a frame can be. A directory is named by the process that has it, with none for
`kpgdir`. -/
inductive Place where
  /-- On the free list. -/
  | free
  /-- A user page of a process. -/
  | user (p page : Nat)
  /-- A page table, under an entry of a directory. -/
  | table (holder : Option Nat) (i : Nat)
  /-- A page directory. -/
  | dir (holder : Option Nat)
  /-- The kernel stack of a process slot. -/
  | kstack (p : Nat)
  /-- A pipe buffer. -/
  | pipe
  deriving DecidableEq, Repr

namespace Machine

/-- The directory of a process, or `kpgdir`. -/
def directory (s : Machine σ) : Option Nat → Nat
  | none => s.kpgdir
  | some p => (s.proc p).pgdir

/-- There is such a directory. -/
def HasDirectory (s : Machine σ) : Option Nat → Prop
  | none => True
  | some p => HasSpace s.proc p

/-- The frame is in the place. -/
def Holds (s : Machine σ) (f : Nat) : Place → Prop
  | .free => f ∈ s.mem.freelist
  | .user p v => HasSpace s.proc p ∧ v < userPages ∧
    mapped (entry s.mem (s.proc p).pgdir v) = true ∧ frameOf (entry s.mem (s.proc p).pgdir v) = f
  | .table holder i => s.HasDirectory holder ∧ i < 1024 ∧
    tableOf s.mem (s.directory holder) i = some f
  | .dir holder => s.HasDirectory holder ∧ s.directory holder = f
  | .kstack p => p < nproc ∧ (s.proc p).state ≠ .unused ∧ (s.proc p).kstack = f
  | .pipe => (s.pipes f).isSome = true

end Machine

/-- Every managed frame is in exactly one place, once; no other frame is in any; and the page
tables are well formed. -/
structure Consistent (image : Image) (managed : Nat → Prop) (s : Machine σ) : Prop where
  /-- A managed frame is in one place. -/
  once : ∀ f, managed f → ∃! place, s.Holds f place
  /-- Other frames are in none. -/
  only : ∀ f place, s.Holds f place → managed f
  /-- No frame is on the free list twice. -/
  nodup : s.mem.freelist.Nodup
  /-- Managed frames lie between the kernel and the end of memory. -/
  range : ∀ f, managed f → image.endPage ≤ f ∧ f < physTop / pgSize
  /-- The entry of a page that is not mapped is zero. -/
  zero : ∀ holder v, s.HasDirectory holder → v < userPages →
    mapped (entry s.mem (s.directory holder) v) = false → entry s.mem (s.directory holder) v = 0
  /-- The kernel half of an address space is closed to the user. -/
  kernel : ∀ holder v, s.HasDirectory holder → userPages ≤ v → v < 2 ^ 20 →
    (entry s.mem (s.directory holder) v).getLsbD 2 = false
  /-- There are no user pages in `kpgdir`. -/
  kernelEmpty : ∀ v < userPages, entry s.mem s.kpgdir v = 0
  /-- A process has no pages above its size. -/
  sizes : ∀ p, HasSpace s.proc p → (s.proc p).sz ≤ kernBase ∧
    ∀ v, pagesBelow (s.proc p).sz ≤ v → v < userPages → entry s.mem (s.proc p).pgdir v = 0

/-! ## From places to labels -/

/-- The label of a place. -/
def Place.label (s : Machine σ) : Place → Owner
  | .free => .free
  | .user p v => .user (s.proc p).pgdir v
  | .table holder i => .table (s.directory holder) i
  | .dir _ => .dir
  | .kstack p => .kstack p
  | .pipe => .pipe

open Classical in
/-- The labels that the places of frames give. -/
noncomputable def labels (s : Machine σ) (f : Nat) : Owner :=
  if placed : ∃ place, s.Holds f place then placed.choose.label s else .outside

variable {f : Nat}

section Labels

variable {managed : Nat → Prop} (consistent : Consistent image managed s)

include consistent

theorem Consistent.label (place : Place) (holds : s.Holds f place) :
    labels s f = place.label s := by
  have placed : ∃ place, s.Holds f place := ⟨place, holds⟩
  have unique := consistent.once f (consistent.only f place holds)
  rw [labels, dif_pos placed, unique.unique placed.choose_spec holds]

omit consistent in
theorem placed_of_label {o : Owner} (label : labels s f = o) (inside : o ≠ .outside) :
    ∃ place, s.Holds f place ∧ place.label s = o := by
  rw [labels] at label
  split at label
  · rename_i placed
    exact ⟨_, placed.choose_spec, label⟩
  · exact absurd label.symm inside

omit consistent in
theorem directory_of_label {d : Nat} (label : labels s d = .dir) :
    ∃ holder, s.HasDirectory holder ∧ s.directory holder = d := by
  obtain ⟨place, holds, same⟩ := placed_of_label label (by simp)
  cases place with
  | dir holder => exact ⟨holder, holds⟩
  | _ => simp [Place.label] at same

theorem Consistent.owned : Owned image s.mem (labels s) where
  free f := by
    constructor
    · exact fun listed => consistent.label .free listed
    · intro label
      obtain ⟨place, holds, same⟩ := placed_of_label label (by simp)
      cases place with
      | free => exact holds
      | _ => simp [Place.label] at same
  nodup := consistent.nodup
  table d i f live bound found := by
    obtain ⟨holder, present, rfl⟩ := directory_of_label live
    exact consistent.label (.table holder i) ⟨present, bound, found⟩
  tableBack d i f label := by
    obtain ⟨place, holds, same⟩ := placed_of_label label (by simp)
    cases place with
    | table holder j =>
      simp only [Place.label, Owner.table.injEq] at same
      obtain ⟨rfl, rfl⟩ := same
      exact ⟨consistent.label (.dir holder) ⟨holds.1, rfl⟩, holds.2⟩
    | _ => simp [Place.label] at same
  user d v live bound isMapped := by
    obtain ⟨holder, present, rfl⟩ := directory_of_label live
    cases holder with
    | none =>
      rw [Machine.directory, consistent.kernelEmpty v bound] at isMapped
      simp at isMapped
    | some p => exact consistent.label (.user p v) ⟨present, bound, isMapped, rfl⟩
  userBack d v f label := by
    obtain ⟨place, holds, same⟩ := placed_of_label label (by simp)
    cases place with
    | user p w =>
      simp only [Place.label, Owner.user.injEq] at same
      obtain ⟨rfl, rfl⟩ := same
      exact ⟨consistent.label (.dir (some p)) ⟨holds.1, rfl⟩, holds.2⟩
    | _ => simp [Place.label] at same
  zero d v live := by
    obtain ⟨holder, present, rfl⟩ := directory_of_label live
    exact consistent.zero holder v present
  kernel d v live := by
    obtain ⟨holder, present, rfl⟩ := directory_of_label live
    exact consistent.kernel holder v present
  range f inside := by
    obtain ⟨place, holds, -⟩ := placed_of_label rfl inside
    exact consistent.range f (consistent.only f place holds)

/-- The labels agree with the machine, and say which frames are managed. -/
theorem Consistent.sane :
    Sane image s (labels s) ∧ ∀ f, managed f ↔ labels s f ≠ .outside := by
  have dirs : ∀ holder, s.HasDirectory holder → labels s (s.directory holder) = .dir :=
    fun holder present => consistent.label (.dir holder) ⟨present, rfl⟩
  have same : ∀ left right, s.HasDirectory left → s.HasDirectory right →
      s.directory left = s.directory right → left = right := by
    intro left right presentL presentR equal
    have first : s.Holds (s.directory left) (.dir left) := ⟨presentL, rfl⟩
    have second : s.Holds (s.directory left) (.dir right) := ⟨presentR, equal.symm⟩
    exact Place.dir.inj ((consistent.once _ (consistent.only _ _ first)).unique first second)
  refine ⟨⟨⟨fun f => ?_, ?_, ?_, fun f p => ?_, fun f => ?_, fun f => ?_⟩, consistent.owned,
    consistent.kernelEmpty, consistent.sizes⟩, fun f => ?_⟩
  · rw [kinds_dir]
    constructor
    · intro label
      obtain ⟨holder, present, rfl⟩ := directory_of_label label
      cases holder with
      | none => exact .inl rfl
      | some p => exact .inr ⟨p, present, rfl⟩
    · rintro (rfl | ⟨p, member, rfl⟩)
      · exact dirs none trivial
      · exact dirs (some p) member
  · intro p q memberP memberQ equal
    exact Option.some.inj (same (some p) (some q) memberP memberQ equal)
  · intro p member equal
    exact absurd (same (some p) none member trivial equal) (by simp)
  · rw [kinds_kstack]
    constructor
    · intro label
      obtain ⟨place, holds, equal⟩ := placed_of_label label (by simp)
      cases place with
      | kstack q =>
        obtain rfl := Owner.kstack.inj equal
        exact holds
      | _ => simp [Place.label] at equal
    · exact fun holds => consistent.label (.kstack p) holds
  · rw [kinds_pipe]
    constructor
    · intro label
      obtain ⟨place, holds, equal⟩ := placed_of_label label (by simp)
      cases place with
      | pipe => exact holds
      | _ => simp [Place.label] at equal
    · exact fun holds => consistent.label .pipe holds
  · intro held
    have label : labels s f = .held := by
      cases shape : labels s f <;> simp [kinds, shape, Owner.kind] at held ⊢
    obtain ⟨place, -, equal⟩ := placed_of_label label (by simp)
    cases place <;> simp [Place.label] at equal
  · constructor
    · intro inside
      obtain ⟨place, holds, -⟩ := consistent.once f inside
      rw [consistent.label place holds]
      cases place <;> simp [Place.label]
    · intro inside
      obtain ⟨place, holds, -⟩ := placed_of_label rfl inside
      exact consistent.only f place holds

end Labels

/-! ## From labels to places -/

section Places

variable (sane : Sane image s own)

include sane

theorem Sane.holder {d : Nat} (live : own d = .dir) :
    ∃ holder, s.HasDirectory holder ∧ s.directory holder = d := by
  rcases (sane.dirs d).mp (kinds_dir.mpr live) with rfl | ⟨p, member, rfl⟩
  · exact ⟨none, trivial, rfl⟩
  · exact ⟨some p, member, rfl⟩

theorem Sane.directory_live {holder : Option Nat} (present : s.HasDirectory holder) :
    own (s.directory holder) = .dir := by
  cases holder with
  | none => exact sane.kernelLive
  | some p => exact sane.live present

theorem Sane.holder_unique {left right : Option Nat} (presentL : s.HasDirectory left)
    (presentR : s.HasDirectory right) (equal : s.directory left = s.directory right) :
    left = right := by
  cases left with
  | none =>
    cases right with
    | none => rfl
    | some q => exact absurd equal.symm (sane.kernelDir q presentR)
  | some p =>
    cases right with
    | none => exact absurd equal (sane.kernelDir p presentL)
    | some q => rw [sane.distinct p q presentL presentR equal]

theorem Sane.label_of_holds {place : Place} (holds : s.Holds f place) : own f = place.label s := by
  cases place with
  | free => exact (sane.owned.free f).mp holds
  | user p v =>
    obtain ⟨member, bound, isMapped, rfl⟩ := holds
    exact sane.owned.user _ v (sane.live member) bound isMapped
  | table holder i =>
    exact sane.owned.table _ i f (sane.directory_live holds.1) holds.2.1 holds.2.2
  | dir holder =>
    obtain ⟨present, rfl⟩ := holds
    exact sane.directory_live present
  | kstack p => exact kinds_kstack.mp ((sane.kstacks f p).mpr holds)
  | pipe => exact kinds_pipe.mp ((sane.pipes f).mpr holds)

theorem Sane.place_unique {left right : Place} (holdsL : s.Holds f left) (holdsR : s.Holds f right) :
    left = right := by
  have same := (sane.label_of_holds holdsL).symm.trans (sane.label_of_holds holdsR)
  cases left <;> cases right <;> simp only [Place.label, reduceCtorEq, Owner.user.injEq,
    Owner.table.injEq, Owner.kstack.injEq] at same
  case free.free => rfl
  case pipe.pipe => rfl
  case kstack.kstack => rw [same]
  case dir.dir => rw [sane.holder_unique holdsL.1 holdsR.1 (holdsL.2.trans holdsR.2.symm)]
  case table.table => rw [sane.holder_unique holdsL.1 holdsR.1 same.1, same.2]
  case user.user => rw [sane.distinct _ _ holdsL.1 holdsR.1 same.1, same.2]

theorem Sane.exists_place (inside : own f ≠ .outside) : ∃ place, s.Holds f place := by
  cases label : own f with
  | outside => exact absurd label inside
  | free => exact ⟨.free, (sane.owned.free f).mpr label⟩
  | held => exact absurd (by rw [kinds, label]; rfl) (sane.settled f)
  | dir =>
    obtain ⟨holder, found⟩ := sane.holder label
    exact ⟨.dir holder, found⟩
  | table d i =>
    obtain ⟨live, bound, found⟩ := sane.owned.tableBack d i f label
    obtain ⟨holder, present, rfl⟩ := sane.holder live
    exact ⟨.table holder i, present, bound, found⟩
  | user d v =>
    obtain ⟨live, bound, isMapped, frame⟩ := sane.owned.userBack d v f label
    obtain ⟨holder, present, rfl⟩ := sane.holder live
    cases holder with
    | none =>
      rw [Machine.directory, sane.kernelEmpty v bound] at isMapped
      simp at isMapped
    | some p => exact ⟨.user p v, present, bound, isMapped, frame⟩
  | kstack p => exact ⟨.kstack p, (sane.kstacks f p).mp (kinds_kstack.mpr label)⟩
  | pipe => exact ⟨.pipe, (sane.pipes f).mp (kinds_pipe.mpr label)⟩

theorem Sane.consistent : Consistent image (fun f => own f ≠ .outside) s where
  once f inside := by
    obtain ⟨place, holds⟩ := sane.exists_place inside
    exact ⟨place, holds, fun other holds' => sane.place_unique holds' holds⟩
  only f place holds := by
    rw [sane.label_of_holds holds]
    cases place <;> simp [Place.label]
  nodup := sane.owned.nodup
  range := sane.owned.range
  zero holder v present := sane.owned.zero _ v (sane.directory_live present)
  kernel holder v present := sane.owned.kernel _ v (sane.directory_live present)
  kernelEmpty := sane.kernelEmpty
  sizes := sane.sizes

end Places

/-! ## Steps -/

/-- The same frames are managed. -/
def SameManaged (own own' : Nat → Owner) : Prop :=
  ∀ f, kinds own' f = .outside ↔ kinds own f = .outside

theorem SameManaged.of_kinds (kind : kinds own' = kinds own) : SameManaged own own' := by
  intro f
  rw [kind]

theorem kinds_outside : kinds own f = .outside ↔ own f = .outside := by
  simp only [kinds]
  cases own f <;> simp [Owner.kind]

theorem update_outside {kind : Nat → Kind} {k : Kind} (before : kind f ≠ .outside)
    (after : k ≠ .outside) (g : Nat) :
    update kind f k g = .outside ↔ kind g = .outside := by
  by_cases here : g = f
  · subst here
    simp [before, after]
  · rw [update_of_ne here]

theorem Tidy.setPipe {kind : Nat → Kind} {kpgdir : Nat} {procs : Nat → Proc σ}
    {pipes : Nat → Option Pipe} (tidy : Tidy kind kpgdir procs pipes) {k : Kind}
    {value : Option Pipe} (before : kind f = .pool ∨ kind f = .pipe) (after : k = .pool ∨ k = .pipe)
    (agree : k = .pipe ↔ value.isSome = true) :
    Tidy (update kind f k) kpgdir procs (update pipes f value) := by
  have same : ∀ g label, label ≠ .pool → label ≠ .pipe →
      (update kind f k g = label ↔ kind g = label) := by
    intro g label notPool notPipe
    by_cases here : g = f
    · subst here
      rw [update_self]
      constructor
      · rintro rfl
        exact absurd after (by simp [notPool, notPipe])
      · rintro rfl
        exact absurd before (by simp [notPool, notPipe])
    · rw [update_of_ne here]
  refine ⟨fun g => ?_, tidy.distinct, tidy.kernelDir, fun g p => ?_, fun g => ?_, fun g => ?_⟩
  · rw [same g _ (by simp) (by simp)]
    exact tidy.dirs g
  · rw [same g _ (by simp) (by simp)]
    exact tidy.kstacks g p
  · by_cases here : g = f
    · subst here
      rw [update_self, update_self, agree]
    · rw [update_of_ne here, update_of_ne here]
      exact tidy.pipes g
  · rw [ne_eq, same g _ (by simp) (by simp)]
    exact tidy.settled g

theorem pipealloc_sane (sane : Sane image s own) (files : Bool) :
    ∃ own', Sane image (pipealloc s files).2 own' ∧ SameManaged own own' := by
  rw [pipealloc]
  split
  · exact ⟨own, sane, .of_kinds rfl⟩
  rcases kalloc_cases s.mem with ⟨oom, failed⟩ | ⟨oom, f, rest, shape, taken⟩
  · rw [failed]
    exact ⟨own, ⟨sane.toTidy, sane.owned.of_oom oom, sane.kernelEmpty, sane.sizes⟩, .of_kinds rfl⟩
  · rw [taken]
    obtain ⟨listed, owned⟩ := sane.owned.take (o := .pipe) rfl (by simp) oom shape
    have pool : kinds own f = .pool := by
      rw [kinds, listed]
      rfl
    refine ⟨_, ⟨?_, owned, sane.kernelEmpty, sane.sizes⟩, fun g => ?_⟩
    · rw [kinds_update]
      exact sane.toTidy.setPipe (.inl pool) (.inr rfl) (by simp [Owner.kind])
    · rw [kinds_update]
      exact update_outside (by simp [pool]) (by simp [Owner.kind]) g

theorem pipeclose_sane (sane : Sane image s own) {pipe : Pipe} (writable : Bool)
    (present : s.pipes f = some pipe) :
    ∃ final own', pipeclose image s f pipe writable = .ok final ∧ Sane image final own' ∧
      SameManaged own own' := by
  have kind : kinds own f = .pipe := (sane.pipes f).mpr (by simp [present])
  have label := kinds_pipe.mp kind
  rw [pipeclose]
  generalize (if writable then { pipe with writeopen := false }
    else { pipe with readopen := false }) = rest
  split
  · obtain ⟨m, freed, -, words, owned⟩ := sane.owned.release (f := f) (by rw [label]; rfl)
      (by simp [label])
    have apart : ∀ e, Apart e s.mem own m (update own f .free) :=
      fun e => .of_change (· = f) (fun g same => .inl (by simp [same, space, label]))
        (fun g other => update_of_ne other _ _) words
    have entries : ∀ e v, own e = .dir → v < userPages → entry m e v = entry s.mem e v :=
      fun e v live bound =>
        ((apart (e + 1)).lookups sane.owned live (by omega)).2.2.1 v (page_lt bound)
    rw [freed, ok_bind]
    refine ⟨_, _, rfl, ⟨?_, owned, fun v bound => ?_, fun p member => ?_⟩, fun g => ?_⟩
    · rw [kinds_update]
      exact sane.toTidy.setPipe (.inr kind) (.inl rfl) (by simp [Owner.kind])
    · rw [entries _ v sane.kernelLive bound, sane.kernelEmpty v bound]
    · refine ⟨(sane.sizes p member).1, fun v lower upper => ?_⟩
      rw [entries _ v (sane.live member) upper, (sane.sizes p member).2 v lower upper]
    · rw [kinds_update]
      exact update_outside (by simp [kind]) (by simp [Owner.kind]) g
  · refine ⟨_, own, rfl, ⟨?_, sane.owned, sane.kernelEmpty, sane.sizes⟩, .of_kinds rfl⟩
    rw [← update_eq_self f (kinds own), kind]
    exact sane.toTidy.setPipe (.inr kind) (.inr rfl) (by simp)

theorem growproc_sane {s : Machine Unit} (sane : Sane image s own) {p : Nat}
    (member : HasSpace s.proc p) {n : Int} (upper : n < 2 ^ 31) :
    ∃ done final own', growproc image noClock s p n = .ok (done, final) ∧
      Sane image final own' ∧ SameManaged own own' := by
  by_cases grows : 0 ≤ n
  · obtain ⟨done, final, own', grown, facts⟩ :=
      growproc_spec noClock sane member grows upper (fun _ _ => rfl)
    exact ⟨done, final, own', grown, facts.sane, .of_kinds facts.kind⟩
  obtain ⟨top, vacant⟩ := sane.sizes p member
  rw [growproc]
  generalize (((s.proc p).sz + n) % 2 ^ 32).toNat = newsz
  obtain ⟨m, own', shrunk, change, kind, queue, cleared⟩ := deallocuvm_spec noClock newsz
    (sane.load p) (sane.live member) top (fun _ _ _ _ _ _ => rfl)
  have smaller : (if (s.proc p).sz ≤ newsz then (s.proc p).sz else newsz) ≤ (s.proc p).sz := by
    split <;> omega
  have empty : ∀ v, pagesBelow (if (s.proc p).sz ≤ newsz then (s.proc p).sz else newsz) ≤ v →
      v < userPages → entry m (s.proc p).pgdir v = 0 := by
    intro v lower bound
    by_cases above : pagesBelow (s.proc p).sz ≤ v
    · rw [change.entries v (page_lt bound) (.inr above)]
      exact vacant v above bound
    · split at lower
      · exact absurd lower above
      · exact cleared v lower (by omega)
  have none : (n.tdiv pgSize).toNat = 0 := by
    rw [Int.toNat_eq_zero]
    rw [show n = -(-n) by omega, Int.neg_tdiv, Int.tdiv_eq_ediv_of_nonneg (by omega)]
    have := Int.ediv_nonneg (a := -n) (b := pgSize) (by omega) (by omega)
    omega
  rw [if_neg (by omega), if_pos (by omega), shrunk, ok_bind]
  generalize (if (s.proc p).sz ≤ newsz then (s.proc p).sz else newsz) = size at smaller empty ⊢
  simp only
  split
  · refine ⟨false, _, own', rfl, ?_, .of_kinds kind⟩
    refine sane.resized member change.owned kind change.apart
      ⟨fun _ => rfl, fun _ => rfl, .rfl, .rfl⟩ top (fun v lower bound => empty v ?_ bound)
    unfold pagesBelow at lower ⊢
    omega
  · simp only [mencrypt, none, mencryptCheck, mencryptPages, ok_bind, ↓reduceIte,
      save_setProc]
    refine ⟨true, _, own', rfl, ?_, .of_kinds kind⟩
    exact sane.resized member change.owned kind change.apart
      ⟨fun _ => rfl, fun _ => rfl, .rfl, .rfl⟩ (smaller.trans top) empty

theorem free_managed (free : own f = .free) : kinds own f ≠ .outside := by
  rw [kinds, free]
  simp [Owner.kind]

theorem dir_managed (live : own f = .dir) : kinds own f ≠ .outside := by
  rw [kinds, live]
  simp [Owner.kind]

section Steps

variable {s s' : Machine Unit} (sane : Sane image s own) {p : Nat} (member : HasSpace s.proc p)

include sane member

theorem fork_sane {result : Option Nat} (returned : fork image noClock s p = .ok (result, s')) :
    ∃ own', Sane image s' own' ∧ SameManaged own own' := by
  rcases fork_spec noClock sane member (fun _ _ => rfl) with
    ⟨_, _, own', forked, sane', -, outcome, -⟩ | ⟨message, _, stopped, -⟩
  · rw [returned] at forked
    cases forked
    refine ⟨own', sane', ?_⟩
    rcases outcome with ⟨np, d, made⟩ | ⟨-, undone⟩
    · obtain ⟨k, stack, distinct, kind⟩ := made.kind
      intro f
      rw [kind, update_outside _ (by simp), update_outside (free_managed stack) (by simp)]
      rw [update_of_ne distinct.symm]
      exact free_managed made.fresh
    · exact .of_kinds undone.kind
  · rw [returned] at stopped
    simp at stopped

theorem exec_sane {file : Option (List (BitVec 8))} {path : List (BitVec 8)}
    {argv : List (List (BitVec 8))} {done : Bool}
    (returned : exec image noClock s p file path argv = .ok (done, s')) :
    ∃ own', Sane image s' own' ∧ SameManaged own own' := by
  obtain ⟨own', sane', outcome⟩ :=
    exec_spec noClock sane member (fun _ => rfl) (fun _ _ _ => rfl) returned
  refine ⟨own', sane', ?_⟩
  rcases outcome with ⟨-, kind, -⟩ | ⟨-, d, execed⟩
  · exact .of_kinds kind
  · have live := sane.live member
    have distinct : (s.proc p).pgdir ≠ d := by
      intro same
      rw [same, execed.fresh] at live
      simp at live
    intro f
    rw [execed.kind, update_outside _ (by simp),
      update_outside (free_managed execed.fresh) (by simp)]
    rw [update_of_ne distinct]
    exact dir_managed live

omit member in
theorem wait_sane {result : Waited} (returned : wait image noClock s p = .ok (result, s')) :
    ∃ own', Sane image s' own' ∧ SameManaged own own' := by
  obtain ⟨_, _, own', waited, sane', outcome⟩ :=
    wait_spec noClock sane (p := p) (fun _ _ _ _ _ _ _ _ => rfl)
  rw [returned] at waited
  cases waited
  refine ⟨own', sane', ?_⟩
  rcases outcome with ⟨-, rfl⟩ | ⟨q, reaped⟩
  · exact .of_kinds rfl
  · have child := reaped.zombie.1
    have stack : kinds own (s.proc q).kstack = .kstack q :=
      (sane.kstacks _ q).mpr ⟨child.1, child.2.1, rfl⟩
    intro f
    rw [reaped.kind, update_outside _ (by simp), update_outside (by simp [stack]) (by simp)]
    rw [ne_eq, update_outside (by simp [stack]) (by simp)]
    exact dir_managed (sane.live child)

theorem pageFault_sane {va : Nat} {user : Bool} (returned : pageFault noClock s p va user = .ok s') :
    Sane image s' own := by
  have live := sane.live member
  have decrypting : ∃ done m, mdecrypt noClock (s.load p) (s.proc p).pgdir va = .ok (done, m) ∧
      Recoded image own s.mem m := by
    rcases mdecrypt_cases noClock va (sane.load p) live with ⟨failed, -⟩ |
      ⟨m, pte, opened, -, -, -, change⟩
    · exact ⟨false, _, failed, (Recoded.refl sane.owned).of_queue _⟩
    · refine ⟨true, m, opened, ?_⟩
      exact ⟨change.recoded.owned, change.recoded.addresses, change.recoded.entries,
        change.recoded.maps⟩
  obtain ⟨done, m, decrypted, recoded⟩ := decrypting
  rcases pageFault_spec noClock user member decrypted with ⟨final, faulted, kept⟩ |
    ⟨message, stopped⟩
  · rw [returned] at faulted
    cases faulted
    exact (sane.recoded recoded ⟨fun _ => rfl, fun _ => rfl, .rfl, .rfl⟩ rfl).keeps kept
  · rw [returned] at stopped
    simp at stopped

theorem sysMencrypt_sane {va : Nat} {len : Int} (bound : va < 2 ^ 32) {done : Bool} {m : Mem Unit}
    (returned : sysMencrypt (s.load p) (s.proc p).pgdir (s.proc p).sz va len = .ok (done, m)) :
    Sane image (s.save p m) own := by
  rcases sysMencrypt_spec (s.proc p).sz len (sane.load p) (sane.live member) bound with
    stopped | ⟨_, _, encrypted, change⟩
  · rw [returned] at stopped
    simp at stopped
  · rw [returned] at encrypted
    cases encrypted
    have recoded : Recoded image own s.mem m :=
      ⟨change.recoded.owned, change.recoded.addresses, change.recoded.entries, change.recoded.maps⟩
    exact sane.recoded recoded ⟨fun _ => rfl, fun _ => rfl, .rfl, .rfl⟩ rfl

end Steps

theorem step_sane {s s' : Machine Unit} (sane : Sane image s own) {action : Action}
    (returned : s.step image noClock action = .ok s') :
    ∃ own', Sane image s' own' ∧ SameManaged own own' := by
  have idle : s = s' → ∃ own', Sane image s' own' ∧ SameManaged own own' := by
    rintro rfl
    exact ⟨own, sane, .of_kinds rfl⟩
  cases action with
  | exec p file path argv =>
    rw [Machine.step] at returned
    split at returned
    · rename_i ready
      obtain ⟨⟨done, final⟩, ran, rfl⟩ := map_eq_ok.mp returned
      exact exec_sane sane (hasSpace_of_ready ready) ran
    · exact idle (Except.ok.inj returned)
  | fork p =>
    rw [Machine.step] at returned
    split at returned
    · rename_i ready
      obtain ⟨⟨result, final⟩, ran, rfl⟩ := map_eq_ok.mp returned
      exact fork_sane sane (hasSpace_of_ready ready) ran
    · exact idle (Except.ok.inj returned)
  | exit p =>
    rw [Machine.step] at returned
    split at returned
    · rename_i ready
      rcases exit_spec (hasSpace_of_ready ready) with ⟨final, left, kept⟩ | ⟨message, stopped⟩
      · rw [returned] at left
        cases left
        exact ⟨own, sane.keeps kept, .of_kinds rfl⟩
      · rw [returned] at stopped
        simp at stopped
    · exact idle (Except.ok.inj returned)
  | wait p =>
    rw [Machine.step] at returned
    split at returned
    · obtain ⟨⟨result, final⟩, ran, rfl⟩ := map_eq_ok.mp returned
      exact wait_sane sane ran
    · exact idle (Except.ok.inj returned)
  | fault p va user =>
    rw [Machine.step] at returned
    split at returned
    · rename_i ready
      exact ⟨own, pageFault_sane sane (hasSpace_of_ready ready) returned, .of_kinds rfl⟩
    · exact idle (Except.ok.inj returned)
  | mencrypt p va len =>
    rw [Machine.step] at returned
    split at returned
    · rename_i ready
      obtain ⟨⟨done, m⟩, ran, rfl⟩ := map_eq_ok.mp returned
      exact ⟨own, sysMencrypt_sane sane (hasSpace_of_ready ready) va.isLt ran, .of_kinds rfl⟩
    · exact idle (Except.ok.inj returned)
  | grow p n =>
    rw [Machine.step] at returned
    split at returned
    · rename_i ready
      obtain ⟨⟨done, final⟩, ran, rfl⟩ := map_eq_ok.mp returned
      obtain ⟨_, _, own', grown, facts⟩ :=
        growproc_sane sane (hasSpace_of_ready ready) (BitVec.toInt_lt (x := n))
      rw [ran] at grown
      cases grown
      exact ⟨own', facts⟩
    · exact idle (Except.ok.inj returned)
  | pipealloc files =>
    cases returned
    exact pipealloc_sane sane files
  | pipeclose f writable =>
    rw [Machine.step] at returned
    split at returned
    · exact idle (Except.ok.inj returned)
    · rename_i pipe present
      obtain ⟨_, own', closed, facts⟩ := pipeclose_sane sane writable present
      rw [returned] at closed
      cases closed
      exact ⟨own', facts⟩
  | access p va store =>
    rw [Machine.step] at returned
    split at returned
    · rename_i ready
      obtain ⟨m, accessed, recoded, -⟩ := access_spec sane
        (hasSpace_of_ready ready) va.toNat store
      cases returned
      rw [accessed, setMem_eq_put s m p]
      exact ⟨own, sane.recoded recoded (.refl _) rfl, .of_kinds rfl⟩
    · exact idle (Except.ok.inj returned)

/-- Frame ownership: from a consistent start, with `kalloc` failing at any point, every state that
a run of the machine reaches is consistent. Every managed frame is there in exactly one place: once
on the free list, one user page of one process, one page table or directory of one process or of
`kpgdir`, the kernel stack of one process slot, or a pipe buffer. -/
theorem run_keeps_frames (image : Image) (managed : Nat → Prop) (s s' : Machine Unit)
    (actions : List Action) (start : Consistent image managed s)
    (finished : Outcome.run (Machine.step image noClock) s actions = .ok s') :
    Consistent image managed s' := by
  obtain ⟨own, sane, inside⟩ : ∃ own, Sane image s' own ∧ ∀ f, managed f ↔ own f ≠ .outside := by
    refine run_invariant (fun state => ∃ own, Sane image state own ∧
      ∀ f, managed f ↔ own f ≠ .outside) (fun _ => True) ?_ ⟨_, start.sane⟩ (fun _ _ => trivial)
      finished
    rintro state action next ⟨own, sane, inside⟩ - stepped
    obtain ⟨own', sane', same⟩ := step_sane sane stepped
    refine ⟨own', sane', fun f => ?_⟩
    rw [inside, ne_eq, ne_eq, ← kinds_outside, ← kinds_outside, same f]
  rw [show managed = fun f => own f ≠ .outside from funext fun f => propext (inside f)]
  exact sane.consistent

/-- The process grows by a page, a pipe is made, a `fork` runs out of memory, and the pipe is
closed. -/
def scarceRun : List Action :=
  [.grow 0 4096, .pipealloc true, .fork 0, .pipeclose 501 true, .pipeclose 501 false]

/-- A run in which memory runs out keeps the frames accounted for. -/
theorem scarceRun_keeps_frames :
    ∃ s', Outcome.run (Machine.step sampleImage noClock) scarceSetup.machine scarceRun = .ok s' ∧
      Consistent sampleImage (fun f => scarceSetup.own f ≠ .outside) s' := by
  have returns : ((Outcome.run (Machine.step sampleImage noClock) scarceSetup.machine
      scarceRun).map fun _ => ()).toOption = some () := by decide +kernel
  obtain ⟨s', finished, -⟩ := exists_ok returns
  exact ⟨s', finished, run_keeps_frames sampleImage _ scarceSetup.machine s' scarceRun
    scarceSetup.sane.consistent finished⟩

end MemoryEncryption
