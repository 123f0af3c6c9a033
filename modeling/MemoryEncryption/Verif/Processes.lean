import MemoryEncryption.Verif.UserSteps

/-!
# Making and ending processes

Specifications of `fork`, `exec` and `wait`. Each keeps the labels in agreement with
the process table on every path, the failing ones included, and says which address
spaces and which processes it leaves alone.
-/

namespace MemoryEncryption

open Function Outcome

variable {σ : Type} {image : Image} {s : Machine σ} {own own' : Nat → Owner} {p : Nat} {m : Mem σ}

theorem save_eq (queue : m.queue = (s.proc p).queue) : s.save p m = s.setMem m := by
  rw [Machine.save, Machine.put, queue, update_eq_self, Machine.setMem]

theorem setMem_setProc (s : Machine σ) (m : Mem σ) (p : Nat) (proc : Proc σ) :
    (s.setMem m).setProc p proc = s.put p m proc :=
  rfl

theorem findUnused_spec (found : findUnused s = some p) :
    p < nproc ∧ (s.proc p).state = .unused := by
  refine ⟨?_, by simpa using List.find?_some found⟩
  simpa using List.mem_of_find?_eq_some found

/-- What `fork` has made when it succeeds: process `np` in address space `d`. -/
structure Forked (p : Nat) (s : Machine σ) (own : Nat → Owner) (final : Machine σ)
    (own' : Nat → Owner) (np d : Nat) : Prop where
  slot : np < nproc ∧ (s.proc np).state = .unused
  fresh : own d = .free
  kind : ∃ k, own k = .free ∧ k ≠ d ∧
    kinds own' = Function.update (Function.update (kinds own) k (.kstack np)) d .dir
  /-- The child has the new address space and the parent's size and queue. -/
  child : (final.proc np).pgdir = d ∧ (final.proc np).sz = (s.proc p).sz ∧
    (final.proc np).state = .runnable ∧ (final.proc np).queue = (s.proc p).queue
  procs : ∀ q, q ≠ np → final.proc q = s.proc q
  copied : ∀ v < pagesBelow (s.proc p).sz, Copied s.mem (s.proc p).pgdir final.mem d v
  vacant : ∀ v, pagesBelow (s.proc p).sz ≤ v → v < userPages → entry final.mem d v = 0

variable {d : Nat}

theorem Copied.flags {m' : Mem σ} {v : Nat} (copied : Copied m p m' d v) :
    mapped (entry m' d v) = true ∧ exactlyOne (entry m' d v) = true ∧
      has (entry m' d v) pteE = has (entry m p v) pteE ∧
      has (entry m' d v) pteU = has (entry m p v) pteU := by
  obtain ⟨-, f, -, shape, -⟩ := copied
  have low : ∀ k < 12, (pteFlags (entry m p v)).getLsbD k = (entry m p v).getLsbD k := by
    intro k small
    have bit : (0xFFF : Word).getLsbD k = true := by
      revert k
      decide
    rw [pteFlags, BitVec.getLsbD_and, bit, Bool.and_true]
  rw [shape]
  refine ⟨mapped_mappedEntry f _, exactlyOne_mappedEntry f _, ?_, ?_⟩
  · rw [has_pteE, has_pteE, mappedEntry_flag _ _ (by omega), if_neg (by omega), low 10 (by omega)]
  · rw [has_pteU, has_pteU, mappedEntry_flag _ _ (by omega), if_neg (by omega), low 2 (by omega)]

theorem Copied.plaintext_eq {m' : Mem σ} {v : Nat} (copied : Copied m p m' d v) :
    plaintext m' d v = plaintext m p v := by
  obtain ⟨-, -, encrypted, -⟩ := copied.flags
  obtain ⟨-, f, bound, shape, bytes⟩ := copied
  have leads : frameOf (entry m' d v) = f := by
    rw [shape, frameOf_mappedEntry bound (pteFlags_lt _)]
  funext i
  rw [plaintext, plaintext, encrypted, leads, bytes]

variable {np : Nat} {final : Machine σ}

theorem Forked.hasSpace_iff (made : Forked p s own final own' np d) (q : Nat) :
    HasSpace final.proc q ↔ q = np ∨ HasSpace s.proc q := by
  by_cases here : q = np
  · subst here
    simp [HasSpace, made.child.2.2.1, made.slot.1]
  · simp [HasSpace, made.procs q here, here]

/-- What a call that makes a process or an address space leaves when it fails. -/
structure Undone (s : Machine σ) (own : Nat → Owner) (final : Machine σ) (own' : Nat → Owner) :
    Prop where
  kind : kinds own' = kinds own
  procs : ∀ q, (s.proc q).state ≠ .unused → final.proc q = s.proc q
  slots : ∀ q, (final.proc q).state = .unused ↔ (s.proc q).state = .unused

theorem Undone.of_slot {proc : Proc σ} (free : (s.proc np).state = .unused)
    (kind : kinds own' = kinds own) (procs : final.proc = update s.proc np proc)
    (state : proc.state = .unused) : Undone s own final own' := by
  refine ⟨kind, fun q used => ?_, fun q => ?_⟩
  · have other : q ≠ np := by
      rintro rfl
      exact used free
    rw [procs, update_of_ne other]
  · rw [procs]
    by_cases here : q = np
    · subst here
      simp [free, state]
    · rw [update_of_ne here]

theorem Undone.hasSpace_iff (undone : Undone s own final own') (q : Nat) :
    HasSpace final.proc q ↔ HasSpace s.proc q := by
  by_cases free : (s.proc q).state = .unused
  · simp [HasSpace, free, (undone.slots q).mpr free]
  · rw [HasSpace, HasSpace, undone.procs q free]

theorem Undone.sane (sane : Sane image s own) (undone : Undone s own final own')
    (owned : Owned image final.mem own') (apart : ∀ e, Apart e s.mem own final.mem own')
    (kpgdir : final.kpgdir = s.kpgdir) (pipes : final.pipes = s.pipes) : Sane image final own' := by
  have entries : ∀ e v, own e = .dir → v < userPages → entry final.mem e v = entry s.mem e v :=
    fun e v live bound =>
      ((apart (e + 1)).lookups sane.owned live (by omega)).2.2.1 v (page_lt bound)
  refine sane.change owned undone.kind kpgdir pipes (fun q => ?_) (fun v bound => ?_)
    (fun q member => ?_)
  · by_cases free : (s.proc q).state = .unused
    · refine ⟨fun used => absurd free used, fun used => absurd free used, undone.slots q, ?_⟩
      simp [free, (undone.slots q).mpr free]
    · rw [undone.procs q free]
      exact .refl _
  · rw [entries _ v sane.kernelLive bound, sane.kernelEmpty v bound]
  · rw [undone.procs q member.2.1]
    refine ⟨(sane.sizes q member).1, fun v lower upper => ?_⟩
    rw [entries _ v (sane.live member) upper, (sane.sizes q member).2 v lower upper]

/-- The machine that `allocproc` returns: slot `np` has a process ID and kernel stack `k`. -/
def Machine.embryo (s : Machine σ) (np k : Nat) (m : Mem σ) : Machine σ :=
  let proc := { s.proc np with state := .embryo, pid := s.nextpid, kstack := k }
  { s.put np m proc with nextpid := s.nextpid + 1 }

theorem embryo_self (s : Machine σ) (np k : Nat) (m : Mem σ) :
    (s.embryo np k m).proc np = { s.proc np with state := .embryo, pid := s.nextpid, kstack := k } :=
  update_self _ _ _

theorem embryo_setProc (s : Machine σ) (np k : Nat) (m m' : Mem σ) (proc : Proc σ) :
    ((s.embryo np k m).setMem m').setProc np proc =
      { s with nextpid := s.nextpid + 1 }.put np m' proc := by
  simp [Machine.embryo, Machine.setMem, Machine.setProc, Machine.put]

/-- `allocproc` takes a slot and a free frame, or fails without effect on what exists. -/
theorem allocproc_cases (s : Machine σ) (own : Nat → Owner) :
    (∃ final, allocproc s = (none, final) ∧ Undone s own final own ∧ final.kpgdir = s.kpgdir ∧
      final.pipes = s.pipes ∧ (∃ oom, final.mem = { s.mem with oom := oom }) ∧
      (s.mem.oom = [] → s.mem.freelist ≠ [] → findUnused s = none)) ∨
    ∃ np k rest oom, allocproc s =
        (some np, s.embryo np k { s.mem with oom := oom, freelist := rest }) ∧
      np < nproc ∧ (s.proc np).state = .unused ∧ s.mem.freelist = k :: rest ∧
      (s.mem.oom = [] → oom = []) := by
  unfold allocproc
  cases found : findUnused s with
  | none =>
    exact .inl ⟨s, rfl, ⟨rfl, fun _ _ => rfl, fun _ => .rfl⟩, rfl, rfl, ⟨_, rfl⟩,
      fun _ _ => rfl⟩
  | some np =>
    obtain ⟨slot, free⟩ := findUnused_spec found
    rcases kalloc_cases s.mem with ⟨oom, failed⟩ | ⟨oom, k, rest, shape, taken⟩
    · left
      simp only [Machine.setProc, failed]
      exact ⟨_, rfl, .of_slot free rfl (update_idem _ _ _) rfl, rfl, rfl, ⟨oom, rfl⟩,
        fun calm some => absurd rfl (kalloc_returns calm some failed).1⟩
    · right
      simp only [Machine.setProc, taken]
      refine ⟨np, k, rest, oom, ?_, slot, free, shape,
        fun calm => (kalloc_returns calm (by simp [shape]) taken).2.1⟩
      simp [Machine.embryo, Machine.put]

/-- A free slot takes two free frames: a kernel stack and a directory. -/
theorem Tidy.spawn {kind : Nat → Kind} {kpgdir : Nat} {procs : Nat → Proc σ}
    {pipes : Nat → Option Pipe} (tidy : Tidy kind kpgdir procs pipes) {k : Nat} {proc : Proc σ}
    (slot : np < nproc) (free : (procs np).state = .unused) (stack : kind k = .pool)
    (directory : kind d = .pool) (distinct : k ≠ d) (state : proc.state = .runnable)
    (pgdir : proc.pgdir = d) (kstack : proc.kstack = k) :
    Tidy (update (update kind k (.kstack np)) d .dir) kpgdir
      (update procs np proc) pipes := by
  have before : ¬ HasSpace procs np := fun member => member.2.1 free
  have after : HasSpace (update procs np proc) np := by
    simp [HasSpace, slot, state]
  have vacant : ∀ f, kind f ≠ .kstack np := fun f label => ((tidy.kstacks f np).mp label).2.1 free
  refine tidy.replace (fun f => ?_) (fun _ => by simp [pgdir, directory]) (fun f q => ?_)
    (fun f => ?_)
  · simp only [before, after, pgdir, false_and, not_false_eq_true, and_true, true_and]
    by_cases onDir : f = d
    · simp [onDir]
    by_cases onStack : f = k
    · subst onStack
      simp [onDir, stack, Ne.symm onDir]
    · simp [onDir, onStack, Ne.symm onDir]
  · simp only [state, kstack, slot]
    by_cases onDir : f = d
    · subst onDir
      simp [distinct, directory]
    by_cases onStack : f = k
    · subst onStack
      simp [onDir, stack, eq_comm]
    · by_cases here : q = np
      · subst here
        simp [onDir, onStack, Ne.symm onStack, vacant f]
      · simp [onDir, onStack, here]
  · by_cases onDir : f = d
    · subst onDir
      simp [directory]
    by_cases onStack : f = k
    · subst onStack
      simp [onDir, stack]
    · simp [onDir, onStack, tidy.settled f]

theorem Sane.spawned (sane : Sane image s own) {k : Nat} {m₂ : Mem σ} {child : Proc σ}
    (slot : np < nproc) (free : (s.proc np).state = .unused) (stack : own k = .free)
    (fresh : own d = .free) (distinct : k ≠ d)
    (kind : kinds own' = update (update (kinds own) k (.kstack np)) d .dir)
    (owned : Owned image m₂ own') (apart : ∀ e, Apart e s.mem own m₂ own')
    (state : child.state = .runnable) (pgdir : child.pgdir = d) (kstack : child.kstack = k)
    (size : child.sz ≤ kernBase)
    (vacant : ∀ v, pagesBelow child.sz ≤ v → v < userPages → entry m₂ d v = 0) :
    Sane image (s.put np m₂ child) own' := by
  have pool : ∀ f, own f = .free → kinds own f = .pool := fun f isFree => by
    rw [kinds, isFree]
    rfl
  have notDir : ∀ e, own e = .dir → e ≠ d := by
    rintro e isDir rfl
    simp [isDir] at fresh
  refine sane.replace ?_ owned (notDir _ sane.kernelLive)
    (fun q _ member => notDir _ (sane.live member)) (fun e v isDir other bound zero => ?_) ?_
  · rw [kind]
    exact sane.toTidy.spawn slot free (pool k stack) (pool d fresh) distinct state pgdir kstack
  · rw [((apart d).lookups sane.owned isDir other).2.2.1 v (page_lt bound), zero]
  · intro _
    rw [pgdir]
    exact ⟨size, vacant⟩

theorem Sane.of_nextpid (sane : Sane image s own) (nextpid : Nat) :
    Sane image { s with nextpid := nextpid } own :=
  ⟨sane.toTidy, sane.owned, sane.kernelEmpty, sane.sizes⟩

/-- `fork` makes a copy of the calling process, or fails and keeps nothing; it stops if one of the
caller's pages is missing. -/
theorem fork_spec (ops : ClockOps σ) (sane : Sane image s own) (member : HasSpace s.proc p)
    (quiet : ∀ pte, own pte.frame = .free →
      ops.remove (s.proc p).queue pte = .ok (s.proc p).queue) :
    (∃ result final own', fork image ops s p = .ok (result, final) ∧ Sane image final own' ∧
      (∀ e, Apart e s.mem own final.mem own') ∧
      ((∃ np d, Forked p s own final own' np d) ∨ (result = none ∧ Undone s own final own')) ∧
      (s.mem.oom = [] → 1026 + pagesBelow (s.proc p).sz ≤ s.mem.freelist.length →
        findUnused s ≠ none → result ≠ none)) ∨
    ∃ message v, fork image ops s p = .error (.panic message) ∧ v < pagesBelow (s.proc p).sz ∧
      mapped (entry s.mem (s.proc p).pgdir v) = false := by
  rw [fork]
  rcases allocproc_cases s own with ⟨final, failed, undone, kpgdir, pipes, ⟨oom, memory⟩, full⟩ |
    ⟨np, k, rest, oom, made, slot, free, shape, calm⟩
  · rw [failed]
    have apart : ∀ e, Apart e s.mem own final.mem own := by
      rw [memory]
      exact fun e => .refl e s.mem own
    refine .inl ⟨none, final, own, rfl, ?_, apart, .inr ⟨rfl, undone⟩, fun calm enough found => ?_⟩
    · refine undone.sane sane ?_ apart kpgdir pipes
      rw [memory]
      exact sane.owned.of_oom oom
    · exact absurd (full calm (List.ne_nil_of_length_pos (by omega))) found
  have distinct : p ≠ np := by
    rintro rfl
    exact member.2.1 free
  obtain ⟨listed, owned⟩ := sane.owned.take (o := .kstack np) rfl (by simp) oom shape
  have loose : space own k = none := by simp [space, listed]
  have start : ∀ e, Apart e s.mem own { s.mem with oom := oom, freelist := rest }
      (update own k (.kstack np)) :=
    fun e => .of_change (· = k) (fun f same => .inl (by rw [same, loose]))
      (fun f other => update_of_ne other _ _) (fun _ _ => rfl)
  have live : update own k (.kstack np) (s.proc p).pgdir = .dir := by
    rw [update_eq_iff (by simp [listed]) (by simp)]
    exact sane.live member
  let m₁ := { s.mem with oom := oom, freelist := rest }
  have caller : (s.embryo np k m₁).proc p = s.proc p := update_of_ne distinct _ _
  have loaded : (s.embryo np k m₁).load p = { m₁ with queue := (s.proc p).queue } := by
    rw [Machine.load, caller]
    rfl
  have copying := copyuvm_spec ops (owned.of_queue (s.proc p).queue) live (sane.sizes p member).1
    (fun pte isFree => quiet pte (by
      by_cases same : pte.frame = k
      · simp [same] at isFree
      · rwa [update_of_ne same] at isFree))
  rw [made]
  simp only
  rw [loaded, caller]
  rcases copying with ⟨result, m₂, own₂, copied, owned₂, apart, queue, outcome, progress⟩ |
    ⟨message, v, stopped, bound, missing⟩
  · have apart' : ∀ e, Apart e s.mem own m₂ own₂ := fun e => (start e).trans (apart e)
    have saved : (s.embryo np k m₁).save p m₂ = (s.embryo np k m₁).setMem m₂ :=
      save_eq (queue.trans (congrArg Proc.queue caller.symm))
    have stays : ((s.embryo np k m₁).setMem m₂).proc = (s.embryo np k m₁).proc := rfl
    left
    rw [copied, ok_bind, saved]
    simp only [stays, caller, embryo_self]
    rcases outcome with ⟨d, rfl, isFree, isDir, kind, pages, above, -⟩ | ⟨rfl, kind⟩
    · have apartFrames : k ≠ d := by
        rintro rfl
        simp at isFree
      have fresh : own d = .free := by rwa [update_of_ne apartFrames.symm] at isFree
      rw [kinds_update] at kind
      simp only [embryo_setProc]
      refine ⟨_, _, own₂, rfl, ?_, apart',
        .inl ⟨np, d, ⟨slot, free⟩, fresh, ?_, ?_, ?_, pages, above⟩, by simp⟩
      · exact (sane.of_nextpid _).spawned slot free listed fresh apartFrames kind owned₂ apart' rfl
          rfl rfl (sane.sizes p member).1 above
      · exact ⟨k, listed, apartFrames, kind⟩
      · simp [forkChild]
      · intro q other
        simp [update_of_ne other]
    · have label : own₂ k = .kstack np := by
        rw [← kinds_kstack, kind, kinds_update, update_self]
        rfl
      obtain ⟨m₃, freeing, -, words, owned₃⟩ := owned₂.release (f := k) (by rw [label]; rfl)
        (by simp [label])
      have last : ∀ e, Apart e s.mem own m₃ (update own₂ k .free) :=
        fun e => (apart' e).trans (.of_change (· = k)
          (fun f same => .inl (by simp [same, space, label]))
          (fun f other => update_of_ne other _ _) words)
      have kind' : kinds (update own₂ k .free) = kinds own := by
        rw [kinds_update, kind, kinds_update, update_idem, update_eq_self_iff,
          kinds, listed]
      rw [show ((s.embryo np k m₁).setMem m₂).mem = m₂ from rfl]
      simp only [freeing, ok_bind]
      rw [show ((s.embryo np k m₁).setMem m₂).setMem m₃ = (s.embryo np k m₁).setMem m₃ from rfl,
        embryo_setProc]
      have undone : ∀ proc : Proc σ, proc.state = .unused →
          Undone s own ({ s with nextpid := s.nextpid + 1 }.put np m₃ proc)
            (update own₂ k .free) :=
        fun proc state => .of_slot free kind' rfl state
      refine ⟨none, _, _, rfl, (undone _ rfl).sane sane owned₃ last rfl rfl, last,
        .inr ⟨rfl, undone _ rfl⟩, fun calm' enough _ => progress (calm calm') ?_⟩
      rw [shape, List.length_cons] at enough
      change 1025 + pagesBelow (s.proc p).sz ≤ rest.length
      omega
  · right
    rw [stopped]
    exact ⟨message, v, rfl, bound, missing⟩

/-! ## `wait` -/

/-- A slot gives up its kernel stack and its directory. -/
theorem Tidy.reap {kind : Nat → Kind} {kpgdir : Nat} {procs : Nat → Proc σ}
    {pipes : Nat → Option Pipe} (tidy : Tidy kind kpgdir procs pipes) {q : Nat} {proc : Proc σ}
    (member : HasSpace procs q) (state : proc.state = .unused) :
    Tidy (update (update kind (procs q).kstack .pool) (procs q).pgdir .pool)
      kpgdir (update procs q proc) pipes := by
  have after : ¬ HasSpace (update procs q proc) q := by simp [HasSpace, state]
  have directory : kind (procs q).pgdir = .dir := (tidy.dirs _).mpr (.inr ⟨q, member, rfl⟩)
  have stack : kind (procs q).kstack = .kstack q :=
    (tidy.kstacks _ q).mpr ⟨member.1, member.2.1, rfl⟩
  refine tidy.replace (fun f => ?_) (fun new => absurd new after) (fun f r => ?_) (fun f => ?_)
  · simp only [member, after, true_and, false_and, or_false]
    by_cases onDir : f = (procs q).pgdir
    · simp [onDir]
    by_cases onStack : f = (procs q).kstack
    · subst onStack
      simp [onDir, stack]
    · simp [onDir, onStack, Ne.symm onDir]
  · simp only [state, ne_eq, not_true_eq_false, false_and, and_false]
    by_cases onDir : f = (procs q).pgdir
    · simp [onDir, directory]
    by_cases onStack : f = (procs q).kstack
    · subst onStack
      by_cases here : r = q
      · simp [onDir, here]
      · simp [onDir, here, stack, Ne.symm here]
    · by_cases here : r = q
      · subst here
        have other : kind f ≠ .kstack r :=
          fun label => onStack ((tidy.kstacks f r).mp label).2.2.symm
        simp [onDir, onStack, other]
      · simp [onDir, onStack, here]
  · by_cases onDir : f = (procs q).pgdir
    · simp [onDir, directory]
    by_cases onStack : f = (procs q).kstack
    · subst onStack
      simp [onDir, stack]
    · simp [onDir, onStack, tidy.settled f]

/-- What `wait` leaves when it has reaped process `q`. -/
structure Reaped (s : Machine σ) (own : Nat → Owner) (final : Machine σ) (own' : Nat → Owner)
    (q : Nat) : Prop where
  zombie : HasSpace s.proc q ∧ (s.proc q).state = .zombie
  slot : (final.proc q).state = .unused
  procs : ∀ r, r ≠ q → final.proc r = s.proc r
  apart : Apart (s.proc q).pgdir s.mem own final.mem own'
  kind : kinds own' = Function.update (Function.update (kinds own) (s.proc q).kstack .pool)
    (s.proc q).pgdir .pool

/-- `wait` returns; it frees all that an exited child had, or changes nothing. -/
theorem wait_spec (ops : ClockOps σ) (sane : Sane image s own)
    (quiet : ∀ q v pte, HasSpace s.proc q → (s.proc q).state = .zombie → v < userPages →
      pteAt s.mem (s.proc q).pgdir v = some pte →
      mapped (entry s.mem (s.proc q).pgdir v) = true →
      ops.remove (s.proc p).queue pte = .ok (s.proc p).queue) :
    ∃ result final own', wait image ops s p = .ok (result, final) ∧ Sane image final own' ∧
      ((final = s ∧ own' = own) ∨ ∃ q, Reaped s own final own' q) := by
  rw [wait]
  simp only
  cases found : ((List.range nproc).filter fun q => (s.proc q).parent = some p).find?
      fun q => (s.proc q).state = .zombie with
  | none =>
    simp only
    split
    · exact ⟨.failed, s, own, rfl, sane, .inl ⟨rfl, rfl⟩⟩
    · exact ⟨.sleeps, s, own, rfl, sane, .inl ⟨rfl, rfl⟩⟩
  | some q =>
    have zombie : (s.proc q).state = .zombie := by simpa using List.find?_some found
    have slot : q < nproc := by
      have listed := List.mem_of_find?_eq_some found
      simp only [List.mem_filter, List.mem_range] at listed
      exact listed.1
    have member : HasSpace s.proc q := ⟨slot, by simp [zombie], by simp [zombie]⟩
    have stack : own (s.proc q).kstack = .kstack q :=
      kinds_kstack.mp ((sane.kstacks _ q).mpr ⟨slot, member.2.1, rfl⟩)
    have live := sane.live member
    obtain ⟨m₁, freeing, queue, words, owned₁⟩ := (sane.load p).release
      (f := (s.proc q).kstack) (by rw [stack]; rfl) (by simp [stack])
    have first : ∀ e, Apart e s.mem own m₁ (update own (s.proc q).kstack .free) :=
      fun e => .of_change (· = (s.proc q).kstack)
        (fun f same => .inl (by simp [same, space, stack]))
        (fun f other => update_of_ne other _ _) words
    obtain ⟨live₁, addresses, entries, -⟩ :=
      (first ((s.proc q).pgdir + 1)).lookups sane.owned live (by omega)
    obtain ⟨m₂, own₂, freed, owned₂, apart, kind, queue₂⟩ := freevm_spec ops owned₁ live₁
      (fun v pte bound address isMapped => by
        rw [addresses] at address
        rw [entries v (page_lt bound)] at isMapped
        rw [queue]
        exact quiet q v pte member zombie bound address isMapped)
    have saved : s.save p m₂ = s.setMem m₂ := save_eq (queue₂.trans queue)
    simp only [freeing, freed, ok_bind, saved, setMem_setProc]
    rw [kinds_update] at kind
    have last := (first (s.proc q).pgdir).trans apart
    refine ⟨_, _, own₂, rfl, ?_, .inr ⟨q, ⟨member, zombie⟩, ?_, ?_, last, kind⟩⟩
    · refine sane.replace (d := (s.proc q).pgdir) ?_ owned₂ (sane.kernelDir q member).symm ?_ ?_ ?_
      · rw [kind]
        exact sane.toTidy.reap member rfl
      · intro r different memberR equal
        exact different (sane.distinct r q memberR member equal)
      · intro e v isDir different bound zero
        rw [(last.lookups sane.owned isDir different).2.2.1 v (page_lt bound), zero]
      · intro new
        simp [HasSpace] at new
    · simp
    · intro r different
      simp [different]

/-! ## `exec` -/

theorem Tidy.move {kind : Nat → Kind} {kpgdir : Nat} {procs : Nat → Proc σ}
    {pipes : Nat → Option Pipe} (tidy : Tidy kind kpgdir procs pipes) {proc : Proc σ}
    (member : HasSpace procs p) (directory : kind d = .pool) (state : proc.state = (procs p).state)
    (pgdir : proc.pgdir = d) (kstack : proc.kstack = (procs p).kstack) :
    Tidy (update (update kind d .dir) (procs p).pgdir .pool) kpgdir
      (update procs p proc) pipes := by
  have after : HasSpace (update procs p proc) p := by
    simpa [HasSpace, state] using member
  have old : kind (procs p).pgdir = .dir := (tidy.dirs _).mpr (.inr ⟨p, member, rfl⟩)
  have different : d ≠ (procs p).pgdir := by
    rintro rfl
    simp [old] at directory
  refine tidy.replace (fun f => ?_) (fun _ => by simp [pgdir, directory]) (fun f q => ?_)
    (fun f => ?_)
  · simp only [member, after, pgdir, true_and]
    by_cases onOld : f = (procs p).pgdir
    · simp [onOld, different]
    by_cases onNew : f = d
    · simp [onNew, different]
    · simp [onOld, onNew, Ne.symm onOld, Ne.symm onNew]
  · have same : (if q = p then p < nproc ∧ proc.state ≠ .unused ∧ proc.kstack = f
        else kind f = .kstack q) ↔ kind f = .kstack q := by
      by_cases here : q = p
      · subst here
        rw [if_pos rfl, state, kstack, tidy.kstacks]
      · rw [if_neg here]
    rw [same]
    by_cases onOld : f = (procs p).pgdir
    · simp [onOld, old]
    by_cases onNew : f = d
    · simp [onNew, different, directory]
    · simp [onOld, onNew]
  · by_cases onOld : f = (procs p).pgdir
    · simp [onOld, old]
    by_cases onNew : f = d
    · simp [onNew, different, directory]
    · simp [onOld, onNew, tidy.settled f]

/-- What `exec` leaves when it succeeds: process `p` in the new address space `d`. -/
structure Execed (ops : ClockOps σ) (p : Nat) (s : Machine σ) (own : Nat → Owner)
    (final : Machine σ) (own' : Nat → Owner) (d : Nat) : Prop where
  fresh : own d = .free
  kind : kinds own' = Function.update (Function.update (kinds own) d .dir) (s.proc p).pgdir .pool
  proc : (final.proc p).pgdir = d ∧ (final.proc p).state = (s.proc p).state ∧
    (final.proc p).queue = ops.init
  procs : ∀ q, q ≠ p → final.proc q = s.proc q
  others : ∀ e, own e = .dir → e ≠ (s.proc p).pgdir → own' e = .dir ∧
    (∀ v, pteAt final.mem e v = pteAt s.mem e v) ∧
    ∀ v < 2 ^ 20, entry final.mem e v = entry s.mem e v
  pages : ∀ v < pagesBelow (final.proc p).sz, mapped (entry final.mem d v) = true
  hidden : ∀ v < userPages, ¬ Exposed final.mem d v

/-- What `exec` does with memory when it commits to the image that it has loaded in `m₁`: it encrypts
the pages, which gives `coded`, and frees the old address space. -/
structure CommittedImage (image : Image) (ops : ClockOps σ) (old d sz : Nat) (m₁ : Mem σ)
    (own₁ : Nat → Owner) (coded final : Mem σ) (own' : Nat → Owner) : Prop where
  recoded : Recoded image own₁ { m₁ with queue := ops.init } coded
  preserved : Preserved own₁ { m₁ with queue := ops.init } coded
  sealing : SealedIn own₁ d { m₁ with queue := ops.init } coded
  hidden : ∀ v < pagesBelow sz, ¬ Exposed coded d v
  owned : Owned image final own'
  apart : Apart old coded own₁ final own'
  kind : kinds own' = Function.update (kinds own₁) old .pool
  queue : final.queue = ops.init

variable {argv : List (List (BitVec 8))} {program : Loaded} {m₁ : Mem σ}

theorem exec_commits (ops : ClockOps σ) (sane : Sane image s own) (member : HasSpace s.proc p)
    (calm : ∀ pte, ops.remove ops.init pte = .ok ops.init) {file : List (BitVec 8)}
    {own₁ : Nat → Owner}
    (loading : loadImage image ops (s.load p) file argv = .ok (some program, m₁))
    (fresh : own program.pgdir = .free)
    (building : Building image (s.load p) own program.pgdir program.sz m₁ own₁)
    (path : List (BitVec 8)) :
    ∃ coded final own', exec image ops s p (some file) path argv = .ok (true, s.put p final
        { s.proc p with
          name := (baseName path).take 15, pgdir := program.pgdir, sz := program.sz,
          queue := final.queue,
          tf := { (s.proc p).tf with eip := program.entry, esp := program.sp } }) ∧
      CommittedImage image ops (s.proc p).pgdir program.pgdir program.sz m₁ own₁ coded final own' := by
  have rounds : pageCount 0 program.sz = pagesBelow program.sz := by
    unfold pageCount pagesBelow
    omega
  have high : pagesBelow program.sz ≤ userPages := by
    have top := building.top
    unfold kernBase at top
    unfold pagesBelow userPages
    omega
  obtain ⟨m₂, encrypted, recoded, preserved, queue, sealing, hidden⟩ := encryptAll_spec
    (pagesBelow program.sz) 0 (building.owned.of_queue ops.init) building.live (by omega)
    (fun v _ upper => building.pages v (by omega))
  have live := sane.live member
  have different : (s.proc p).pgdir ≠ program.pgdir := by
    intro same
    rw [← same, live] at fresh
    simp at fresh
  obtain ⟨live₁, -⟩ := building.apart.lookups (sane.load p) live different
  obtain ⟨m₃, own₃, freed, owned₃, apart, kind, queue₃⟩ := freevm_spec ops recoded.owned live₁
    (fun v pte _ _ _ => by rw [queue]; exact calm pte)
  refine ⟨m₂, m₃, own₃, ?_, recoded, preserved, sealing,
    fun v bound => hidden v (Nat.zero_le v) (by omega), owned₃, apart, kind, queue₃.trans queue⟩
  rw [Nat.zero_mul] at encrypted
  rw [exec, loading]
  simp only [rounds, encrypted, freed, ok_bind, save_setProc]

/-- After `exec` has committed to an image, the process is in the new address space. A load that
succeeds has not called `cq_remove`. -/
theorem exec_loaded (ops : ClockOps σ) (sane : Sane image s own) (member : HasSpace s.proc p)
    (calm : ∀ pte, ops.remove ops.init pte = .ok ops.init) {file : List (BitVec 8)}
    (loading : loadImage image ops (s.load p) file argv = .ok (some program, m₁))
    (path : List (BitVec 8)) :
    ∃ final own', exec image ops s p (some file) path argv = .ok (true, final) ∧
      Sane image final own' ∧ Execed ops p s own final own' program.pgdir := by
  obtain ⟨_, own₁, same, fresh, building⟩ := (loadImage_spec ops.steady (sane.load p)
    (fun _ _ => rfl) (loadImage_steady loading)).resolve_left (by simp)
  cases same
  obtain ⟨m₂, m₃, own₃, returned, done⟩ := exec_commits ops sane member calm loading fresh building
    path
  obtain ⟨recoded, -, sealing, hidden, owned₃, apart, kind, queue⟩ := done
  have high : pagesBelow program.sz ≤ userPages := by
    have top := building.top
    unfold kernBase at top
    unfold pagesBelow userPages
    omega
  have different : (s.proc p).pgdir ≠ program.pgdir := by
    intro same
    rw [← same, sane.live member] at fresh
    simp at fresh
  rw [building.kind] at kind
  -- neither the encryption nor the freeing touches any other address space
  have others : ∀ e, own e = .dir → e ≠ (s.proc p).pgdir → own₃ e = .dir ∧
      (∀ v, pteAt m₃ e v = pteAt s.mem e v) ∧
      ∀ v < 2 ^ 20, entry m₃ e v = entry s.mem e v := by
    intro e isDir other
    have old : e ≠ program.pgdir := by
      rintro rfl
      rw [isDir] at fresh
      simp at fresh
    obtain ⟨isDir₁, addresses₁, entries₁, -⟩ :=
      building.apart.lookups (sane.load p) isDir old
    obtain ⟨isDir₃, addresses₃, entries₃, -⟩ := apart.lookups recoded.owned isDir₁ other
    refine ⟨isDir₃, fun v => ?_, fun v bound => ?_⟩
    · rw [addresses₃, recoded.addresses e v isDir₁]
      exact addresses₁ v
    · rcases sealing e v isDir₁ bound with same | ⟨here, -⟩
      · rw [entries₃ v bound, same]
        exact entries₁ v bound
      · exact absurd here old
  obtain ⟨-, -, entries₃, -⟩ := apart.lookups recoded.owned building.live different.symm
  have vacant : ∀ v, pagesBelow program.sz ≤ v → v < userPages →
      entry m₃ program.pgdir v = 0 := by
    intro v lower upper
    rw [entries₃ v (page_lt upper)]
    refine recoded.owned.zero _ v building.live upper ?_
    rw [recoded.maps _ v building.live upper]
    rw [show entry { m₁ with queue := ops.init } program.pgdir v = 0 from
      building.vacant v lower upper]
    decide
  refine ⟨_, own₃, returned, ?_, fresh, kind, ?_, ?_, others, ?_, ?_⟩
  · refine sane.replace (d := (s.proc p).pgdir) ?_ owned₃ (sane.kernelDir p member).symm ?_ ?_ ?_
    · rw [kind]
      exact sane.toTidy.move member (by rw [kinds, fresh]; rfl) rfl rfl rfl
    · intro q other memberQ equal
      exact other (sane.distinct q p memberQ member equal)
    · intro e v isDir other bound zero
      rw [(others e isDir other).2.2 v (page_lt bound), zero]
    · exact fun _ => ⟨building.top, vacant⟩
  · simp [queue]
  · intro q other
    simp [other]
  · intro v bound
    simp only [Machine.put_proc, update_self] at bound
    rw [Machine.put_mem, entries₃ v (by unfold userPages at high; omega),
      recoded.maps _ v building.live (by omega)]
    exact building.pages v bound
  · intro v bound
    by_cases inside : v < pagesBelow program.sz
    · rw [Exposed, Machine.put_mem, entries₃ v (page_lt bound)]
      exact hidden v inside
    · rw [Exposed, Machine.put_mem, vacant v (by omega) bound]
      decide

/-- `exec` replaces the address space, or fails and keeps nothing of the new one. -/
theorem exec_spec (ops : ClockOps σ) (sane : Sane image s own) (member : HasSpace s.proc p)
    (calm : ∀ pte, ops.remove ops.init pte = .ok ops.init) {file : Option (List (BitVec 8))}
    {path : List (BitVec 8)} {done : Bool}
    (quiet : done = false → ∀ pte, own pte.frame = .free →
      ops.remove (s.proc p).queue pte = .ok (s.proc p).queue)
    (returned : exec image ops s p file path argv = .ok (done, final)) :
    ∃ own', Sane image final own' ∧
      ((done = false ∧ kinds own' = kinds own ∧ (∀ e, Apart e s.mem own final.mem own') ∧
          final.proc = s.proc) ∨
        (done = true ∧ ∃ d, Execed ops p s own final own' d)) := by
  cases file with
  | none =>
    simp only [exec, Except.ok.injEq, Prod.mk.injEq] at returned
    obtain ⟨rfl, rfl⟩ := returned
    exact ⟨own, sane, .inl ⟨rfl, rfl, fun e => .refl e _ _, rfl⟩⟩
  | some file =>
    have called := returned
    rw [exec] at returned
    obtain ⟨⟨loaded, m₁⟩, loading, returned⟩ := bind_eq_ok.mp returned
    cases loaded with
    | none =>
      simp only [Except.ok.injEq, Prod.mk.injEq] at returned
      obtain ⟨rfl, rfl⟩ := returned
      obtain ⟨-, own', owned, apart, queue, kind⟩ := (loadImage_spec ops (sane.load p) (quiet rfl)
        loading).resolve_right (by simp)
      rw [save_eq queue]
      have undone : Undone s own (s.setMem m₁) own' := ⟨kind, fun _ _ => rfl, fun _ => .rfl⟩
      exact ⟨own', undone.sane sane owned apart rfl rfl, .inl ⟨rfl, kind, apart, rfl⟩⟩
    | some program =>
      obtain ⟨_, own', finished, sane', facts⟩ := exec_loaded ops sane member calm loading path
      rw [called] at finished
      cases finished
      exact ⟨own', sane', .inr ⟨rfl, _, facts⟩⟩

end MemoryEncryption
