import MemoryEncryption.Verif.Frames

/-!
# Steps of one process

Specifications of the steps that a process takes within its own address space: page
faults, `sys_mencrypt`, accesses of user code, growth, and `exit`, which gives up
nothing. None of them creates or ends an address space.
-/

namespace MemoryEncryption

open Function Outcome

variable {σ : Type} {image : Image} {s : Machine σ} {own own' : Nat → Owner}

/-! ## Steps that touch no memory -/

/-- A process keeps its frames, its size and its queue. -/
structure Proc.SameSpace (before after : Proc σ) : Prop extends before.SameFrames after where
  sz : after.sz = before.sz
  queue : after.queue = before.queue

/-- Memory, the pipes and what processes own stay the same. -/
structure Machine.Keeps (s s' : Machine σ) : Prop where
  mem : s'.mem = s.mem
  kpgdir : s'.kpgdir = s.kpgdir
  pipes : s'.pipes = s.pipes
  procs : ∀ q, (s.proc q).SameSpace (s'.proc q)

theorem Machine.Keeps.trans {s' s'' : Machine σ} (first : s.Keeps s') (second : s'.Keeps s'') :
    s.Keeps s'' where
  mem := second.mem.trans first.mem
  kpgdir := second.kpgdir.trans first.kpgdir
  pipes := second.pipes.trans first.pipes
  procs q := ⟨(first.procs q).toSameFrames.trans (second.procs q).toSameFrames,
    (second.procs q).sz.trans (first.procs q).sz,
    (second.procs q).queue.trans (first.procs q).queue⟩

theorem save_sameFrames (s : Machine σ) (p : Nat) (m : Mem σ) (q : Nat) :
    (s.proc q).SameFrames ((s.save p m).proc q) := by
  by_cases here : q = p
  · subst here
    simp only [Machine.save, Machine.put_proc, update_self]
    exact ⟨fun _ => rfl, fun _ => rfl, .rfl, .rfl⟩
  · simp only [Machine.save, Machine.put_proc, update_of_ne here]
    exact .refl _

theorem Sane.keeps (sane : Sane image s own) {s' : Machine σ} (same : s.Keeps s') :
    Sane image s' own := by
  refine sane.change ?_ rfl same.kpgdir same.pipes (fun q => (same.procs q).toSameFrames) ?_ ?_
  · rw [same.mem]
    exact sane.owned
  · rw [same.mem]
    exact sane.kernelEmpty
  · intro q member
    rw [same.mem, (same.procs q).sz]
    exact sane.sizes q member

variable {p : Nat}

theorem exit_spec (member : HasSpace s.proc p) :
    (∃ final, exit s p = .ok final ∧ s.Keeps final) ∨
      ∃ message, exit s p = .error (.panic message) := by
  rw [exit]
  split
  · exact .inr ⟨_, rfl⟩
  have passed : ∀ q, (s.proc q).SameSpace ((reparent s p).proc q) := by
    intro q
    simp only [reparent]
    split
    · exact ⟨⟨fun _ => rfl, fun _ => rfl, .rfl, .rfl⟩, rfl, rfl⟩
    · exact ⟨.refl _, rfl, rfl⟩
  refine .inl ⟨_, rfl, rfl, rfl, rfl, fun q => ?_⟩
  by_cases here : q = p
  · subst here
    have same := passed q
    simp only [Machine.setProc, update_self]
    refine ⟨⟨same.pgdir, same.kstack, ?_, ?_⟩, same.sz, same.queue⟩
    · simp [member.2.1]
    · simp [member.2.2]
  · simp only [Machine.setProc, update_of_ne here]
    exact passed q

/-! ## Page faults -/

variable {m : Mem σ}

/-- A page fault does what `mdecrypt` does, and may kill the process or stop the kernel. -/
theorem pageFault_spec (ops : ClockOps σ) {va : Nat} (user : Bool) (member : HasSpace s.proc p)
    {done : Bool} (decrypted : mdecrypt ops (s.load p) (s.proc p).pgdir va = .ok (done, m)) :
    (∃ final, pageFault ops s p va user = .ok final ∧ (s.save p m).Keeps final) ∨
      ∃ message, pageFault ops s p va user = .error (.panic message) := by
  rw [pageFault, decrypted, ok_bind]
  simp only
  by_cases kernel : (!done && !user) = true
  · rw [if_pos kernel]
    exact .inr ⟨_, rfl⟩
  rw [if_neg kernel]
  have marked : ∀ killed : Bool, (s.save p m).Keeps
      ((s.save p m).setProc p { (s.save p m).proc p with killed := killed }) := by
    intro killed
    refine ⟨rfl, rfl, rfl, fun q => ?_⟩
    by_cases here : q = p
    · subst here
      simp only [Machine.setProc, update_self]
      exact ⟨⟨fun _ => rfl, fun _ => rfl, .rfl, .rfl⟩, rfl, rfl⟩
    · simp only [Machine.setProc, update_of_ne here]
      exact ⟨.refl _, rfl, rfl⟩
  split
  · have member' : HasSpace ((s.save p m).setProc p { (s.save p m).proc p with
        killed := ((s.save p m).proc p).killed || !done }).proc p := by
      simpa [HasSpace, Machine.setProc, Machine.save] using member
    rcases exit_spec member' with ⟨final, left, kept⟩ | ⟨message, stopped⟩
    · exact .inl ⟨final, left, (marked _).trans kept⟩
    · exact .inr ⟨message, stopped⟩
  · exact .inl ⟨_, rfl, marked _⟩

/-! ## `sys_mencrypt` -/

variable {d : Nat}

/-- `sys_mencrypt` encrypts pages or changes nothing. It follows a null pointer, before it has
changed anything, where a page table is missing in its range. -/
theorem sysMencrypt_spec {va : Nat} (sz : Nat) (len : Int) (owned : Owned image m own)
    (live : own d = .dir) (bound : va < 2 ^ 32) :
    sysMencrypt m d sz va len = .error .nullDeref ∨
      ∃ done final, sysMencrypt m d sz va len = .ok (done, final) ∧ Harmless image own m final := by
  have idle : Harmless image own m m := .refl owned
  rw [sysMencrypt]
  split
  · exact .inr ⟨true, m, rfl, idle⟩
  split
  · exact .inr ⟨false, m, rfl, idle⟩
  split
  · exact .inr ⟨false, m, rfl, idle⟩
  split
  · exact .inr ⟨false, m, rfl, idle⟩
  rcases mencrypt_spec len owned live bound with
    ⟨failed, -⟩ | ⟨refused, -⟩ | ⟨final, done, recoded, preserved, queue, sealing, -⟩
  · exact .inl failed
  · exact .inr ⟨false, m, refused, idle⟩
  · exact .inr ⟨true, final, done, recoded, preserved, sealing.hides, queue⟩

/-! ## Accesses of user code -/

theorem mark_flags (word : Word) {mark : Word} (flags : mark = pteA ∨ mark = pteA ||| pteD) :
    (word ||| mark) &&& ~~~codeFlags = word &&& ~~~codeFlags ∧
      has (word ||| mark) pteP = has word pteP ∧ has (word ||| mark) pteE = has word pteE := by
  refine ⟨or_codeFlags (by rcases flags with rfl | rfl <;> decide), ?_, ?_⟩
  · rcases flags with rfl | rfl <;> simp [pteA, pteD]
  · rcases flags with rfl | rfl <;> simp [pteA, pteD]

/-- A store into the frame of a user page changes no lookup. -/
theorem Owned.store (owned : Owned image m own) {v : Nat} (i : Nat) (value : Word)
    (live : own d = .dir) (bound : v < userPages) (isMapped : mapped (entry m d v) = true) :
    Recoded image own m (m.set ⟨frameOf (entry m d v), i⟩ value) ∧
      ∀ e v', own e = .dir → v' < 2 ^ 20 →
        entry (m.set ⟨frameOf (entry m d v), i⟩ value) e v' = entry m e v' := by
  refine owned.contents (owned.user d v live bound isMapped) (fun f other => ?_) rfl
  funext j
  simp [other]

/-- An access of user code exposes nothing; a load changes no plaintext. -/
theorem access_spec (sane : Sane image s own) (member : HasSpace s.proc p) (va : Nat)
    (store : Option Word) :
    ∃ m, access s p va store = s.setMem m ∧ Recoded image own s.mem m ∧ Hides own s.mem m ∧
      KeepsOne own s.mem m ∧ (store = none → Preserved own s.mem m) := by
  have live := sane.live member
  have idle : ∃ m, s = s.setMem m ∧ Recoded image own s.mem m ∧ Hides own s.mem m ∧
      KeepsOne own s.mem m ∧ (store = none → Preserved own s.mem m) :=
    ⟨s.mem, rfl, .refl sane.owned, fun _ _ _ _ exposed => exposed, fun _ _ _ _ one => one,
      fun _ => .refl own _⟩
  rw [access]
  split
  · exact idle
  rename_i below
  have bound := lt_word (Nat.lt_of_not_le below)
  rw [walkpgdir_lookup _ _ bound]
  cases found : pteAt s.mem (s.proc p).pgdir (va / pgSize) with
  | none => exact idle
  | some pte =>
    have value := get_pteAt found
    simp only
    split
    · rename_i permitted
      rw [value] at permitted ⊢
      have user := page_of_va (Nat.lt_of_not_le below)
      have isMapped : mapped (entry s.mem (s.proc p).pgdir (va / pgSize)) = true := by
        rw [Bool.and_eq_true, has_pteP] at permitted
        rw [mapped_iff, permitted.1, Bool.true_or]
      cases store with
      | none =>
        obtain ⟨flags, keepP, keepE⟩ :=
          mark_flags (entry s.mem (s.proc p).pgdir (va / pgSize)) (.inl rfl)
        obtain ⟨recoded, preserved, hides⟩ :=
          sane.owned.remark live user found isMapped flags keepP keepE
        exact ⟨_, rfl, recoded, hides, preserved.keepsOne, fun _ => preserved⟩
      | some word =>
        simp only
        split
        · obtain ⟨stored, entries⟩ := sane.owned.store (va % pgSize / 4) word live user isMapped
          have same := entries _ _ live (page_lt user)
          obtain ⟨flags, keepP, keepE⟩ :=
            mark_flags (entry s.mem (s.proc p).pgdir (va / pgSize)) (.inr rfl)
          obtain ⟨recoded, preserved, hides⟩ := stored.owned.remark live user
            (by rw [stored.addresses _ _ live, found]) (by rw [same, isMapped])
            (flags.trans (by rw [same])) (keepP.trans (by rw [same])) (keepE.trans (by rw [same]))
          refine ⟨_, rfl, stored.trans recoded, fun e v isDir bound' exposed => ?_,
            fun e v isDir bound' one => ?_, by simp⟩
          · have before := hides e v isDir bound' exposed
            rwa [Exposed, entries e v isDir bound'] at before
          · refine preserved.keepsOne e v isDir bound' ?_
            rwa [entries e v isDir (page_lt bound')]
        · exact ⟨s.mem, rfl, .refl sane.owned, fun _ _ _ _ exposed => exposed,
            fun _ _ _ _ one => one, by simp⟩
    · exact idle

/-! ## Growth -/

theorem exactlyOne_mappedEntry (f : Nat) (perm : Word) :
    exactlyOne (mappedEntry f perm) = true := by
  rw [exactlyOne, has_pteP, has_pteE, mappedEntry_flag _ _ (by omega),
    mappedEntry_flag _ _ (by omega)]
  simp

theorem Blank.accessible {v : Nat} (blank : Blank m d v) : Accessible m d v := by
  obtain ⟨f, -, shape, -⟩ := blank
  refine ⟨by rw [shape]; exact mapped_mappedEntry f _, ?_⟩
  rw [shape, has_pteU, mappedEntry_flag _ _ (by omega)]
  decide

/-- What growing by `n` bytes does to the entries of all address spaces. -/
structure Grown (own : Nat → Owner) (d : Nat) (n : Int) (m m' : Mem σ) : Prop where
  /-- New pages are in the address space that grows, and have exactly one of the two flags. -/
  pages : ∀ e v, own e = .dir → v < userPages → mapped (entry m' e v) = true →
    mapped (entry m e v) = true ∨ (e = d ∧ exactlyOne (entry m' e v) = true)
  hides : (pgSize : Int) ∣ n → ∀ e v, own e = .dir → v < userPages → Exposed m' e v →
    Exposed m e v

variable {sz : Nat}

/-- The call of `mencrypt` after `allocuvm` does not fail, and encrypts the pages of whole size among
the new ones. -/
theorem mencrypt_new {n : Nat} (owned : Owned image m own) (live : own d = .dir)
    (top : sz + n < kernBase)
    (blank : ∀ v, pagesBelow sz ≤ v → v < pagesBelow (sz + n) → Blank m d v) :
    ∃ final, mencrypt m d (pagesBelow sz * pgSize) ((n / pgSize : Nat) : Int) =
        .ok (true, final) ∧
      Recoded image own m final ∧ Preserved own m final ∧ final.queue = m.queue ∧
      SealedIn own d m final ∧
      PagesKept own d (fun v => pagesBelow sz ≤ v ∧ v < pagesBelow sz + n / pgSize) m final ∧
      ∀ v, pagesBelow sz ≤ v → v < pagesBelow sz + n / pgSize →
        has (entry final d v) pteE = true := by
  have address : pagesBelow sz * pgSize < 2 ^ 32 := by
    unfold kernBase at top
    unfold pagesBelow pgSize
    omega
  have page : pagesBelow sz * pgSize / pgSize = pagesBelow sz := Nat.mul_div_cancel _ (by decide)
  have inside : ∀ k < n / pgSize, (pagesBelow sz + k) % 2 ^ 20 = pagesBelow sz + k ∧
      pagesBelow sz + k < pagesBelow (sz + n) := by
    intro k bound
    unfold kernBase at top
    unfold pagesBelow pgSize at *
    omega
  have outcome := mencrypt_spec ((n / pgSize : Nat) : Int) owned live address
  rw [page, Int.toNat_natCast] at outcome
  have accessible : ∀ k < n / pgSize, Accessible m d ((pagesBelow sz + k) % 2 ^ 20) := by
    intro k bound
    rw [(inside k bound).1]
    exact (blank _ (by omega) (inside k bound).2).accessible
  rcases outcome with ⟨-, k, bound, absent⟩ | ⟨-, k, bound, refused⟩ | ⟨final, done, facts⟩
  · obtain ⟨pte, found, -⟩ := exists_pteAt (accessible k bound).1
    rw [absent] at found
    simp at found
  · exact absurd (accessible k bound) refused
  obtain ⟨recoded, preserved, queue, sealing, kept, encrypted⟩ := facts
  refine ⟨final, done, recoded, preserved, queue, sealing, kept.widen ?_, ?_⟩
  · rintro v ⟨k, bound, rfl⟩
    rw [(inside k bound).1]
    omega
  · intro v lower upper
    have sealedPage := encrypted (v - pagesBelow sz) (by omega)
    rwa [(inside _ (by omega)).1, show pagesBelow sz + (v - pagesBelow sz) = v by omega]
      at sealedPage

variable {m₁ : Mem σ}

theorem grow_memory {n : Nat} (owned : Owned image m own) (live : own d = .dir)
    (top : sz + n < kernBase) (vacant : ∀ v, pagesBelow sz ≤ v → v < userPages → entry m d v = 0)
    (change : Within image d (pagesBelow sz) (pagesBelow (sz + n)) m own m₁ own')
    (kind : kinds own' = kinds own)
    (blank : ∀ v, pagesBelow sz ≤ v → v < pagesBelow (sz + n) → Blank m₁ d v) :
    ∃ final, mencrypt m₁ d (pagesBelow sz * pgSize) ((n / pgSize : Nat) : Int) =
        .ok (true, final) ∧
      Recoded image own' m₁ final ∧ final.queue = m₁.queue ∧ Carries own own' m final ∧
      Grown own d n m final := by
  have high : pagesBelow (sz + n) ≤ userPages := by
    unfold kernBase at top
    unfold pagesBelow userPages
    omega
  obtain ⟨final, done, recoded, preserved, queue, sealing, -, encrypted⟩ :=
    mencrypt_new change.owned change.live top blank
  have live' : ∀ e, own e = .dir → own' e = .dir :=
    fun e isDir => (kinds_label (congrFun kind e)).1.mp isDir
  have carried := (change.carries owned live fun v lower upper => by
    rw [vacant v lower (by omega)]
    decide).trans (recoded.carries preserved)
  -- an entry that `allocuvm` did not touch
  have kept : ∀ e v, own e = .dir → v < userPages →
      ¬ (e = d ∧ pagesBelow sz ≤ v ∧ v < pagesBelow (sz + n)) →
      entry m₁ e v = entry m e v := by
    intro e v isDir bound other
    by_cases here : e = d
    · subst here
      exact change.entries v (page_lt bound) (by omega)
    · exact (change.apart.lookups owned isDir here).2.2.1 v (page_lt bound)
  refine ⟨final, done, recoded, queue, carried, ?_, ?_⟩
  · intro e v isDir bound isMapped
    rw [recoded.maps e v (live' e isDir) bound] at isMapped
    by_cases new : e = d ∧ pagesBelow sz ≤ v ∧ v < pagesBelow (sz + n)
    · right
      obtain ⟨rfl, lower, upper⟩ := new
      obtain ⟨f, -, shape, -⟩ := blank v lower upper
      refine ⟨rfl, (preserved e v change.live bound ?_).1⟩
      rw [shape]
      exact exactlyOne_mappedEntry f _
    · left
      rwa [← kept e v isDir bound new]
  · intro whole e v isDir bound exposed
    by_cases new : e = d ∧ pagesBelow sz ≤ v ∧ v < pagesBelow (sz + n)
    · exfalso
      obtain ⟨rfl, lower, upper⟩ := new
      have multiple : pgSize ∣ n := by exact_mod_cast whole
      have sealedPage := encrypted v lower (by
        unfold pagesBelow pgSize at *
        omega)
      rw [exposed.2.1] at sealedPage
      simp at sealedPage
    · have before := sealing.hides e v (live' e isDir) (page_lt bound) exposed
      rwa [Exposed, kept e v isDir bound new] at before

theorem Sane.regrown (sane : Sane image s own) (member : HasSpace s.proc p) {m₂ : Mem σ} {queue : σ}
    (owned : Owned image m₁ own') (kind : kinds own' = kinds own)
    (apart : Apart (s.proc p).pgdir s.mem own m₁ own') (change : Recoded image own' m₁ m₂)
    (size : sz ≤ kernBase)
    (vacant : ∀ v, pagesBelow sz ≤ v → v < userPages → entry m₁ (s.proc p).pgdir v = 0) :
    Sane image (s.put p m₂ { s.proc p with sz := sz, queue := queue }) own' := by
  have first : Sane image (s.put p m₁ { s.proc p with sz := sz }) own' :=
    sane.resized member owned kind apart ⟨fun _ => rfl, fun _ => rfl, .rfl, .rfl⟩ size vacant
  rw [← Machine.put_put s p m₁ m₂ { s.proc p with sz := sz }]
  refine first.recoded change ?_ ?_
  · rw [Machine.put_proc, update_self]
    exact ⟨fun _ => rfl, fun _ => rfl, .rfl, .rfl⟩
  · rw [Machine.put_proc, update_self]

/-- What a call of `growproc` that does not shrink the process leaves. -/
structure Regrown (image : Image) (p : Nat) (n : Int) (s : Machine σ) (own : Nat → Owner)
    (final : Machine σ) (own' : Nat → Owner) : Prop where
  sane : Sane image final own'
  kind : kinds own' = kinds own
  carries : Carries own own' s.mem final.mem
  grown : Grown own (s.proc p).pgdir n s.mem final.mem
  procs : ∃ sz, final.proc = Function.update s.proc p { s.proc p with sz := sz }

theorem Regrown.same {n : Int} {final : Machine σ} (facts : Regrown image p n s own final own')
    (q : Nat) :
    (s.proc q).SameFrames (final.proc q) ∧ (final.proc q).pgdir = (s.proc q).pgdir ∧
      (final.proc q).queue = (s.proc q).queue := by
  obtain ⟨sz, shape⟩ := facts.procs
  by_cases here : q = p
  · subst here
    rw [shape, update_self]
    exact ⟨⟨fun _ => rfl, fun _ => rfl, .rfl, .rfl⟩, rfl, rfl⟩
  · rw [shape, update_of_ne here]
    exact ⟨.refl _, rfl, rfl⟩

/-- Nothing but the machine's copy of the queue changes when there is no work to do. -/
theorem Regrown.idle (sane : Sane image s own) (p : Nat) (n : Int) :
    Regrown image p n s own (s.save p (s.load p)) own :=
  ⟨sane.recoded ((Recoded.refl sane.owned).of_queue _) (.refl _) rfl, rfl,
    ((Recoded.refl sane.owned).of_queue _).carries (.refl own s.mem),
    ⟨fun _ _ _ _ isMapped => .inl isMapped, fun _ _ _ _ _ exposed => exposed⟩,
    (s.proc p).sz, rfl⟩

/-- A call that runs out of memory leaves all pages as they were. -/
theorem Regrown.undone (sane : Sane image s own) (member : HasSpace s.proc p) (n : Int) {high : Nat}
    (low : high ≤ userPages) {m' : Mem σ} (queue : m'.queue = (s.proc p).queue)
    (change : Within image (s.proc p).pgdir (pagesBelow (s.proc p).sz) high (s.load p) own m' own')
    (kind : kinds own' = kinds own)
    (cleared : ∀ v, pagesBelow (s.proc p).sz ≤ v → v < high →
      entry m' (s.proc p).pgdir v = 0) : Regrown image p n s own (s.save p m') own' := by
  obtain ⟨top, vacant⟩ := sane.sizes p member
  have live := sane.live member
  have same : ∀ e v, own e = .dir → v < userPages → entry m' e v = entry s.mem e v := by
    intro e v isDir bound
    by_cases here : e = (s.proc p).pgdir
    · subst here
      by_cases inside : pagesBelow (s.proc p).sz ≤ v ∧ v < high
      · rw [cleared v inside.1 inside.2, vacant v inside.1 bound]
      · exact change.entries v (page_lt bound) (by omega)
    · exact (change.apart.lookups (sane.load p) isDir here).2.2.1 v (page_lt bound)
  refine ⟨sane.resized member change.owned kind change.apart
      ⟨fun _ => rfl, fun _ => rfl, .rfl, .rfl⟩ top ?_, kind, ?_,
    ⟨?_, ?_⟩, (s.proc p).sz, ?_⟩
  · intro v lower upper
    rw [same _ v live upper, vacant v lower upper]
  · refine (change.carries (sane.load p) live fun v lower upper => ?_).of_load
    rw [show entry (s.load p) _ v = 0 from vacant v lower (by omega)]
    decide
  · intro e v isDir bound isMapped
    rw [← same e v isDir bound]
    exact .inl isMapped
  · intro _ e v isDir bound exposed
    rwa [Exposed, ← same e v isDir bound]
  · rw [Machine.save, queue]
    rfl

/-- `growproc` by a nonnegative amount returns. It grows the process and encrypts the whole pages
among the new ones, or fails and leaves all pages as they were. -/
theorem growproc_spec (ops : ClockOps σ) (sane : Sane image s own) (member : HasSpace s.proc p)
    {n : Int} (lower : 0 ≤ n) (upper : n < 2 ^ 31)
    (quiet : ∀ pte, own pte.frame = .free ∨ (∃ v, pagesBelow (s.proc p).sz ≤ v ∧ v < userPages ∧
      pteAt s.mem (s.proc p).pgdir v = some pte) →
      ops.remove (s.proc p).queue pte = .ok (s.proc p).queue) :
    ∃ done final own', growproc image ops s p n = .ok (done, final) ∧
      Regrown image p n s own final own' := by
  obtain ⟨top, vacant⟩ := sane.sizes p member
  have live := sane.live member
  have newsz : (((s.proc p).sz + n) % 2 ^ 32).toNat = (s.proc p).sz + n.toNat := by
    unfold kernBase at top
    omega
  rw [growproc, newsz]
  by_cases zero : n = 0
  · subst zero
    refine ⟨true, _, own, ?_, .idle sane p 0⟩
    simp [mencrypt, mencryptCheck, mencryptPages, ok_bind, save_setProc]
    rfl
  have positive : 0 < n := by omega
  simp only [positive, ↓reduceIte]
  by_cases high : kernBase ≤ (s.proc p).sz + n.toNat
  · refine ⟨false, _, own, ?_, .idle sane p n⟩
    simp [allocuvm, high, zero]
  have inside : ∀ v < pagesBelow ((s.proc p).sz + n.toNat), v < userPages := by
    unfold kernBase at high
    unfold pagesBelow userPages
    omega
  obtain ⟨done, m₁, own₁, grown, change, kind, queue, outcome, -⟩ := allocuvm_spec ops (sane.load p)
    live (Nat.lt_of_not_le high) (fun v lower upper => vacant v lower (inside v upper))
    (fun pte part => quiet pte (part.imp id (.imp fun v => .imp id (.imp (inside v) id))))
    (Nat.le_add_right _ _)
  simp only [grown, ok_bind]
  rcases outcome with ⟨rfl, blank⟩ | ⟨rfl, cleared⟩
  · obtain ⟨final, sealed, recoded, queue', carries, pages⟩ := grow_memory (sane.load p) live
      (Nat.lt_of_not_le high) vacant change kind blank
    have start : (((((s.proc p).sz + n.toNat : Nat) : Int) - n) % 2 ^ 32).toNat = (s.proc p).sz := by
      unfold kernBase at top
      omega
    have count : n.tdiv pgSize = ((n.toNat / pgSize : Nat) : Int) := by
      rw [Int.tdiv_eq_ediv_of_nonneg lower, Int.natCast_ediv, Int.toNat_of_nonneg lower]
    simp only [↓reduceIte]
    rw [if_neg (by omega), start, pgRoundUp_eq top, count, sealed]
    simp only [ok_bind, save_setProc]
    refine ⟨true, _, own₁, rfl, ?_, kind, carries.of_load, ?_, (s.proc p).sz + n.toNat, ?_⟩
    · refine sane.regrown member change.owned kind change.apart recoded (Nat.le_of_not_le high) ?_
      intro v above bound
      rw [change.entries v (page_lt bound) (.inr above)]
      refine vacant v (le_trans ?_ above) bound
      unfold pagesBelow
      omega
    · rw [Int.toNat_of_nonneg lower] at pages
      exact ⟨pages.pages, pages.hides⟩
    · rw [queue', queue]
      rfl
  · refine ⟨false, s.save p m₁, own₁, by simp [zero], ?_⟩
    exact .undone sane member n (by
      unfold kernBase at high
      unfold pagesBelow userPages
      omega) queue change kind cleared

end MemoryEncryption
