import MemoryEncryption.Verif.OneProcess
import MemoryEncryption.Verif.UserSteps

/-!
# Growing and shrinking a process

What a call of `growproc` that returns has done to the size and the pages of the
process, for every queue: `cq_remove` may shift the queue in any way, or not return,
but it has no say in which pages are mapped. So the queue is erased first, and the
rest is about memory.
-/

namespace MemoryEncryption

open Function Outcome

variable {σ : Type} {image : Image} {own own' : Nat → Owner}

/-! ## Erasing the queue -/

/-- Memory without its queue. -/
def Mem.forget (m : Mem σ) : Mem Unit := ⟨m.word, m.freelist, m.oom, m.marks, ()⟩

/-- The machine without its queues. -/
def Machine.forget (s : Machine σ) : Machine Unit where
  mem := s.mem.forget
  proc q :=
    ⟨(s.proc q).sz, (s.proc q).pgdir, (s.proc q).kstack, (s.proc q).state, (s.proc q).pid,
      (s.proc q).parent, (s.proc q).tf, (s.proc q).killed, (s.proc q).name, ()⟩
  nextpid := s.nextpid
  initproc := s.initproc
  kpgdir := s.kpgdir
  pipes := s.pipes

variable {m : Mem σ}

theorem Owned.forget (owned : Owned image m own) : Owned image m.forget own :=
  ⟨owned.free, owned.nodup, owned.table, owned.tableBack, owned.user, owned.userBack, owned.zero,
    owned.kernel, owned.range⟩

theorem kalloc_forget (m : Mem σ) : kalloc m.forget = ((kalloc m).1, (kalloc m).2.forget) := by
  rcases m with ⟨word, _ | ⟨frame, rest⟩, _ | ⟨_ | _, oom⟩, marks, queue⟩ <;> rfl

theorem kfree_forget (m : Mem σ) (frame : Nat) :
    kfree image m.forget frame = (kfree image m frame).map Mem.forget := by
  unfold kfree
  split <;> rfl

theorem walkpgdir_forget (m : Mem σ) (pgdir va : Nat) (alloc : Bool) :
    walkpgdir m.forget pgdir va alloc =
      ((walkpgdir m pgdir va alloc).1, (walkpgdir m pgdir va alloc).2.forget) := by
  simp only [walkpgdir, kalloc_forget]
  rw [show m.forget.word = m.word from rfl]
  cases has (m.word pgdir (pdx va)) pteP with
  | true => rfl
  | false =>
    cases alloc with
    | false => rfl
    | true =>
      rcases kalloc m with ⟨_ | pgtab, rest⟩
      · rfl
      · rfl

theorem mappagesLoop_forget (pgdir : Nat) (perm : Word) (rounds : Nat) (m : Mem σ)
    (page frame : Nat) :
    mappagesLoop pgdir perm rounds m.forget page frame =
      (mappagesLoop pgdir perm rounds m page frame).map fun r => (r.1, r.2.forget) := by
  induction rounds generalizing m page frame with
  | zero => rfl
  | succ rounds ih =>
    simp only [mappagesLoop, walkpgdir_forget]
    rcases walkpgdir m pgdir (page * pgSize) true with ⟨_ | pte, after⟩
    · rfl
    · simp only
      rw [show after.forget.get pte = after.get pte from rfl]
      cases mapped (after.get pte) with
      | true => rfl
      | false =>
        simp only [Bool.false_eq_true, ↓reduceIte]
        exact ih (after.set pte (mappedEntry frame perm)) _ _

variable {ops : ClockOps σ} {oldsz : Nat} {final : Mem σ}

/-- A loop of `deallocuvm` that returns does the same to memory without the queue. -/
theorem deallocuvmLoop_forget {pgdir : Nat} (fuel : Nat) {a : Nat}
    (freed : deallocuvmLoop image ops pgdir oldsz fuel m a = .ok final) :
    deallocuvmLoop image noClock pgdir oldsz fuel m.forget a = .ok final.forget := by
  induction fuel generalizing m a with
  | zero => simp [deallocuvmLoop] at freed
  | succ fuel ih =>
    simp only [deallocuvmLoop, walkpgdir_forget] at freed ⊢
    split at freed
    case isFalse finished =>
      rw [if_neg finished, Except.ok.inj freed]
    case isTrue inside =>
      rw [if_pos inside]
      cases found : (walkpgdir m pgdir a false).1 with
      | none =>
        rw [found] at freed
        exact ih freed
      | some pte =>
        simp only [found] at freed ⊢
        rw [show m.forget.get pte = m.get pte from rfl]
        cases isMapped : mapped (m.get pte) with
        | false =>
          simp only [isMapped, Bool.false_eq_true, ↓reduceIte] at freed ⊢
          exact ih freed
        | true =>
          simp only [isMapped, ↓reduceIte] at freed ⊢
          split at freed
          case isTrue => simp at freed
          case isFalse nonzero =>
            obtain ⟨released, freeing, freed⟩ := bind_eq_ok.mp freed
            obtain ⟨queue, -, freed⟩ := bind_eq_ok.mp freed
            rw [if_neg nonzero, kfree_forget, freeing]
            exact ih freed

variable {newsz : Nat}

theorem deallocuvm_forget {pgdir size : Nat}
    (freed : deallocuvm image ops m pgdir oldsz newsz = .ok (size, final)) :
    deallocuvm image noClock m.forget pgdir oldsz newsz = .ok (size, final.forget) := by
  unfold deallocuvm at freed ⊢
  split at freed
  case isTrue order =>
    cases freed
    rw [if_pos order]
  case isFalse order =>
    obtain ⟨after, looped, same⟩ := bind_eq_ok.mp freed
    cases same
    rw [if_neg order, deallocuvmLoop_forget _ looped]
    rfl

/-- A loop of `allocuvm` that returns does the same to memory without the queue. -/
theorem allocuvmLoop_forget {pgdir : Nat} (rounds : Nat) {a : Nat} {done : Bool}
    (grown : allocuvmLoop image ops pgdir oldsz newsz rounds m a = .ok (done, final)) :
    allocuvmLoop image noClock pgdir oldsz newsz rounds m.forget a = .ok (done, final.forget) := by
  induction rounds generalizing m a with
  | zero =>
    cases grown
    rfl
  | succ rounds ih =>
    simp only [allocuvmLoop, kalloc_forget] at grown ⊢
    rcases allocated : kalloc m with ⟨_ | mem, taken⟩ <;> simp only [allocated] at grown ⊢
    · obtain ⟨⟨size, after⟩, freed, same⟩ := bind_eq_ok.mp grown
      cases same
      simp only [deallocuvm_forget freed]
      rfl
    · obtain ⟨⟨mapping, after⟩, mapped, grown⟩ := bind_eq_ok.mp grown
      have erased : mappages (taken.forget.setPage mem fun _ => 0) pgdir a pgSize mem
          (pteW ||| pteU) = .ok (mapping, after.forget) := by
        change mappages (taken.setPage mem fun _ => 0).forget pgdir a pgSize mem _ = _
        unfold mappages at mapped ⊢
        rw [mappagesLoop_forget, mapped]
        rfl
      simp only [erased, ok_bind]
      cases mapping with
      | true => exact ih grown
      | false =>
        obtain ⟨⟨size, undone⟩, freed, grown⟩ := bind_eq_ok.mp grown
        obtain ⟨last, freeing, same⟩ := bind_eq_ok.mp grown
        cases same
        simp only [Bool.false_eq_true, ↓reduceIte, deallocuvm_forget freed, ok_bind, kfree_forget,
          freeing]
        rfl

theorem allocuvm_forget {pgdir size : Nat}
    (grown : allocuvm image ops m pgdir oldsz newsz = .ok (size, final)) :
    allocuvm image noClock m.forget pgdir oldsz newsz = .ok (size, final.forget) := by
  unfold allocuvm at grown ⊢
  split at grown
  case isTrue high =>
    cases grown
    rw [if_pos high]
  case isFalse high =>
    rw [if_neg high]
    split at grown
    case isTrue order =>
      cases grown
      rw [if_pos order]
    case isFalse order =>
      obtain ⟨⟨done, after⟩, looped, same⟩ := bind_eq_ok.mp grown
      cases same
      rw [if_neg order, allocuvmLoop_forget _ looped]
      rfl

theorem mencryptCheck_forget (pgdir : Nat) (m : Mem σ) (rounds slider : Nat) :
    mencryptCheck pgdir m.forget rounds slider = mencryptCheck pgdir m rounds slider := by
  induction rounds generalizing slider with
  | zero => rfl
  | succ rounds ih =>
    have address : uva2ka m.forget pgdir slider = uva2ka m pgdir slider := by
      simp only [uva2ka, walkpgdir_forget]
      rfl
    simp only [mencryptCheck, address, ih]

theorem mencryptPages_forget (pgdir rounds : Nat) (m : Mem σ) (slider : Nat) :
    mencryptPages pgdir rounds m.forget slider =
      (mencryptPages pgdir rounds m slider).map Mem.forget := by
  induction rounds generalizing m slider with
  | zero => rfl
  | succ rounds ih =>
    simp only [mencryptPages, walkpgdir_forget]
    cases (walkpgdir m pgdir slider false).1 with
    | none => rfl
    | some pte =>
      simp only
      rw [show m.forget.get pte = m.get pte from rfl]
      split
      case isTrue => exact ih m _
      case isFalse => exact ih ((flipPage m pte).set pte _) _

theorem mencrypt_forget (m : Mem σ) (pgdir va : Nat) (len : Int) :
    mencrypt m.forget pgdir va len =
      (mencrypt m pgdir va len).map fun r => (r.1, r.2.forget) := by
  unfold mencrypt
  rw [mencryptCheck_forget, mencryptPages_forget]
  cases mencryptCheck pgdir m len.toNat (pgRoundDown va) with
  | error stop => rfl
  | ok passed =>
    cases passed with
    | false => rfl
    | true =>
      simp only [ok_bind, ↓reduceIte]
      cases mencryptPages pgdir len.toNat m (pgRoundDown va) with
      | error stop => rfl
      | ok after => rfl

theorem Machine.forget_put (s : Machine σ) (p : Nat) (m : Mem σ) (proc : Proc σ) :
    (s.put p m proc).forget = s.forget.put p m.forget
      ⟨proc.sz, proc.pgdir, proc.kstack, proc.state, proc.pid, proc.parent, proc.tf, proc.killed,
        proc.name, ()⟩ := by
  have procs : ∀ q, ((s.put p m proc).forget).proc q = (s.forget.put p m.forget
      ⟨proc.sz, proc.pgdir, proc.kstack, proc.state, proc.pid, proc.parent, proc.tf, proc.killed,
        proc.name, ()⟩).proc q := by
    intro q
    by_cases here : q = p
    · subst here
      simp [forget]
    · simp [forget, here]
  have whole := funext procs
  unfold forget put at whole ⊢
  simp only at whole ⊢
  rw [whole]

/-- The first half of `growproc`: the pages that come and go, with the new size or 0. -/
def resize (image : Image) (ops : ClockOps σ) (m : Mem σ) (proc : Proc σ) (n : Int) :
    Except Halt (Nat × Mem σ) :=
  if 0 < n then allocuvm image ops m proc.pgdir proc.sz ((proc.sz + n) % 2 ^ 32).toNat
  else if n < 0 then deallocuvm image ops m proc.pgdir proc.sz ((proc.sz + n) % 2 ^ 32).toNat
  else .ok (proc.sz, m)

/-- The second half of `growproc`: it fails, or sets the size and encrypts pages. -/
def settle (s : Machine σ) (p : Nat) (n : Int) (resized : Nat × Mem σ) :
    Except Halt (Bool × Machine σ) :=
  if n ≠ 0 ∧ resized.1 = 0 then .ok (false, s.save p resized.2)
  else do
    let (done, m) ← mencrypt resized.2 (s.proc p).pgdir
      (pgRoundUp ((resized.1 - n) % 2 ^ 32).toNat) (n.tdiv pgSize)
    .ok (done, s.put p m { s.proc p with sz := resized.1, queue := m.queue })

theorem growproc_eq (ops : ClockOps σ) (s : Machine σ) (p : Nat) (n : Int) :
    growproc image ops s p n = resize image ops (s.load p) (s.proc p) n >>= settle s p n := by
  unfold resize settle
  simp only [growproc, save_setProc]
  split
  case isTrue => rfl
  case isFalse =>
    split
    case isTrue => rfl
    case isFalse => rfl

/-- A call of `growproc` that returns does the same to the machine without its queues. -/
theorem growproc_forget {s s' : Machine σ} {p : Nat} {n : Int} {done : Bool}
    (grown : growproc image ops s p n = .ok (done, s')) :
    growproc image noClock s.forget p n = .ok (done, s'.forget) := by
  rw [growproc_eq] at grown ⊢
  obtain ⟨⟨size, m⟩, resized, settled⟩ := bind_eq_ok.mp grown
  have erased : resize image noClock (s.load p).forget (s.forget.proc p) n =
      .ok (size, m.forget) := by
    unfold resize at resized ⊢
    split at resized
    case isTrue positive =>
      rw [if_pos positive]
      exact allocuvm_forget resized
    case isFalse other =>
      rw [if_neg other]
      split at resized
      case isTrue negative =>
        rw [if_pos negative]
        exact deallocuvm_forget resized
      case isFalse zero =>
        cases resized
        rw [if_neg zero]
        rfl
  refine bind_eq_ok.mpr ⟨(size, m.forget), erased, ?_⟩
  unfold settle at settled ⊢
  simp only at settled ⊢
  split at settled
  case isTrue failed =>
    cases settled
    rw [if_pos failed, Machine.save, Machine.save, Machine.forget_put]
    rfl
  case isFalse succeeded =>
    obtain ⟨⟨passed, final⟩, encrypted, same⟩ := bind_eq_ok.mp settled
    cases same
    have sealed := mencrypt_forget m (s.proc p).pgdir (pgRoundUp ((size - n) % 2 ^ 32).toNat)
      (n.tdiv pgSize)
    rw [encrypted] at sealed
    rw [if_neg succeeded, Machine.forget_put]
    exact bind_eq_ok.mpr ⟨(passed, final.forget), sealed, rfl⟩

/-! ## Growing and shrinking -/

section Space

variable {s s' : Machine Unit} {p : Nat} {n : Int} {done : Bool}
  (owned : Owned image s.mem own) (live : own (s.proc p).pgdir = .dir)
  (top : (s.proc p).sz ≤ kernBase)
  (vacant : ∀ v, pagesBelow (s.proc p).sz ≤ v → v < userPages →
    entry s.mem (s.proc p).pgdir v = 0)

include owned live top vacant

/-- A call by a positive amount that returns has failed and left the entries as they were, or has
mapped blank pages and encrypted those of whole size. -/
theorem grow_outcome (positive : 0 < n) (small : n < 2 ^ 31)
    (grown : growproc image noClock s p n = .ok (done, s')) :
    (s'.proc p).pgdir = (s.proc p).pgdir ∧
      ((done = false ∧ (s'.proc p).sz = (s.proc p).sz ∧
          ∀ v < userPages, entry s'.mem (s.proc p).pgdir v = entry s.mem (s.proc p).pgdir v) ∨
        (done = true ∧ (s.proc p).sz + n.toNat < kernBase ∧
          (s'.proc p).sz = (s.proc p).sz + n.toNat ∧
          ∃ m own', Within image (s.proc p).pgdir (pagesBelow (s.proc p).sz)
              (pagesBelow ((s.proc p).sz + n.toNat)) s.mem own m own' ∧
            kinds own' = kinds own ∧
            (∀ v, pagesBelow (s.proc p).sz ≤ v → v < pagesBelow ((s.proc p).sz + n.toNat) →
              Blank m (s.proc p).pgdir v) ∧
            mencrypt m (s.proc p).pgdir (pagesBelow (s.proc p).sz * pgSize)
              ((n.toNat / pgSize : Nat) : Int) = .ok (true, s'.mem))) := by
  rw [growproc_eq] at grown
  obtain ⟨⟨size, m⟩, resized, settled⟩ := bind_eq_ok.mp grown
  have newsz : (((s.proc p).sz + n) % 2 ^ 32).toNat = (s.proc p).sz + n.toNat := by
    unfold kernBase at top
    omega
  rw [resize, if_pos positive, newsz] at resized
  by_cases high : kernBase ≤ (s.proc p).sz + n.toNat
  · rw [allocuvm, if_pos high] at resized
    cases resized
    rw [settle, if_pos ⟨by omega, rfl⟩] at settled
    cases settled
    simp only [Machine.save, Machine.put_proc, update_self, Machine.put_mem]
    exact ⟨trivial, .inl ⟨trivial, trivial, fun _ _ => rfl⟩⟩
  · obtain ⟨ok, m₁, own', grown, change, kind, -, outcome, -⟩ := allocuvm_spec noClock
      (m := s.mem) owned live (Nat.lt_of_not_le high)
      (fun v lower upper => vacant v lower (by
        unfold kernBase at high
        unfold pagesBelow at upper
        unfold userPages
        omega)) (fun _ _ => rfl) (Nat.le_add_right _ n.toNat)
    rw [show s.load p = s.mem from rfl, grown] at resized
    obtain ⟨rfl, rfl⟩ := Prod.mk.inj (Except.ok.inj resized)
    rcases outcome with ⟨rfl, blank⟩ | ⟨rfl, cleared⟩
    · obtain ⟨final, encrypted, -⟩ := mencrypt_new change.owned change.live
        (Nat.lt_of_not_le high) blank
      have start : (((((s.proc p).sz + n.toNat : Nat) : Int) - n) % 2 ^ 32).toNat =
          (s.proc p).sz := by
        unfold kernBase at top
        omega
      have count : n.tdiv pgSize = ((n.toNat / pgSize : Nat) : Int) := by
        rw [Int.tdiv_eq_ediv_of_nonneg (by omega), Int.natCast_ediv,
          Int.toNat_of_nonneg (by omega)]
      simp only [↓reduceIte] at settled
      rw [settle, if_neg (by simp only; omega), start, pgRoundUp_eq top, count, encrypted] at settled
      cases settled
      simp only [Machine.put_proc, update_self, Machine.put_mem]
      exact ⟨trivial, .inr ⟨trivial, Nat.lt_of_not_le high, trivial, m₁, own', change, kind, blank,
        encrypted⟩⟩
    · rw [settle, if_pos ⟨by omega, rfl⟩] at settled
      cases settled
      simp only [Machine.save, Machine.put_proc, update_self, Machine.put_mem]
      refine ⟨trivial, .inl ⟨trivial, trivial, ?_⟩⟩
      intro v bound
      by_cases inside : pagesBelow (s.proc p).sz ≤ v ∧ v < pagesBelow ((s.proc p).sz + n.toNat)
      · rw [cleared v inside.1 inside.2, vacant v inside.1 bound]
      · exact change.entries v (page_lt bound) (by omega)

/-- A call by a negative amount that leaves something of the process returns 0 and frees the pages
above the new size. -/
theorem shrink_outcome (negative : n < 0) (rest : 0 < (s.proc p).sz + n)
    (grown : growproc image noClock s p n = .ok (done, s')) :
    done = true ∧ (s'.proc p).pgdir = (s.proc p).pgdir ∧
      ((s'.proc p).sz : Int) = (s.proc p).sz + n ∧
      ∀ v < userPages, entry s'.mem (s.proc p).pgdir v =
        if v < pagesBelow (s'.proc p).sz then entry s.mem (s.proc p).pgdir v else 0 := by
  rw [growproc_eq] at grown
  obtain ⟨⟨size, m⟩, resized, settled⟩ := bind_eq_ok.mp grown
  obtain ⟨newsz, less, same⟩ : ∃ newsz : Nat, newsz < (s.proc p).sz ∧
      (((s.proc p).sz + n) % 2 ^ 32).toNat = newsz ∧ (newsz : Int) = (s.proc p).sz + n := by
    refine ⟨((s.proc p).sz + n).toNat, ?_, ?_, ?_⟩
    · omega
    · unfold kernBase at top
      omega
    · omega
  rw [resize, if_neg (by omega), if_pos negative, same.1] at resized
  obtain ⟨final, own', freed, change, -, -, cleared⟩ := deallocuvm_spec noClock (m := s.mem) newsz
    owned live top (fun _ _ _ _ _ _ => rfl)
  rw [show s.load p = s.mem from rfl, freed, if_neg (by omega)] at resized
  cases resized
  have rounds : (n.tdiv pgSize).toNat = 0 := by
    have quotient : 0 ≤ (-n).tdiv pgSize := Int.tdiv_nonneg (by omega) (by decide)
    rw [Int.neg_tdiv] at quotient
    omega
  rw [settle, if_neg (by simp only; omega)] at settled
  simp only [mencrypt, rounds, mencryptCheck, mencryptPages, ok_bind, ↓reduceIte] at settled
  cases settled
  simp only [Machine.put_proc, update_self, Machine.put_mem]
  refine ⟨trivial, trivial, same.2, ?_⟩
  intro v bound
  split
  case isTrue below => exact change.entries v (page_lt bound) (.inl below)
  case isFalse above =>
    by_cases freed : v < pagesBelow (s.proc p).sz
    · exact cleared v (by omega) freed
    · rw [change.entries v (page_lt bound) (by omega), vacant v (by omega) bound]

/-- The pages that a call maps are encrypted and all others kept, if what `n` exceeds whole pages by
fits in the last page of the process. -/
theorem grow_encrypts (positive : 0 < n) (small : n < 2 ^ 31)
    (fits : (s.proc p).sz + n % pgSize ≤ (pagesBelow (s.proc p).sz * pgSize : Nat))
    (grown : growproc image noClock s p n = .ok (true, s')) :
    (∀ v < userPages, mapped (entry s.mem (s.proc p).pgdir v) = false →
        mapped (entry s'.mem (s.proc p).pgdir v) = true →
        has (entry s'.mem (s.proc p).pgdir v) pteE = true ∧
          has (entry s'.mem (s.proc p).pgdir v) pteP = false ∧
          s'.mem.word (frameOf (entry s'.mem (s.proc p).pgdir v)) = fun _ => 0xFFFFFFFF) ∧
      ∀ e v, own e = .dir → v < userPages → mapped (entry s.mem e v) = true →
        entry s'.mem e v = entry s.mem e v ∧
          s'.mem.word (frameOf (entry s.mem e v)) = s.mem.word (frameOf (entry s.mem e v)) := by
  obtain ⟨-, ⟨wrong, -⟩ | ⟨-, high, -, m, own', change, kind, blank, encrypted⟩⟩ :=
    grow_outcome owned live top vacant positive small grown
  · simp at wrong
  obtain ⟨final, again, recoded, preserved, -, -, kept, flagged⟩ :=
    mencrypt_new change.owned change.live high blank
  obtain rfl : final = s'.mem := by
    rw [encrypted] at again
    exact (Prod.mk.inj (Except.ok.inj again)).2.symm
  have rounded : pagesBelow ((s.proc p).sz + n.toNat) =
      pagesBelow (s.proc p).sz + n.toNat / pgSize := by
    unfold pagesBelow pgSize at *
    omega
  have live' : ∀ e, own e = .dir → own' e = .dir :=
    fun e isDir => (kinds_label (congrFun kind e)).1.mp isDir
  constructor
  · intro v bound before after
    have new : pagesBelow (s.proc p).sz ≤ v ∧ v < pagesBelow ((s.proc p).sz + n.toNat) := by
      by_contra outside
      have same := change.entries v (page_lt bound) (by omega)
      rw [recoded.maps _ v (live' _ live) bound, same, before] at after
      simp at after
    have sealedPage := flagged v new.1 (by omega)
    obtain ⟨f, low, shape, zero⟩ := blank v new.1 new.2
    have plain := exactlyOne_mappedEntry f (pteW ||| pteU)
    rw [← shape] at plain
    obtain ⟨one, contents⟩ := preserved _ v (live' _ live) bound plain
    refine ⟨sealedPage, ?_, ?_⟩
    · simpa [exactlyOne, sealedPage, -has_pteE, -has_pteP] using one
    · have zeros : ∀ i, plaintext m (s.proc p).pgdir v i = 0 := by
        intro i
        rw [plaintext, shape, frameOf_blank low, zero]
        split <;> rename_i flag
        · rw [has_pteE, mappedEntry_flag _ _ (by omega)] at flag
          exact absurd flag (by decide)
        · rfl
      funext i
      have flipped := (congrFun contents i).trans (zeros i)
      rw [plaintext, if_pos sealedPage] at flipped
      rw [← BitVec.not_not (b := s'.mem.word _ i), flipped]
      rfl
  · intro e v isDir bound isMapped
    have label := owned.user e v isDir bound isMapped
    by_cases here : e = (s.proc p).pgdir
    · subst here
      have below : v < pagesBelow (s.proc p).sz := by
        by_contra above
        rw [vacant v (by omega) bound] at isMapped
        simp at isMapped
      have same := change.entries v (page_lt bound) (.inl below)
      obtain ⟨-, contents⟩ := change.contents _ v (.inl below) label
      obtain ⟨same', contents'⟩ := kept _ v (live' _ isDir) bound (by rw [same, isMapped]) (by omega)
      rw [same] at same' contents'
      exact ⟨same', contents'.trans contents⟩
    · obtain ⟨-, -, entries, words⟩ := change.apart.lookups owned isDir here
      have same := entries v (page_lt bound)
      obtain ⟨-, contents⟩ := words _ v label
      obtain ⟨same', contents'⟩ := kept e v (live' _ isDir) bound (by rw [same, isMapped])
        (fun both => here both.1)
      rw [same] at same' contents'
      exact ⟨same', contents'.trans contents⟩

omit vacant in
/-- The size and the mapped pages after a call, unless it takes away all of the process or more. -/
theorem resize_exact
    (exactly : ∀ v < userPages, mapped (entry s.mem (s.proc p).pgdir v) = true ↔
      v < pagesBelow (s.proc p).sz)
    (small : n < 2 ^ 31) (some : 0 ≤ n ∨ 0 < (s.proc p).sz + n)
    (grown : growproc image noClock s p n = .ok (done, s')) :
    (done = true → ((s'.proc p).sz : Int) = (s.proc p).sz + n ∧
        ∀ v < userPages, mapped (entry s'.mem (s'.proc p).pgdir v) = true ↔
          v < pagesBelow (s'.proc p).sz) ∧
      (done = false → (s'.proc p).sz = (s.proc p).sz ∧
        ∀ v < userPages, mapped (entry s'.mem (s'.proc p).pgdir v) =
          mapped (entry s.mem (s.proc p).pgdir v)) := by
  have vacant : ∀ v, pagesBelow (s.proc p).sz ≤ v → v < userPages →
      entry s.mem (s.proc p).pgdir v = 0 := by
    intro v above bound
    apply owned.zero _ v live bound
    rw [Bool.eq_false_iff]
    intro isMapped
    have below := (exactly v bound).mp isMapped
    omega
  rcases lt_trichotomy n 0 with negative | rfl | positive
  · obtain ⟨rfl, directory, size, entries⟩ :=
      shrink_outcome owned live top vacant negative (by omega) grown
    refine ⟨fun _ => ⟨size, ?_⟩, by simp⟩
    intro v bound
    have order : pagesBelow (s'.proc p).sz ≤ pagesBelow (s.proc p).sz := by
      unfold pagesBelow
      omega
    rw [directory, entries v bound]
    split
    case isTrue below =>
      rw [exactly v bound]
      omega
    case isFalse above => simp [above]
  · rw [growproc_eq] at grown
    simp only [resize, lt_irrefl, ↓reduceIte, ok_bind, settle, ne_eq, not_true_eq_false, false_and,
      Int.zero_tdiv, mencrypt, Int.toNat_zero, mencryptCheck, mencryptPages] at grown
    cases grown
    simp only [Machine.put_proc, update_self, Machine.put_mem]
    exact ⟨fun _ => ⟨by omega, exactly⟩, by simp⟩
  · obtain ⟨directory, ⟨rfl, size, entries⟩ | ⟨rfl, high, size, m, own', change, kind, blank,
      encrypted⟩⟩ := grow_outcome owned live top vacant positive small grown
    · refine ⟨by simp, fun _ => ⟨size, ?_⟩⟩
      intro v bound
      rw [directory, entries v bound]
    · obtain ⟨final, again, recoded, -⟩ := mencrypt_new change.owned change.live high blank
      obtain rfl : final = s'.mem := by
        rw [encrypted] at again
        exact (Prod.mk.inj (Except.ok.inj again)).2.symm
      refine ⟨fun _ => ⟨by omega, ?_⟩, by simp⟩
      intro v bound
      rw [directory, recoded.maps _ v change.live bound, size]
      by_cases new : pagesBelow (s.proc p).sz ≤ v ∧ v < pagesBelow ((s.proc p).sz + n.toNat)
      · exact iff_of_true (blank v new.1 new.2).accessible.1 new.2
      · have order : pagesBelow (s.proc p).sz ≤ pagesBelow ((s.proc p).sz + n.toNat) := by
          unfold pagesBelow
          omega
        rw [change.entries v (page_lt bound) (by omega), exactly v bound]
        omega

end Space

section Results

variable {s s' : Machine (Queue PteAddr)} {p : Nat} {n : Int} {done : Bool}

end Results

/-! ## Taking growth back -/

/-- Translations and user pages are as before, and free frames are free again or page tables. -/
structure Restored (m : Mem σ) (own : Nat → Owner) (m' : Mem σ) : Prop where
  entries : ∀ e v, own e = .dir → v < 2 ^ 20 → entry m' e v = entry m e v
  contents : ∀ f e v, own f = .user e v → m'.word f = m.word f
  nodup : m'.freelist.Nodup
  frames : ∀ f ∈ m.freelist, f ∈ m'.freelist ∨ ∃ e i, tableOf m' e i = some f

variable {m' : Mem σ} {d low high : Nat}

theorem Within.restored (change : Within image d low high m own m' own') (owned : Owned image m own)
    (kind : kinds own' = kinds own) (before : ∀ v, low ≤ v → v < high → entry m d v = 0)
    (after : ∀ v, low ≤ v → v < high → entry m' d v = 0) : Restored m own m' := by
  have entries : ∀ e v, own e = .dir → v < 2 ^ 20 → entry m' e v = entry m e v := by
    intro e v live bound
    by_cases same : e = d
    · subst same
      by_cases inside : low ≤ v ∧ v < high
      · rw [before v inside.1 inside.2, after v inside.1 inside.2]
      · exact change.entries v bound (by omega)
    · exact (change.apart.lookups owned live same).2.2.1 v bound
  refine ⟨entries, fun f e v label => ?_, change.owned.nodup, fun f free => ?_⟩
  · obtain ⟨live, -, isMapped, -⟩ := owned.userBack e v f label
    by_cases same : e = d
    · subst same
      refine (change.contents f v ?_ label).2
      by_contra inside
      rw [before v (by omega) (by omega)] at isMapped
      cases isMapped
    · exact ((change.apart.lookups owned live same).2.2.2 f v label).2
  · have was := (owned.free f).mp free
    have pool := congrFun kind f
    cases label : own' f with
    | free => exact .inl ((change.owned.free f).mpr label)
    | table e i => exact .inr ⟨e, i, (change.owned.tableBack e i f label).2.2⟩
    | user e v =>
      obtain ⟨live', bound, isMapped, frame⟩ := change.owned.userBack e v f label
      have live : own e = .dir := by rwa [← kinds_dir, ← kind, kinds_dir]
      rw [entries e v live (page_lt bound)] at isMapped frame
      have other := owned.user e v live bound isMapped
      rw [frame, was] at other
      cases other
    | dir | outside | held | kstack slot | pipe => simp [kinds, was, label, Owner.kind] at pool

/-- `allocuvm` that fails or is taken back leaves every address space as it was. -/
theorem growth_undone (ops : ClockOps σ) (oldsz newsz : Nat) (owned : Owned image m own)
    (live : own d = .dir) (order : oldsz ≤ newsz) (top : newsz < kernBase)
    (vacant : ∀ v, pagesBelow oldsz ≤ v → v < pagesBelow newsz → entry m d v = 0)
    (quiet : ∀ pte, ops.remove m.queue pte = .ok m.queue) :
    ∃ done grown, allocuvm image ops m d oldsz newsz = .ok (if done then newsz else 0, grown) ∧
      (done = false → Restored m own grown) ∧ (done = true → ∃ final,
        deallocuvm image ops grown d newsz oldsz = .ok (oldsz, final) ∧ Restored m own final) := by
  obtain ⟨done, grown, own₁, allocated, change, same, queue, outcome, -⟩ :=
    allocuvm_uniform owned live top vacant order
  have returned := allocated ops fun _ _ pte _ _ _ => quiet pte
  rcases outcome with ⟨rfl, -⟩ | ⟨rfl, cleared⟩
  · obtain ⟨final, own₂, freed, undone, same₂, -, cleared⟩ :=
      deallocuvm_uniform oldsz change.owned change.live (Nat.le_of_lt top)
    have back := freed ops fun _ pte _ _ _ _ => queue ▸ quiet pte
    rw [show (if newsz ≤ oldsz then newsz else oldsz) = oldsz by split <;> omega] at back
    exact ⟨_, _, returned, nofun, fun _ => ⟨final, back,
      (change.trans undone).restored owned (same₂.trans same) vacant cleared⟩⟩
  · exact ⟨_, _, returned, fun _ => change.restored owned same vacant cleared, nofun⟩

/-- There are frames for three of four pages. -/
theorem growth_undone_short : ∃ grown,
    allocuvm sampleImage noClock twoPages.mem.forget 401 8192 24576 = .ok (0, grown) ∧
      Restored twoPages.mem.forget twoPages.own grown := by
  have vacant : ∀ v < 6, 2 ≤ v → entry twoPages.mem.forget 401 v = 0 := by decide +kernel
  have fails : ((allocuvm sampleImage noClock twoPages.mem.forget 401 8192 24576).map
      Prod.fst).toOption = some 0 := by decide +kernel
  obtain ⟨done, grown, returned, failed, -⟩ := growth_undone noClock 8192 24576
    twoPages.owned.forget (twoPages.own_dir.mpr (.inr rfl)) (by decide) (by decide)
    (fun v lower upper => vacant v upper lower) fun _ => rfl
  rw [returned] at fails
  cases done with
  | true => cases fails
  | false => exact ⟨grown, returned, failed rfl⟩

end MemoryEncryption
