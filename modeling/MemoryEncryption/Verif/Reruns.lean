import MemoryEncryption.Kernel.Crypt
import MemoryEncryption.Verif.Ownership

/-!
# Successful runs, repeated

A function that makes an address space and succeeds has looked neither at the clock
queue nor at the free frames that it leaves on the list. So it succeeds again, in the
same way, in a memory that differs in these only. This is how a run is carried over
to a memory whose queue points where the run will put a page table, or whose last
frame the run will take.
-/

namespace MemoryEncryption

open Outcome

variable {σ : Type} {image : Image} {ops : ClockOps σ} {m m₁ m₂ final : Mem σ} {left : List Nat}

/-- Memory `m'` has the words of `m`, any queue, and lacks the frames `left` at the end of the free
list. The allocator does not fail by itself in either. -/
structure Trims (left : List Nat) (m m' : Mem σ) : Prop where
  word : m'.word = m.word
  list : m.freelist = m'.freelist ++ left
  calm : m.oom = [] ∧ m'.oom = []

/-- A run from `m` to `final` has taken frames from the front of the free list only, and is possible
in every memory that lacks no more than the frames it leaves. -/
def Repeats (m final : Mem σ) (run : Mem σ → Mem σ → Prop) : Prop :=
  final.freelist <:+ m.freelist ∧
    ∀ left m', Trims left m m' → left <:+ final.freelist → ∃ final', run m' final' ∧
      Trims left final final'

variable {d : Nat}

namespace Repeats

variable {first second both : Mem σ → Mem σ → Prop}

theorem trans (one : Repeats m m₁ first) (two : Repeats m₁ m₂ second)
    (join : ∀ x y z, x.word = m.word → y.word = m₁.word → first x y → second y z → both x z) :
    Repeats m m₂ both := by
  refine ⟨two.1.trans one.1, fun left m' trims stays => ?_⟩
  obtain ⟨middle, reached, trims₁⟩ := one.2 left m' trims (stays.trans two.1)
  obtain ⟨last, finished, trims₂⟩ := two.2 left middle trims₁ stays
  exact ⟨last, join m' middle last trims.word trims₁.word reached finished, trims₂⟩

theorem refl (stays : ∀ x : Mem σ, x.word = m.word → both x x) : Repeats m m both :=
  ⟨List.suffix_rfl, fun _ m' trims _ => ⟨m', stays m' trims.word, trims⟩⟩

theorem mono (one : Repeats m m₁ first) (larger : ∀ x y, first x y → both x y) :
    Repeats m m₁ both :=
  one.trans (refl fun _ _ => rfl) fun x _ _ _ _ reached same => same ▸ larger x _ reached

theorem store (one : Repeats m m₁ first) (change : Mem σ → Mem σ)
    (rest : ∀ x, (change x).freelist = x.freelist ∧ (change x).oom = x.oom)
    (words : ∀ x y, x.word = y.word → (change x).word = (change y).word)
    (join : ∀ x y, x.word = m.word → y.word = m₁.word → first x y → both x (change y)) :
    Repeats m (change m₁) both := by
  refine ⟨by rw [(rest m₁).1]; exact one.1, fun left m' trims stays => ?_⟩
  rw [(rest m₁).1] at stays
  obtain ⟨middle, reached, trims₁⟩ := one.2 left m' trims stays
  refine ⟨change middle, join m' middle trims.word trims₁.word reached, words _ _ trims₁.word, ?_, ?_⟩
  · rw [(rest m₁).1, (rest middle).1, trims₁.list]
  · rw [(rest m₁).2, (rest middle).2]
    exact trims₁.calm

theorem kalloc {frame : Nat} (taken : kalloc m = (some frame, final)) :
    Repeats m final fun x y => MemoryEncryption.kalloc x = (some frame, y) := by
  rcases kalloc_cases m with ⟨oom, failed⟩ | ⟨oom, found, rest, shape, taken'⟩
  · simp [failed] at taken
  rw [taken'] at taken
  obtain ⟨same, rfl⟩ := Prod.mk.inj taken
  obtain rfl := Option.some.inj same
  refine ⟨by rw [shape]; exact List.suffix_cons found rest, fun left m' trims stays => ?_⟩
  have list := trims.list
  rw [shape] at list
  cases short : m'.freelist with
  | nil =>
    rw [short, List.nil_append] at list
    have longer := stays.length_le
    rw [← list, List.length_cons] at longer
    exact absurd longer (by simp)
  | cons next others =>
    rw [short, List.cons_append] at list
    obtain ⟨rfl, tail⟩ := List.cons.inj list
    refine ⟨{ m' with oom := [], freelist := others }, ?_, trims.word, tail, ?_, rfl⟩
    · simp [MemoryEncryption.kalloc, trims.calm.2, short]
    · simpa [MemoryEncryption.kalloc, trims.calm.1, shape, eq_comm] using taken'

theorem freshPage {frame : Nat} (taken : MemoryEncryption.kalloc m = (some frame, m₁))
    (words : Nat → Word) :
    Repeats m (m₁.setPage frame words) fun x y => ∃ z,
      MemoryEncryption.kalloc x = (some frame, z) ∧ y = z.setPage frame words := by
  refine (kalloc taken).store (fun x => x.setPage frame words) (fun _ => ⟨rfl, rfl⟩) ?_
    fun x y _ _ taken' => ⟨y, taken', rfl⟩
  intro x y same
  simp only [Mem.setPage, same]

theorem walkpgdir {va : Nat} {pte : PteAddr} (walked : walkpgdir m d va true = (some pte, final)) :
    Repeats m final fun x y => MemoryEncryption.walkpgdir x d va true = (some pte, y) := by
  simp only [MemoryEncryption.walkpgdir, ↓reduceIte] at walked ⊢
  by_cases there : has (m.word d (pdx va)) pteP = true
  · simp only [there, ↓reduceIte, Prod.mk.injEq, Option.some.injEq] at walked
    obtain ⟨rfl, rfl⟩ := walked
    refine refl fun x words => ?_
    rw [words, if_pos there]
  · simp only [there, Bool.false_eq_true, ↓reduceIte] at walked
    rcases taken : MemoryEncryption.kalloc m with ⟨_ | pgtab, m₁⟩
    · simp [taken] at walked
    · simp only [taken, Prod.mk.injEq, Option.some.injEq] at walked
      obtain ⟨rfl, rfl⟩ := walked
      refine (kalloc taken).store
        (fun x => (x.setPage pgtab fun _ => 0).set ⟨d, pdx va⟩
          (makePte pgtab (pteP ||| pteW ||| pteU))) (fun _ => ⟨rfl, rfl⟩) ?_ ?_
      · intro x y same
        simp only [Mem.set, Mem.setPage, same]
      · intro x y words _ taken'
        rw [words, if_neg there, taken']

theorem mappagesLoop {perm : Word} (rounds : Nat) {page frame : Nat}
    (returned : mappagesLoop d perm rounds m page frame = .ok (true, final)) :
    Repeats m final fun x y =>
      MemoryEncryption.mappagesLoop d perm rounds x page frame = .ok (true, y) := by
  induction rounds generalizing m page frame with
  | zero =>
    cases returned
    exact refl fun _ _ => rfl
  | succ rounds ih =>
    rw [MemoryEncryption.mappagesLoop] at returned
    rcases walked : MemoryEncryption.walkpgdir m d (page * pgSize) true with ⟨_ | pte, m₁⟩
    · simp [walked] at returned
    simp only [walked] at returned
    by_cases remap : mapped (m₁.get pte) = true
    · simp only [remap, ↓reduceIte] at returned
      cases returned
    simp only [remap, Bool.false_eq_true, ↓reduceIte] at returned
    have stored : Repeats m (m₁.set pte (mappedEntry frame perm)) fun x y => ∃ z,
        MemoryEncryption.walkpgdir x d (page * pgSize) true = (some pte, z) ∧
          mapped (z.get pte) = false ∧ y = z.set pte (mappedEntry frame perm) := by
      refine (walkpgdir walked).store (fun x => x.set pte (mappedEntry frame perm))
        (fun _ => ⟨rfl, rfl⟩) ?_ ?_
      · intro x y same
        simp only [Mem.set, same]
      · intro x y _ words walked'
        refine ⟨y, walked', ?_, rfl⟩
        rw [Mem.get, words]
        exact Bool.eq_false_iff.mpr remap
    refine stored.trans (ih returned) ?_
    rintro x y z _ _ ⟨w, walked', fresh, rfl⟩ looped
    rw [MemoryEncryption.mappagesLoop, walked']
    simp only [fresh, Bool.false_eq_true, ↓reduceIte]
    exact looped

theorem setupkvmLoop {made : Nat} (rows : List Kmap)
    (returned : setupkvmLoop image ops d rows m = .ok (some made, final)) :
    Repeats m final fun x y =>
      MemoryEncryption.setupkvmLoop image ops d rows x = .ok (some made, y) := by
  induction rows generalizing m with
  | nil =>
    obtain ⟨same, rfl⟩ := Prod.mk.inj (Except.ok.inj returned)
    cases same
    exact refl fun _ _ => rfl
  | cons row rest ih =>
    rw [MemoryEncryption.setupkvmLoop] at returned
    obtain ⟨⟨done, m₁⟩, mapping, returned⟩ := bind_eq_ok.mp returned
    cases done with
    | true =>
      refine (mappagesLoop _ mapping).trans (ih returned) fun x y z _ _ mapping' looped => ?_
      rw [MemoryEncryption.setupkvmLoop, mappages, mapping']
      exact looped
    | false =>
      obtain ⟨_, -, finished⟩ := bind_eq_ok.mp returned
      simp at finished

theorem setupkvm (returned : setupkvm image ops m = .ok (some d, final)) :
    Repeats m final fun x y => MemoryEncryption.setupkvm image ops x = .ok (some d, y) := by
  rw [MemoryEncryption.setupkvm] at returned
  rcases taken : MemoryEncryption.kalloc m with ⟨_ | frame, m₁⟩
  · simp [taken] at returned
  simp only [taken] at returned
  refine (freshPage taken _).trans (setupkvmLoop _ returned) ?_
  rintro x y z _ _ ⟨w, taken', rfl⟩ looped
  rw [MemoryEncryption.setupkvm, taken']
  exact looped

theorem newPage {va frame : Nat} {words : Nat → Word} {perm : Word}
    (taken : MemoryEncryption.kalloc m = (some frame, m₁))
    (mapping : mappages (m₁.setPage frame words) d va pgSize frame perm = .ok (true, final)) :
    Repeats m final fun x y => ∃ z, MemoryEncryption.kalloc x = (some frame, z) ∧
      mappages (z.setPage frame words) d va pgSize frame perm = .ok (true, y) := by
  refine (freshPage taken words).trans (mappagesLoop _ mapping) ?_
  rintro x y z _ _ ⟨w, taken', rfl⟩ mapping'
  exact ⟨w, taken', mapping'⟩

theorem allocuvmLoop {oldsz newsz : Nat} (rounds : Nat) {a : Nat}
    (returned : allocuvmLoop image ops d oldsz newsz rounds m a = .ok (true, final)) :
    Repeats m final fun x y =>
      MemoryEncryption.allocuvmLoop image ops d oldsz newsz rounds x a = .ok (true, y) := by
  induction rounds generalizing m a with
  | zero =>
    cases returned
    exact refl fun _ _ => rfl
  | succ rounds ih =>
    rw [MemoryEncryption.allocuvmLoop] at returned
    rcases taken : MemoryEncryption.kalloc m with ⟨_ | frame, m₁⟩
    · simp only [taken] at returned
      obtain ⟨_, -, finished⟩ := bind_eq_ok.mp returned
      simp at finished
    simp only [taken] at returned
    obtain ⟨⟨done, m₂⟩, mapping, returned⟩ := bind_eq_ok.mp returned
    cases done with
    | true =>
      refine (newPage taken mapping).trans (ih returned) ?_
      rintro x y z _ _ ⟨w, taken', mapping'⟩ looped
      rw [MemoryEncryption.allocuvmLoop, taken']
      simp only [mapping', ok_bind, ↓reduceIte]
      exact looped
    | false =>
      obtain ⟨_, -, returned⟩ := bind_eq_ok.mp returned
      obtain ⟨_, -, finished⟩ := bind_eq_ok.mp returned
      simp at finished

theorem allocuvm {oldsz newsz size : Nat}
    (returned : allocuvm image ops m d oldsz newsz = .ok (size, final)) (nonzero : size ≠ 0) :
    Repeats m final fun x y =>
      MemoryEncryption.allocuvm image ops x d oldsz newsz = .ok (size, y) := by
  simp only [MemoryEncryption.allocuvm] at returned ⊢
  by_cases high : kernBase ≤ newsz
  · rw [if_pos high] at returned
    exact absurd (Prod.mk.inj (Except.ok.inj returned)).1.symm nonzero
  simp only [if_neg high] at returned ⊢
  by_cases order : newsz < oldsz
  · simp only [if_pos order] at returned ⊢
    cases returned
    exact refl fun _ _ => rfl
  simp only [if_neg order] at returned ⊢
  obtain ⟨⟨done, m₁⟩, looped, returned⟩ := bind_eq_ok.mp returned
  cases returned
  cases done with
  | true =>
    refine (allocuvmLoop _ looped).mono fun x y looped' => ?_
    rw [looped']
    rfl
  | false => exact absurd rfl nonzero

end Repeats

/-! ## A removal that stops -/

/-- Two slots, of which the second is in use and points to the entry, and the hand is at the first:
the slot lies past the hand. -/
def strayQueue (pte : PteAddr) : Queue PteAddr :=
  ⟨fun i => if i = 1 then ⟨0, 0, some pte⟩ else ⟨-1, 0, none⟩, 0⟩

theorem strayQueue_remove (pte : PteAddr) :
    cqRemove (strayQueue pte) pte = .error .outOfBounds := by
  have found : (strayQueue pte).find pte = some 1 := by
    simp [Queue.find, strayQueue, clockSize, List.range, List.range.loop]
  rw [cqRemove, found]
  simp [strayQueue, clockSize, shiftDown]

theorem walkpgdir_first {pte : PteAddr} (found : pteAt m d 0 = some pte) :
    (walkpgdir m d 0 false).1 = some pte := by
  have looked := walkpgdir_lookup m d (show 0 < 2 ^ 32 by decide)
  rw [Nat.zero_div, found] at looked
  exact congrArg Prod.fst looked

/-- `freevm` stops where the removal of its first page does. -/
theorem Owned.freevm_stops {own : Nat → Owner} {pte : PteAddr} {halt : Halt}
    (owned : Owned image m own) (live : own d = .dir) (isMapped : mapped (entry m d 0) = true)
    (found : pteAt m d 0 = some pte) (stops : ops.remove m.queue pte = .error halt) :
    freevm image ops m d = .error halt := by
  have label := owned.user d 0 live (by decide) isMapped
  obtain ⟨low, high⟩ := owned.range _ (show own (frameOf (entry m d 0)) ≠ .outside by simp [label])
  have nonzero : frameOf (entry m d 0) ≠ 0 := by
    have above := image.end_above.trans low
    exact Nat.ne_of_gt (Nat.lt_of_lt_of_le (Nat.zero_lt_of_lt image.data_above) above)
  have value : m.get pte = entry m d 0 := by simp [entry, found]
  have first : deallocuvm image ops m d kernBase 0 = .error halt := by
    rw [deallocuvm, if_neg (by decide), show pgRoundUp 0 = 0 by decide]
    rw [deallocuvmLoop, if_pos (by decide), walkpgdir_first found]
    simp only [value, isMapped, ↓reduceIte, nonzero, kfree,
      show ¬ (frameOf (entry m d 0) < image.endPage ∨ physTop / pgSize ≤ frameOf (entry m d 0)) by
        omega, ok_bind]
    rw [show (m.setPage (frameOf (entry m d 0)) fun _ => 0x01010101).queue = m.queue from rfl, stops]
    rfl
  rw [freevm, first]
  rfl

end MemoryEncryption
