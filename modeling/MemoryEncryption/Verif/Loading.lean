import MemoryEncryption.Kernel.Exec
import MemoryEncryption.Verif.Bytes
import MemoryEncryption.Verif.UserMemory

/-!
# What `exec` builds

`exec` builds the new address space beside the old one, from free frames. Until it
commits, nothing else has changed; if it fails, it frees what it built. `Building`
is the invariant of the construction: the pages below the size reached so far are
mapped, and no others.
-/

namespace MemoryEncryption

open Outcome

variable {σ : Type} {image : Image} {m m' : Mem σ} {own own' : Nat → Owner}

/-- A new address space `d` of the given size, in a memory that was `m₀` when the construction
began. -/
structure Building (image : Image) (m₀ : Mem σ) (own₀ : Nat → Owner) (d sz : Nat) (m : Mem σ)
    (own : Nat → Owner) : Prop where
  owned : Owned image m own
  live : own d = .dir
  apart : Apart d m₀ own₀ m own
  kind : kinds own = Function.update (kinds own₀) d .dir
  queue : m.queue = m₀.queue
  top : sz ≤ kernBase
  pages : ∀ v < pagesBelow sz, mapped (entry m d v) = true
  vacant : ∀ v, pagesBelow sz ≤ v → v < userPages → entry m d v = 0
  kernel : mapped (entry m d (2 ^ 20 - 1)) = true

theorem littleEndian_lt (bytes : List (BitVec 8)) :
    littleEndian bytes < 256 ^ bytes.length := by
  induction bytes with
  | nil => simp [littleEndian]
  | cons byte rest ih =>
    have small := byte.isLt
    rw [littleEndian, List.length_cons, Nat.pow_succ]
    omega

theorem headerField_lt (header : List (BitVec 8)) (offset size : Nat) :
    headerField header offset size < 256 ^ size := by
  refine lt_of_lt_of_le (littleEndian_lt _) (Nat.pow_le_pow_right (by omega) ?_)
  exact List.length_take_le _ _

theorem copyout_page {d : Nat} (va : Nat) (bytes : List (BitVec 8))
    (fuel : Nat) (user : va / pgSize < userPages) (accessible : Accessible m d (va / pgSize))
    (fits : va % pgSize + bytes.length ≤ pgSize) :
    ∃ final, copyout d (fuel + 1) m va bytes = .ok (true, final) := by
  by_cases empty : bytes = []
  · exact ⟨m, by rw [empty, copyout]⟩
  · rw [copyout_round fuel empty user accessible, Nat.min_eq_right (by omega), List.drop_length]
    exact ⟨_, by rw [copyout]⟩

variable {v : Nat} {final : Mem σ}

section Build

variable {m₀ : Mem σ} {own₀ : Nat → Owner} {d sz : Nat}

/-- A change of contents of frames that no lookup reads keeps the construction. -/
theorem Building.of_contents {f : Nat} (building : Building image m₀ own₀ d sz m own)
    (mine : ∃ v, own f = .user d v) (words : ∀ g, g ≠ f → m'.word g = m.word g)
    (list : m'.freelist = m.freelist) (queue : m'.queue = m.queue) :
    Building image m₀ own₀ d sz m' own := by
  obtain ⟨v, label⟩ := mine
  obtain ⟨recoded, same⟩ := building.owned.contents label words list
  have entries := fun w => same d w building.live
  refine ⟨recoded.owned, building.live, building.apart.trans ?_,
    building.kind, queue.trans building.queue, building.top, ?_, ?_, ?_⟩
  · refine Apart.of_change (fun g => g = f) ?_ (fun _ _ => rfl) words
    rintro g rfl
    exact .inr (by simp [space, label])
  · intro v' bound
    have top := building.top
    rw [entries v' (by unfold pagesBelow at bound; unfold kernBase at top; omega)]
    exact building.pages v' bound
  · intro v' lower upper
    rw [entries v' (page_lt upper)]
    exact building.vacant v' lower upper
  · rw [entries (2 ^ 20 - 1) (by decide)]
    exact building.kernel

theorem Building.page (building : Building image m₀ own₀ d sz m own) (bound : v < pagesBelow sz) :
    v < userPages ∧ own (frameOf (entry m d v)) = .user d v := by
  have top := building.top
  have user : v < userPages := by
    unfold pagesBelow at bound
    unfold kernBase at top
    unfold userPages
    omega
  exact ⟨user, building.owned.user d v building.live user (building.pages v bound)⟩

theorem Building.setBytes (building : Building image m₀ own₀ d sz m own)
    (mine : own (frameOf (entry m d v)) = .user d v) (offset : Nat) (bytes : List (BitVec 8)) :
    Building image m₀ own₀ d sz (m.setBytes (frameOf (entry m d v)) offset bytes) own := by
  obtain ⟨list, queue⟩ := m.setBytes_rest (frameOf (entry m d v)) offset bytes
  refine building.of_contents ⟨v, mine⟩ (fun g other => ?_) list queue
  funext i
  exact m.setBytes_word_of_ne _ offset bytes other i

/-- The loop of `loaduvm` writes into pages of the construction. -/
theorem Building.loadLoop (file : List (BitVec 8)) (offset : Nat) {a n : Nat}
    (fits : a * pgSize + n ≤ sz) (rounds k : Nat) (sum : k + rounds = pagesBelow n)
    (building : Building image m₀ own₀ d sz m own) :
    ∃ done final, loaduvmLoop d (a * pgSize) file offset n rounds m (k * pgSize) =
        .ok (done, final) ∧ Building image m₀ own₀ d sz final own := by
  induction rounds generalizing m k with
  | zero => exact ⟨true, m, rfl, building⟩
  | succ rounds ih =>
    have top := building.top
    have inside : a + k < pagesBelow sz := by
      unfold pagesBelow pgSize at *
      omega
    obtain ⟨user, mine⟩ := building.page inside
    have address : (a * pgSize + k * pgSize) % 2 ^ 32 = (a + k) * pgSize := by
      unfold userPages at user
      unfold pgSize
      omega
    obtain ⟨pte, found, value⟩ := exists_pteAt (building.pages _ inside)
    have next : k * pgSize + pgSize = (k + 1) * pgSize := by
      unfold pgSize
      omega
    rw [loaduvmLoop, address, walkpgdir_page m d (page_lt user), found]
    simp only [value, next]
    cases readi file ((offset + k * pgSize) % 2 ^ 32) (min (n - k * pgSize) pgSize) with
    | none => exact ⟨false, m, rfl, building⟩
    | some bytes =>
      have written := building.setBytes mine 0 bytes
      by_cases short : bytes.length ≠ min (n - k * pgSize) pgSize
      · simp only [if_pos short]
        exact ⟨false, _, rfl, written⟩
      · simp only [if_neg short]
        exact ih (k + 1) (by omega) written

theorem Building.load (building : Building image m₀ own₀ d sz m own) (file : List (BitVec 8))
    {addr : Nat} (offset : Nat) {n : Nat} (aligned : addr % pgSize = 0) (fits : addr + n ≤ sz) :
    ∃ done final, loaduvm m d addr file offset n = .ok (done, final) ∧
      Building image m₀ own₀ d sz final own := by
  have start : addr = addr / pgSize * pgSize := by
    unfold pgSize at *
    omega
  have rounds : 0 + pageCount 0 n = pagesBelow n := by
    unfold pageCount pagesBelow
    omega
  obtain ⟨done, final, looped, written⟩ := building.loadLoop file offset (a := addr / pgSize)
    (by rw [← start]; exact fits) _ 0 rounds
  rw [← start, Nat.zero_mul] at looped
  refine ⟨done, final, ?_, written⟩
  rw [loaduvm, if_neg (by simpa using aligned)]
  exact looped

theorem Building.guard (building : Building image m₀ own₀ d sz m own) (inside : v < pagesBelow sz) :
    ∃ final, clearpteu m d (v * pgSize) = .ok final ∧ Building image m₀ own₀ d sz final own ∧
      (∀ v' < userPages, entry final d v' =
        if v' = v then entry m d v &&& ~~~pteU else entry m d v') ∧
      ∀ f v', own f = .user d v' → final.word f = m.word f := by
  obtain ⟨user, -⟩ := building.page inside
  have isMapped := building.pages v inside
  obtain ⟨pte, found, value⟩ := exists_pteAt isMapped
  have keeps : mapped (entry m d v &&& ~~~pteU) = true := by
    rw [mapped_iff] at isMapped ⊢
    simp only [BitVec.getLsbD_and, BitVec.getLsbD_not]
    simpa [pteU] using isMapped
  have owned := building.owned.setFlags building.live user found isMapped keeps
    (frameOf_clear _ (by decide))
  obtain ⟨-, -, entries⟩ := building.owned.set_lookups building.live (page_lt user) found
    (entry m d v &&& ~~~pteU)
  obtain ⟨isTable, -⟩ := building.owned.pteAt_table building.live (page_lt user) found
  refine ⟨m.set pte (entry m d v &&& ~~~pteU), ?_, ⟨owned, building.live, building.apart.trans ?_,
    building.kind, building.queue, building.top, ?_, ?_, ?_⟩, fun v' bound => ?_, fun f v' mine => ?_⟩
  · rw [clearpteu, walkpgdir_page m d (page_lt user), found]
    simp only [value]
  · refine Apart.of_change (fun g => g = pte.frame) ?_ (fun _ _ => rfl) ?_
    · rintro g rfl
      exact .inr (by simp [space, isTable])
    · intro g other
      funext i
      simp [show g ≠ pte.frame from other]
  · intro v' bound
    rw [entries d v' building.live (page_lt (building.page bound).1)]
    split
    · exact keeps
    · exact building.pages v' bound
  · intro v' lower upper
    rw [entries d v' building.live (page_lt upper), if_neg (by omega)]
    exact building.vacant v' lower upper
  · have last : (2 ^ 20 - 1 : Nat) ≠ v := by
      unfold userPages at user
      omega
    rw [entries d _ building.live (by decide), if_neg (by omega)]
    exact building.kernel
  · rw [entries d v' building.live (page_lt bound)]
    simp
  · have other : f ≠ pte.frame := by
      rintro rfl
      rw [isTable] at mine
      simp at mine
    funext i
    simp [other]

/-- `copyout`, if it returns, writes into pages of the construction only. -/
theorem Building.copy (fuel : Nat) (building : Building image m₀ own₀ d sz m own) {va : Nat}
    (bound : va < 2 ^ 32) {bytes : List (BitVec 8)} {done : Bool}
    (returned : copyout d fuel m va bytes = .ok (done, final)) :
    Building image m₀ own₀ d sz final own := by
  induction fuel generalizing m va bytes with
  | zero =>
    obtain ⟨rfl, -⟩ := copyout_zero returned
    exact building
  | succ fuel ih =>
    rcases building.owned.copyout_cases building.live bound returned with
      ⟨rfl, -⟩ | ⟨user, accessible, returned⟩
    · exact building
    · have mine := building.owned.user d _ building.live user accessible.1
      exact ih (building.setBytes mine _ _) (nextPage_eq user).2 returned

/-- Pushing the arguments, if it returns, writes into pages of the construction only. -/
theorem Building.push (argv : List (List (BitVec 8))) (building : Building image m₀ own₀ d sz m own)
    {sp : Nat} {ustack : List Nat} {pushed : Option (Nat × List Nat)}
    (returned : pushArgs d argv m sp ustack = .ok (pushed, final)) :
    Building image m₀ own₀ d sz final own := by
  induction argv generalizing m sp ustack with
  | nil =>
    simp only [pushArgs, Except.ok.injEq, Prod.mk.injEq] at returned
    rw [← returned.2]
    exact building
  | cons arg rest ih =>
    rw [pushArgs] at returned
    split at returned
    · simp only [Except.ok.injEq, Prod.mk.injEq] at returned
      rw [← returned.2]
      exact building
    · obtain ⟨⟨done, m₁⟩, copied, returned⟩ := bind_eq_ok.mp returned
      have written := building.copy _ (by omega) copied
      cases done with
      | true => exact ih written returned
      | false =>
        simp only [Bool.false_eq_true, ↓reduceIte, Except.ok.injEq, Prod.mk.injEq] at returned
        rw [← returned.2]
        exact written

/-- `copyout` returns if it stays below the size, or begins on the last page of the kernel half. -/
theorem Building.copies (fuel : Nat) (building : Building image m₀ own₀ d sz m own) (va : Nat)
    (bytes : List (BitVec 8)) (bound : va < 2 ^ 32) (enough : bytes.length ≤ fuel)
    (fits : va + bytes.length ≤ sz ∨ va / pgSize = 2 ^ 20 - 1) :
    ∃ done final, copyout d fuel m va bytes = .ok (done, final) ∧
      (done = true → bytes ≠ [] → va + bytes.length ≤ sz) := by
  induction fuel generalizing m va bytes with
  | zero =>
    obtain rfl : bytes = [] := List.length_eq_zero_iff.mp (by omega)
    exact ⟨true, m, rfl, by simp⟩
  | succ fuel ih =>
    by_cases empty : bytes = []
    · exact ⟨true, m, by rw [empty, copyout], fun _ some => absurd empty some⟩
    have some : 0 < bytes.length := List.length_pos_iff.mpr empty
    have isMapped : mapped (entry m d (va / pgSize)) = true := by
      rcases fits with below | last
      · apply building.pages
        unfold pagesBelow pgSize
        omega
      · rw [last]
        exact building.kernel
    by_cases accessible : Accessible m d (va / pgSize)
    · have low := building.owned.accessible_lt building.live (page_of_address bound) accessible
      have mine := building.owned.user d _ building.live low isMapped
      have below := fits.resolve_right (by unfold userPages at low; omega)
      rw [copyout_round fuel empty low accessible]
      rcases Nat.lt_or_ge (pgSize - va % pgSize) bytes.length with more | all
      · -- the rest begins at the next page
        have inPage : va % pgSize < pgSize := Nat.mod_lt _ (by decide)
        rw [Nat.min_eq_left more.le]
        obtain ⟨done, final, copied, -⟩ := ih (building.setBytes mine (va % pgSize)
          (bytes.take (pgSize - va % pgSize))) _ (bytes.drop (pgSize - va % pgSize)) (nextPage_eq low).2
          (by rw [List.length_drop]; omega) (.inl (by rw [List.length_drop]; omega))
        exact ⟨done, final, copied, fun _ _ => below⟩
      · rw [Nat.min_eq_right all, List.drop_length]
        exact ⟨true, _, by rw [copyout], fun _ _ => below⟩
    · obtain ⟨pte, found, -⟩ := exists_pteAt isMapped
      exact ⟨false, m, copyout_refused fuel empty bound found accessible, by simp⟩

/-- Pushing the arguments returns if their bytes fit below the size: the stack pointer wraps at most
by the padding of the strings, and then onto the last page of the kernel half. -/
theorem Building.pushes (argv : List (List (BitVec 8)))
    (building : Building image m₀ own₀ d sz m own) (sp used : Nat) (ustack : List Nat)
    (high : sp ≤ sz) (low : sz ≤ sp + used + 4 * ustack.length) (few : ustack.length ≤ maxArg)
    (total : used + (argv.map List.length).sum < sz) :
    ∃ pushed final, pushArgs d argv m sp ustack = .ok (pushed, final) ∧
      ∀ pair, pushed = some pair → pair.1 ≤ sz ∧ pair.2.length ≤ maxArg := by
  induction argv generalizing m sp used ustack with
  | nil => exact ⟨some (sp, ustack), m, rfl, by rintro _ ⟨⟩; exact ⟨high, few⟩⟩
  | cons arg rest ih =>
    rw [pushArgs]
    split
    · exact ⟨none, m, rfl, by simp⟩
    · rename_i room
      simp only [List.map_cons, List.sum_cons] at total
      have top := building.top
      unfold kernBase at top
      unfold maxArg at few room
      generalize pushed : (sp + 2 ^ 32 - (arg.length + 1) % 2 ^ 32) % 2 ^ 32 / 4 * 4 = sp'
      have bound : sp' < 2 ^ 32 := by omega
      have place : sp' + (arg ++ [0]).length ≤ sz ∨ sp' / pgSize = 2 ^ 20 - 1 := by
        simp only [List.length_append, List.length_cons, List.length_nil]
        unfold pgSize
        omega
      obtain ⟨done, m₁, copied, below⟩ := building.copies (arg.length + 1) sp' (arg ++ [0])
        bound (by simp) place
      have written := building.copy _ bound copied
      simp only [copied, ok_bind]
      cases done with
      | false => exact ⟨none, m₁, rfl, by simp⟩
      | true =>
        have inside := below rfl (by simp)
        simp only [List.length_append, List.length_cons, List.length_nil] at inside
        simp only [↓reduceIte]
        apply ih written sp' (used + arg.length)
        · omega
        · simp only [List.length_append, List.length_cons, List.length_nil]
          omega
        · simp only [List.length_append, List.length_cons, List.length_nil]
          unfold maxArg
          omega
        · omega

/-- `allocuvm` extends the construction, or fails and leaves it as it was, in the same way for every
queue that has no business with the new page table. -/
theorem Building.grow (building : Building image m₀ own₀ d sz m own) (newsz : Nat) :
    ∃ size final own', (∀ ops : ClockOps σ,
        (size = 0 → QuietOn ops m₀.queue final d 0 userPages) →
        allocuvm image ops m d sz newsz = .ok (size, final)) ∧
      ((size = 0 ∧ Building image m₀ own₀ d sz final own') ∨
        (size ≠ 0 ∧ size = max sz newsz ∧ Building image m₀ own₀ d size final own')) := by
  by_cases high : kernBase ≤ newsz
  · refine ⟨0, m, own, fun ops _ => ?_, .inl ⟨rfl, building⟩⟩
    rw [allocuvm, if_pos high]
  · by_cases order : newsz < sz
    · refine ⟨sz, m, own, fun ops _ => ?_, .inr ⟨by omega, by omega, building⟩⟩
      rw [allocuvm, if_neg high, if_pos order]
    · have top : newsz < kernBase := by omega
      have user : pagesBelow newsz ≤ userPages := by
        unfold kernBase at top
        unfold pagesBelow userPages
        omega
      have inside : ∀ v, v < pagesBelow newsz → v < 2 ^ 20 := fun v bound => page_lt (by omega)
      obtain ⟨done, final, own', grown, change, kind, queue, outcome, -⟩ := allocuvm_uniform
        building.owned building.live top
        (fun v lower upper => building.vacant v lower (by omega)) (by omega)
      have apart := building.apart.trans change.apart
      have kind' := kind.trans building.kind
      have queue' := queue.trans building.queue
      have kernel : mapped (entry final d (2 ^ 20 - 1)) = true := by
        rw [change.entries _ (by decide) (.inr (by unfold userPages at user; omega))]
        exact building.kernel
      refine ⟨if done then newsz else 0, final, own', ?_, ?_⟩
      · intro ops quiet
        apply grown ops
        intro failed v pte lower upper found
        rw [building.queue]
        exact quiet (by simp [failed]) v pte (Nat.zero_le v) (by omega) found
      · rcases outcome with ⟨rfl, blank⟩ | ⟨rfl, cleared⟩
        · have larger : Building image m₀ own₀ d newsz final own' := by
            refine ⟨change.owned, change.live, apart, kind', queue', by omega, ?_, ?_, kernel⟩
            · intro v bound
              by_cases old : v < pagesBelow sz
              · rw [change.entries v (inside v bound) (.inl old)]
                exact building.pages v old
              · obtain ⟨f, -, shape, -⟩ := blank v (by omega) bound
                rw [shape]
                exact mapped_mappedEntry f _
            · intro v lower upper
              rw [change.entries v (page_lt upper) (.inr lower)]
              refine building.vacant v ?_ upper
              unfold pagesBelow at lower ⊢
              omega
          by_cases zero : newsz = 0
          · obtain rfl : sz = newsz := by omega
            exact .inl ⟨by simp [zero], larger⟩
          · exact .inr ⟨by simpa using zero, by simp; omega, by simpa using larger⟩
        · refine .inl ⟨by simp, change.owned, change.live, apart, kind', queue', building.top, ?_,
            ?_, kernel⟩
          · intro v bound
            have old := (building.page bound).1
            rw [change.entries v (page_lt old) (.inl bound)]
            exact building.pages v bound
          · intro v lower upper
            by_cases tried : v < pagesBelow newsz
            · exact cleared v lower tried
            · rw [change.entries v (page_lt upper) (.inr (by omega))]
              exact building.vacant v lower upper

/-- The address that the segments of a file reach, if their headers can be read. -/
def segmentsEnd (file : List (BitVec 8)) : Nat → (off sz : Nat) → Option Nat
  | 0, _, sz => some sz
  | rounds + 1, off, sz =>
    match readHeader file off progHdrSize with
    | none => none
    | some header =>
      let ph := progHdr header
      segmentsEnd file rounds ((off + progHdrSize) % 2 ^ 32)
        (if ph.type ≠ elfProgLoad then sz else max sz ((ph.vaddr + ph.memsz) % 2 ^ 32))

/-- The loop over the program headers extends the construction. -/
theorem Building.segments (file : List (BitVec 8)) (rounds off : Nat)
    (building : Building image m₀ own₀ d sz m own) :
    ∃ size final own' sz', (∀ ops : ClockOps σ,
        (size = none → QuietOn ops m₀.queue final d 0 userPages) →
        loadSegments image ops d file rounds m off sz = .ok (size, final)) ∧
      Building image m₀ own₀ d sz' final own' ∧
      ∀ found, size = some found → found = sz' ∧ segmentsEnd file rounds off sz = some found := by
  induction rounds generalizing m own sz off with
  | zero =>
    refine ⟨some sz, m, own, sz, fun _ _ => rfl, building, ?_⟩
    rintro found ⟨⟩
    exact ⟨rfl, rfl⟩
  | succ rounds ih =>
    simp only [loadSegments, segmentsEnd]
    cases readHeader file off progHdrSize with
    | none => exact ⟨none, m, own, sz, fun _ _ => rfl, building, by simp⟩
    | some header =>
      have small : (progHdr header).vaddr < 2 ^ 32 ∧ (progHdr header).memsz < 2 ^ 32 :=
        ⟨headerField_lt header 8 4, headerField_lt header 20 4⟩
      simp only
      generalize progHdr header = ph at small ⊢
      by_cases skip : ph.type ≠ elfProgLoad
      · simp only [if_pos skip]
        exact ih _ building
      · simp only [if_neg skip]
        by_cases enough : ph.memsz < ph.filesz
        · simp only [if_pos enough]
          exact ⟨none, m, own, sz, fun _ _ => rfl, building, by simp⟩
        · simp only [if_neg enough]
          by_cases wraps : (ph.vaddr + ph.memsz) % 2 ^ 32 < ph.vaddr
          · simp only [if_pos wraps]
            exact ⟨none, m, own, sz, fun _ _ => rfl, building, by simp⟩
          · simp only [if_neg wraps]
            obtain ⟨size, m₁, own₁, grown, outcome⟩ := building.grow
              ((ph.vaddr + ph.memsz) % 2 ^ 32)
            rcases outcome with ⟨rfl, kept⟩ | ⟨nonzero, reached, larger⟩
            · refine ⟨none, m₁, own₁, sz, fun ops quiet => ?_, kept, by simp⟩
              rw [grown ops fun _ => quiet rfl, ok_bind]
              rfl
            · have growing : ∀ ops : ClockOps σ, allocuvm image ops m d sz
                  ((ph.vaddr + ph.memsz) % 2 ^ 32) = .ok (size, m₁) :=
                fun ops => grown ops fun zero => absurd zero nonzero
              simp only [growing, ok_bind, nonzero, ↓reduceIte]
              by_cases aligned : ph.vaddr % pgSize ≠ 0
              · simp only [if_pos aligned]
                exact ⟨none, m₁, own₁, size, fun _ _ => rfl, larger, by simp⟩
              · have whole : (ph.vaddr + ph.memsz) % 2 ^ 32 = ph.vaddr + ph.memsz := by omega
                obtain ⟨done, m₂, loaded, written⟩ := larger.load file ph.off (n := ph.filesz)
                  (by simpa using aligned) (by omega)
                simp only [if_neg aligned, loaded, ok_bind, ← reached]
                cases done with
                | true => exact ih _ written
                | false => exact ⟨none, m₂, own₁, size, fun _ _ => rfl, written, by simp⟩

/-- The part of `exec` that works on the new stack: the guard page and the arguments. -/
def argumentStack (pgdir : Nat) (m : Mem σ) (sz : Nat) (argv : List (List (BitVec 8))) :
    Except Halt (Option (Nat × Nat) × Mem σ) := do
  let m ← clearpteu m pgdir ((sz + 2 ^ 32 - 2 * pgSize) % 2 ^ 32)
  let (pushed, m) ← pushArgs pgdir argv m sz []
  match pushed with
  | none => .ok (none, m)
  | some (sp, ustack) =>
    let argc := ustack.length
    let words := [0xFFFFFFFF, argc, (sp + 2 ^ 32 - (argc + 1) * 4) % 2 ^ 32] ++ ustack ++ [0]
    let sp := (sp + 2 ^ 32 - (3 + argc + 1) * 4) % 2 ^ 32
    let bytes := words.flatMap wordBytes
    let (done, m) ← copyout pgdir bytes.length m sp bytes
    if done then .ok (some (sz, sp), m) else .ok (none, m)

theorem setupStack_eq (ops : ClockOps σ) (pgdir : Nat) (m : Mem σ) (sz : Nat)
    (argv : List (List (BitVec 8))) :
    setupStack image ops pgdir m sz argv =
      (allocuvm image ops m pgdir (pgRoundUp sz) ((pgRoundUp sz + 2 * pgSize) % 2 ^ 32) >>=
        fun result => if result.1 = 0 then .ok (none, result.2)
          else argumentStack pgdir result.2 result.1 argv) :=
  rfl

theorem length_flatMap_wordBytes (words : List Nat) :
    (words.flatMap wordBytes).length = 4 * words.length := by
  induction words with
  | nil => rfl
  | cons word rest ih =>
    rw [List.flatMap_cons, List.length_append, ih]
    simp [wordBytes]
    omega

/-- The work on the stack of a construction: it writes into its pages only, and returns if the
arguments fit. -/
theorem Building.arguments (building : Building image m₀ own₀ d sz m own)
    (size : sz = (v + 2) * pgSize) (argv : List (List (BitVec 8))) :
    (∀ result final, argumentStack d m sz argv = .ok (result, final) →
      Building image m₀ own₀ d sz final own ∧ ∀ pair, result = some pair → pair.1 = sz) ∧
    ((argv.map List.length).sum < sz → ∃ reached, argumentStack d m sz argv = .ok reached) := by
  have bound := building.top
  have low : (sz + 2 ^ 32 - 2 * pgSize) % 2 ^ 32 = v * pgSize := by
    unfold pgSize kernBase at *
    omega
  obtain ⟨m₂, guarded, marked, -⟩ := building.guard (v := v) (by
    unfold pagesBelow pgSize at *
    omega)
  simp only [argumentStack, low, guarded, ok_bind]
  constructor
  · intro result final returned
    obtain ⟨⟨pushed, m₃⟩, pushing, returned⟩ := bind_eq_ok.mp returned
    have written := marked.push argv pushing
    cases pushed with
    | none =>
      cases returned
      exact ⟨written, by simp⟩
    | some pair =>
      obtain ⟨⟨done, m₄⟩, copied, returned⟩ := bind_eq_ok.mp returned
      have finished := written.copy _ (Nat.mod_lt _ (by decide)) copied
      cases done with
      | true =>
        cases returned
        exact ⟨finished, fun pair same => by rw [← Option.some.inj same]⟩
      | false =>
        cases returned
        exact ⟨finished, by simp⟩
  · intro fits
    obtain ⟨pushed, m₃, pushing, facts⟩ := marked.pushes argv sz 0 [] le_rfl
      (by simp) (by simp) (by simpa using fits)
    have written := marked.push argv pushing
    simp only [pushing, ok_bind]
    cases pushed with
    | none => exact ⟨_, rfl⟩
    | some pair =>
      obtain ⟨sp, ustack⟩ := pair
      obtain ⟨high, few⟩ := facts _ rfl
      simp only at high few
      unfold maxArg at few
      have top : sz ≤ 2 ^ 31 := by
        unfold kernBase at bound
        omega
      obtain ⟨done, m₄, copied, -⟩ := written.copies _
        ((sp + 2 ^ 32 - (3 + ustack.length + 1) * 4) % 2 ^ 32)
        (([0xFFFFFFFF, ustack.length, (sp + 2 ^ 32 - (ustack.length + 1) * 4) % 2 ^ 32] ++
          ustack ++ [0]).flatMap wordBytes) (Nat.mod_lt _ (by decide)) le_rfl (by
            rw [length_flatMap_wordBytes]
            simp only [List.length_append, List.length_cons, List.length_nil]
            unfold pgSize
            omega)
      simp only [copied, ok_bind]
      cases done with
      | true => exact ⟨_, rfl⟩
      | false => exact ⟨_, rfl⟩

/-- The stack of the new image, made in the same way for every queue that has no business with the
new page table. -/
theorem Building.stack (building : Building image m₀ own₀ d sz m own)
    (argv : List (List (BitVec 8))) :
    ∃ outcome, (∀ ops : ClockOps σ,
        (∀ final, outcome = .ok (none, final) → QuietOn ops m₀.queue final d 0 userPages) →
        setupStack image ops d m sz argv = outcome) ∧
      (∀ result final, outcome = .ok (result, final) → ∃ own' sz',
        Building image m₀ own₀ d sz' final own' ∧ ∀ pair, result = some pair → pair.1 = sz') ∧
      ((argv.map List.length).sum < pgRoundUp sz + 2 * pgSize → ∃ reached, outcome = .ok reached) := by
  have top := building.top
  have round : pgRoundUp sz = pagesBelow sz * pgSize := pgRoundUp_eq top
  have same : pagesBelow (pagesBelow sz * pgSize) = pagesBelow sz := by
    unfold pagesBelow pgSize
    omega
  have rounded : Building image m₀ own₀ d (pagesBelow sz * pgSize) m own := by
    refine ⟨building.owned, building.live, building.apart, building.kind, building.queue, ?_, ?_, ?_,
      building.kernel⟩
    · unfold pagesBelow pgSize kernBase at *
      omega
    · rw [same]
      exact building.pages
    · rw [same]
      exact building.vacant
  have limit := rounded.top
  have whole : (pagesBelow sz * pgSize + 2 * pgSize) % 2 ^ 32 =
      (pagesBelow sz + 2) * pgSize := by
    unfold pgSize kernBase at *
    omega
  simp only [setupStack_eq, round, whole]
  obtain ⟨size, m₁, own₁, grown, outcome⟩ := rounded.grow ((pagesBelow sz + 2) * pgSize)
  rcases outcome with ⟨rfl, kept⟩ | ⟨nonzero, exact, larger⟩
  · refine ⟨.ok (none, m₁), fun ops quiet => ?_, ?_, fun _ => ⟨_, rfl⟩⟩
    · rw [grown ops fun _ => quiet m₁ rfl, ok_bind]
      rfl
    · rintro result final ⟨⟩
      exact ⟨own₁, _, kept, by simp⟩
  · have larger' : size = (pagesBelow sz + 2) * pgSize := by
      unfold pgSize at *
      omega
    obtain ⟨kept, returns⟩ := larger.arguments larger' argv
    refine ⟨argumentStack d m₁ size argv, fun ops _ => ?_, ?_, fun fits => returns ?_⟩
    · rw [grown ops fun zero => absurd zero nonzero, ok_bind]
      exact if_neg nonzero
    · intro result final returned
      obtain ⟨finished, pair⟩ := kept result final returned
      exact ⟨own₁, size, finished, pair⟩
    · unfold pgSize at *
      omega

end Build

/-! ## The new address space -/

/-- `exec` up to the point where it commits to the new image or jumps to the label `bad`: the new
directory if it has been made, the program if it could be loaded, and memory. -/
def newSpace (image : Image) (ops : ClockOps σ) (m : Mem σ) (file : List (BitVec 8))
    (argv : List (List (BitVec 8))) : Except Halt (Option Nat × Option Loaded × Mem σ) :=
  match readHeader file 0 elfHdrSize with
  | none => .ok (none, none, m)
  | some header =>
    if (elfHdr header).magic ≠ elfMagic then .ok (none, none, m)
    else do
      let (pgdir, m) ← setupkvm image ops m
      match pgdir with
      | none => .ok (none, none, m)
      | some pgdir =>
        let (sz, m) ← loadSegments image ops pgdir file (elfHdr header).phnum m
          (elfHdr header).phoff 0
        match sz with
        | none => .ok (some pgdir, none, m)
        | some sz => do
          let (stack, m) ← setupStack image ops pgdir m sz argv
          .ok (some pgdir, stack.map fun pair => ⟨pgdir, pair.1, pair.2, (elfHdr header).entry⟩, m)

/-- The label `bad`: the new address space is freed, if there is one. -/
def discard (image : Image) (ops : ClockOps σ) :
    Option Nat × Option Loaded × Mem σ → Except Halt (Option Loaded × Mem σ)
  | (some pgdir, none, m) => do
    let m ← freevm image ops m pgdir
    .ok (none, m)
  | (_, loaded, m) => .ok (loaded, m)

/-- `exec` builds the new address space, and discards it if it cannot load the program. -/
theorem loadImage_eq (ops : ClockOps σ) (m : Mem σ) (file : List (BitVec 8))
    (argv : List (List (BitVec 8))) :
    loadImage image ops m file argv = newSpace image ops m file argv >>= discard image ops := by
  rw [loadImage, newSpace]
  cases readHeader file 0 elfHdrSize with
  | none => rfl
  | some header =>
    simp only
    split
    · rfl
    · cases setupkvm image ops m with
      | error stop => rfl
      | ok made =>
        obtain ⟨_ | pgdir, m₁⟩ := made
        · rfl
        · simp only [ok_bind]
          cases loadSegments image ops pgdir file (elfHdr header).phnum m₁ (elfHdr header).phoff 0 with
          | error stop => rfl
          | ok reached =>
            obtain ⟨_ | sz, m₂⟩ := reached
            · rfl
            · simp only [ok_bind]
              cases setupStack image ops pgdir m₂ sz argv with
              | error stop => rfl
              | ok stacked =>
                obtain ⟨_ | pair, m₃⟩ := stacked
                · rfl
                · rfl

/-- The size of the image that `exec` makes of a file, with its two pages for the stack. -/
def imageSize (file : List (BitVec 8)) : Option Nat :=
  (readHeader file 0 elfHdrSize).bind fun header =>
    (segmentsEnd file (elfHdr header).phnum (elfHdr header).phoff 0).map fun sz =>
      pgRoundUp sz + 2 * pgSize

theorem kmap_covers_last (image : Image) : InKmap (2 ^ 20 - 1) (kmap image) :=
  ⟨⟨devSpace, devSpace, 0, pteW⟩, by simp [kmap], 0xFE000, 0x2000, by decide, by decide, by decide,
    by decide⟩

/-- The new address space is made in the same way for every queue that has no business with it. -/
theorem newSpace_spec (owned : Owned image m own) (file : List (BitVec 8))
    (argv : List (List (BitVec 8))) :
    ∃ outcome, (∀ ops : ClockOps σ,
        (∀ d final, outcome = .ok (some d, none, final) →
          QuietOn ops m.queue final d 0 userPages) →
        newSpace image ops m file argv = outcome) ∧
      (∀ loaded final, outcome = .ok (none, loaded, final) → loaded = none ∧ ∃ own',
        Owned image final own' ∧ (∀ e, Apart e m own final own') ∧ final.queue = m.queue ∧
          kinds own' = kinds own) ∧
      (∀ d loaded final, outcome = .ok (some d, loaded, final) → own d = .free ∧ ∃ own' sz,
        Building image m own d sz final own' ∧
          ∀ program, loaded = some program → program.pgdir = d ∧ program.sz = sz) ∧
      ((∀ size, imageSize file = some size → (argv.map List.length).sum < size) →
        ∃ reached, outcome = .ok reached) := by
  simp only [newSpace, imageSize]
  cases readHeader file 0 elfHdrSize with
  | none =>
    refine ⟨.ok (none, none, m), fun _ _ => rfl, ?_, by simp, fun _ => ⟨_, rfl⟩⟩
    rintro loaded final ⟨⟩
    exact ⟨rfl, own, owned, fun e => .refl e m own, rfl, rfl⟩
  | some header =>
    simp only [Option.bind_some]
    by_cases foreign : (elfHdr header).magic ≠ elfMagic
    · simp only [if_pos foreign]
      refine ⟨.ok (none, none, m), fun _ _ => rfl, ?_, by simp, fun _ => ⟨_, rfl⟩⟩
      rintro loaded final ⟨⟩
      exact ⟨rfl, own, owned, fun e => .refl e m own, rfl, rfl⟩
    · simp only [if_neg foreign]
      obtain ⟨made, m₁, own₁, setup, owned₁, apart, queue, outcome, -⟩ := setupkvm_spec owned
      simp only [setup, ok_bind]
      rcases outcome with ⟨d, rfl, fresh, live, kind, empty, covered⟩ | ⟨rfl, kind⟩
      · have start : Building image m own d 0 m₁ own₁ :=
          ⟨owned₁, live, apart d, kind, queue, by omega, by simp [pagesBelow],
            fun v _ upper => empty v upper, covered _ (kmap_covers_last image)⟩
        obtain ⟨size, m₂, own₂, sz, segments, building, reached⟩ := start.segments file
          (elfHdr header).phnum (elfHdr header).phoff
        cases size with
        | none =>
          refine ⟨.ok (some d, none, m₂), fun ops quiet => ?_, by simp, ?_, fun _ => ⟨_, rfl⟩⟩
          · simp only [segments ops fun _ => quiet d m₂ rfl, ok_bind]
          · rintro d' loaded final ⟨⟩
            exact ⟨fresh, own₂, sz, building, by simp⟩
        | some size =>
          obtain ⟨rfl, ends⟩ := reached size rfl
          have loading : ∀ ops : ClockOps σ, loadSegments image ops d file (elfHdr header).phnum m₁
              (elfHdr header).phoff 0 = .ok (some size, m₂) :=
            fun ops => segments ops (by simp)
          obtain ⟨stacked, uniform, kept, returns⟩ := building.stack argv
          simp only [loading, ok_bind, ends, Option.map_some, Option.some.injEq,
            forall_eq']
          refine ⟨stacked >>= fun result => .ok (some d, result.1.map fun pair =>
            ⟨d, pair.1, pair.2, (elfHdr header).entry⟩, result.2), fun ops quiet => ?_, ?_, ?_, ?_⟩
          · rw [uniform ops]
            rintro final rfl
            exact quiet d final rfl
          · intro loaded final returned
            obtain ⟨_, -, finished⟩ := bind_eq_ok.mp returned
            simp at finished
          · intro d' loaded final returned
            obtain ⟨⟨stack, m₃⟩, stacking, finished⟩ := bind_eq_ok.mp returned
            obtain ⟨own₃, sz', built, pairs⟩ := kept stack m₃ stacking
            simp only [Except.ok.injEq, Prod.mk.injEq, Option.some.injEq] at finished
            obtain ⟨rfl, rfl, rfl⟩ := finished
            refine ⟨fresh, own₃, sz', built, fun program same => ?_⟩
            obtain ⟨pair, found, rfl⟩ := Option.map_eq_some_iff.mp same
            exact ⟨rfl, pairs pair found⟩
          · intro fits
            obtain ⟨result, stacking⟩ := returns fits
            rw [stacking]
            exact ⟨_, rfl⟩
      · refine ⟨.ok (none, none, m₁), fun _ _ => rfl, ?_, by simp, fun _ => ⟨_, rfl⟩⟩
        rintro loaded final ⟨⟩
        exact ⟨rfl, own₁, owned₁, apart, queue, kind⟩

/-- The same queue without removals. -/
def ClockOps.steady (ops : ClockOps σ) : ClockOps σ :=
  { ops with remove := fun queue _ => .ok queue }

variable {argv : List (List (BitVec 8))}

/-- `exec` up to its commitment, with a queue that has no business with the new page table: if it
returns, it has freed everything again, or holds the new address space and has changed nothing else;
and it returns if the arguments fit. -/
theorem loadImage_outcome (ops : ClockOps σ) (owned : Owned image m own) {file : List (BitVec 8)}
    (quiet : ∀ d final, newSpace image ops.steady m file argv = .ok (some d, none, final) →
      QuietOn ops m.queue final d 0 userPages) :
    (∀ loaded final, loadImage image ops m file argv = .ok (loaded, final) →
      (loaded = none ∧ ∃ own', Owned image final own' ∧ (∀ e, Apart e m own final own') ∧
        final.queue = m.queue ∧ kinds own' = kinds own) ∨
      ∃ program own', loaded = some program ∧ own program.pgdir = .free ∧
        Building image m own program.pgdir program.sz final own') ∧
    ((∀ size, imageSize file = some size → (argv.map List.length).sum < size) →
      ∃ reached, loadImage image ops m file argv = .ok reached) := by
  obtain ⟨outcome, uniform, unmade, made, returns⟩ := newSpace_spec owned file argv
  have steady := uniform ops.steady fun _ _ _ _ _ _ _ _ => rfl
  rw [steady] at quiet
  rw [loadImage_eq, uniform ops quiet]
  -- the frames of a construction that is given up were free before
  have giveUp : ∀ d now, outcome = .ok (some d, none, now) → ∃ final own',
      freevm image ops now d = .ok final ∧ Owned image final own' ∧
        (∀ e, Apart e m own final own') ∧ final.queue = m.queue ∧ kinds own' = kinds own := by
    intro d now reached
    obtain ⟨fresh, own₁, sz, building, -⟩ := made d none now reached
    obtain ⟨final, own', freed, owned', apart, facts⟩ := freevm_undo ops fresh building.owned
      building.live building.apart building.kind building.queue (quiet d now reached)
    exact ⟨final, own', freed, owned', apart.all owned (by simp [fresh]), facts⟩
  constructor
  · intro loaded final returned
    obtain ⟨⟨directory, program, now⟩, reached, finished⟩ := bind_eq_ok.mp returned
    cases directory with
    | none =>
      cases finished
      exact .inl (unmade _ _ reached)
    | some d =>
      cases program with
      | none =>
        obtain ⟨freed, own', freeing, facts⟩ := giveUp d now reached
        rw [discard, freeing] at finished
        cases finished
        exact .inl ⟨rfl, own', facts⟩
      | some program =>
        cases finished
        obtain ⟨fresh, own', sz, building, same⟩ := made d _ _ reached
        obtain ⟨rfl, rfl⟩ := same program rfl
        exact .inr ⟨program, own', rfl, fresh, building⟩
  · intro fits
    obtain ⟨⟨directory, program, now⟩, reached⟩ := returns fits
    rw [reached, ok_bind]
    cases directory with
    | none => exact ⟨_, rfl⟩
    | some d =>
      cases program with
      | none =>
        obtain ⟨freed, _, freeing, -⟩ := giveUp d now reached
        rw [discard, freeing]
        exact ⟨_, rfl⟩
      | some program => exact ⟨_, rfl⟩

/-- `exec` up to its commitment, if it returns, with a queue that has no business with free frames:
it has freed everything again, or holds the new address space and has changed nothing else. -/
theorem loadImage_spec (ops : ClockOps σ) (owned : Owned image m own)
    (quiet : ∀ pte, own pte.frame = .free → ops.remove m.queue pte = .ok m.queue)
    {file : List (BitVec 8)} {loaded : Option Loaded}
    (returned : loadImage image ops m file argv = .ok (loaded, final)) :
    (loaded = none ∧ ∃ own', Owned image final own' ∧ (∀ e, Apart e m own final own') ∧
        final.queue = m.queue ∧ kinds own' = kinds own) ∨
      ∃ program own', loaded = some program ∧ own program.pgdir = .free ∧
        Building image m own program.pgdir program.sz final own' := by
  refine (loadImage_outcome ops owned fun d now reached => ?_).1 loaded final returned
  obtain ⟨outcome, uniform, -, made, -⟩ := newSpace_spec owned file argv
  rw [uniform ops.steady fun _ _ _ _ _ _ _ _ => rfl] at reached
  obtain ⟨fresh, own', sz, building, -⟩ := made d none now reached
  exact building.apart.quietOn ops owned fresh quiet building.owned building.live building.kind

/-! ## Loads that succeed -/

section Steady

variable {ops : ClockOps σ} {d : Nat}

/-- An allocation that succeeds removes nothing from the queue. -/
theorem allocuvmLoop_steady {oldsz newsz : Nat} (rounds : Nat) {m : Mem σ} {a : Nat}
    (returned : allocuvmLoop image ops d oldsz newsz rounds m a = .ok (true, final)) :
    allocuvmLoop image ops.steady d oldsz newsz rounds m a = .ok (true, final) := by
  induction rounds generalizing m a with
  | zero => exact returned
  | succ rounds ih =>
    rw [allocuvmLoop] at returned ⊢
    rcases taken : kalloc m with ⟨_ | frame, m₁⟩
    · simp only [taken] at returned
      obtain ⟨_, -, finished⟩ := bind_eq_ok.mp returned
      simp at finished
    · simp only [taken] at returned ⊢
      obtain ⟨⟨done, m₂⟩, mapping, returned⟩ := bind_eq_ok.mp returned
      simp only [mapping, ok_bind]
      cases done with
      | true => exact ih returned
      | false =>
        obtain ⟨_, -, returned⟩ := bind_eq_ok.mp returned
        obtain ⟨_, -, finished⟩ := bind_eq_ok.mp returned
        simp at finished

variable {sz : Nat}

theorem allocuvm_steady {m : Mem σ} {oldsz newsz : Nat}
    (returned : allocuvm image ops m d oldsz newsz = .ok (sz, final)) (done : sz ≠ 0) :
    allocuvm image ops.steady m d oldsz newsz = .ok (sz, final) := by
  rw [allocuvm] at returned ⊢
  split at returned
  · rwa [if_pos ‹_›]
  split at returned
  · rwa [if_neg ‹_›, if_pos ‹_›]
  rw [if_neg ‹_›, if_neg ‹_›]
  obtain ⟨⟨all, m₁⟩, looped, returned⟩ := bind_eq_ok.mp returned
  cases all with
  | true => rwa [allocuvmLoop_steady _ looped]
  | false =>
    simp only [Bool.false_eq_true, ↓reduceIte, Except.ok.injEq, Prod.mk.injEq] at returned
    exact absurd returned.1.symm done

theorem setupkvmLoop_steady {made : Nat} (rows : List Kmap) {m : Mem σ}
    (returned : setupkvmLoop image ops d rows m = .ok (some made, final)) :
    setupkvmLoop image ops.steady d rows m = .ok (some made, final) := by
  induction rows generalizing m with
  | nil => exact returned
  | cons row rest ih =>
    rw [setupkvmLoop] at returned ⊢
    obtain ⟨⟨done, m₁⟩, mapping, returned⟩ := bind_eq_ok.mp returned
    simp only [mapping, ok_bind]
    cases done with
    | true => exact ih returned
    | false =>
      obtain ⟨_, -, finished⟩ := bind_eq_ok.mp returned
      simp at finished

theorem setupkvm_steady {made : Nat} {m : Mem σ}
    (returned : setupkvm image ops m = .ok (some made, final)) :
    setupkvm image ops.steady m = .ok (some made, final) := by
  rw [setupkvm] at returned ⊢
  rcases taken : kalloc m with ⟨_ | d, m₁⟩
  · simp [taken] at returned
  · simp only [taken] at returned ⊢
    exact setupkvmLoop_steady (kmap image) returned

theorem loadSegments_steady {file : List (BitVec 8)} (rounds : Nat) {m : Mem σ} {off size : Nat}
    (returned : loadSegments image ops d file rounds m off sz = .ok (some size, final)) :
    loadSegments image ops.steady d file rounds m off sz = .ok (some size, final) := by
  induction rounds generalizing m off sz with
  | zero => exact returned
  | succ rounds ih =>
    rw [loadSegments] at returned ⊢
    cases read : readHeader file off progHdrSize with
    | none => simp [read] at returned
    | some header =>
      simp only [read] at returned ⊢
      split at returned
      · rw [if_pos ‹_›]
        exact ih returned
      rw [if_neg ‹_›]
      split at returned
      · simp at returned
      rw [if_neg ‹_›]
      split at returned
      · simp at returned
      rw [if_neg ‹_›]
      obtain ⟨⟨sz₁, m₁⟩, grown, returned⟩ := bind_eq_ok.mp returned
      simp only at returned
      split at returned
      · simp at returned
      · rename_i nonzero
        rw [allocuvm_steady grown nonzero]
        simp only [ok_bind, if_neg nonzero]
        split at returned
        · simp at returned
        rw [if_neg ‹_›]
        obtain ⟨⟨done, m₂⟩, loaded, returned⟩ := bind_eq_ok.mp returned
        simp only [loaded, ok_bind]
        cases done with
        | true => exact ih returned
        | false => simp at returned

theorem setupStack_steady {m : Mem σ} {stack : Nat × Nat}
    (returned : setupStack image ops d m sz argv = .ok (some stack, final)) :
    setupStack image ops.steady d m sz argv = .ok (some stack, final) := by
  rw [setupStack] at returned ⊢
  obtain ⟨⟨sz₁, m₁⟩, grown, returned⟩ := bind_eq_ok.mp returned
  simp only at returned
  split at returned
  · simp at returned
  · rename_i nonzero
    rw [allocuvm_steady grown nonzero]
    simp only [ok_bind, if_neg nonzero]
    exact returned

theorem loadImage_steady {file : List (BitVec 8)} {program : Loaded} {m : Mem σ}
    (returned : loadImage image ops m file argv = .ok (some program, final)) :
    loadImage image ops.steady m file argv = .ok (some program, final) := by
  rw [loadImage] at returned ⊢
  cases read : readHeader file 0 elfHdrSize with
  | none => simp [read] at returned
  | some header =>
    simp only [read] at returned ⊢
    split at returned
    · simp at returned
    rw [if_neg ‹_›]
    obtain ⟨⟨made, m₁⟩, setup, returned⟩ := bind_eq_ok.mp returned
    cases made with
    | none => simp at returned
    | some d =>
      rw [setupkvm_steady setup]
      simp only [ok_bind] at returned ⊢
      obtain ⟨⟨size, m₂⟩, segments, returned⟩ := bind_eq_ok.mp returned
      cases size with
      | none =>
        simp only at returned
        obtain ⟨_, -, finished⟩ := bind_eq_ok.mp returned
        simp at finished
      | some size =>
        rw [loadSegments_steady _ segments]
        simp only [ok_bind] at returned ⊢
        obtain ⟨⟨stack, m₃⟩, stacked, returned⟩ := bind_eq_ok.mp returned
        cases stack with
        | none =>
          obtain ⟨_, -, finished⟩ := bind_eq_ok.mp returned
          simp at finished
        | some stack =>
          rw [setupStack_steady stacked]
          exact returned

end Steady

/-- The last loop of `exec` hides every page of the new image. -/
theorem encryptAll_spec {d : Nat} (rounds v : Nat) (owned : Owned image m own)
    (live : own d = .dir) (bound : v + rounds ≤ userPages)
    (pages : ∀ v', v ≤ v' → v' < v + rounds → mapped (entry m d v') = true) :
    ∃ final, encryptAll d rounds m (v * pgSize) = .ok final ∧ Recoded image own m final ∧
      Preserved own m final ∧ final.queue = m.queue ∧ SealedIn own d m final ∧
      ∀ v', v ≤ v' → v' < v + rounds → ¬ Exposed final d v' := by
  induction rounds generalizing m v with
  | zero =>
    exact ⟨m, rfl, .refl owned, .refl own m, rfl, .refl own d m, fun v' _ _ => by omega⟩
  | succ rounds ih =>
    have address : v * pgSize < kernBase := by
      unfold userPages at bound
      unfold pgSize kernBase
      omega
    have page : v * pgSize / pgSize = v := Nat.mul_div_cancel v (by decide)
    obtain ⟨done, m₁, encrypted, recoded, preserved, queue, sealing, outcome⟩ :=
      mencrypt_one owned live address (by rw [page]; exact pages v (by omega) (by omega))
    rw [page] at outcome
    have next : v * pgSize + pgSize = (v + 1) * pgSize := by
      unfold pgSize
      omega
    obtain ⟨final, looped, recoded', preserved', queue', sealing', hidden⟩ := ih (v + 1)
      recoded.owned (by omega) (fun v' lower upper => by
        rw [recoded.maps d v' live (by omega)]
        exact pages v' (by omega) (by omega))
    refine ⟨final, ?_, recoded.trans recoded', preserved.trans preserved', queue'.trans queue,
      sealing.trans sealing', fun v' lower upper exposed => ?_⟩
    · rw [encryptAll, encrypted, next]
      exact looped
    · by_cases first : v' = v
      · subst first
        obtain ⟨-, plain, user⟩ := sealing'.hides d v' live (page_lt (by omega)) exposed
        rcases outcome with closed | guarded
        · rw [plain] at closed
          simp at closed
        · rw [user] at guarded
          simp at guarded
      · exact hidden v' (by omega) (by omega) exposed

end MemoryEncryption
