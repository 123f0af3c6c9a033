import MemoryEncryption.Verif.ExecOutcome
import MemoryEncryption.Verif.Reruns

/-!
# What `copyuvm` makes

`copyuvm` makes a child's address space in free frames: the kernel half as `setupkvm`
makes it, and for each page of the parent a frame with the same flags and the same
bytes, encrypted pages as they are. If it runs out of frames in between, it gives all
of them back. The way back calls `cq_remove` for the child's entries on the parent's
queue, which must not have pointers into frames that were free.
-/

namespace MemoryEncryption

variable {σ : Type} {image : Image} {m final : Mem σ} {own own' : Nat → Owner} {p d sz : Nat}

/-- The copy `d` of the pages below `sz` of the address space `p` in memory `m`. -/
structure CopyOf (image : Image) (ops : ClockOps σ) (m : Mem σ) (p sz : Nat) (final : Mem σ)
    (d : Nat) : Prop where
  /-- The directory was a free frame. -/
  fresh : d ∈ m.freelist
  /-- A page has the flags of the parent's page. -/
  flags : ∀ v < pagesBelow sz, pteFlags (entry final d v) = pteFlags (entry m p v)
  /-- Its frame was free and is not any more. -/
  frames : ∀ v < pagesBelow sz,
    frameOf (entry final d v) ∈ m.freelist ∧ frameOf (entry final d v) ∉ final.freelist
  /-- It is neither the directory nor a page table. -/
  apart : ∀ v < pagesBelow sz, frameOf (entry final d v) ≠ d ∧
    ∀ i < 1024, tableOf final d i ≠ some (frameOf (entry final d v))
  /-- Pages have different frames. -/
  distinct : ∀ v < pagesBelow sz, ∀ w < pagesBelow sz,
    frameOf (entry final d v) = frameOf (entry final d w) → v = w
  /-- A page has the bytes of the parent's page. -/
  bytes : ∀ v < pagesBelow sz,
    final.word (frameOf (entry final d v)) = m.word (frameOf (entry m p v))
  /-- There are no other user pages. -/
  vacant : ∀ v, pagesBelow sz ≤ v → v < userPages → entry final d v = 0
  /-- The kernel half is that of `setupkvm`. -/
  kernel : ∃ m₁, setupkvm image ops m = .ok (some d, m₁) ∧
    ∀ v, userPages ≤ v → v < 2 ^ 20 → entry final d v = entry m₁ d v

/-- The address space `p` is as it was: its entries, the contents of its pages, and the queue. -/
structure Unchanged (m : Mem σ) (p : Nat) (final : Mem σ) : Prop where
  /-- Entries are the same. -/
  entries : ∀ v < 2 ^ 20, entry final p v = entry m p v
  /-- Pages have the same bytes. -/
  bytes : ∀ v < userPages, mapped (entry m p v) = true →
    final.word (frameOf (entry m p v)) = m.word (frameOf (entry m p v))
  /-- The queue is the same. -/
  queue : final.queue = m.queue

/-- A page that has exactly one of the two flags is copied with its flags. -/
theorem pteFlags_copied {word : Word} (one : exactlyOne word = true) (f : Nat) :
    pteFlags (mappedEntry f (pteFlags word)) = pteFlags word := by
  have present : (!word.getLsbD 10) = word.getLsbD 0 := by
    rw [exactlyOne, has_pteP, has_pteE] at one
    revert one
    cases word.getLsbD 0 <;> cases word.getLsbD 10 <;> simp
  apply BitVec.eq_of_getLsbD_eq
  intro k _
  by_cases low : k < 12
  · have bit : (0xFFF : Word).getLsbD k = true := by
      revert k
      decide
    have ten : (0xFFF : Word).getLsbD 10 = true := by decide
    rw [pteFlags, pteFlags, BitVec.getLsbD_and, BitVec.getLsbD_and, bit, Bool.and_true,
      mappedEntry_flag _ _ low, BitVec.getLsbD_and, BitVec.getLsbD_and, bit, ten, Bool.and_true,
      Bool.and_true]
    split
    · rename_i zero
      rw [zero, present]
    · rfl
  · have bit : (0xFFF : Word).getLsbD k = false := by
      have high : (0xFFF : Word).toNat < 2 ^ k :=
        lt_of_lt_of_le (by decide) (Nat.pow_le_pow_right (by decide) (show 12 ≤ k by omega))
      rw [BitVec.getLsbD, Nat.testBit_lt_two_pow high]
    rw [pteFlags, pteFlags, BitVec.getLsbD_and, BitVec.getLsbD_and, bit, Bool.and_false,
      Bool.and_false]

theorem Apart.unchanged (apart : ∀ e, Apart e m own final own') (owned : Owned image m own)
    (live : own p = .dir) (queue : final.queue = m.queue) : Unchanged m p final := by
  obtain ⟨-, -, entries, contents⟩ := (apart (p + 1)).lookups owned live (by omega)
  exact ⟨entries, fun v user isMapped => (contents _ v (owned.user p v live user isMapped)).2, queue⟩

/-- No slot of the queue points into a frame that is free. -/
def Queue.OffList (queue : Queue PteAddr) (list : List Nat) : Prop :=
  ∀ i < clockSize, ∀ pte, (queue.slot i).pte = some pte → pte.frame ∉ list

theorem twoKinds_exactlyOne (v : Nat) (bound : v < 2) :
    exactlyOne (entry twoKinds.mem 401 v) = true := by
  rw [twoKinds.entry_eq (twoKinds.own_dir.mpr (.inr rfl)), if_pos ⟨rfl, bound⟩]
  have cases : v = 0 ∨ v = 1 := by omega
  rcases cases with rfl | rfl
  · decide
  · decide

/-- The state in which the first page of a child has been mapped. -/
theorem firstPage_mapped {ops : ClockOps σ} {m₁ m₂ : Mem σ} {f : Nat} {words : Nat → Word}
    {perm : Word} (owned : Owned image m own) (small : perm.toNat < 4096)
    (setup : setupkvm image ops m = .ok (some d, m₁)) (taken : kalloc m₁ = (some f, m₂))
    (mapping : mappages (m₂.setPage f words) d 0 pgSize f perm = .ok (true, final)) :
    own d = .free ∧ ∃ own', Owned image final own' ∧ own' d = .dir ∧
      mapped (entry final d 0) = true ∧ final.queue = m.queue ∧ Apart d m own final own' := by
  obtain ⟨made, m₁', own₁, setup', owned₁, apart, queue, outcome, -⟩ := setupkvm_spec owned
  rw [setup'] at setup
  obtain ⟨rfl, rfl⟩ := Prod.mk.inj (Except.ok.inj setup)
  obtain ⟨_, same, fresh, live, -, empty, -⟩ := outcome.resolve_right (by simp)
  cases same
  rcases owned₁.newPage live (show 0 < userPages by decide) (empty 0 (by decide)) words small with
    ⟨_, failed, -⟩ | ⟨frame, _, done, final', own₂, taken', -, mapping', step, queue₂, outcome, -⟩
  · simp [failed] at taken
  rw [taken'] at taken
  cases taken
  rw [Nat.zero_mul, mapping] at mapping'
  cases mapping'
  obtain ⟨-, -, shape, -⟩ := outcome.resolve_right (by simp)
  refine ⟨fresh, own₂, step.owned, step.live, ?_, queue₂.trans queue, (apart d).trans step.apart⟩
  rw [shape]
  exact mapped_mappedEntry _ _

/-- Where there is room, the first page of a child can be mapped. -/
theorem firstPage_maps (ops : ClockOps σ) (owned : Owned image m own) (calm : m.oom = [])
    (room : 1026 ≤ m.freelist.length) (words : Nat → Word) {perm : Word}
    (small : perm.toNat < 4096) :
    ∃ d m₁ f m₂ final, setupkvm image ops m = .ok (some d, m₁) ∧ kalloc m₁ = (some f, m₂) ∧
      mappages (m₂.setPage f words) d 0 pgSize f perm = .ok (true, final) := by
  obtain ⟨made, m₁, own₁, setup, owned₁, -, -, outcome, progress⟩ := setupkvm_spec owned
  obtain ⟨d, rfl, ample⟩ := progress 1 calm room
  obtain ⟨_, same, -, live, -, empty, -⟩ := outcome.resolve_right (by simp)
  cases same
  rcases owned₁.newPage live (show 0 < userPages by decide) (empty 0 (by decide)) words small with
    ⟨_, -, short⟩ | ⟨f, m₂, done, final, -, taken, -, mapping, -, -, -, maps⟩
  · exact absurd ample (short 0)
  obtain ⟨rfl, -⟩ := maps 0 ample
  rw [Nat.zero_mul] at mapping
  exact ⟨d, m₁, f, m₂, final, setup ops, taken, mapping⟩

/-- `copyuvm` of two pages stops where `freevm` does, if there is no frame for the second page. -/
theorem copyuvm_second (setup : Setup (Queue PteAddr)) (two : setup.pages = 2) {f : Nat}
    {m₁ m₂ m₃ : Mem (Queue PteAddr)} {halt : Halt}
    (made : setupkvm sampleImage clockOps setup.mem = .ok (some d, m₁))
    (taken : kalloc m₁ = (some f, m₂))
    (mapping : mappages (m₂.setPage f (setup.mem.word 404)) d 0 pgSize f
      (pteFlags (entry setup.mem 401 0)) = .ok (true, m₃))
    (out : kalloc m₃ = (none, m₃)) (stops : freevm sampleImage clockOps m₃ d = .error halt) :
    copyuvm sampleImage clockOps setup.mem 401 8192 = .error halt := by
  have live := setup.own_dir.mpr (.inr rfl)
  have address : ∀ v < 2, pteAt setup.mem 401 v = some ⟨402, v⟩ := by
    intro v bound
    have first : v / 1024 = 0 ∧ v % 1024 = v := by omega
    rw [pteAt, setup.tableOf_eq live, first.1, first.2, if_pos ⟨rfl, rfl⟩]
    rfl
  have isMapped : ∀ v < 2, mapped (entry setup.mem 401 v) = true := by
    intro v bound
    rw [setup.entry_eq live, if_pos ⟨rfl, by omega⟩]
    exact setup.mapped_page (by omega)
  have frame : frameOf (entry setup.mem 401 0) = 404 := by
    rw [setup.entry_eq live, if_pos ⟨rfl, by omega⟩]
    exact setup.frameOf_page (by omega)
  -- the parent's entries and its first page are where they were
  obtain ⟨fresh, own₃, -, -, -, -, apart₃⟩ := firstPage_mapped setup.owned (pteFlags_lt _) made taken
    mapping
  have different : 401 ≠ d := by
    rintro rfl
    rw [live] at fresh
    simp at fresh
  obtain ⟨_, m₁', own₁, made', -, apart₁, -⟩ := setupkvm_spec setup.owned
  rw [made', Except.ok.injEq, Prod.mk.injEq] at made
  obtain ⟨rfl, rfl⟩ := made
  obtain ⟨-, addresses₁, entries₁, contents₁⟩ := (apart₁ d).lookups setup.owned live different
  obtain ⟨-, addresses₃, entries₃, -⟩ := apart₃.lookups setup.owned live different
  have look : ∀ x : Mem (Queue PteAddr), (∀ v, pteAt x 401 v = pteAt setup.mem 401 v) →
      (∀ v < 2 ^ 20, entry x 401 v = entry setup.mem 401 v) → ∀ v < 2,
      (walkpgdir x 401 (v * pgSize) false).1 = some ⟨402, v⟩ ∧
        x.get ⟨402, v⟩ = entry setup.mem 401 v := by
    intro x addresses entries v bound
    have there : pteAt x 401 v = some ⟨402, v⟩ := by rw [addresses, address v bound]
    refine ⟨?_, ?_⟩
    · rw [walkpgdir_page x 401 (by omega), there]
    · rw [← entries v (by omega), entry, there]
      rfl
  obtain ⟨walk₁, value₁⟩ := look m₁' addresses₁ entries₁ 0 (by decide)
  obtain ⟨walk₃, value₃⟩ := look m₃ addresses₃ entries₃ 1 (by decide)
  have words : m₂.word 404 = setup.mem.word 404 := by
    have label := setup.owned.user 401 0 live (by decide) (isMapped 0 (by decide))
    rw [frame] at label
    rw [← (contents₁ 404 0 label).2]
    rcases kalloc_cases m₁' with ⟨oom, failed⟩ | ⟨oom, _, _, -, taken'⟩
    · simp [failed] at taken
    · rw [taken'] at taken
      rw [← (Prod.mk.inj taken).2]
  rw [Nat.zero_mul] at walk₁
  rw [Nat.one_mul, ← Nat.zero_add pgSize] at walk₃
  rw [copyuvm, made' clockOps, show pageCount 0 8192 = 0 + 1 + 1 by decide]
  simp only [Outcome.ok_bind]
  rw [copyuvmLoop, walk₁]
  simp only [value₁, isMapped 0 (by decide), Bool.not_true, Bool.false_eq_true, ↓reduceIte, taken,
    frame, words, mapping, Outcome.ok_bind]
  rw [copyuvmLoop, walk₃]
  simp only [value₃, isMapped 1 (by decide), Bool.not_true, Bool.false_eq_true, ↓reduceIte, out,
    stops]
  rfl

end MemoryEncryption
