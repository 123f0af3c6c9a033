import MemoryEncryption.Verif.Frames

/-!
# A machine with one process

The smallest machine on which results about runs have something to say: one process
with a page table, some pages at its beginning, and a list of free frames. What the
pages hold and how they are flagged, the free frames and the queue are parameters.
-/

namespace MemoryEncryption

variable {σ : Type}

/-- A kernel that ends at page 400. -/
def sampleImage : Image where
  dataPage := 300
  endPage := 400
  data_above := by decide
  end_above := by decide
  end_below := by decide

/-- The parameters of a machine with one process. -/
structure Setup (σ : Type) where
  /-- The number of pages of the process. -/
  pages : Nat
  /-- The flags of each page. -/
  flags : Nat → Word
  /-- The words of each page. -/
  contents : Nat → Nat → Word
  /-- The free frames. -/
  free : List Nat
  /-- The clock queue. -/
  queue : σ
  /-- The pages are not many. -/
  few : pages ≤ 64 := by decide
  /-- Flags are flags. -/
  small : ∀ v < pages, (flags v).toNat < 4096 := by decide
  /-- All pages are mapped. -/
  isMapped : ∀ v < pages, mapped (flags v) = true := by decide
  /-- No free frame is listed twice. -/
  nodup : free.Nodup := by decide
  /-- Free frames lie above the ones in use. -/
  inside : ∀ f ∈ free, 500 ≤ f ∧ f < physTop / pgSize := by decide

variable {f d v : Nat}

namespace Setup

/-- Frame 400 is `kpgdir`, 401 the directory, 402 the page table and 403 the kernel stack of the
process; its pages follow. -/
def mem (setup : Setup σ) : Mem σ where
  word f i :=
    if f = 401 then (if i = 0 then makePte 402 (pteP ||| pteW ||| pteU) else 0)
    else if f = 402 then (if i < setup.pages then makePte (404 + i) (setup.flags i) else 0)
    else if 404 ≤ f ∧ f < 404 + setup.pages then setup.contents (f - 404) i
    else 0
  freelist := setup.free
  oom := []
  marks := []
  queue := setup.queue

/-- The owners of the frames. -/
def own (setup : Setup σ) (f : Nat) : Owner :=
  if f = 400 ∨ f = 401 then .dir
  else if f = 402 then .table 401 0
  else if f = 403 then .kstack 0
  else if 404 ≤ f ∧ f < 404 + setup.pages then .user 401 (f - 404)
  else if f ∈ setup.free then .free
  else .outside

/-- The process is running, in slot 0; the other slots are free. -/
def machine (setup : Setup σ) : Machine σ where
  mem := setup.mem
  proc p :=
    if p = 0 then
      ⟨setup.pages * 4096, 401, 403, .running, 1, none, ⟨0, 0, 0⟩, false, [], setup.queue⟩
    else ⟨0, 0, 0, .unused, 0, none, ⟨0, 0, 0⟩, false, [], setup.queue⟩
  nextpid := 2
  initproc := 0
  kpgdir := 400
  pipes _ := none

variable (setup : Setup σ)

theorem own_dir : setup.own f = .dir ↔ f = 400 ∨ f = 401 := by
  unfold own
  split
  · simp [*]
  · rename_i other
    simp only [other, iff_false]
    repeat' split
    all_goals simp

theorem own_table {i : Nat} : setup.own f = .table d i ↔ f = 402 ∧ d = 401 ∧ i = 0 := by
  unfold own
  repeat' split
  all_goals simp only [reduceCtorEq, false_iff, Owner.table.injEq]
  all_goals omega

theorem own_user : setup.own f = .user d v ↔ d = 401 ∧ v < setup.pages ∧ f = 404 + v := by
  unfold own
  repeat' split
  all_goals simp only [reduceCtorEq, false_iff, Owner.user.injEq]
  all_goals omega

theorem own_kstack {p : Nat} : setup.own f = .kstack p ↔ f = 403 ∧ p = 0 := by
  unfold own
  repeat' split
  all_goals simp only [reduceCtorEq, false_iff, Owner.kstack.injEq]
  all_goals omega

theorem own_free : setup.own f = .free ↔ f ∈ setup.free := by
  have few := setup.few
  have low : f ∈ setup.free → 500 ≤ f := fun listed => (setup.inside f listed).1
  unfold own
  repeat' split
  all_goals simp only [reduceCtorEq, false_iff, true_iff]
  · exact fun listed => absurd (low listed) (by omega)
  · exact fun listed => absurd (low listed) (by omega)
  · exact fun listed => absurd (low listed) (by omega)
  · exact fun listed => absurd (low listed) (by omega)
  · assumption
  · assumption

theorem own_range (managed : setup.own f ≠ .outside) : 400 ≤ f ∧ f < physTop / pgSize := by
  have few := setup.few
  have inside := setup.inside f
  have high : 500 < physTop / pgSize := by decide
  by_cases listed : f ∈ setup.free
  · have := inside listed
    omega
  · unfold own at managed
    repeat' split at managed
    all_goals first | omega | simp at managed

theorem tableOf_eq (live : setup.own d = .dir) (i : Nat) :
    tableOf setup.mem d i = if d = 401 ∧ i = 0 then some 402 else none := by
  have leads : frameOf (makePte 402 (pteP ||| pteW ||| pteU)) = 402 := by decide
  have present : has (makePte 402 (pteP ||| pteW ||| pteU)) pteP = true := by decide
  rcases setup.own_dir.mp live with rfl | rfl
  · simp [tableOf, mem]
  · by_cases first : i = 0
    · simp [tableOf, mem, first, leads, present, -has_pteP]
    · simp [tableOf, mem, first]

theorem entry_eq (live : setup.own d = .dir) (v : Nat) :
    entry setup.mem d v =
      if d = 401 ∧ v < setup.pages then makePte (404 + v) (setup.flags v) else 0 := by
  have few := setup.few
  rw [entry, pteAt, setup.tableOf_eq live]
  by_cases first : d = 401 ∧ v / 1024 = 0
  · have small : v % 1024 = v := Nat.mod_eq_of_lt (by omega)
    simp [first, small, Mem.get, mem]
  · rw [if_neg first, if_neg (by omega)]
    rfl

theorem frameOf_page (bound : v < setup.pages) :
    frameOf (makePte (404 + v) (setup.flags v)) = 404 + v :=
  frameOf_makePte (by have := setup.few; omega) (setup.small v bound)

theorem mapped_page (bound : v < setup.pages) :
    mapped (makePte (404 + v) (setup.flags v)) = true := by
  rw [mapped_iff, makePte_flag _ _ (by omega), makePte_flag _ _ (by omega), ← mapped_iff]
  exact setup.isMapped v bound

theorem exactly (v : Nat) :
    mapped (entry setup.machine.mem (setup.machine.proc 0).pgdir v) = true ↔
      v < pagesBelow (setup.machine.proc 0).sz := by
  have size : pagesBelow (setup.machine.proc 0).sz = setup.pages := by
    change (setup.pages * 4096 + 4095) / 4096 = setup.pages
    omega
  change mapped (entry setup.mem 401 v) = true ↔ _
  rw [size, setup.entry_eq (setup.own_dir.mpr (.inr rfl))]
  by_cases bound : v < setup.pages
  · rw [if_pos ⟨rfl, bound⟩]
    exact iff_of_true (setup.mapped_page bound) bound
  · rw [if_neg (fun both => bound both.2)]
    simp [bound]

theorem owned : Owned sampleImage setup.mem setup.own where
  free f := setup.own_free.symm
  nodup := setup.nodup
  table d i f live bound found := by
    rw [setup.tableOf_eq live] at found
    split at found
    · rename_i here
      exact setup.own_table.mpr ⟨(Option.some.inj found).symm, here⟩
    · simp at found
  tableBack d i f label := by
    obtain ⟨rfl, rfl, rfl⟩ := setup.own_table.mp label
    have live := setup.own_dir.mpr (.inr rfl)
    exact ⟨live, by omega, by rw [setup.tableOf_eq live]; simp⟩
  user d v live bound isMapped := by
    rw [setup.entry_eq live] at isMapped ⊢
    split at isMapped
    · rename_i here
      rw [if_pos here, setup.frameOf_page here.2]
      exact setup.own_user.mpr ⟨here.1, here.2, rfl⟩
    · simp at isMapped
  userBack d v f label := by
    obtain ⟨rfl, bound, rfl⟩ := setup.own_user.mp label
    have live := setup.own_dir.mpr (.inr rfl)
    have few := setup.few
    rw [setup.entry_eq live, if_pos ⟨rfl, bound⟩]
    refine ⟨live, ?_, setup.mapped_page bound, setup.frameOf_page bound⟩
    unfold userPages
    omega
  zero d v live bound unmapped := by
    rw [setup.entry_eq live] at unmapped ⊢
    split at unmapped
    · rename_i here
      rw [setup.mapped_page here.2] at unmapped
      simp at unmapped
    · rename_i other
      rw [if_neg other]
  kernel d v live high bound := by
    have few := setup.few
    unfold userPages at high
    rw [setup.entry_eq live, if_neg (by omega)]
    simp
  range f managed := setup.own_range managed

theorem hasSpace_iff {p : Nat} : HasSpace setup.machine.proc p ↔ p = 0 := by
  by_cases first : p = 0
  · simp [HasSpace, machine, first, nproc]
  · simp [HasSpace, machine, first]

theorem sane : Sane sampleImage setup.machine setup.own := by
  have few := setup.few
  refine ⟨⟨fun f => ?_, ?_, ?_, fun f p => ?_, fun f => ?_, fun f => ?_⟩, setup.owned, ?_, ?_⟩
  · rw [kinds_dir, setup.own_dir]
    simp only [setup.hasSpace_iff]
    constructor
    · rintro (rfl | rfl)
      · exact .inl rfl
      · exact .inr ⟨0, rfl, rfl⟩
    · rintro (rfl | ⟨p, rfl, rfl⟩)
      · exact .inl rfl
      · exact .inr rfl
  · intro p q memberP memberQ _
    rw [setup.hasSpace_iff.mp memberP, setup.hasSpace_iff.mp memberQ]
  · intro p member
    rw [setup.hasSpace_iff.mp member]
    change 401 ≠ 400
    decide
  · rw [kinds_kstack, setup.own_kstack]
    by_cases first : p = 0
    · simp [machine, first, nproc, eq_comm]
    · simp [machine, first]
  · rw [kinds_pipe]
    simp only [machine, Option.isSome_none, Bool.false_eq_true, iff_false]
    unfold own
    repeat' split
    all_goals simp
  · simp only [kinds]
    unfold own
    repeat' split
    all_goals simp [Owner.kind]
  · intro v _
    change entry setup.mem 400 v = 0
    rw [setup.entry_eq (setup.own_dir.mpr (.inl rfl))]
    simp
  · intro p member
    obtain rfl := setup.hasSpace_iff.mp member
    change setup.pages * 4096 ≤ kernBase ∧ ∀ v, pagesBelow (setup.pages * 4096) ≤ v →
      v < userPages → entry setup.mem 401 v = 0
    unfold kernBase pagesBelow
    refine ⟨by omega, fun v lower _ => ?_⟩
    rw [setup.entry_eq (setup.own_dir.mpr (.inr rfl)), if_neg (by omega)]

end Setup

/-! ## Processes with a few pages -/

/-- A process of two pages, of which the second is encrypted. -/
def mixedPages : Setup Unit where
  pages := 2
  flags v := if v = 0 then pteP ||| pteW ||| pteU else pteE ||| pteW ||| pteU
  contents v _ := if v = 0 then 5 else ~~~7
  free := []
  queue := ()

/-- A process of one page that is marked both present and encrypted. -/
def doublyMarked : Setup Unit where
  pages := 1
  flags _ := pteP ||| pteE ||| pteW ||| pteU
  contents _ _ := 0
  free := []
  queue := ()

/-- A process with one page, and three free frames. -/
def scarceSetup : Setup Unit where
  pages := 1
  flags _ := pteP ||| pteW ||| pteU
  contents _ _ := 0
  free := [500, 501, 502]
  queue := ()

/-- A machine with one page, whose queue is given. -/
def onePage (queue : Queue PteAddr) : Setup (Queue PteAddr) where
  pages := 1
  flags _ := pteP ||| pteW ||| pteU
  contents _ _ := 0
  free := []
  queue := queue

/-- A process of two pages, with free frames to grow. -/
def twoPages : Setup (Queue PteAddr) where
  pages := 2
  flags _ := pteP ||| pteW ||| pteU
  contents _ _ := 0
  free := [500, 501, 502]
  queue := cqInit

/-- A process of one page with the given flags and queue. -/
def flaggedPage (flags : Word) (small : flags.toNat < 4096) (isMapped : mapped flags = true)
    (queue : Queue PteAddr) : Setup (Queue PteAddr) where
  pages := 1
  flags _ := flags
  contents _ _ := 0
  free := []
  queue := queue
  small _ _ := small
  isMapped _ _ := isMapped

/-- A process of nine pages that have all been referenced, the first eight of them in the queue. -/
def fullLap : Setup (Queue PteAddr) where
  pages := 9
  flags _ := pteP ||| pteW ||| pteU ||| pteA
  contents _ _ := 0
  free := []
  queue := ⟨fun i => ⟨0, i * 4096, some ⟨402, i⟩⟩, 7⟩

theorem manyFrames_inside : ∀ f ∈ List.range' 500 1100, 500 ≤ f ∧ f < physTop / pgSize := by
  intro f listed
  simp only [List.mem_range'_1] at listed
  unfold physTop pgSize
  omega

/-- A process with a page that is present and one that is encrypted, and 1100 free frames. -/
def twoKinds : Setup (Queue PteAddr) where
  pages := 2
  flags v := if v = 0 then pteP ||| pteW ||| pteU else pteE ||| pteW ||| pteU
  contents v _ := BitVec.ofNat 32 v
  free := List.range' 500 1100
  queue := cqInit
  nodup := List.nodup_range'
  inside := manyFrames_inside

/-- A process with one page, and one free frame. -/
def narrowSetup : Setup (Queue PteAddr) where
  pages := 1
  flags _ := pteE ||| pteW ||| pteU
  contents _ _ := 0
  free := [500]
  queue := cqInit

/-- Ten pages of zeros, of which the first and the last are encrypted. -/
def stalePages (queue : Queue PteAddr) : Setup (Queue PteAddr) where
  pages := 10
  flags v := if v = 0 ∨ v = 9 then pteE ||| pteW ||| pteU else pteP ||| pteW ||| pteU
  contents v _ := if v = 0 ∨ v = 9 then 0xFFFFFFFF else 0
  free := []
  queue := queue

/-- A process with one page, and 1100 free frames. -/
def roomySetup : Setup (Queue PteAddr) where
  pages := 1
  flags _ := pteE ||| pteW ||| pteU
  contents _ _ := 0
  free := List.range' 500 1100
  queue := cqInit
  nodup := List.nodup_range'
  inside := manyFrames_inside

end MemoryEncryption
