import MemoryEncryption.Kernel.Memory
import MemoryEncryption.Library.Outcome

/-!
# Address spaces

The page table code of `vm.c`, and `readi` as far as `loaduvm` uses it. An address
space is named by the frame of its page directory. Loops over pages recurse on the
number of rounds the source makes; `deallocuvm`, which can skip a whole page table,
is given enough rounds for any range of the user half. `true` stands for a return
value of 0 and `false` for -1.
-/

namespace MemoryEncryption

variable {σ : Type}

/-- `walkpgdir`. The permissions of a new directory entry are those of the source. -/
def walkpgdir (m : Mem σ) (pgdir va : Nat) (alloc : Bool) : Option PteAddr × Mem σ :=
  let pde := m.word pgdir (pdx va)
  if has pde pteP then (some ⟨frameOf pde, ptx va⟩, m)
  else if alloc then
    match kalloc m with
    | (none, m) => (none, m)
    | (some pgtab, m) =>
      let m := m.setPage pgtab (fun _ => 0)
      (some ⟨pgtab, ptx va⟩, m.set ⟨pgdir, pdx va⟩ (makePte pgtab (pteP ||| pteW ||| pteU)))
  else (none, m)

/-- The entry `mappages` writes for a frame. -/
def mappedEntry (frame : Nat) (perm : Word) : Word :=
  if has perm pteE then (makePte frame (perm ||| pteE)) &&& ~~~pteP else makePte frame (perm ||| pteP)

/-- The loop of `mappages`: pages from `page` on get frames from `frame` on. -/
def mappagesLoop (pgdir : Nat) (perm : Word) :
    Nat → Mem σ → (page frame : Nat) → Except Halt (Bool × Mem σ)
  | 0, m, _, _ => .ok (true, m)
  | rounds + 1, m, page, frame =>
    match walkpgdir m pgdir (page * pgSize) true with
    | (none, m) => .ok (false, m)
    | (some pte, m) =>
      if mapped (m.get pte) then .error (.panic "remap")
      else mappagesLoop pgdir perm rounds (m.set pte (mappedEntry frame perm))
        ((page + 1) % 2 ^ 20) ((frame + 1) % 2 ^ 20)

/-- `mappages`. The last page is the one of the address `va + size - 1`, which may wrap. -/
def mappages (m : Mem σ) (pgdir va size frame : Nat) (perm : Word) : Except Halt (Bool × Mem σ) :=
  let first := pgRoundDown va / pgSize
  let last := pgRoundDown ((va + size + 2 ^ 32 - 1) % 2 ^ 32) / pgSize
  mappagesLoop pgdir perm ((last + 2 ^ 20 - first) % 2 ^ 20 + 1) m first frame

/-- The loop of `deallocuvm`. -/
def deallocuvmLoop (image : Image) (ops : ClockOps σ) (pgdir oldsz : Nat) :
    Nat → Mem σ → (a : Nat) → Except Halt (Mem σ)
  | 0, _, _ => .error .endless
  | fuel + 1, m, a =>
    if a < oldsz then
      match (walkpgdir m pgdir a false).1 with
      | none => deallocuvmLoop image ops pgdir oldsz fuel m (pgAddr (pdx a + 1))
      | some pte =>
        if mapped (m.get pte) then
          if frameOf (m.get pte) = 0 then .error (.panic "kfree")
          else do
            let m ← kfree image m (frameOf (m.get pte))
            let queue ← ops.remove m.queue pte
            deallocuvmLoop image ops pgdir oldsz fuel ({ m with queue := queue }.set pte 0)
              (a + pgSize)
        else deallocuvmLoop image ops pgdir oldsz fuel m (a + pgSize)
    else .ok m

/-- `deallocuvm`. -/
def deallocuvm (image : Image) (ops : ClockOps σ) (m : Mem σ) (pgdir oldsz newsz : Nat) :
    Except Halt (Nat × Mem σ) :=
  if oldsz ≤ newsz then .ok (oldsz, m)
  else do
    let m ← deallocuvmLoop image ops pgdir oldsz (oldsz / pgSize + 2) m (pgRoundUp newsz)
    .ok (newsz, m)

/-- The loop of `freevm` over the directory entries from `i` on. -/
def freeTables (image : Image) (pgdir : Nat) : Nat → Mem σ → Nat → Except Halt (Mem σ)
  | 0, m, _ => .ok m
  | rounds + 1, m, i =>
    if has (m.word pgdir i) pteP then do
      let m ← kfree image m (frameOf (m.word pgdir i))
      freeTables image pgdir rounds m (i + 1)
    else freeTables image pgdir rounds m (i + 1)

/-- `freevm`. -/
def freevm (image : Image) (ops : ClockOps σ) (m : Mem σ) (pgdir : Nat) : Except Halt (Mem σ) := do
  let (_, m) ← deallocuvm image ops m pgdir kernBase 0
  let m ← freeTables image pgdir pgWords m 0
  kfree image m pgdir

/-- One row of the table `kmap`. -/
structure Kmap where
  /-- First virtual address. -/
  virt : Nat
  /-- First physical address. -/
  physStart : Nat
  /-- End of the physical range. -/
  physEnd : Nat
  /-- Permissions. -/
  perm : Word

/-- The table `kmap`. -/
def kmap (image : Image) : List Kmap :=
  [⟨kernBase, 0, extMem, pteW⟩,
    ⟨kernBase + extMem, extMem, image.dataPage * pgSize, 0⟩,
    ⟨kernBase + image.dataPage * pgSize, image.dataPage * pgSize, physTop, pteW⟩,
    ⟨devSpace, devSpace, 0, pteW⟩]

/-- The loop of `setupkvm`. -/
def setupkvmLoop (image : Image) (ops : ClockOps σ) (pgdir : Nat) :
    List Kmap → Mem σ → Except Halt (Option Nat × Mem σ)
  | [], m => .ok (some pgdir, m)
  | k :: rest, m => do
    let (done, m) ← mappages m pgdir k.virt ((k.physEnd + 2 ^ 32 - k.physStart) % 2 ^ 32)
      (k.physStart / pgSize) k.perm
    if done then setupkvmLoop image ops pgdir rest m
    else do
      let m ← freevm image ops m pgdir
      .ok (none, m)

/-- `setupkvm`. -/
def setupkvm (image : Image) (ops : ClockOps σ) (m : Mem σ) : Except Halt (Option Nat × Mem σ) :=
  match kalloc m with
  | (none, m) => .ok (none, m)
  | (some pgdir, m) => setupkvmLoop image ops pgdir (kmap image) (m.setPage pgdir (fun _ => 0))

/-- The pages from one address up to another, the second not included. -/
def pageCount (low high : Nat) : Nat := (high - low + 4095) / 4096

/-- The loop of `allocuvm`; the result tells whether every page was allocated. -/
def allocuvmLoop (image : Image) (ops : ClockOps σ) (pgdir oldsz newsz : Nat) :
    Nat → Mem σ → (a : Nat) → Except Halt (Bool × Mem σ)
  | 0, m, _ => .ok (true, m)
  | rounds + 1, m, a =>
    match kalloc m with
    | (none, m) => do
      let (_, m) ← deallocuvm image ops m pgdir newsz oldsz
      .ok (false, m)
    | (some mem, m) => do
      let m := m.setPage mem (fun _ => 0)
      let (done, m) ← mappages m pgdir a pgSize mem (pteW ||| pteU)
      if done then allocuvmLoop image ops pgdir oldsz newsz rounds m (a + pgSize)
      else do
        let (_, m) ← deallocuvm image ops m pgdir newsz oldsz
        let m ← kfree image m mem
        .ok (false, m)

/-- `allocuvm`. -/
def allocuvm (image : Image) (ops : ClockOps σ) (m : Mem σ) (pgdir oldsz newsz : Nat) :
    Except Halt (Nat × Mem σ) :=
  if kernBase ≤ newsz then .ok (0, m)
  else if newsz < oldsz then .ok (oldsz, m)
  else do
    let (done, m) ← allocuvmLoop image ops pgdir oldsz newsz
      (pageCount (pgRoundUp oldsz) newsz) m (pgRoundUp oldsz)
    .ok (if done then newsz else 0, m)

/-- `clearpteu`. -/
def clearpteu (m : Mem σ) (pgdir uva : Nat) : Except Halt (Mem σ) :=
  match (walkpgdir m pgdir uva false).1 with
  | none => .error (.panic "clearpteu")
  | some pte => .ok (m.set pte (m.get pte &&& ~~~pteU))

/-- The loop of `copyuvm`, which copies the page at `i` into the directory `d`. -/
def copyuvmLoop (image : Image) (ops : ClockOps σ) (pgdir d : Nat) :
    Nat → Mem σ → (i : Nat) → Except Halt (Option Nat × Mem σ)
  | 0, m, _ => .ok (some d, m)
  | rounds + 1, m, i =>
    match (walkpgdir m pgdir i false).1 with
    | none => .error (.panic "copyuvm: pte should exist")
    | some pte =>
      if !mapped (m.get pte) then .error (.panic "copyuvm: page not present")
      else
        let entry := m.get pte
        match kalloc m with
        | (none, m) => do
          let m ← freevm image ops m d
          .ok (none, m)
        | (some mem, m) => do
          let m := m.setPage mem (m.word (frameOf entry))
          let (done, m) ← mappages m d i pgSize mem (pteFlags entry)
          if done then copyuvmLoop image ops pgdir d rounds m (i + pgSize)
          else do
            let m ← kfree image m mem
            let m ← freevm image ops m d
            .ok (none, m)

/-- `copyuvm`. -/
def copyuvm (image : Image) (ops : ClockOps σ) (m : Mem σ) (pgdir sz : Nat) :
    Except Halt (Option Nat × Mem σ) := do
  let (d, m) ← setupkvm image ops m
  match d with
  | none => .ok (none, m)
  | some d => copyuvmLoop image ops pgdir d (pageCount 0 sz) m 0

/-- `uva2ka`, as the frame it returns. The entry pointer is not checked for null. -/
def uva2ka (m : Mem σ) (pgdir uva : Nat) : Except Halt (Option Nat) :=
  match (walkpgdir m pgdir uva false).1 with
  | none => .error .nullDeref
  | some pte =>
    if !mapped (m.get pte) then .ok none
    else if !has (m.get pte) pteU then .ok none
    else .ok (some (frameOf (m.get pte)))

/-- `copyout`, with one round for each byte at most. -/
def copyout (pgdir : Nat) : Nat → Mem σ → (va : Nat) → List (BitVec 8) → Except Halt (Bool × Mem σ)
  | _, m, _, [] => .ok (true, m)
  | 0, _, _, _ :: _ => .error .endless
  | fuel + 1, m, va, bytes => do
    let va0 := pgRoundDown va
    match ← uva2ka m pgdir va0 with
    | none => .ok (false, m)
    | some frame =>
      let n := min (pgSize - (va - va0)) bytes.length
      copyout pgdir fuel (m.setBytes frame (va - va0) (bytes.take n)) ((va0 + pgSize) % 2 ^ 32)
        (bytes.drop n)

/-- `readi` on a regular file, given by its contents: the bytes read, or nothing for -1. -/
def readi (file : List (BitVec 8)) (off n : Nat) : Option (List (BitVec 8)) :=
  if file.length < off ∨ (off + n) % 2 ^ 32 < off then none
  else some ((file.drop off).take n)

/-- The loop of `loaduvm`, at offset `i` of the segment. -/
def loaduvmLoop (pgdir addr : Nat) (file : List (BitVec 8)) (offset sz : Nat) :
    Nat → Mem σ → (i : Nat) → Except Halt (Bool × Mem σ)
  | 0, m, _ => .ok (true, m)
  | rounds + 1, m, i =>
    match (walkpgdir m pgdir ((addr + i) % 2 ^ 32) false).1 with
    | none => .error (.panic "loaduvm: address should exist")
    | some pte =>
      let n := min (sz - i) pgSize
      match readi file ((offset + i) % 2 ^ 32) n with
      | none => .ok (false, m)
      | some bytes =>
        let m := m.setBytes (frameOf (m.get pte)) 0 bytes
        if bytes.length ≠ n then .ok (false, m)
        else loaduvmLoop pgdir addr file offset sz rounds m (i + pgSize)

/-- `loaduvm`. -/
def loaduvm (m : Mem σ) (pgdir addr : Nat) (file : List (BitVec 8)) (offset sz : Nat) :
    Except Halt (Bool × Mem σ) :=
  if addr % pgSize ≠ 0 then .error (.panic "loaduvm: addr must be page aligned")
  else loaduvmLoop pgdir addr file offset sz (pageCount 0 sz) m 0

/-! ## The entries that `mappages` writes -/

/-- The flags of a new entry are those asked for, with exactly one of `PTE_P` and `PTE_E`. -/
theorem mappedEntry_flag (frame : Nat) (perm : Word) {k : Nat} (low : k < 12) :
    (mappedEntry frame perm).getLsbD k = if k = 0 then !perm.getLsbD 10 else perm.getLsbD k := by
  have small : k < 32 := by omega
  have bitP : pteP.getLsbD k = decide (k = 0) := by
    rw [show pteP = BitVec.twoPow 32 0 by rfl, BitVec.getLsbD_twoPow]
    simp [eq_comm]
  have bitE : pteE.getLsbD k = decide (k = 10) := by
    rw [show pteE = BitVec.twoPow 32 10 by rfl, BitVec.getLsbD_twoPow]
    simp [eq_comm]
  by_cases encrypted : perm.getLsbD 10 = true
  · simp only [mappedEntry, has_pteE, encrypted, ↓reduceIte, BitVec.getLsbD_and,
      BitVec.getLsbD_not, makePte_flag _ _ low, BitVec.getLsbD_or, bitP, bitE]
    by_cases first : k = 0
    · simp [first]
    · by_cases tenth : k = 10
      · simp [tenth, encrypted]
      · simp [first, tenth, small]
  · simp only [mappedEntry, has_pteE, encrypted, Bool.false_eq_true, ↓reduceIte,
      makePte_flag _ _ low, BitVec.getLsbD_or, bitP]
    by_cases first : k = 0
    · simp [first]
    · simp [first]

theorem mapped_mappedEntry (frame : Nat) (perm : Word) :
    mapped (mappedEntry frame perm) = true := by
  rw [mapped_iff, mappedEntry_flag _ _ (by omega), mappedEntry_flag _ _ (by omega)]
  simp

theorem frameOf_mappedEntry {frame : Nat} {perm : Word} (bound : frame < 2 ^ 20)
    (small : perm.toNat < 4096) : frameOf (mappedEntry frame perm) = frame := by
  have joined : ∀ flag : Word, flag.toNat < 4096 → (perm ||| flag).toNat < 4096 := by
    intro flag low
    rw [BitVec.toNat_or, show 4096 = 2 ^ 12 by rfl]
    exact Nat.or_lt_two_pow small low
  unfold mappedEntry
  split
  · rw [frameOf_clear _ (by decide)]
    exact frameOf_makePte bound (joined pteE (by decide))
  · exact frameOf_makePte bound (joined pteP (by decide))

end MemoryEncryption
