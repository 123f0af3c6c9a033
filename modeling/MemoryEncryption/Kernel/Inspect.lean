import MemoryEncryption.Kernel.Crypt

/-!
# System calls that report memory to user code

`getpgtable` and `dump_rawphymem` of `vm.c`, with their wrappers in `sysproc.c` and
`argptr` of `syscall.c`. The kernel writes a process's buffer through the process's own
mapping, so a write to an encrypted page faults, is decrypted by `trap`, and is made
again. A run of `getpgtable` also returns the entries that it started to write, whether
it returned or stopped.
-/

namespace MemoryEncryption

variable {σ : Type}

/-! ## The kernel at user addresses -/

/-- The check of `argptr` on a pointer and a size, in a process of size `sz`. -/
def argptr (sz i : Nat) (size : Int) : Bool :=
  !(decide (size < 0) || decide (sz ≤ i) || decide (sz < (i + size.toNat) % 2 ^ 32))

/-- The entry of an address that the hardware can use. -/
def presentEntry (m : Mem σ) (pgdir va : Nat) : Option PteAddr :=
  (walkpgdir m pgdir va false).1.filter fun pte => has (m.get pte) pteP

/-- An access of the kernel to one byte at a user address: the frame it goes to. A page fault is
served by `trap`, which stops the kernel if `mdecrypt` fails, and the access is made again. -/
def touch (ops : ClockOps σ) (pgdir va : Nat) : Nat → Mem σ → Except Halt (Nat × Mem σ)
  | 0, _ => .error .endless
  | tries + 1, m =>
    match presentEntry m pgdir va with
    | some pte =>
      let mark := m.marks.headD (pteA ||| pteD) &&& (pteA ||| pteD)
      .ok (frameOf (m.get pte), { m.set pte (m.get pte ||| mark) with marks := m.marks.tail })
    | none => do
      let (done, m) ← mdecrypt ops m pgdir va
      if done then touch ops pgdir va tries m else .error (.panic "trap")

/-- Accesses of one byte that are enough: once `cq_enset` has seen an entry the queue holds it, so
the second page fault is the last one. -/
def accesses : Nat := 3

/-- Replace the bits of a mask in one byte at a user address. -/
def patchByte (ops : ClockOps σ) (pgdir va : Nat) (mask value : BitVec 8) (m : Mem σ) :
    Except Halt (Mem σ) := do
  let (frame, m) ← touch ops pgdir va accesses m
  .ok (m.setByte frame (va % pgSize)
    ((m.byte frame (va % pgSize) &&& ~~~mask) ||| (value &&& mask)))

/-- Replace the bits of a mask in the first bytes of the word at a user address. -/
def patchWord (ops : ClockOps σ) (pgdir va : Nat) (mask value : Word) :
    Nat → Mem σ → Except Halt (Mem σ)
  | 0, m => .ok m
  | k + 1, m => do
    let m ← patchWord ops pgdir va mask value k m
    patchByte ops pgdir ((va + k) % 2 ^ 32) (mask.extractLsb' (8 * k) 8)
      (value.extractLsb' (8 * k) 8) m

/-! ## `getpgtable` -/

/-- A bit field of `struct pt_entry`, with what `getpgtable` assigns to it for a page and the
page's entry. -/
structure PtField where
  /-- Offset of its word in the struct. -/
  offset : Nat
  /-- Its first bit. -/
  shift : Nat
  /-- Its number of bits. -/
  width : Nat
  /-- The value assigned. -/
  value : (page : Nat) → (entry : Word) → Nat

/-- The bits of a field in its word. -/
def PtField.mask (field : PtField) : Word := BitVec.ofNat 32 ((2 ^ field.width - 1) <<< field.shift)

/-- The value of a field in its place. -/
def PtField.placed (field : PtField) (page : Nat) (entry : Word) : Word :=
  BitVec.ofNat 32 (field.value page entry <<< field.shift)

/-- `sizeof(struct pt_entry)`: `ppage` does not fit into the word of `pdx` and `ptx`. -/
def ptEntrySize : Nat := 8

/-- The assignments of `getpgtable`, in their order. -/
def ptFields : List PtField :=
  [⟨0, 0, 10, fun page _ => page / 1024⟩,
    ⟨0, 10, 10, fun page _ => page % 1024⟩,
    ⟨4, 0, 20, fun _ entry => frameOf entry⟩,
    ⟨4, 20, 1, fun _ entry => (has entry pteP).toNat⟩,
    ⟨4, 21, 1, fun _ entry => (has entry pteW).toNat⟩,
    ⟨4, 23, 1, fun _ entry => (has entry pteU).toNat⟩,
    ⟨4, 22, 1, fun _ entry => (has entry pteE).toNat⟩,
    ⟨4, 24, 1, fun _ entry => (!has entry pteE && has entry pteA).toNat⟩]

/-- The assignments to the entry at an address. The page's entry is read again for each of them;
the words read are returned. -/
def assignFields (ops : ClockOps σ) (pgdir address page : Nat) (pte : PteAddr) :
    List PtField → Mem σ → Except Halt (List Word × Mem σ)
  | [], m => .ok ([], m)
  | field :: rest, m => do
    let word := m.get pte
    let m ← patchWord ops pgdir ((address + field.offset) % 2 ^ 32) field.mask
      (field.placed page word) 4 m
    let (words, m) ← assignFields ops pgdir address page pte rest m
    .ok (word :: words, m)

/-- An entry that `getpgtable` writes. -/
structure Report (σ : Type) where
  /-- Address of the entry. -/
  address : Nat
  /-- The page it is about. -/
  page : Nat
  /-- The queue when the page was found. -/
  queue : σ
  /-- What the page's entry held for each assignment, if all of them were made. -/
  words : List Word

/-- `pet_in_set`. -/
def petInSet (entry : Word) : Bool := has entry pteP && has entry (~~~pteE)

/-- The loop of `getpgtable`, from a page down to page 1: it stops when it gets to address 0. -/
def getpgtableLoop (ops : ClockOps σ) (pgdir entries : Nat) (num : Int) (wsetOnly : Bool) :
    (page index : Nat) → Mem σ → List (Report σ) × Except Halt (Int × Mem σ)
  | 0, index, m => ([], .ok (index, m))
  | page + 1, index, m =>
    if (index : Int) < num then
      match (walkpgdir m pgdir ((page + 1) * pgSize) false).1 with
      | none => getpgtableLoop ops pgdir entries num wsetOnly page index m
      | some pte =>
        if m.get pte ≠ 0 ∧ (!wsetOnly || petInSet (m.get pte)) then
          let address := (entries + ptEntrySize * index) % 2 ^ 32
          match assignFields ops pgdir address (page + 1) pte ptFields m with
          | .error halt => ([⟨address, page + 1, m.queue, []⟩], .error halt)
          | .ok (words, m') =>
            let (reports, result) :=
              getpgtableLoop ops pgdir entries num wsetOnly page (index + 1) m'
            (⟨address, page + 1, m.queue, words⟩ :: reports, result)
        else getpgtableLoop ops pgdir entries num wsetOnly page index m
    else ([], .ok (index, m))

/-- `getpgtable`. -/
def getpgtable (ops : ClockOps σ) (m : Mem σ) (pgdir sz entries : Nat) (num wsetOnly : Int) :
    List (Report σ) × Except Halt (Int × Mem σ) :=
  if wsetOnly ≠ 0 ∧ wsetOnly ≠ 1 then ([], .ok (-1, m))
  else getpgtableLoop ops pgdir entries num (wsetOnly = 1) (sz / pgSize) 0 m

/-- The size that `sys_getpgtable` gives to `argptr`: an unsigned product, taken as an `int`. -/
def ptEntryBytes (num : Int) : Int := (num * ptEntrySize).bmod (2 ^ 32)

/-- `sys_getpgtable` on its three arguments, in a process of the given size. -/
def sysGetpgtable (ops : ClockOps σ) (m : Mem σ) (pgdir sz entries : Nat) (num wsetOnly : Int) :
    List (Report σ) × Except Halt (Int × Mem σ) :=
  if !argptr sz entries (ptEntryBytes num) then ([], .ok (-1, m))
  else getpgtable ops m pgdir sz entries num wsetOnly

/-! ## `dump_rawphymem` -/

/-- The frame that a row of `kmap` has at an address. -/
def Kmap.frameAt (va : Nat) (k : Kmap) : Option Nat :=
  if k.virt ≤ va ∧ va < k.virt + (k.physEnd + 2 ^ 32 - k.physStart) % 2 ^ 32 then
    some ((k.physStart + (va - k.virt)) / pgSize)
  else none

/-- The frame at an address of the kernel's half, which is mapped in every address space as `kmap`
says. -/
def kernelFrame (image : Image) (va : Nat) : Option Nat := (kmap image).findSome? (Kmap.frameAt va)

/-- The kernel loads one byte. A page fault in its own half stops it. -/
def loadByte (image : Image) (ops : ClockOps σ) (pgdir va : Nat) (m : Mem σ) :
    Except Halt (BitVec 8 × Mem σ) :=
  if kernBase ≤ va then
    match kernelFrame image va with
    | none => .error (.panic "trap")
    | some frame => .ok (m.byte frame (va % pgSize), m)
  else do
    let (frame, m) ← touch ops pgdir va accesses m
    .ok (m.byte frame (va % pgSize), m)

/-- The kernel loads bytes one after the other. -/
def loadBytes (image : Image) (ops : ClockOps σ) (pgdir : Nat) :
    Nat → (va : Nat) → Mem σ → Except Halt (List (BitVec 8) × Mem σ)
  | 0, _, m => .ok ([], m)
  | n + 1, va, m => do
    let (first, m) ← loadByte image ops pgdir va m
    let (rest, m) ← loadBytes image ops pgdir n ((va + 1) % 2 ^ 32) m
    .ok (first :: rest, m)

/-- `copyout` from an address, with one round for each byte at most. -/
def copyoutFrom (image : Image) (ops : ClockOps σ) (pgdir : Nat) :
    Nat → Mem σ → (va p len : Nat) → Except Halt (Bool × Mem σ)
  | _, m, _, _, 0 => .ok (true, m)
  | 0, _, _, _, _ + 1 => .error .endless
  | fuel + 1, m, va, p, len + 1 => do
    let va0 := pgRoundDown va
    match ← uva2ka m pgdir va0 with
    | none => .ok (false, m)
    | some frame =>
      let n := min (pgSize - (va - va0)) (len + 1)
      let (bytes, m) ← loadBytes image ops pgdir n p m
      copyoutFrom image ops pgdir fuel (m.setBytes frame (va - va0) bytes)
        ((va0 + pgSize) % 2 ^ 32) ((p + n) % 2 ^ 32) (len + 1 - n)

/-- `dump_rawphymem`: it writes back the first byte of the buffer, for the page fault this may
raise, and copies the frame out. -/
def dumpRawphymem (image : Image) (ops : ClockOps σ) (m : Mem σ) (pgdir physicalAddr buffer : Nat) :
    Except Halt (Bool × Mem σ) := do
  let m ← patchByte ops pgdir buffer 0 0 m
  copyoutFrom image ops pgdir pgSize m buffer ((physicalAddr + kernBase) % 2 ^ 32) pgSize

/-- `sys_dump_rawphymem` on its two arguments, in a process of the given size. -/
def sysDumpRawphymem (image : Image) (ops : ClockOps σ) (m : Mem σ)
    (pgdir sz physicalAddr buffer : Nat) : Except Halt (Bool × Mem σ) :=
  if !argptr sz buffer pgSize then .ok (false, m)
  else dumpRawphymem image ops m pgdir physicalAddr buffer

end MemoryEncryption
