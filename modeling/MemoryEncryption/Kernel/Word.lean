import Mathlib.Data.Nat.Bitwise

/-!
# Machine words, addresses and page table entries

Constants and macros of `mmu.h`, `memlayout.h` and `param.h`. A page table entry
is a 32-bit word: a frame number in the upper 20 bits and flags below. Addresses
are naturals, with the 32-bit modulus written where the source can wrap. A
computation of the kernel that does not return ends in a `Halt`.
-/

namespace MemoryEncryption

/-- A 32-bit machine word, `uint` and `pte_t` of the source. -/
abbrev Word := BitVec 32

/-- A byte. -/
abbrev Byte := BitVec 8

instance : LawfulBEq Byte := inferInstance

/-- Ways in which a computation of the kernel ends without a result. -/
inductive Halt where
  /-- `panic(message)`. -/
  | panic (message : String)
  /-- A null pointer was dereferenced, which C leaves undefined. -/
  | nullDeref
  /-- An array was accessed outside its bounds, which C leaves undefined. -/
  | outOfBounds
  /-- A loop did not end within the number of rounds it was given. -/
  | endless
  deriving DecidableEq, Repr

/-- `PGSIZE`, the bytes of a page. -/
def pgSize : Nat := 4096
/-- The 32-bit words of a page, which is also `NPDENTRIES` and `NPTENTRIES`. -/
def pgWords : Nat := 1024
/-- `KERNBASE`, the first kernel virtual address. -/
def kernBase : Nat := 0x80000000
/-- `EXTMEM`, the start of extended memory. -/
def extMem : Nat := 0x100000
/-- `PHYSTOP`, the top of physical memory. -/
def physTop : Nat := 0xE000000
/-- `DEVSPACE`, the first address of the memory-mapped devices. -/
def devSpace : Nat := 0xFE000000
/-- `CLOCKSIZE`, the slots of a clock queue. -/
def clockSize : Nat := 8
/-- Page numbers below this one belong to the user half of an address space. -/
def userPages : Nat := 0x80000

/-- `PTE_P`, present. -/
def pteP : Word := 0x001
/-- `PTE_W`, writable. -/
def pteW : Word := 0x002
/-- `PTE_U`, accessible from user mode. -/
def pteU : Word := 0x004
/-- `PTE_A`, set by the hardware at every access. -/
def pteA : Word := 0x020
/-- The dirty bit, set by the hardware at every write; the source has no name for it. -/
def pteD : Word := 0x040
/-- `PTE_E`, the page is encrypted. -/
def pteE : Word := 0x400

/-- `PDX(va)`, the page directory index. -/
def pdx (va : Nat) : Nat := va / 0x400000 % 1024
/-- `PTX(va)`, the page table index. -/
def ptx (va : Nat) : Nat := va / 0x1000 % 1024
/-- `PGADDR(d, 0, 0)`, the first address under a directory entry. -/
def pgAddr (directory : Nat) : Nat := directory * 0x400000 % 2 ^ 32
/-- `PGROUNDUP(sz)`. -/
def pgRoundUp (size : Nat) : Nat := (size + 4095) % 2 ^ 32 / 4096 * 4096
/-- `PGROUNDDOWN(a)`. -/
def pgRoundDown (address : Nat) : Nat := address / 4096 * 4096

/-- A flag, or one of several flags, is set in a word. -/
def has (word flag : Word) : Bool := (word &&& flag) != 0#32

/-- The frame number in an entry, `PTE_ADDR(pte) >> PTXSHIFT`. -/
def frameOf (entry : Word) : Nat := entry.toNat / 4096

/-- `PTE_FLAGS(pte)`. -/
def pteFlags (entry : Word) : Word := entry &&& 0xFFF

/-- The entry for a frame with the given flags, `pa | flags`. -/
def makePte (frame : Nat) (flags : Word) : Word := BitVec.ofNat 32 (frame * 4096) ||| flags

/-- A page table entry that stands for a page, decrypted or not: `*pte & (PTE_P | PTE_E)`. -/
def mapped (entry : Word) : Bool := has entry (pteP ||| pteE)

/-! ## Reading single flags -/

theorem has_twoPow (word : Word) (k : Nat) : has word (BitVec.twoPow 32 k) = word.getLsbD k := by
  simp only [has, BitVec.and_twoPow]
  by_cases bit : word.getLsbD k = true
  · have small : k < 32 := by
      by_contra large
      simp [BitVec.getLsbD_of_ge word k (by omega)] at bit
    have nonzero : BitVec.twoPow 32 k ≠ 0#32 := by
      intro zero
      have same := congrArg (fun value : BitVec 32 => value.getLsbD k) zero
      simp [small] at same
    simp [bit, nonzero]
  · simp [bit]

@[simp] theorem has_pteP (word : Word) : has word pteP = word.getLsbD 0 := has_twoPow word 0
@[simp] theorem has_pteW (word : Word) : has word pteW = word.getLsbD 1 := has_twoPow word 1
@[simp] theorem has_pteU (word : Word) : has word pteU = word.getLsbD 2 := has_twoPow word 2
@[simp] theorem has_pteA (word : Word) : has word pteA = word.getLsbD 5 := has_twoPow word 5
@[simp] theorem has_pteE (word : Word) : has word pteE = word.getLsbD 10 := has_twoPow word 10

theorem has_or (word left right : Word) :
    has word (left ||| right) = (has word left || has word right) := by
  have split : word &&& (left ||| right) = (word &&& left) ||| (word &&& right) := by
    ext i
    simp [Bool.and_or_distrib_left]
  rw [has, has, has, split, Bool.eq_iff_iff, Bool.or_eq_true, bne_iff_ne, bne_iff_ne, bne_iff_ne,
    ne_eq, BitVec.or_eq_zero_iff, not_and_or]

@[simp] theorem mapped_iff (entry : Word) :
    mapped entry = (entry.getLsbD 0 || entry.getLsbD 10) := by
  rw [mapped, has_or, has_pteP, has_pteE]

/-! ## Frame numbers -/

/-- The frame number is read from the bits above the flags. -/
theorem frameOf_congr {left right : Word}
    (same : ∀ k, 12 ≤ k → left.getLsbD k = right.getLsbD k) : frameOf left = frameOf right := by
  apply Nat.eq_of_testBit_eq
  intro i
  have bit := same (i + 12) (by omega)
  rw [BitVec.getLsbD, BitVec.getLsbD] at bit
  rw [frameOf, frameOf, show 4096 = 2 ^ 12 by rfl, Nat.testBit_div_two_pow, Nat.testBit_div_two_pow]
  exact bit

theorem flags_high {flags : Word} (small : flags.toNat < 4096) {k : Nat} (high : 12 ≤ k) :
    flags.getLsbD k = false := by
  rw [BitVec.getLsbD]
  have power : 2 ^ 12 ≤ 2 ^ k := Nat.pow_le_pow_right (by omega) high
  exact Nat.testBit_lt_two_pow (by omega)

theorem frameOf_or (entry : Word) {flags : Word} (small : flags.toNat < 4096) :
    frameOf (entry ||| flags) = frameOf entry := by
  apply frameOf_congr
  intro k high
  rw [BitVec.getLsbD_or, flags_high small high, Bool.or_false]

theorem frameOf_clear (entry : Word) {flags : Word} (small : flags.toNat < 4096) :
    frameOf (entry &&& ~~~flags) = frameOf entry := by
  apply frameOf_congr
  intro k high
  rw [BitVec.getLsbD_and, BitVec.getLsbD_not, flags_high small high]
  by_cases inside : k < 32
  · simp [inside]
  · rw [BitVec.getLsbD_of_ge _ k (by omega), Bool.false_and]

/-- A flag below bit 12 is read from the flags of a new entry. -/
theorem makePte_flag (frame : Nat) (flags : Word) {k : Nat} (low : k < 12) :
    (makePte frame flags).getLsbD k = flags.getLsbD k := by
  have clear : (frame * 4096).testBit k = false := by
    rw [show 4096 = 2 ^ 12 by rfl, Nat.testBit_mul_two_pow]
    simp [show ¬ 12 ≤ k by omega]
  rw [makePte, BitVec.getLsbD_or, BitVec.getLsbD_ofNat, clear]
  simp

theorem frameOf_makePte {frame : Nat} {flags : Word} (bound : frame < 2 ^ 20)
    (small : flags.toNat < 4096) : frameOf (makePte frame flags) = frame := by
  have whole : frame * 4096 % 2 ^ 32 = frame * 4096 := Nat.mod_eq_of_lt (by omega)
  rw [frameOf, makePte, BitVec.toNat_or, BitVec.toNat_ofNat, whole, Nat.mul_comm,
    show 4096 = 2 ^ 12 by rfl, ← Nat.two_pow_add_eq_or_of_lt small]
  omega

end MemoryEncryption
