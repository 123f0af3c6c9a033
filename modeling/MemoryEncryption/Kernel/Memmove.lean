import MemoryEncryption.Kernel.Word

/-!
# `memmove`

The two functions of this name: the kernel's in `string.c`, and that of user programs in
`ulib.c`. Memory has a byte at every address, and pointers wrap.
-/

namespace MemoryEncryption

/-- `while(n-- > 0) *d++ = *s++`. -/
def copyUp : (n : Nat) → (m : Word → Byte) → (d s : Word) → Word → Byte
  | 0, m, _, _ => m
  | n + 1, m, d, s => copyUp n (Function.update m d (m s)) (d + 1) (s + 1)

/-- `while(n-- > 0) *--d = *--s`. -/
def copyDown : (n : Nat) → (m : Word → Byte) → (d s : Word) → Word → Byte
  | 0, m, _, _ => m
  | n + 1, m, d, s => copyDown n (Function.update m (d - 1) (m (s - 1))) (d - 1) (s - 1)

/-- `memmove` of the kernel. -/
def memmove (m : Word → Byte) (dst src n : Word) : Word → Byte :=
  if src < dst ∧ src + n > dst then copyDown n.toNat m (dst + n) (src + n)
  else copyUp n.toNat m dst src

/-- `memmove` of the user library, where `n` is signed. -/
def userMemmove (m : Word → Byte) (dst src n : Word) : Word → Byte :=
  copyUp n.toInt.toNat m dst src

end MemoryEncryption
