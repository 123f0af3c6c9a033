import MemoryEncryption.Kernel.Names

/-!
# Strings

The functions of `string.c` that compare and copy the names of directory entries. A
string is read past its last byte as zero, which is its terminator; a name field of
`DIRSIZ` bytes without a terminator is never read past its end.
-/

namespace MemoryEncryption

/-- `strncmp`. -/
def strncmp : (n : Nat) → (p q : List Byte) → Int
  | 0, _, _ => 0
  | n + 1, p, q =>
    if p.headD 0 ≠ 0 ∧ p.headD 0 = q.headD 0 then strncmp n p.tail q.tail
    else ((p.headD 0).toNat : Int) - (q.headD 0).toNat

/-- The bytes that `strncpy` stores. -/
def strncpy : (n : Nat) → (t : List Byte) → List Byte
  | 0, _ => []
  | n + 1, t => t.headD 0 :: if t.headD 0 ≠ 0 then strncpy n t.tail else List.replicate n 0

/-- `namecmp`. -/
def namecmp (s t : List Byte) : Int := strncmp dirSiz s t

end MemoryEncryption
