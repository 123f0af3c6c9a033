import MemoryEncryption.Kernel.Strings

/-!
# Name fields

What `strncmp` and `strncpy` make of the name field of a directory entry.
-/

namespace MemoryEncryption

variable (n : Nat) (t : List Byte)

/-- The string in a field of `n` bytes. -/
def strn : List Byte := (t.take n).takeWhile (· ≠ 0)

theorem strn_succ : strn (n + 1) t =
    if t.headD 0 = 0 then [] else t.headD 0 :: strn n t.tail := by
  cases t with
  | nil => rfl
  | cons byte t =>
    rw [strn, List.take_succ_cons, List.takeWhile_cons]
    by_cases ends : byte = 0 <;> simp [ends, strn]

theorem strncmp_eq_zero (p q : List Byte) : strncmp n p q = 0 ↔ strn n p = strn n q := by
  induction n generalizing p q with
  | zero => simp [strncmp, strn]
  | succ n ih =>
    rw [strncmp, strn_succ, strn_succ]
    split
    case isTrue more =>
      rw [ih, ← more.2, if_neg more.1, if_neg more.1, List.cons_eq_cons, and_iff_right rfl]
    case isFalse stop =>
      have heads := BitVec.toNat_inj (x := p.headD 0) (y := q.headD 0)
      grind

theorem strncpy_eq :
    strncpy n t = strn n t ++ List.replicate (n - (strn n t).length) 0 := by
  induction n generalizing t with
  | zero => rfl
  | succ n ih =>
    rw [strncpy, strn_succ, ih]
    by_cases ends : t.headD 0 = 0
    · rw [if_neg (not_not.mpr ends), if_pos ends, ends]
      rfl
    · rw [if_pos ends, if_neg ends, List.length_cons, Nat.add_sub_add_right, List.cons_append]

/-- Directories compare names as `namecmp` does and store them as `strncpy` does. -/
theorem namecmp_stored (name other : List Byte) (inum : Nat) :
    (namecmp name other = 0 ↔ sameName name other) ∧
      direntName (direntBytes other inum) = strncpy dirSiz other := by
  rw [namecmp, strncmp_eq_zero, sameName, decide_eq_true_eq, strncpy_eq]
  exact ⟨Iff.rfl, rfl⟩

end MemoryEncryption
