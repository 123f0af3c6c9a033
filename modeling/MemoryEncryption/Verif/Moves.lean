import MemoryEncryption.Kernel.Memmove

/-!
# Moving bytes

A copy from the first byte on is right unless it overwrites what it has yet to read, and
so is a copy from the last byte down; only the kernel's `memmove` chooses between them.
-/

namespace MemoryEncryption

/-- The `n` bytes from `dst` on are those that were from `src` on, and the others are as before. -/
def Moved (m : Word → Byte) (dst src : Word) (n : Nat) (m' : Word → Byte) : Prop :=
  ∀ a, m' a = if (a - dst).toNat < n then m (src + (a - dst)) else m a

/-- A copy from the first byte on, if no source after the first is where the copy starts. -/
theorem copyUp_moved (n : Nat) (few : n ≤ 2 ^ 32) {m : Word → Byte} {d s : Word}
    (apart : ∀ k : Word, 0 < k → k.toNat < n → s + k ≠ d) : Moved m d s n (copyUp n m d s) := by
  induction n generalizing m d s with
  | zero => exact fun a => rfl
  | succ n ih =>
    have later : ∀ k : Word, 0 < k → k.toNat < n → s + 1 + k ≠ d + 1 := by
      intro k positive inside same
      exact apart k positive (by omega) (by bv_omega)
    intro a
    rw [copyUp, ih (by omega) later]
    have source : s + 1 + (a - (d + 1)) = s + (a - d) := by bv_omega
    by_cases here : a = d
    · subst here
      rw [if_neg (by bv_omega), if_pos (by simp), Function.update_self]
      simp
    · rw [source, Function.update_of_ne here]
      by_cases inside : (a - d).toNat < n + 1
      · rw [if_pos (by bv_omega), if_pos inside,
          Function.update_of_ne (apart _ (by bv_omega) inside)]
      · rw [if_neg (by bv_omega), if_neg inside]

/-- A copy from the last byte down, if no destination after the first is where the source starts. -/
theorem copyDown_moved (n : Nat) (few : n ≤ 2 ^ 32) {m : Word → Byte} {d s : Word}
    (apart : ∀ k : Word, 0 < k → k.toNat < n → s ≠ d + k) :
    Moved m d s n (copyDown n m (d + BitVec.ofNat 32 n) (s + BitVec.ofNat 32 n)) := by
  induction n generalizing m with
  | zero => exact fun a => rfl
  | succ n ih =>
    have last : ∀ p : Word, p + BitVec.ofNat 32 (n + 1) - 1 = p + BitVec.ofNat 32 n := by
      intro p
      bv_omega
    intro a
    rw [copyDown, last, last, ih (by omega) fun k positive inside => apart k positive (by omega)]
    by_cases here : a = d + BitVec.ofNat 32 n
    · have offset : a - d = BitVec.ofNat 32 n := by bv_omega
      have small : (BitVec.ofNat 32 n).toNat = n := by
        rw [BitVec.toNat_ofNat]
        omega
      rw [offset, small, if_neg (by omega), if_pos (by omega), here, Function.update_self]
    · rw [Function.update_of_ne here]
      by_cases inside : (a - d).toNat < n
      · have other : s + (a - d) ≠ d + BitVec.ofNat 32 n := by
          intro same
          exact apart (d + BitVec.ofNat 32 n - a) (by bv_omega) (by bv_omega) (by bv_omega)
        rw [if_pos inside, if_pos (by omega), Function.update_of_ne other]
      · rw [if_neg inside, if_neg (by bv_omega)]

end MemoryEncryption
