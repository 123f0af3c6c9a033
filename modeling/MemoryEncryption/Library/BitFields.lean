import Mathlib.Data.BitVec

/-!
# Bit fields in a sequence of bytes

A bit field is a run of bits of a word that is stored in little-endian order. It is
assigned by replacing the bits of a mask in each byte of the word, and it reads back as
what was assigned last; an assignment to other bits leaves it alone.
-/

namespace MemoryEncryption

variable {img : Nat → BitVec 8} {a b : Nat} {mask value : BitVec 32}

/-- A bit of the word at an address. -/
def bitAt (img : Nat → BitVec 8) (a k : Nat) : Bool := (img (a + k / 8)).getLsbD (k % 8)

/-- A run of bits of the word at an address. -/
def bitsAt (img : Nat → BitVec 8) (a shift width : Nat) : BitVec width :=
  (img (a + 3) ++ img (a + 2) ++ img (a + 1) ++ img a).extractLsb' shift width

/-- The bits of a mask are replaced in a byte. -/
def replaceIn (old mask value : BitVec 8) : BitVec 8 := (old &&& ~~~mask) ||| (value &&& mask)

/-- The bits of a mask are replaced in the first `n` bytes of the word at an address. -/
def replaceBits (img : Nat → BitVec 8) (a : Nat) (mask value : BitVec 32) (n : Nat) :
    Nat → BitVec 8 := fun b =>
  if a ≤ b ∧ b < a + n then
    replaceIn (img b) (mask.extractLsb' (8 * (b - a)) 8) (value.extractLsb' (8 * (b - a)) 8)
  else img b

variable {k : Nat}

theorem replaceIn_getLsbD (old mask value : BitVec 8) (low : k < 8) :
    (replaceIn old mask value).getLsbD k =
      if mask.getLsbD k then value.getLsbD k else old.getLsbD k := by
  simp only [replaceIn, BitVec.getLsbD_or, BitVec.getLsbD_and, BitVec.getLsbD_not, low,
    decide_true, Bool.true_and]
  cases mask.getLsbD k <;> simp

theorem replaceBits_outside {n : Nat} (outside : b < a ∨ a + n ≤ b) :
    replaceBits img a mask value n b = img b := by
  rw [replaceBits, if_neg (by omega)]

theorem replaceBits_succ (n : Nat) :
    replaceBits img a mask value (n + 1) = fun b =>
      if b = a + n then
        replaceIn (replaceBits img a mask value n b) (mask.extractLsb' (8 * n) 8)
          (value.extractLsb' (8 * n) 8)
      else replaceBits img a mask value n b := by
  funext b
  by_cases here : b = a + n
  · subst here
    rw [if_pos rfl, replaceBits_outside (.inr (Nat.le_refl _)), replaceBits,
      if_pos ⟨by omega, by omega⟩, Nat.add_sub_cancel_left]
  · have same : (a ≤ b ∧ b < a + (n + 1)) ↔ (a ≤ b ∧ b < a + n) := by omega
    simp only [replaceBits, same, if_neg here]

theorem bitAt_replaceBits (bound : k < 32) :
    bitAt (replaceBits img a mask value 4) a k =
      if mask.getLsbD k then value.getLsbD k else bitAt img a k := by
  have place : a + k / 8 - a = k / 8 := by omega
  have low : k % 8 < 8 := Nat.mod_lt _ (by decide)
  rw [bitAt, replaceBits, if_pos ⟨by omega, by omega⟩, place, replaceIn_getLsbD _ _ _ low, bitAt]
  simp only [BitVec.getLsbD_extractLsb', low, decide_true, Bool.true_and, Nat.div_add_mod]

theorem bitAt_replaceBits_of_apart {n : Nat} (outside : b + k / 8 < a ∨ a + n ≤ b + k / 8) :
    bitAt (replaceBits img a mask value n) b k = bitAt img b k := by
  rw [bitAt, replaceBits_outside outside, bitAt]

theorem bitsAt_getLsbD {shift width : Nat} (inside : k < width) (bound : shift + k < 32) :
    (bitsAt img a shift width).getLsbD k = bitAt img a (shift + k) := by
  simp only [bitsAt, BitVec.getLsbD_extractLsb', inside, decide_true, Bool.true_and,
    BitVec.getLsbD_append]
  generalize shift + k = j at bound
  -- The byte of a bit is found by comparing with the ends of the bytes below it.
  have byte : j / 8 = 0 ∨ j / 8 = 1 ∨ j / 8 = 2 ∨ j / 8 = 3 := by omega
  rcases byte with first | second | third | fourth
  · rw [if_pos (by omega), bitAt, first, show j % 8 = j by omega, Nat.add_zero]
  · rw [if_neg (by omega), if_pos (by omega), bitAt, second, show j % 8 = j - 8 by omega]
  · rw [if_neg (by omega), if_neg (by omega), if_pos (by omega), bitAt, third,
      show j % 8 = j - 8 - 8 by omega]
  · rw [if_neg (by omega), if_neg (by omega), if_neg (by omega), bitAt, fourth,
      show j % 8 = j - 8 - 8 - 8 by omega]

/-- A run of bits depends on the bytes of its word only. -/
theorem bitsAt_congr {img' : Nat → BitVec 8} (same : ∀ k < 4, img (a + k) = img' (a + k))
    {shift width : Nat} : bitsAt img a shift width = bitsAt img' a shift width := by
  have first : img a = img' a := same 0 (by decide)
  rw [bitsAt, bitsAt, same 3 (by decide), same 2 (by decide), same 1 (by decide), first]

end MemoryEncryption
