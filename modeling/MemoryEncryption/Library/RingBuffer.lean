import Mathlib.Data.BitVec

/-!
# Ring buffers with free-running counters

A ring buffer of `size` places is addressed by two counters of `w` bits that are only
ever incremented, and wrap. Where `size` divides `2 ^ w` the places they address go
round together with them, so the buffer behaves as a queue through any number of
wraps. Nothing in this module names a particular program.
-/

namespace MemoryEncryption.RingBuffer

/-- A ring buffer. -/
structure Ring (α : Type) (w : Nat) where
  /-- The places. -/
  data : Nat → α
  /-- The number of elements taken so far, modulo `2 ^ w`. -/
  nread : BitVec w
  /-- The number of elements put so far, modulo `2 ^ w`. -/
  nwrite : BitVec w

namespace Ring

variable {α : Type} {w size : Nat} {ring : Ring α w}

/-- The number of elements in the buffer. -/
def count (ring : Ring α w) : Nat := (ring.nwrite - ring.nread).toNat

/-- The elements in the buffer, the oldest first. -/
def contents (size : Nat) (ring : Ring α w) : List α :=
  (List.range ring.count).map fun i => ring.data ((ring.nread.toNat + i) % size)

/-- Put an element at the end. -/
def push (size : Nat) (ring : Ring α w) (element : α) : Ring α w :=
  ⟨Function.update ring.data (ring.nwrite.toNat % size) element, ring.nread, ring.nwrite + 1⟩

/-- The oldest element. -/
def front (size : Nat) (ring : Ring α w) : α := ring.data (ring.nread.toNat % size)

/-- Take the oldest element away. -/
def pop (ring : Ring α w) : Ring α w := ⟨ring.data, ring.nread + 1, ring.nwrite⟩

/-- The element put last. -/
def back (size : Nat) (ring : Ring α w) : α := ring.data ((ring.nwrite - 1).toNat % size)

/-- Take the element put last away. -/
def retract (ring : Ring α w) : Ring α w := ⟨ring.data, ring.nread, ring.nwrite - 1⟩

/-- The counters are equal exactly when the buffer is empty. -/
theorem count_eq_zero : ring.count = 0 ↔ ring.nread = ring.nwrite := by
  unfold count
  constructor
  · intro none
    have same : ring.nwrite - ring.nread = 0#w := BitVec.eq_of_toNat_eq (by simpa using none)
    have back := congrArg (· + ring.nread) same
    simpa using back.symm
  · intro same
    simp [same]

/-- The write counter is `size` ahead exactly when the buffer is full. -/
theorem count_eq_size (fits : size < 2 ^ w) :
    ring.count = size ↔ ring.nwrite = ring.nread + BitVec.ofNat w size := by
  unfold count
  constructor
  · intro full
    have ahead : ring.nwrite - ring.nread = BitVec.ofNat w size :=
      BitVec.eq_of_toNat_eq (by simp [full, Nat.mod_eq_of_lt fits])
    rw [← ahead, BitVec.add_comm, BitVec.sub_add_cancel]
  · intro ahead
    rw [ahead, BitVec.add_comm, BitVec.add_sub_cancel, BitVec.toNat_ofNat, Nat.mod_eq_of_lt fits]

theorem toNat_one (wide : 1 < 2 ^ w) : (1 : BitVec w).toNat = 1 := by
  have reduced : (1 : BitVec w).toNat = 1 % 2 ^ w := BitVec.toNat_ofNat 1 w
  rw [reduced, Nat.mod_eq_of_lt wide]

theorem count_push (room : ring.count + 1 < 2 ^ w) (element : α) :
    (ring.push size element).count = ring.count + 1 := by
  have ahead : ring.nwrite + 1 - ring.nread = (ring.nwrite - ring.nread) + 1 := by
    rw [BitVec.sub_eq_add_neg, BitVec.sub_eq_add_neg, BitVec.add_assoc, BitVec.add_assoc,
      BitVec.add_comm 1]
  show (ring.nwrite + 1 - ring.nread).toNat = _
  rw [ahead, BitVec.toNat_add, toNat_one (by omega)]
  exact Nat.mod_eq_of_lt room

theorem toNat_pred {counter : BitVec w} (some : 0 < counter.toNat) :
    (counter - 1).toNat + 1 = counter.toNat := by
  have bound := counter.isLt
  rw [BitVec.toNat_sub, toNat_one (by omega)]
  have wrapped : 2 ^ w - 1 + counter.toNat = 2 ^ w + (counter.toNat - 1) := by omega
  rw [wrapped, Nat.add_mod_left, Nat.mod_eq_of_lt (by omega)]
  omega

theorem count_pop (some : 0 < ring.count) : ring.pop.count + 1 = ring.count := by
  have behind : ring.nwrite - (ring.nread + 1) = (ring.nwrite - ring.nread) - 1 := by
    rw [BitVec.sub_eq_add_neg, BitVec.neg_add, BitVec.sub_eq_add_neg, BitVec.sub_eq_add_neg,
      BitVec.sub_eq_add_neg, BitVec.add_assoc]
  show (ring.nwrite - (ring.nread + 1)).toNat + 1 = ring.count
  rw [behind]
  exact toNat_pred some

/-- Putting back the element put last undoes its removal. -/
theorem push_retract (size : Nat) (ring : Ring α w) :
    ring.retract.push size (ring.back size) = ring := by
  show (⟨Function.update ring.data ((ring.nwrite - 1).toNat % size)
    (ring.data ((ring.nwrite - 1).toNat % size)), ring.nread, ring.nwrite - 1 + 1⟩ : Ring α w) = ring
  rw [Function.update_eq_self, BitVec.sub_add_cancel]

theorem count_retract (some : 0 < ring.count) : ring.retract.count + 1 = ring.count := by
  have behind : ring.nwrite - 1 - ring.nread = ring.nwrite - ring.nread - 1 := by
    rw [BitVec.sub_eq_add_neg, BitVec.sub_eq_add_neg, BitVec.sub_eq_add_neg, BitVec.sub_eq_add_neg,
      BitVec.add_assoc, BitVec.add_assoc, BitVec.add_comm (-1)]
  show (ring.nwrite - 1 - ring.nread).toNat + 1 = ring.count
  rw [behind]
  exact toNat_pred some

section Divides

variable (divides : size ∣ 2 ^ w)
include divides

/-- The place after the last element is where the write counter points. -/
theorem nwrite_place : ring.nwrite.toNat % size = (ring.nread.toNat + ring.count) % size := by
  have whole : ring.nwrite = ring.nread + (ring.nwrite - ring.nread) := by
    rw [BitVec.add_comm, BitVec.sub_add_cancel]
  conv_lhs => rw [whole, BitVec.toNat_add]
  rw [Nat.mod_mod_of_dvd _ divides]
  rfl

theorem next_place (counter : BitVec w) (i : Nat) (wide : 1 < 2 ^ w) :
    ((counter + 1).toNat + i) % size = (counter.toNat + (i + 1)) % size := by
  rw [BitVec.toNat_add, toNat_one wide, Nat.add_mod, Nat.mod_mod_of_dvd _ divides, ← Nat.add_mod]
  congr 1
  omega

theorem contents_push (fits : size < 2 ^ w) (room : ring.count < size) (element : α) :
    (ring.push size element).contents size = ring.contents size ++ [element] := by
  unfold contents
  rw [count_push (by omega), List.range_succ, List.map_append]
  congr 1
  · apply List.map_congr_left
    intro i member
    have early : i < ring.count := List.mem_range.mp member
    show Function.update ring.data (ring.nwrite.toNat % size) element _ = _
    apply Function.update_of_ne
    rw [nwrite_place divides]
    intro same
    -- two places less than a round apart are different
    have close : ring.nread.toNat + i ≡ ring.nread.toNat + ring.count [MOD size] := same
    have equal := Nat.ModEq.eq_of_lt_of_lt (Nat.ModEq.add_left_cancel' _ close) (by omega) room
    omega
  · show [Function.update ring.data (ring.nwrite.toNat % size) element
      ((ring.nread.toNat + ring.count) % size)] = _
    rw [nwrite_place divides, Function.update_self]

theorem contents_pop (wide : 1 < 2 ^ w) (some : 0 < ring.count) :
    ring.contents size = ring.front size :: ring.pop.contents size := by
  have fewer := count_pop some
  unfold contents
  rw [← fewer, List.range_succ_eq_map, List.map_cons, List.map_map]
  congr 1
  apply List.map_congr_left
  intro i _
  exact congrArg ring.data (next_place divides ring.nread i wide).symm

theorem contents_retract (fits : size < 2 ^ w) (full : ring.count ≤ size) (some : 0 < ring.count) :
    ring.contents size = ring.retract.contents size ++ [ring.back size] := by
  have fewer := count_retract some
  conv_lhs => rw [← push_retract size ring]
  exact contents_push divides fits (by omega) _

end Divides

end Ring

end MemoryEncryption.RingBuffer
