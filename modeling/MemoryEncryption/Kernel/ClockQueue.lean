import MemoryEncryption.Kernel.Word
import MemoryEncryption.Library.ClockRing

/-!
# The kernel's clock queue

The queue in `struct proc` and its operations in `vm.c`. A node keeps the address
that faulted and a pointer to a page table entry; the pointer type is left open
here, and so is the memory the pointers lead into. The array has `CLOCKSIZE`
nodes: an access outside it is a `Halt`, not a value.
-/

namespace MemoryEncryption

open ClockRing

/-- `struct cq_node`. -/
structure CqNode (α : Type) where
  /-- `-1` if the node is empty. -/
  empty : Int
  /-- The address that was inserted, not rounded to its page. -/
  va : Nat
  /-- Pointer to a page table entry. -/
  pte : Option α
  deriving DecidableEq, Repr

/-- The fields `cq` and `clock_hand` of a process. -/
abbrev Queue (α : Type) := Dial (CqNode α)

/-- The memory behind the entry pointers, as the queue uses it. -/
structure EntryOps (τ α : Type) where
  /-- `*pte & PTE_A`. -/
  referenced : τ → Option α → Except Halt Bool
  /-- `*pte &= ~PTE_A`. -/
  clearRef : τ → Option α → Except Halt τ
  /-- `mencrypt(va, 1)`, whose result the queue ignores. -/
  mencrypt : τ → Nat → Except Halt τ

variable {τ α : Type}

/-- `cq_init`. -/
def cqInit : Queue α := ⟨fun _ => ⟨-1, 0, none⟩, -1⟩

/-- The tests and effects of the loop of `cq_enset`. -/
def cqPolicy (ops : EntryOps τ α) : Policy (CqNode α) τ Halt where
  empty node := node.empty == -1
  referenced store node := ops.referenced store node.pte
  clear store node := ops.clearRef store node.pte
  evict store node := ops.mencrypt store node.va
  unfinished := .endless

/-- The node after an insertion; a node that was in use keeps its `empty` field. -/
def cqFill (va : Nat) (pte : α) (node : CqNode α) : CqNode α :=
  ⟨if node.empty = -1 then 0 else node.empty, va, some pte⟩

variable [DecidableEq α]

/-- The repetition check of `cq_enset`: some node in use points to the entry. -/
def Queue.holds (queue : Queue α) (pte : α) : Bool :=
  (List.range clockSize).any fun i =>
    (queue.slot i).pte == some pte && (queue.slot i).empty != -1

/-- `cq_enset(va)` once `walkpgdir` has found the entry. The endless loop is given one round more
than there are nodes. -/
def cqEnset (ops : EntryOps τ α) (queue : Queue α) (store : τ) (va : Nat) (pte : α) :
    Except Halt (Queue α × τ) :=
  if queue.holds pte then .ok (queue, store)
  else sweep (cqPolicy ops) clockSize (cqFill va pte) (clockSize + 1) queue store

/-- The search of `cq_remove`: the first node with the pointer, in use or not. -/
def Queue.find (queue : Queue α) (pte : α) : Option Nat :=
  (List.range clockSize).find? fun i => (queue.slot i).pte == some pte

omit [DecidableEq α] in
/-- The shift loop of `cq_remove`. Its index is not reduced modulo the array. -/
def shiftDown (oldHand : Int) : Nat → (Nat → CqNode α) → Nat → Except Halt (Nat → CqNode α)
  | 0, _, _ => .error .endless
  | fuel + 1, slot, i =>
    if (i : Int) = oldHand then .ok slot
    else if clockSize ≤ i then .error .outOfBounds
    else shiftDown oldHand fuel (Function.update slot i (slot ((i + 1) % clockSize))) (i + 1)

/-- `cq_remove`. -/
def cqRemove (queue : Queue α) (pte : α) : Except Halt (Queue α) :=
  match queue.find pte with
  | none => .ok queue
  | some del => do
    let slot ← shiftDown queue.hand (clockSize + 1) queue.slot del
    let hand := queue.hand.toNat
    .ok ⟨Function.update slot hand { slot hand with empty := -1 },
      if queue.hand = 0 then clockSize - 1 else queue.hand - 1⟩

end MemoryEncryption
