import MemoryEncryption.Kernel.Word
import MemoryEncryption.Library.ClockRing

/-!
# The user-level clock queue

`clock.c` tries the clock algorithm out before it goes into the kernel: a ring of
`CLOCKSIZE` nodes, the hand, and page table entries that carry flags only. The
entries are a memory of words by address. Encryption and decryption are the
placeholders of the source: they change flags and leave the flipping of bits out.
A trace records the pages passed to `mencrypt`; the source keeps none.
-/

namespace MemoryEncryption.ClockReference

open ClockRing

/-- `PTE_E` of `clock.c`; the kernel uses another bit. -/
def pteE : Word := 0x200

/-- `struct clk_node`. -/
structure Node where
  /-- Virtual page number, `-1` in an empty node. -/
  vpn : Int
  /-- Address of the page table entry. -/
  pte : Nat
  deriving DecidableEq, Repr

/-- The page table entries by address, and the pages encrypted so far, latest first. -/
structure Store where
  /-- Page table entries. -/
  mem : Nat → Word
  /-- Trace of the victims. -/
  encrypted : List Int

/-- The globals `clk_queue` and `clk_hand`, with the entries the nodes point to. -/
structure Clock where
  /-- The nodes and the hand. -/
  ring : Dial Node
  /-- The entries. -/
  store : Store

/-- `mencrypt`. -/
def mencrypt (store : Store) (vpn : Int) (pte : Nat) : Store :=
  if has (store.mem pte) pteE then { store with encrypted := vpn :: store.encrypted }
  else
    ⟨Function.update store.mem pte ((store.mem pte ||| pteE) &&& ~~~pteP), vpn :: store.encrypted⟩

/-- `mdecrypt`. -/
def mdecrypt (store : Store) (pte : Nat) : Store :=
  if has (store.mem pte) pteE then
    { store with mem := Function.update store.mem pte ((store.mem pte &&& ~~~pteE) ||| pteP) }
  else store

/-- `*pte &= (~PTE_A)`. -/
def clearRef (store : Store) (pte : Nat) : Store :=
  { store with mem := Function.update store.mem pte (store.mem pte &&& ~~~pteA) }

/-- The tests and effects of the loop of `clk_insert`. -/
def policy : Policy Node Store Halt where
  empty node := node.vpn == -1
  referenced store node := .ok (has (store.mem node.pte) pteA)
  clear store node := .ok (clearRef store node.pte)
  evict store node := .ok (mencrypt store node.vpn node.pte)
  unfinished := .endless

/-- `clk_insert`. The endless loop is given one round more than there are nodes. -/
def clkInsert (clock : Clock) (vpn : Int) (pte : Nat) : Except Halt Clock := do
  let (ring, store) ← sweep policy clockSize (fun _ => ⟨vpn, pte⟩) (clockSize + 1) clock.ring
    clock.store
  .ok ⟨ring, mdecrypt store pte⟩

/-- The search of `clk_remove`, which begins at the hand. The remainder of C is negative for
the hand `-1`. -/
def findMatch (ring : Dial Node) (vpn : Int) : Nat → Nat → Except Halt (Option Nat)
  | 0, _ => .ok none
  | rounds + 1, i =>
    let idx := (ring.hand + i).tmod clockSize
    if idx < 0 then .error .outOfBounds
    else if (ring.slot idx.toNat).vpn = vpn then .ok (some idx.toNat)
    else findMatch ring vpn rounds (i + 1)

/-- `clk_remove`. -/
def clkRemove (clock : Clock) (vpn : Int) : Except Halt Clock := do
  let matchIdx ← findMatch clock.ring vpn clockSize 0
  match matchIdx with
  | none => .ok clock
  | some idx =>
    let prevTail := clock.ring.hand.toNat
    let slot ← closeGap Halt.endless clockSize prevTail clockSize clock.ring.slot idx
    let slot := Function.update slot prevTail { slot prevTail with vpn := -1 }
    .ok { clock with ring := ⟨slot,
      if clock.ring.hand = 0 then clockSize - 1 else clock.ring.hand - 1⟩ }

/-- `clk_clear`, on whatever the nodes held before. -/
def clkClear (clock : Clock) : Clock :=
  { clock with ring := ⟨fun i => { clock.ring.slot i with vpn := -1 }, -1⟩ }

/-- A call on the queue, or the hardware setting reference bits between calls. -/
inductive Action where
  /-- `clk_insert(vpn, pte)`. -/
  | insert (vpn : Int) (pte : Nat)
  /-- `clk_remove(vpn)`. -/
  | remove (vpn : Int)
  /-- `PTE_A` is set in the chosen entries. -/
  | touch (chosen : Nat → Bool)

/-- The hardware sets `PTE_A` in the chosen entries. -/
def touchAll (store : Store) (chosen : Nat → Bool) : Store :=
  { store with mem := fun pte => if chosen pte then store.mem pte ||| pteA else store.mem pte }

/-- One action. -/
def step (clock : Clock) : Action → Except Halt Clock
  | .insert vpn pte => clkInsert clock vpn pte
  | .remove vpn => clkRemove clock vpn
  | .touch chosen => .ok { clock with store := touchAll clock.store chosen }

/-- The non-empty nodes read cyclically from `clk_hand + 1` to `clk_hand`, as `clk_print` lists
them. -/
def Clock.pages (clock : Clock) : List Node :=
  (clock.ring.entries clockSize).filter fun node => node.vpn != -1

end MemoryEncryption.ClockReference
