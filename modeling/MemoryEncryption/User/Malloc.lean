import MemoryEncryption.Kernel.Word
import MemoryEncryption.Library.Outcome

/-!
# The allocator of user programs

`umalloc.c`. Memory is seen as headers by address: every header that the allocator reads
or writes is `base` or stands at a multiple of its size. What `sbrk` returns is an
argument of the calls, with -1 as `none`, and the memory that it has given is recorded.
-/

namespace MemoryEncryption

/-- `sizeof(Header)`. -/
def headerSize : Nat := 8

/-- `p + n` for a pointer to headers. -/
def headerAt (p n : Nat) : Nat := (p + headerSize * n) % 2 ^ 32

/-- The rounds that the loops of `umalloc.c` are followed for; more than there are addresses,
twice. -/
def heapRounds : Nat := 2 ^ 34

/-- The state of the allocator. -/
structure Heap where
  /-- `&base`. -/
  base : Nat
  /-- `s.ptr` of the header at an address. -/
  ptr : Nat → Nat
  /-- `s.size` of the header at an address, in headers. -/
  size : Nat → Nat
  /-- `freep`, where 0 is the null pointer. -/
  freep : Nat
  /-- The regions obtained from `sbrk`: where they start, and their bytes. -/
  obtained : List (Nat × Nat)

namespace Heap

/-- `p->s.ptr = value`. -/
def setPtr (h : Heap) (p value : Nat) : Heap := { h with ptr := Function.update h.ptr p value }

/-- `p->s.size = value`. -/
def setSize (h : Heap) (p value : Nat) : Heap := { h with size := Function.update h.size p value }

/-- The loop of `free`: the free block after which the block belongs. -/
def freeLoop (h : Heap) (bp : Nat) : Nat → (p : Nat) → Except Halt Nat
  | 0, _ => .error .endless
  | rounds + 1, p =>
    if p < bp ∧ bp < h.ptr p then .ok p
    else if h.ptr p ≤ p ∧ (p < bp ∨ bp < h.ptr p) then .ok p
    else freeLoop h bp rounds (h.ptr p)

/-- Join the block to its upper neighbour, or link it to that. -/
def joinUpper (h : Heap) (p bp : Nat) : Heap :=
  if headerAt bp (h.size bp) = h.ptr p then
    let h := h.setSize bp ((h.size bp + h.size (h.ptr p)) % 2 ^ 32)
    h.setPtr bp (h.ptr (h.ptr p))
  else h.setPtr bp (h.ptr p)

/-- Join the block to its lower neighbour, or link that to it. -/
def joinLower (h : Heap) (p bp : Nat) : Heap :=
  if headerAt p (h.size p) = bp then
    let h := h.setSize p ((h.size p + h.size bp) % 2 ^ 32)
    h.setPtr p (h.ptr bp)
  else h.setPtr p bp

/-- `free`. -/
def free (h : Heap) (ap : Nat) : Except Halt Heap :=
  if h.freep = 0 then .error .nullDeref
  else do
    let bp := (ap + 2 ^ 32 - headerSize) % 2 ^ 32
    let p ← h.freeLoop bp heapRounds h.freep
    pure { (h.joinUpper p bp).joinLower p bp with freep := p }

/-- The argument of `morecore`'s call of `sbrk`, which takes an `int`. -/
def sbrkArgument (nu : Nat) : Int :=
  (BitVec.ofNat 32 ((if nu < 4096 then 4096 else nu) * headerSize)).toInt

/-- `morecore`: the result, where 0 is the null pointer. -/
def morecore (h : Heap) (sbrk : Option Nat) (nu : Nat) : Except Halt (Nat × Heap) :=
  let nu := if nu < 4096 then 4096 else nu
  match sbrk with
  | none => pure (0, h)
  | some p => do
    let h := { h with obtained := (p, nu * headerSize % 2 ^ 32) :: h.obtained }
    let h := h.setSize p nu
    let h ← h.free (headerAt p 1)
    pure (h.freep, h)

/-- The part of `malloc` that takes the block after `prevp`, or the end of it. -/
def take (h : Heap) (prevp nunits : Nat) : Nat × Heap :=
  let p := h.ptr prevp
  if h.size p = nunits then (headerAt p 1, { h.setPtr prevp (h.ptr p) with freep := prevp })
  else
    let left := h.size p - nunits
    let h := h.setSize p left
    let p := headerAt p left
    let h := h.setSize p nunits
    (headerAt p 1, { h with freep := prevp })

/-- The loop of `malloc`. -/
def mallocLoop (sbrk : Option Nat) (nunits : Nat) : Nat → Heap → (prevp : Nat) →
    Except Halt (Nat × Heap)
  | 0, _, _ => .error .endless
  | rounds + 1, h, prevp =>
    let p := h.ptr prevp
    if nunits ≤ h.size p then pure (h.take prevp nunits)
    else if p = h.freep then do
      let (p, h) ← h.morecore sbrk nunits
      if p = 0 then pure (0, h) else mallocLoop sbrk nunits rounds h p
    else mallocLoop sbrk nunits rounds h p

/-- `base.s.ptr = freep = prevp = &base; base.s.size = 0` at the first call. -/
def start (h : Heap) : Heap :=
  if h.freep = 0 then { (h.setPtr h.base h.base).setSize h.base 0 with freep := h.base } else h

/-- The headers that `malloc` looks for. -/
def units (nbytes : Nat) : Nat := (nbytes + headerSize - 1) % 2 ^ 32 / headerSize + 1

/-- `malloc`: the result, where 0 is the null pointer. -/
def malloc (h : Heap) (nbytes : Nat) (sbrk : Option Nat) : Except Halt (Nat × Heap) :=
  mallocLoop sbrk (units nbytes) heapRounds h.start h.start.freep

end Heap

/-- What a program does with its heap. -/
inductive HeapEvent where
  /-- `malloc`, with what `sbrk` returns if it is called. -/
  | malloc (nbytes : Nat) (sbrk : Option Nat)
  /-- `free`. -/
  | free (ap : Nat)
  /-- The program writes to memory, here what a header at the address would be. -/
  | store (a ptr size : Nat)

/-- A program with its heap. -/
structure HeapUser where
  /-- The allocator. -/
  heap : Heap
  /-- The pointers that `malloc` has returned and that have not been freed. -/
  live : List Nat

/-- One step. -/
def HeapUser.step (s : HeapUser) : HeapEvent → Except Halt HeapUser
  | .malloc nbytes sbrk => do
    let (ap, heap) ← s.heap.malloc nbytes sbrk
    pure ⟨heap, if ap = 0 then s.live else ap :: s.live⟩
  | .free ap => do
    let heap ← s.heap.free ap
    pure ⟨heap, s.live.erase ap⟩
  | .store a ptr size => pure { s with heap := (s.heap.setPtr a ptr).setSize a size }

end MemoryEncryption
