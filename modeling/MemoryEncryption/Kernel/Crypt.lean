import MemoryEncryption.Kernel.AddressSpace
import MemoryEncryption.Kernel.ClockQueue

/-!
# Encrypting and decrypting pages

`mencrypt`, `mdecrypt` and `cq_enset` of `vm.c`, for the address space of the
process that is running. The two flip a page's bytes through the user mapping, so
that the hardware marks the entry. The queue of the kernel is one instance of what
the memory code asks of a queue; the other does nothing, for results about frames
in which the queue plays no part.
-/

namespace MemoryEncryption

variable {σ : Type}

/-- `*slider = ~*slider` over a whole page, through its entry. -/
def flipPage (m : Mem σ) (pte : PteAddr) : Mem σ :=
  let frame := frameOf (m.get pte)
  let mark := m.marks.headD (pteA ||| pteD) &&& (pteA ||| pteD)
  { (m.setPage frame fun i => ~~~m.word frame i).set pte (m.get pte ||| mark) with
    marks := m.marks.tail }

/-- The first loop of `mencrypt`, which checks every page of the range. -/
def mencryptCheck (pgdir : Nat) (m : Mem σ) : Nat → (slider : Nat) → Except Halt Bool
  | 0, _ => .ok true
  | rounds + 1, slider => do
    match ← uva2ka m pgdir slider with
    | none => .ok false
    | some _ => mencryptCheck pgdir m rounds ((slider + pgSize) % 2 ^ 32)

/-- The second loop of `mencrypt`, which flips every page that is not encrypted yet. -/
def mencryptPages (pgdir : Nat) : Nat → Mem σ → (slider : Nat) → Except Halt (Mem σ)
  | 0, m, _ => .ok m
  | rounds + 1, m, slider =>
    match (walkpgdir m pgdir slider false).1 with
    | none => .error .nullDeref
    | some pte =>
      if has (m.get pte) pteE then mencryptPages pgdir rounds m ((slider + pgSize) % 2 ^ 32)
      else
        let m := flipPage m pte
        mencryptPages pgdir rounds (m.set pte ((m.get pte &&& ~~~pteP) ||| pteE))
          ((slider + pgSize) % 2 ^ 32)

/-- `mencrypt`. -/
def mencrypt (m : Mem σ) (pgdir va : Nat) (len : Int) : Except Halt (Bool × Mem σ) := do
  if ← mencryptCheck pgdir m len.toNat (pgRoundDown va) then
    let m ← mencryptPages pgdir len.toNat m (pgRoundDown va)
    .ok (true, m)
  else .ok (false, m)

/-- `mdecrypt`. Its bound 2147483648 is `KERNBASE`. The address reaches the queue unrounded, and
`cq_enset` looks the entry up once more. -/
def mdecrypt (ops : ClockOps σ) (m : Mem σ) (pgdir va : Nat) : Except Halt (Bool × Mem σ) :=
  if kernBase ≤ va then .ok (false, m)
  else
    match (walkpgdir m pgdir va false).1 with
    | none => .ok (false, m)
    | some pte =>
      if m.get pte = 0 then .ok (false, m)
      else
        let m := flipPage (m.set pte ((m.get pte &&& ~~~pteE) ||| pteP)) pte
        match (walkpgdir m pgdir va false).1 with
        | none => .ok (false, m)
        | some pte => do
          let m ← ops.enset m pgdir va pte
          .ok (true, m)

/-- The entries in memory, as the queue of the process with the given directory uses them. -/
def entryOps (pgdir : Nat) : EntryOps (Mem σ) PteAddr where
  referenced m
    | none => .error .nullDeref
    | some pte => .ok (has (m.get pte) pteA)
  clearRef m
    | none => .error .nullDeref
    | some pte => .ok (m.set pte (m.get pte &&& ~~~pteA))
  mencrypt m va := do
    let (_, m) ← mencrypt m pgdir va 1
    .ok m

/-- The clock queue of the kernel. -/
def clockOps : ClockOps (Queue PteAddr) where
  init := cqInit
  remove := cqRemove
  enset m pgdir va pte := do
    let (queue, m) ← cqEnset (entryOps pgdir) m.queue m va pte
    .ok { m with queue := queue }

/-- No queue at all. -/
def noClock : ClockOps Unit where
  init := ()
  remove _ _ := .ok ()
  enset m _ _ _ := .ok m

/-- `sys_mencrypt` on its two arguments, in a process of the given size. -/
def sysMencrypt (m : Mem σ) (pgdir sz va : Nat) (len : Int) : Except Halt (Bool × Mem σ) :=
  if len = 0 then .ok (true, m)
  else if len < 0 then .ok (false, m)
  else if sz ≤ va ∨ sz < (va + 1) % 2 ^ 32 then .ok (false, m)
  else if kernBase ≤ va then .ok (false, m)
  else mencrypt m pgdir va len

end MemoryEncryption
