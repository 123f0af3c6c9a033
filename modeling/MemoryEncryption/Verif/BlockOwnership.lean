import MemoryEncryption.Kernel.Disk
import MemoryEncryption.Library.Holding
import Mathlib.Data.Finset.Card

/-!
# Ownership of disk blocks

Every data block that is marked in the free map is referred to from exactly one
place: an entry of an inode, an entry of an indirect block, or the indirect entry of
an inode. The inodes are a parameter here: while a call works on an inode, its
in-memory copy stands in the place of the copy on the disk. An inode refers to
blocks without holes, from its first block up to a count that follows from its size
between calls and runs ahead of it within `writei`.
-/

namespace MemoryEncryption

open Function

/-- A place of an inode that refers to a block. -/
inductive BlockSlot where
  /-- The address of a block of the file. -/
  | block (bn : Nat)
  /-- The address of the indirect block. -/
  | indirect
  deriving DecidableEq, Repr

/-- The address that `bmap` finds for a block of the file, zero if there is none. -/
def Dinode.lookup (data : Nat → Sector) (ip : Dinode) (bn : Nat) : Nat :=
  if bn < nDirect then ip.addrs bn
  else if bn < maxFile ∧ ip.addrs nDirect ≠ 0 then
    (data (ip.addrs nDirect)).word (bn - nDirect)
  else 0

/-- The block that a place of an inode refers to, zero if there is none. -/
def Dinode.pointer (data : Nat → Sector) (ip : Dinode) : BlockSlot → Nat
  | .block bn => ip.lookup data bn
  | .indirect => ip.addrs nDirect

variable {ip : Dinode}

theorem Dinode.pointer_congr {data data' : Nat → Sector}
    (same : data' (ip.addrs nDirect) = data (ip.addrs nDirect)) :
    ip.pointer data' = ip.pointer data := by
  funext slot
  cases slot with
  | block bn => simp only [Dinode.pointer, Dinode.lookup, same]
  | indirect => rfl

theorem Dinode.pointer_setAddr (data : Nat → Sector) (ip : Dinode) {bn : Nat} (b : Nat)
    (direct : bn < nDirect) :
    (ip.setAddr bn b).pointer data = update (ip.pointer data) (.block bn) b := by
  have apart : nDirect ≠ bn := by omega
  funext slot
  cases slot with
  | block n =>
    by_cases same : n = bn
    · simp [Dinode.pointer, Dinode.lookup, Dinode.setAddr, same, direct]
    · simp [Dinode.pointer, Dinode.lookup, Dinode.setAddr, same,
        update_of_ne apart]
  | indirect => simp [Dinode.pointer, Dinode.setAddr, update_of_ne apart]

theorem Dinode.pointer_setIndirect {data : Nat → Sector} {b : Nat} (empty : ip.addrs nDirect = 0)
    (zeroed : data b = fun _ => 0) :
    (ip.setAddr nDirect b).pointer data = update (ip.pointer data) .indirect b := by
  funext slot
  cases slot with
  | block n =>
    by_cases direct : n < nDirect
    · have apart : n ≠ nDirect := by omega
      simp [Dinode.pointer, Dinode.lookup, Dinode.setAddr, direct, update_of_ne apart]
    · simp [Dinode.pointer, Dinode.lookup, Dinode.setAddr, direct, zeroed, empty]
  | indirect => simp [Dinode.pointer, Dinode.setAddr]

/-- Entering a block into the indirect block changes one reference. -/
theorem Dinode.pointer_setWord {data : Nat → Sector} {bn b : Nat} (indirect : ip.addrs nDirect ≠ 0)
    (far : nDirect ≤ bn) (near : bn < maxFile) (narrow : b < 2 ^ 32) :
    ip.pointer (update data (ip.addrs nDirect)
        ((data (ip.addrs nDirect)).setWord (bn - nDirect) b)) =
      update (ip.pointer data) (.block bn) b := by
  funext slot
  cases slot with
  | block n =>
    by_cases direct : n < nDirect
    · have apart : n ≠ bn := by omega
      simp [Dinode.pointer, Dinode.lookup, direct, apart]
    · by_cases inside : n < maxFile
      · have index : n - nDirect = bn - nDirect ↔ n = bn := by omega
        by_cases same : n = bn
        · simp [Dinode.pointer, Dinode.lookup, same, near, indirect,
            Sector.word_setWord _ _ _ narrow, show ¬ bn < nDirect by omega]
        · simp [Dinode.pointer, Dinode.lookup, direct, inside, indirect, index, same,
            Sector.word_setWord _ _ _ narrow]
      · have apart : n ≠ bn := by omega
        simp [Dinode.pointer, Dinode.lookup, direct, inside, apart]
  | indirect => simp [Dinode.pointer]

variable {c : Nat}

namespace Disk

variable {d d' : Disk} {ino ino' : Nat → Dinode} {count : Nat → Nat} {i k bn b : Nat}

/-- The inode is in the inode blocks and allocated. -/
def Allocated (d : Disk) (ino : Nat → Dinode) (i : Nat) : Prop :=
  i < d.sb.table ∧ (ino i).type ≠ .free

instance (d : Disk) (ino : Nat → Dinode) (i : Nat) : Decidable (d.Allocated ino i) :=
  inferInstanceAs (Decidable (_ ∧ _))

/-- The block that a place of an allocated inode refers to. -/
def pointer (d : Disk) (ino : Nat → Dinode) (place : Nat × BlockSlot) : Nat :=
  if d.Allocated ino place.1 then (ino place.1).pointer d.data place.2 else 0

/-- A data block that is marked in the free map. -/
def InUse (d : Disk) (b : Nat) : Prop := d.sb.datastart ≤ b ∧ b < d.sb.size ∧ d.used b = true

/-- The blocks that `balloc` can hand out. -/
def freeBlocks (d : Disk) : Finset Nat := (Finset.range d.sb.size).filter fun b => d.used b = false

/-- The marked data blocks are those that inodes refer to, each from one place. -/
structure Allotted (d : Disk) (ino : Nat → Dinode) : Prop where
  holding : Holding 0 (d.pointer ino) d.InUse
  metadata : ∀ b, b < d.sb.datastart → d.used b = true

/-- An inode refers to its first blocks, up to a count, and to an indirect block when these
are more than its own entries can hold. -/
structure Filled (pointer : BlockSlot → Nat) (count : Nat) : Prop where
  bound : count ≤ maxFile
  block : ∀ bn, pointer (.block bn) ≠ 0 ↔ bn < count
  indirect : pointer .indirect ≠ 0 ↔ nDirect < count

/-- The blocks are allotted, and every allocated inode refers to as many as counted. -/
structure Layout (d : Disk) (ino : Nat → Dinode) (count : Nat → Nat) : Prop
    extends d.Allotted ino where
  filled : ∀ i, d.Allocated ino i → Filled (fun slot => d.pointer ino (i, slot)) (count i)

/-- The blocks that hold the given number of bytes. -/
def blocksFor (size : Nat) : Nat := (size + (bsize - 1)) / bsize

/-- The disk between calls. -/
def Consistent (d : Disk) : Prop := d.Layout d.dinode fun i => blocksFor (d.dinode i).size

/-! ## What inodes refer to -/

theorem pointer_allocated (allocated : d.Allocated ino i) (slot : BlockSlot) :
    d.pointer ino (i, slot) = (ino i).pointer d.data slot := if_pos allocated

theorem pointer_free (absent : ¬ d.Allocated ino i) (slot : BlockSlot) :
    d.pointer ino (i, slot) = 0 := if_neg absent

theorem pointer_congr (table : d'.sb.table = d.sb.table)
    (same : ∀ j, d.Allocated ino j →
      d'.data ((ino j).addrs nDirect) = d.data ((ino j).addrs nDirect)) :
    d'.pointer ino = d.pointer ino := by
  funext place
  have allocated : d'.Allocated ino place.1 ↔ d.Allocated ino place.1 := by
    rw [Allocated, Allocated, table]
  by_cases there : d.Allocated ino place.1
  · rw [pointer, pointer, if_pos there, if_pos (allocated.mpr there),
      Dinode.pointer_congr (same _ there)]
  · rw [pointer, pointer, if_neg there, if_neg (mt allocated.mp there)]

/-- Replacing an allocated inode by an allocated one keeps which inodes are allocated. -/
theorem allocated_update (type : ip.type = (ino i).type) (j : Nat) :
    d.Allocated (update ino i ip) j ↔ d.Allocated ino j := by
  by_cases same : j = i
  · subst same
    rw [Allocated, Allocated, update_self, type]
  · rw [Allocated, Allocated, update_of_ne same]

theorem pointer_update (type : ip.type = (ino i).type) (place : Nat × BlockSlot) :
    d.pointer (update ino i ip) place =
      if d.Allocated ino i ∧ place.1 = i then ip.pointer d.data place.2
      else d.pointer ino place := by
  by_cases same : place.1 = i
  · by_cases there : d.Allocated ino i
    · rw [pointer, same, if_pos ((allocated_update type i).mpr there), update_self,
        if_pos ⟨there, rfl⟩]
    · rw [pointer, pointer, same, if_neg (mt (allocated_update type i).mp there), if_neg there,
        if_neg (fun both => there both.1)]
  · rw [if_neg (fun both => same both.2)]
    by_cases there : d.Allocated ino place.1
    · rw [pointer, pointer, if_pos ((allocated_update type _).mpr there), if_pos there,
        update_of_ne same]
    · rw [pointer, pointer, if_neg (mt (allocated_update type _).mp there), if_neg there]

theorem pointer_entry {slot : BlockSlot} (allocated : d.Allocated ino i)
    (type : ip.type = (ino i).type)
    (changed : ip.pointer d.data = update ((ino i).pointer d.data) slot b) :
    d.pointer (update ino i ip) = update (d.pointer ino) (i, slot) b := by
  funext ⟨j, other⟩
  rw [pointer_update type, changed]
  by_cases same : j = i
  · subst same
    by_cases here : other = slot
    · subst here
      simp [allocated]
    · simp [allocated, here, pointer_allocated allocated]
  · simp [same]

/-! ## Allocation -/

theorem mem_freeBlocks : b ∈ d.freeBlocks ↔ b < d.sb.size ∧ d.used b = false := by
  simp [freeBlocks]

theorem balloc_full (full : d.freeBlocks = ∅) :
    d.balloc = .error (.panic "balloc: out of blocks") := by
  have none : (List.range d.sb.size).find? (fun b => !d.used b) = none := by
    rw [List.find?_eq_none]
    intro b member
    have absent : b ∉ d.freeBlocks := by simp [full]
    rw [mem_freeBlocks] at absent
    rw [List.mem_range] at member
    simpa [member] using absent
  rw [balloc, none]

theorem balloc_takes (some : d.freeBlocks.Nonempty) :
    ∃ b ∈ d.freeBlocks, d.balloc = .ok (b, d.take b) := by
  cases found : (List.range d.sb.size).find? (fun b => !d.used b) with
  | none =>
    obtain ⟨b, free⟩ := some
    rw [mem_freeBlocks] at free
    rw [List.find?_eq_none] at found
    have marked := found b (List.mem_range.mpr free.1)
    simp [free.2] at marked
  | some b =>
    refine ⟨b, ?_, ?_⟩
    · have member := List.mem_of_find?_eq_some found
      have unmarked := List.find?_some found
      rw [mem_freeBlocks]
      exact ⟨List.mem_range.mp member, by simpa using unmarked⟩
    · rw [balloc, found]

theorem take_freeBlocks : (d.take b).freeBlocks = d.freeBlocks.erase b := by
  ext c
  by_cases same : c = b
  · subst same
    simp [mem_freeBlocks, take]
  · simp [mem_freeBlocks, take, same]

theorem Allotted.fresh (allotted : d.Allotted ino) (free : b ∈ d.freeBlocks) :
    d.sb.datastart ≤ b ∧ ¬ d.InUse b ∧ b ≠ 0 := by
  rw [mem_freeBlocks] at free
  have data : d.sb.datastart ≤ b := by
    by_contra before
    have marked := allotted.metadata b (by omega)
    rw [free.2] at marked
    cases marked
  refine ⟨data, ?_, ?_⟩
  · intro inUse
    rw [InUse, free.2] at inUse
    cases inUse.2.2
  · have positive : 0 < d.sb.datastart := Nat.add_pos_right _ (Nat.succ_pos _)
    omega

theorem Allotted.unreferenced (allotted : d.Allotted ino) (free : b ∈ d.freeBlocks)
    (place : Nat × BlockSlot) : d.pointer ino place ≠ b := by
  have fresh := allotted.fresh free
  exact allotted.holding.not_held fresh.2.1 fresh.2.2 place

theorem Allotted.take_pointer (allotted : d.Allotted ino) (free : b ∈ d.freeBlocks) :
    (d.take b).pointer ino = d.pointer ino := by
  apply pointer_congr (show (d.take b).sb.table = d.sb.table from rfl)
  intro j there
  have apart := allotted.unreferenced free (j, .indirect)
  rw [pointer_allocated there] at apart
  exact update_of_ne apart ..

/-- The disk after a block has been entered at a place of an inode. -/
structure Gains (d : Disk) (ino : Nat → Dinode) (d' : Disk) (ino' : Nat → Dinode)
    (place : Nat × BlockSlot) (b : Nat) : Prop where
  sb : d'.sb = d.sb
  devsw : d'.devsw = d.devsw
  dinode : d'.dinode = d.dinode
  allocated : ∀ j, d'.Allocated ino' j ↔ d.Allocated ino j
  empty : d.pointer ino place = 0
  free : b ∈ d.freeBlocks
  used : d'.used = Function.update d.used b true
  /-- The place refers to the block, and the other places to what they did. -/
  pointer : d'.pointer ino' = Function.update (d.pointer ino) place b
  data : ∀ j n, d.pointer ino (j, .block n) ≠ 0 →
    d'.data (d.pointer ino (j, .block n)) = d.data (d.pointer ino (j, .block n))

theorem Gains.freeBlocks {place : Nat × BlockSlot} (gains : d.Gains ino d' ino' place b) :
    d'.freeBlocks = d.freeBlocks.erase b := by
  ext c
  by_cases same : c = b
  · subst same
    simp [mem_freeBlocks, gains.used]
  · simp [mem_freeBlocks, gains.used, gains.sb, same]

theorem Gains.card {place : Nat × BlockSlot} (gains : d.Gains ino d' ino' place b) :
    d'.freeBlocks.card + 1 = d.freeBlocks.card := by
  rw [gains.freeBlocks]
  exact Finset.card_erase_add_one gains.free

theorem Gains.allotted {place : Nat × BlockSlot} (gains : d.Gains ino d' ino' place b)
    (allotted : d.Allotted ino) : d'.Allotted ino' where
  holding := by
    obtain ⟨data, unused, real⟩ := allotted.fresh gains.free
    have claimed := allotted.holding.claim gains.empty unused real
    apply claimed.congr
    · intro place'
      rw [gains.pointer]
    · intro c
      have inside := (mem_freeBlocks.mp gains.free).1
      rw [InUse, InUse, gains.sb, gains.used]
      by_cases same : c = b
      · subst same
        simp [data, inside]
      · simp [same]
  metadata := by
    intro c before
    rw [gains.sb] at before
    rw [gains.used]
    by_cases same : c = b
    · simp [same]
    · rw [update_of_ne same]
      exact allotted.metadata c before

theorem Allotted.take_gains (allotted : d.Allotted ino) (allocated : d.Allocated ino i)
    (free : b ∈ d.freeBlocks) {slot : BlockSlot} (empty : d.pointer ino (i, slot) = 0)
    (type : ip.type = (ino i).type)
    (changed : ip.pointer (d.take b).data =
      update ((ino i).pointer (d.take b).data) slot b) :
    d.Gains ino (d.take b) (update ino i ip) (i, slot) b where
  sb := rfl
  devsw := rfl
  dinode := rfl
  allocated := allocated_update type
  empty := empty
  free := free
  used := rfl
  pointer := by
    have there : (d.take b).Allocated ino i := allocated
    rw [pointer_entry there type changed, allotted.take_pointer free]
  data := by
    intro j n _
    exact update_of_ne (allotted.unreferenced free (j, .block n)) ..

theorem Allotted.gains_direct (allotted : d.Allotted ino) (allocated : d.Allocated ino i)
    (free : b ∈ d.freeBlocks) (direct : bn < nDirect)
    (empty : d.pointer ino (i, .block bn) = 0) :
    d.Gains ino (d.take b) (update ino i ((ino i).setAddr bn b)) (i, .block bn) b :=
  allotted.take_gains allocated free empty rfl (Dinode.pointer_setAddr _ _ b direct)

theorem Allotted.gains_indirect (allotted : d.Allotted ino) (allocated : d.Allocated ino i)
    (free : b ∈ d.freeBlocks) (empty : d.pointer ino (i, .indirect) = 0) :
    d.Gains ino (d.take b) (update ino i ((ino i).setAddr nDirect b)) (i, .indirect) b := by
  have none := empty
  rw [pointer_allocated allocated] at none
  exact allotted.take_gains allocated free empty rfl
    (Dinode.pointer_setIndirect none (update_self ..))

/-- `balloc` for a block that the indirect block refers to. -/
theorem Allotted.gains_far (allotted : d.Allotted ino) (allocated : d.Allocated ino i)
    (free : b ∈ d.freeBlocks) (indirect : (ino i).addrs nDirect ≠ 0) (far : nDirect ≤ bn)
    (near : bn < maxFile) (empty : d.pointer ino (i, .block bn) = 0) :
    d.Gains ino
      ((d.take b).setData ((ino i).addrs nDirect)
        ((d.data ((ino i).addrs nDirect)).setWord (bn - nDirect) b))
      ino (i, .block bn) b where
  sb := rfl
  devsw := rfl
  dinode := rfl
  allocated := fun _ => Iff.rfl
  empty := empty
  free := free
  used := rfl
  pointer := by
    have narrow : b < 2 ^ 32 := by
      have inside := (mem_freeBlocks.mp free).1
      have size := d.sb.narrow
      omega
    have same : (d.take b).data ((ino i).addrs nDirect) = d.data ((ino i).addrs nDirect) := by
      have apart := allotted.unreferenced free (i, .indirect)
      rw [pointer_allocated allocated] at apart
      exact update_of_ne apart ..
    funext ⟨j, slot⟩
    by_cases here : j = i
    · subst here
      have there : ((d.take b).setData ((ino j).addrs nDirect)
        ((d.data ((ino j).addrs nDirect)).setWord (bn - nDirect) b)).Allocated ino j := allocated
      rw [pointer_allocated there, ← same, setData,
        Dinode.pointer_setWord indirect far near narrow, Dinode.pointer_congr same]
      by_cases atSlot : slot = .block bn
      · subst atSlot
        simp
      · simp [atSlot, pointer_allocated allocated]
    · rw [update_of_ne (by simp [here]), ← allotted.take_pointer free]
      by_cases there : d.Allocated ino j
      · have other : (ino j).addrs nDirect ≠ (ino i).addrs nDirect := by
          intro shared
          have single := allotted.holding.single (i, .indirect) (j, .indirect)
          rw [pointer_allocated allocated, pointer_allocated there] at single
          have equal := single indirect shared.symm
          exact here (congrArg Prod.fst equal).symm
        rw [pointer_allocated (d := (d.take b).setData _ _) there,
          pointer_allocated (d := d.take b) there]
        exact congrFun (Dinode.pointer_congr (update_of_ne other ..)) slot
      · rw [pointer_free (d := (d.take b).setData _ _) there, pointer_free (d := d.take b) there]
  data := by
    intro j n full
    have apart : d.pointer ino (j, .block n) ≠ (ino i).addrs nDirect := by
      intro shared
      have single := allotted.holding.single (j, .block n) (i, .indirect) full
      rw [pointer_allocated allocated] at single
      have equal := single shared
      cases congrArg Prod.snd equal
    have fresh := allotted.unreferenced free (j, .block n)
    exact (update_of_ne apart ..).trans (update_of_ne fresh ..)

theorem Filled.next {pointer : BlockSlot → Nat} (filled : Filled pointer k) (room : k < maxFile)
    (other : k ≠ nDirect) (real : b ≠ 0) :
    Filled (update pointer (.block k) b) (k + 1) where
  bound := room
  block := by
    intro n
    by_cases same : n = k
    · simp [same, real]
    · rw [update_of_ne (by simp [same]), filled.block]
      omega
  indirect := by
    rw [update_of_ne (by simp), filled.indirect]
    omega

/-- The first block that needs the indirect block, and the indirect block before it. -/
theorem Filled.next_indirect {pointer : BlockSlot → Nat} (filled : Filled pointer nDirect)
    (realIndirect : c ≠ 0) (real : b ≠ 0) :
    Filled (update (update pointer .indirect c) (.block nDirect) b)
      (nDirect + 1) where
  bound := by decide
  block := by
    intro n
    by_cases same : n = nDirect
    · simp [same, real]
    · rw [update_of_ne (by simp [same]), update_of_ne (by simp), filled.block]
      omega
  indirect := by simp [realIndirect]

/-- The blocks that a file with so many blocks takes, its indirect block included. -/
def cost (count : Nat) : Nat := count + if nDirect < count then 1 else 0

/-- The disk after blocks have been added to files: what was there is still there. -/
structure Grows (d : Disk) (ino : Nat → Dinode) (d' : Disk) (ino' : Nat → Dinode) : Prop where
  sb : d'.sb = d.sb
  devsw : d'.devsw = d.devsw
  dinode : d'.dinode = d.dinode
  allocated : ∀ j, d'.Allocated ino' j ↔ d.Allocated ino j
  pointer : ∀ place, d.pointer ino place ≠ 0 → d'.pointer ino' place = d.pointer ino place
  data : ∀ j n, d.pointer ino (j, .block n) ≠ 0 →
    d'.data (d.pointer ino (j, .block n)) = d.data (d.pointer ino (j, .block n))

theorem Grows.refl (d : Disk) (ino : Nat → Dinode) : d.Grows ino d ino where
  sb := rfl
  devsw := rfl
  dinode := rfl
  allocated := fun _ => Iff.rfl
  pointer := fun _ _ => rfl
  data := fun _ _ _ => rfl

theorem Grows.trans {d'' : Disk} {ino'' : Nat → Dinode} (first : d.Grows ino d' ino')
    (second : d'.Grows ino' d'' ino'') : d.Grows ino d'' ino'' where
  sb := second.sb.trans first.sb
  devsw := second.devsw.trans first.devsw
  dinode := second.dinode.trans first.dinode
  allocated := fun j => (second.allocated j).trans (first.allocated j)
  pointer := by
    intro place full
    have same := first.pointer place full
    rw [second.pointer place (by rw [same]; exact full), same]
  data := by
    intro j n full
    have same := first.pointer (j, .block n) full
    have kept := second.data j n (by rw [same]; exact full)
    rw [same] at kept
    rw [kept, first.data j n full]

theorem Gains.grows {place : Nat × BlockSlot} (gains : d.Gains ino d' ino' place b) :
    d.Grows ino d' ino' where
  sb := gains.sb
  devsw := gains.devsw
  dinode := gains.dinode
  allocated := gains.allocated
  pointer := by
    intro other full
    have apart : other ≠ place := by
      intro same
      rw [same] at full
      exact full gains.empty
    rw [gains.pointer, update_of_ne apart]
  data := gains.data

/-- What `bmap` leaves when it has added a block to a file of `k` blocks. -/
structure Extended (d : Disk) (ino : Nat → Dinode) (count : Nat → Nat) (i k : Nat) (b : Nat)
    (ip : Dinode) (d' : Disk) : Prop where
  layout : d'.Layout (Function.update ino i ip) (Function.update count i (k + 1))
  grows : d.Grows ino d' (Function.update ino i ip)
  pointer : d'.pointer (Function.update ino i ip) (i, .block k) = b
  fields : ip = { ino i with addrs := ip.addrs }
  card : d'.freeBlocks.card + cost (k + 1) = d.freeBlocks.card + cost k

theorem Layout.bmap_present (layout : d.Layout ino count) (allocated : d.Allocated ino i)
    (inside : bn < count i) :
    d.bmap (ino i) bn = .ok (d.pointer ino (i, .block bn), ino i, d) := by
  have filled := layout.filled i allocated
  have full := (filled.block bn).mpr inside
  have bound : bn < maxFile := lt_of_lt_of_le inside filled.bound
  simp only [pointer_allocated allocated, Dinode.pointer, Dinode.lookup] at full ⊢
  by_cases direct : bn < nDirect
  · rw [if_pos direct] at full ⊢
    rw [bmap, if_pos direct, if_neg full]
    rfl
  · have indirect : (ino i).addrs nDirect ≠ 0 := by
      have there := filled.indirect.mpr (by omega)
      rwa [pointer_allocated allocated] at there
    rw [if_neg direct, if_pos ⟨bound, indirect⟩] at full ⊢
    have near : bn - nDirect < nIndirect := by
      simp only [maxFile] at bound
      omega
    rw [bmap, if_neg direct, if_pos near, bmapIndirect, if_neg indirect]
    exact if_neg full

/-- When the blocks of other inodes stay, the layout holds with one more block of this one. -/
theorem Layout.extend (layout : d.Layout ino count)
    (allotted : d'.Allotted (update ino i ip))
    (kept : ∀ j, d'.Allocated (update ino i ip) j ↔ d.Allocated ino j)
    (others : ∀ j slot, j ≠ i →
      d'.pointer (update ino i ip) (j, slot) = d.pointer ino (j, slot))
    (filled : Filled (fun slot => d'.pointer (update ino i ip) (i, slot)) k) :
    d'.Layout (update ino i ip) (update count i k) where
  toAllotted := allotted
  filled := by
    intro j there
    by_cases same : j = i
    · subst same
      rw [update_self]
      exact filled
    · rw [update_of_ne same, funext fun slot => others j slot same]
      exact layout.filled j ((kept j).mp there)

/-- One block is entered for the next block of a file. -/
theorem Layout.extended (layout : d.Layout ino count) (allocated : d.Allocated ino i)
    (last : count i = k) (room : k < maxFile) (other : k ≠ nDirect)
    (gains : d.Gains ino d' (update ino i ip) (i, .block k) b)
    (fields : ip = { ino i with addrs := ip.addrs }) : d.Extended ino count i k b ip d' where
  layout := by
    have real := (layout.fresh gains.free).2.2
    have filled := layout.filled i allocated
    rw [last] at filled
    apply layout.extend (gains.allotted layout.toAllotted) gains.allocated
    · intro j slot apart
      rw [gains.pointer, update_of_ne (by simp [apart])]
    · have same : (fun slot => d'.pointer (update ino i ip) (i, slot)) =
          update (fun slot => d.pointer ino (i, slot)) (.block k) b := by
        funext slot
        rw [gains.pointer]
        by_cases here : slot = .block k
        · simp [here]
        · simp [here]
      rw [same]
      exact filled.next room other real
  grows := gains.grows
  pointer := by rw [gains.pointer, update_self]
  fields := fields
  card := by
    have less := gains.card
    have step : cost (k + 1) = cost k + 1 := by
      simp only [cost]
      split <;> split <;> omega
    omega

/-- The indirect block and the first block that it refers to are entered. -/
theorem Layout.extended_indirect (layout : d.Layout ino count) (allocated : d.Allocated ino i)
    (last : count i = nDirect) {d'' : Disk}
    (first : d.Gains ino d' (update ino i ip) (i, .indirect) c)
    (second : d'.Gains (update ino i ip) d'' (update ino i ip)
      (i, .block nDirect) b) (fields : ip = { ino i with addrs := ip.addrs }) :
    d.Extended ino count i nDirect b ip d'' where
  layout := by
    have allotted := first.allotted layout.toAllotted
    have realIndirect := (layout.fresh first.free).2.2
    have real := (allotted.fresh second.free).2.2
    have filled := layout.filled i allocated
    rw [last] at filled
    apply layout.extend (second.allotted allotted)
      fun j => (second.allocated j).trans (first.allocated j)
    · intro j slot apart
      rw [second.pointer, update_of_ne (by simp [apart]), first.pointer,
        update_of_ne (by simp [apart])]
    · have same : (fun slot => d''.pointer (update ino i ip) (i, slot)) =
          update (update (fun slot => d.pointer ino (i, slot)) .indirect c)
            (.block nDirect) b := by
        funext slot
        rw [second.pointer, first.pointer]
        by_cases atBlock : slot = .block nDirect
        · simp [atBlock]
        · by_cases atIndirect : slot = .indirect
          · simp [atIndirect]
          · simp [atBlock, atIndirect]
      rw [same]
      exact filled.next_indirect realIndirect real
  grows := first.grows.trans second.grows
  pointer := by rw [second.pointer, update_self]
  fields := fields
  card := by
    have lessFirst := first.card
    have lessSecond := second.card
    have step : cost (nDirect + 1) = cost nDirect + 2 := by decide
    omega

theorem Layout.missing (layout : d.Layout ino count) (allocated : d.Allocated ino i)
    (last : count i = k) : d.pointer ino (i, .block k) = 0 := by
  have filled := layout.filled i allocated
  rw [last] at filled
  exact not_not.mp ((filled.block k).not.mpr (lt_irrefl k))

theorem bmap_direct (direct : k < nDirect) (none : ip.addrs k = 0) :
    d.bmap ip k = (do
      let (addr, d) ← d.balloc
      pure (addr, ip.setAddr k addr, d)) := by
  rw [bmap, if_pos direct, if_pos none]

theorem bmap_far (far : nDirect ≤ k) (near : k < maxFile) (indirect : ip.addrs nDirect ≠ 0)
    (none : (d.data (ip.addrs nDirect)).word (k - nDirect) = 0) :
    d.bmap ip k = (do
      let (addr, after) ← d.balloc
      pure (addr, ip, after.setData (ip.addrs nDirect)
        ((d.data (ip.addrs nDirect)).setWord (k - nDirect) addr))) := by
  have inside : k - nDirect < nIndirect := by
    simp only [maxFile] at near
    omega
  rw [bmap, if_neg (by omega), if_pos inside, bmapIndirect, if_neg indirect]
  simp only [pure_bind, none, ↓reduceIte]

theorem bmap_first (none : ip.addrs nDirect = 0) (taken : d.balloc = .ok (c, d.take c)) :
    d.bmap ip nDirect = (do
      let (addr, after) ← (d.take c).balloc
      pure (addr, ip.setAddr nDirect c,
        after.setData c (((d.take c).data c).setWord (nDirect - nDirect) addr))) := by
  have blank : ((d.take c).data c).word (nDirect - nDirect) = 0 := by simp [take]
  have address : (ip.setAddr nDirect c).addrs nDirect = c := by simp [Dinode.setAddr]
  rw [bmap, if_neg (lt_irrefl nDirect), if_pos (by decide), bmapIndirect, if_pos none, taken]
  simp only [Outcome.ok_bind, pure_bind, address, blank, ↓reduceIte]

theorem Layout.bmap_next_direct (layout : d.Layout ino count) (allocated : d.Allocated ino i)
    (last : count i = k) (direct : k < nDirect) (free : b ∈ d.freeBlocks)
    (taken : d.balloc = .ok (b, d.take b)) :
    ∃ b ip d', d.bmap (ino i) k = .ok (b, ip, d') ∧ d.Extended ino count i k b ip d' := by
  have empty := layout.missing allocated last
  have none := empty
  rw [pointer_allocated allocated, Dinode.pointer, Dinode.lookup, if_pos direct] at none
  have gains := layout.gains_direct allocated free direct empty
  have room : k < maxFile := lt_of_lt_of_le direct (Nat.le_add_right _ _)
  refine ⟨b, (ino i).setAddr k b, d.take b, ?_, ?_⟩
  · rw [bmap_direct direct none, taken]
    rfl
  · exact layout.extended allocated last room (by omega) gains rfl

/-- `bmap` adds a block that the indirect block refers to. -/
theorem Layout.bmap_next_far (layout : d.Layout ino count) (allocated : d.Allocated ino i)
    (last : count i = k) (far : nDirect < k) (room : k < maxFile) (free : b ∈ d.freeBlocks)
    (taken : d.balloc = .ok (b, d.take b)) :
    ∃ b ip d', d.bmap (ino i) k = .ok (b, ip, d') ∧ d.Extended ino count i k b ip d' := by
  have empty := layout.missing allocated last
  have indirect : (ino i).addrs nDirect ≠ 0 := by
    have there := (layout.filled i allocated).indirect.mpr (by omega)
    rwa [pointer_allocated allocated] at there
  have none := empty
  rw [pointer_allocated allocated, Dinode.pointer, Dinode.lookup, if_neg (by omega),
    if_pos ⟨room, indirect⟩] at none
  have gains := layout.gains_far allocated free indirect (le_of_lt far) room empty
  have extended : d.Extended ino count i k b (ino i) _ :=
    layout.extended allocated last room (by omega)
      (by rw [update_eq_self]; exact gains) rfl
  refine ⟨b, ino i, _, ?_, extended⟩
  rw [bmap_far (le_of_lt far) room indirect none, taken]
  rfl

/-- `bmap` adds the indirect block and the first block that it refers to. -/
theorem Layout.bmap_next_first (layout : d.Layout ino count) (allocated : d.Allocated ino i)
    (last : count i = nDirect) (free : c ∈ d.freeBlocks) (taken : d.balloc = .ok (c, d.take c))
    (freeNext : b ∈ (d.take c).freeBlocks)
    (takenNext : (d.take c).balloc = .ok (b, (d.take c).take b)) :
    ∃ b ip d', d.bmap (ino i) nDirect = .ok (b, ip, d') ∧
      d.Extended ino count i nDirect b ip d' := by
  have empty : d.pointer ino (i, .indirect) = 0 := by
    have filled := layout.filled i allocated
    rw [last] at filled
    exact not_not.mp (filled.indirect.not.mpr (lt_irrefl nDirect))
  have none := empty
  rw [pointer_allocated allocated] at none
  have first := layout.gains_indirect allocated free empty
  have entered : (update ino i ((ino i).setAddr nDirect c) i).addrs nDirect = c := by
    simp [Dinode.setAddr]
  have stillEmpty : (d.take c).pointer (update ino i ((ino i).setAddr nDirect c))
      (i, .block nDirect) = 0 := by
    rw [first.pointer, update_of_ne (by simp)]
    exact layout.missing allocated last
  have second := (first.allotted layout.toAllotted).gains_far ((first.allocated i).mpr allocated)
    freeNext (by rw [entered]; exact (layout.fresh free).2.2) (le_refl nDirect) (by decide)
    stillEmpty
  refine ⟨b, (ino i).setAddr nDirect c, _, ?_,
    layout.extended_indirect allocated last first second rfl⟩
  rw [entered, bmap_first none taken, takenNext]
  rfl

/-- `bmap` adds the next block of a file when there are free blocks for it. -/
theorem Layout.bmap_next (layout : d.Layout ino count) (allocated : d.Allocated ino i)
    (last : count i = k) (room : k < maxFile)
    (enough : cost (k + 1) ≤ d.freeBlocks.card + cost k) :
    ∃ b ip d', d.bmap (ino i) k = .ok (b, ip, d') ∧ d.Extended ino count i k b ip d' := by
  have some : d.freeBlocks.Nonempty := by
    rw [← Finset.card_pos]
    simp only [cost] at enough
    split at enough <;> split at enough <;> omega
  obtain ⟨b, free, taken⟩ := balloc_takes some
  rcases lt_trichotomy k nDirect with direct | first | far
  · exact layout.bmap_next_direct allocated last direct free taken
  · subst first
    have more : (d.take b).freeBlocks.Nonempty := by
      have step : cost (nDirect + 1) = cost nDirect + 2 := by decide
      have less := Finset.card_erase_add_one free
      rw [← Finset.card_pos, take_freeBlocks]
      omega
    obtain ⟨c, freeNext, takenNext⟩ := balloc_takes more
    exact layout.bmap_next_first allocated last free taken freeNext takenNext
  · exact layout.bmap_next_far allocated last far room free taken

/-- `bmap` panics when there are not enough free blocks for the next block of a file. -/
theorem Layout.bmap_full (layout : d.Layout ino count) (allocated : d.Allocated ino i)
    (last : count i = k) (room : k < maxFile)
    (few : d.freeBlocks.card + cost k < cost (k + 1)) :
    d.bmap (ino i) k = .error (.panic "balloc: out of blocks") := by
  have empty := layout.missing allocated last
  have filled := layout.filled i allocated
  rw [last] at filled
  rw [pointer_allocated allocated, Dinode.pointer, Dinode.lookup] at empty
  rcases lt_trichotomy k nDirect with direct | first | far
  · have full : d.freeBlocks = ∅ := by
      rw [← Finset.card_eq_zero]
      simp only [cost, show ¬ nDirect < k by omega, show ¬ nDirect < k + 1 by omega,
        ↓reduceIte] at few
      omega
    rw [if_pos direct] at empty
    rw [bmap_direct direct empty, balloc_full full]
    rfl
  · subst first
    have none : (ino i).addrs nDirect = 0 := by
      have absent := not_not.mp (filled.indirect.not.mpr (lt_irrefl nDirect))
      rwa [pointer_allocated allocated] at absent
    have step : cost (nDirect + 1) = cost nDirect + 2 := by decide
    by_cases full : d.freeBlocks = ∅
    · rw [bmap, if_neg (lt_irrefl nDirect), if_pos (by decide), bmapIndirect, if_pos none,
        balloc_full full]
      rfl
    · obtain ⟨c, free, taken⟩ := balloc_takes (Finset.nonempty_iff_ne_empty.mpr full)
      have fullNext : (d.take c).freeBlocks = ∅ := by
        have less := Finset.card_erase_add_one free
        rw [← Finset.card_eq_zero, take_freeBlocks]
        omega
      rw [bmap_first none taken, balloc_full fullNext]
      rfl
  · have full : d.freeBlocks = ∅ := by
      rw [← Finset.card_eq_zero]
      simp only [cost, far, show nDirect < k + 1 by omega, ↓reduceIte] at few
      omega
    have indirect : (ino i).addrs nDirect ≠ 0 := by
      have there := filled.indirect.mpr far
      rwa [pointer_allocated allocated] at there
    rw [if_neg (by omega), if_pos ⟨room, indirect⟩] at empty
    rw [bmap_far (le_of_lt far) room indirect empty, balloc_full full]
    rfl

end Disk

end MemoryEncryption
