import MemoryEncryption.Kernel.Word

/-!
# Physical memory and the page allocator

Physical memory is frames of 1024 words; page directories, page tables and user
pages all live there. `kalloc.c` keeps the free frames in a list. The kernel's
queue of decrypted pages is touched by the code that frees pages, so a state
carries the current process's queue, of a type left open: results about frames
alone hold for every queue. One oracle lets any allocation fail, as it does when
another CPU empties the list first; another chooses the accessed and dirty bits,
which the hardware sets or, with a cached translation, leaves as they are.
-/

namespace MemoryEncryption

/-- The symbols of the linker script that the memory code uses, as physical page numbers. -/
structure Image where
  /-- `V2P(data)`, page-aligned by the linker script. -/
  dataPage : Nat
  /-- The first page after the kernel, `PGROUNDUP(V2P(end))`. -/
  endPage : Nat
  /-- Kernel text lies between `KERNLINK` and `data`. -/
  data_above : extMem / pgSize < dataPage
  /-- The data segment ends after it begins. -/
  end_above : dataPage ≤ endPage
  /-- The kernel fits in physical memory. -/
  end_below : endPage < physTop / pgSize

/-- Address of a page table entry: the frame of its page table and the index there. -/
structure PteAddr where
  /-- Frame of the page table. -/
  frame : Nat
  /-- Index of the entry. -/
  index : Nat
  deriving DecidableEq, Repr

/-- Physical memory, the allocator, and the queue of the process that is running. -/
structure Mem (σ : Type) where
  /-- Contents of each frame, word by word. -/
  word : Nat → Nat → Word
  /-- `kmem.freelist`, as frame numbers. -/
  freelist : List Nat
  /-- Outcomes forced on the next allocations: `true` lets one fail. -/
  oom : List Bool
  /-- Bits the hardware sets in an entry when the kernel next goes through a whole user page. -/
  marks : List Word
  /-- Clock queue of the current process. -/
  queue : σ

/-- What the memory code calls of the clock queue. -/
structure ClockOps (σ : Type) where
  /-- `cq_init`. -/
  init : σ
  /-- `cq_remove`. -/
  remove : σ → PteAddr → Except Halt σ
  /-- `cq_enset` in the address space of a directory, once the entry has been found. -/
  enset : Mem σ → (pgdir va : Nat) → PteAddr → Except Halt (Mem σ)

variable {σ : Type}

namespace Mem

/-- Store one word. -/
def set (m : Mem σ) (pte : PteAddr) (value : Word) : Mem σ :=
  { m with word := fun frame i =>
      (if frame = pte.frame ∧ i = pte.index then value else m.word frame i) }

/-- Replace the contents of a frame. -/
def setPage (m : Mem σ) (frame : Nat) (page : Nat → Word) : Mem σ :=
  { m with word := fun other i => (if other = frame then page i else m.word other i) }

/-- Load one word. -/
def get (m : Mem σ) (pte : PteAddr) : Word := m.word pte.frame pte.index

/-- Load one byte of a frame; words are stored in little-endian order. -/
def byte (m : Mem σ) (frame offset : Nat) : BitVec 8 :=
  (m.word frame (offset / 4)).extractLsb' (8 * (offset % 4)) 8

/-- Store one byte of a frame. -/
def setByte (m : Mem σ) (frame offset : Nat) (value : BitVec 8) : Mem σ :=
  let shift := 8 * (offset % 4)
  let old := m.word frame (offset / 4)
  m.set ⟨frame, offset / 4⟩
    ((old &&& ~~~(0xFF#32 <<< shift)) ||| (value.setWidth 32 <<< shift))

/-- `memmove` into a frame, from its given offset on. -/
def setBytes (m : Mem σ) (frame : Nat) : Nat → List (BitVec 8) → Mem σ
  | _, [] => m
  | offset, value :: rest => (m.setByte frame offset value).setBytes frame (offset + 1) rest

end Mem

/-- `kalloc`. The frame keeps whatever it held. -/
def kalloc (m : Mem σ) : Option Nat × Mem σ :=
  let rest := { m with oom := m.oom.tail }
  if m.oom.headD false then (none, rest)
  else
    match m.freelist with
    | [] => (none, rest)
    | frame :: frames => (some frame, { rest with freelist := frames })

/-- `kfree`. The link to the next free frame, which the source keeps in the frame itself, is the
list's. -/
def kfree (image : Image) (m : Mem σ) (frame : Nat) : Except Halt (Mem σ) :=
  if frame < image.endPage ∨ physTop / pgSize ≤ frame then .error (.panic "kfree")
  else .ok { m.setPage frame (fun _ => 0x01010101) with freelist := frame :: m.freelist }

/-! ## Reading back what was stored -/

namespace Mem

variable (m : Mem σ)

@[simp] theorem set_word (pte : PteAddr) (value : Word) (frame i : Nat) :
    (m.set pte value).word frame i =
      if frame = pte.frame ∧ i = pte.index then value else m.word frame i := rfl

@[simp] theorem set_freelist (pte : PteAddr) (value : Word) :
    (m.set pte value).freelist = m.freelist := rfl

@[simp] theorem set_queue (pte : PteAddr) (value : Word) : (m.set pte value).queue = m.queue := rfl

@[simp] theorem setPage_word (frame : Nat) (page : Nat → Word) (other i : Nat) :
    (m.setPage frame page).word other i = if other = frame then page i else m.word other i := rfl

@[simp] theorem setPage_freelist (frame : Nat) (page : Nat → Word) :
    (m.setPage frame page).freelist = m.freelist := rfl

@[simp] theorem setPage_queue (frame : Nat) (page : Nat → Word) :
    (m.setPage frame page).queue = m.queue := rfl

theorem setBytes_word_of_ne (frame offset : Nat) (bytes : List (BitVec 8)) {other : Nat}
    (distinct : other ≠ frame) (i : Nat) :
    (m.setBytes frame offset bytes).word other i = m.word other i := by
  induction bytes generalizing m offset with
  | nil => rfl
  | cons value rest ih =>
    rw [setBytes, ih, setByte]
    simp [distinct]

/-- Storing bytes leaves the allocator and the queue alone. -/
theorem setBytes_rest (frame offset : Nat) (bytes : List (BitVec 8)) :
    (m.setBytes frame offset bytes).freelist = m.freelist ∧
      (m.setBytes frame offset bytes).queue = m.queue := by
  induction bytes generalizing m offset with
  | nil => exact ⟨rfl, rfl⟩
  | cons value rest ih => exact ih _ _

theorem setBytes_oom (frame offset : Nat) (bytes : List (BitVec 8)) :
    (m.setBytes frame offset bytes).oom = m.oom := by
  induction bytes generalizing m offset with
  | nil => rfl
  | cons value rest ih => exact ih _ _

end Mem

/-- The two outcomes of an allocation: nothing but the oracle changes, or the first free frame is
taken off the list. -/
theorem kalloc_cases (m : Mem σ) :
    (∃ oom, kalloc m = (none, { m with oom := oom })) ∨
      ∃ oom frame rest, m.freelist = frame :: rest ∧
        kalloc m = (some frame, { m with oom := oom, freelist := rest }) := by
  simp only [kalloc]
  by_cases forced : m.oom.headD false = true
  · rw [if_pos forced]
    exact .inl ⟨_, rfl⟩
  · rw [if_neg forced]
    cases shape : m.freelist with
    | nil => exact .inl ⟨_, rfl⟩
    | cons frame rest => exact .inr ⟨_, frame, rest, rfl, rfl⟩

/-- `kalloc` does not fail by itself while the list lasts. -/
theorem kalloc_returns {m after : Mem σ} {found : Option Nat} (calm : m.oom = [])
    (some : m.freelist ≠ []) (result : kalloc m = (found, after)) :
    found ≠ none ∧ after.oom = [] ∧ after.freelist.length + 1 = m.freelist.length := by
  cases shape : m.freelist with
  | nil => exact absurd shape some
  | cons frame rest =>
    simp only [kalloc, calm, shape, List.headD_nil, Bool.false_eq_true, ↓reduceIte, List.tail_nil,
      Prod.mk.injEq] at result
    obtain ⟨rfl, rfl⟩ := result
    simp

/-- Freeing a frame between the kernel and the end of memory returns. -/
theorem kfree_returns {image : Image} (m : Mem σ) {frame : Nat} (lower : image.endPage ≤ frame)
    (upper : frame < physTop / pgSize) :
    kfree image m frame =
      .ok { m.setPage frame (fun _ => 0x01010101) with freelist := frame :: m.freelist } := by
  rw [kfree, if_neg (by omega)]

end MemoryEncryption
