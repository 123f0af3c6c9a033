import MemoryEncryption.Kernel.Crypt

/-!
# Loading a program

The part of `exec.c` that builds the new address space: the ELF headers, the
segments, the stack and the arguments. A file is its contents. The reads of the
argument strings in the caller's memory are taken as done. `none` stands for a jump
to the label `bad`.
-/

namespace MemoryEncryption

variable {σ : Type}

/-- The number stored in little-endian order. -/
def littleEndian : List (BitVec 8) → Nat
  | [] => 0
  | byte :: rest => byte.toNat + 256 * littleEndian rest

/-- The field of a header at an offset. -/
def headerField (header : List (BitVec 8)) (offset size : Nat) : Nat :=
  littleEndian ((header.drop offset).take size)

/-- A word in little-endian order. -/
def wordBytes (value : Nat) : List (BitVec 8) :=
  [value, value / 2 ^ 8, value / 2 ^ 16, value / 2 ^ 24].map (BitVec.ofNat 8)

/-- `struct elfhdr`, as far as `exec` reads it. -/
structure ElfHdr where
  /-- Must be `ELF_MAGIC`. -/
  magic : Nat
  /-- Address of the first instruction. -/
  entry : Nat
  /-- Offset of the program headers. -/
  phoff : Nat
  /-- Number of program headers. -/
  phnum : Nat

/-- `struct proghdr`, as far as `exec` reads it. -/
structure ProgHdr where
  /-- `ELF_PROG_LOAD` for a segment to load. -/
  type : Nat
  /-- Offset of the segment in the file. -/
  off : Nat
  /-- Address of the segment. -/
  vaddr : Nat
  /-- Bytes in the file. -/
  filesz : Nat
  /-- Bytes in memory. -/
  memsz : Nat

/-- `sizeof(struct elfhdr)`. -/
def elfHdrSize : Nat := 52
/-- `sizeof(struct proghdr)`. -/
def progHdrSize : Nat := 32
/-- `ELF_MAGIC`. -/
def elfMagic : Nat := 0x464C457F
/-- `ELF_PROG_LOAD`. -/
def elfProgLoad : Nat := 1
/-- `MAXARG`. -/
def maxArg : Nat := 32

/-- The fields of an ELF header. -/
def elfHdr (header : List (BitVec 8)) : ElfHdr :=
  ⟨headerField header 0 4, headerField header 24 4, headerField header 28 4,
    headerField header 44 2⟩

/-- The fields of a program header. -/
def progHdr (header : List (BitVec 8)) : ProgHdr :=
  ⟨headerField header 0 4, headerField header 4 4, headerField header 8 4,
    headerField header 16 4, headerField header 20 4⟩

/-- A header of the given size, if `readi` reads all of it. -/
def readHeader (file : List (BitVec 8)) (off size : Nat) : Option (List (BitVec 8)) :=
  (readi file off size).filter fun bytes => bytes.length = size

/-- The loop over the program headers; the result is the size of the image. -/
def loadSegments (image : Image) (ops : ClockOps σ) (pgdir : Nat) (file : List (BitVec 8)) :
    Nat → Mem σ → (off sz : Nat) → Except Halt (Option Nat × Mem σ)
  | 0, m, _, sz => .ok (some sz, m)
  | rounds + 1, m, off, sz =>
    match readHeader file off progHdrSize with
    | none => .ok (none, m)
    | some header =>
      let ph := progHdr header
      if ph.type ≠ elfProgLoad then
        loadSegments image ops pgdir file rounds m ((off + progHdrSize) % 2 ^ 32) sz
      else if ph.memsz < ph.filesz then .ok (none, m)
      else if (ph.vaddr + ph.memsz) % 2 ^ 32 < ph.vaddr then .ok (none, m)
      else do
        let (sz, m) ← allocuvm image ops m pgdir sz ((ph.vaddr + ph.memsz) % 2 ^ 32)
        if sz = 0 then .ok (none, m)
        else if ph.vaddr % pgSize ≠ 0 then .ok (none, m)
        else do
          let (done, m) ← loaduvm m pgdir ph.vaddr file ph.off ph.filesz
          if done then
            loadSegments image ops pgdir file rounds m ((off + progHdrSize) % 2 ^ 32) sz
          else .ok (none, m)

/-- The loop that pushes the argument strings; `ustack` holds their addresses so far. -/
def pushArgs (pgdir : Nat) : List (List (BitVec 8)) → Mem σ → (sp : Nat) → (ustack : List Nat) →
    Except Halt (Option (Nat × List Nat) × Mem σ)
  | [], m, sp, ustack => .ok (some (sp, ustack), m)
  | arg :: rest, m, sp, ustack =>
    if maxArg ≤ ustack.length then .ok (none, m)
    else do
      let sp := (sp + 2 ^ 32 - (arg.length + 1) % 2 ^ 32) % 2 ^ 32 / 4 * 4
      let (done, m) ← copyout pgdir (arg.length + 1) m sp (arg ++ [0])
      if done then pushArgs pgdir rest m sp (ustack ++ [sp])
      else .ok (none, m)

/-- The stack of the new image: two pages, the lower one inaccessible, and the arguments. The result
is the size and the stack pointer. -/
def setupStack (image : Image) (ops : ClockOps σ) (pgdir : Nat) (m : Mem σ) (sz : Nat)
    (argv : List (List (BitVec 8))) : Except Halt (Option (Nat × Nat) × Mem σ) := do
  let (sz, m) ← allocuvm image ops m pgdir (pgRoundUp sz) ((pgRoundUp sz + 2 * pgSize) % 2 ^ 32)
  if sz = 0 then .ok (none, m)
  else do
    let m ← clearpteu m pgdir ((sz + 2 ^ 32 - 2 * pgSize) % 2 ^ 32)
    let (pushed, m) ← pushArgs pgdir argv m sz []
    match pushed with
    | none => .ok (none, m)
    | some (sp, ustack) =>
      let argc := ustack.length
      let words := [0xFFFFFFFF, argc, (sp + 2 ^ 32 - (argc + 1) * 4) % 2 ^ 32] ++ ustack ++ [0]
      let sp := (sp + 2 ^ 32 - (3 + argc + 1) * 4) % 2 ^ 32
      let bytes := words.flatMap wordBytes
      let (done, m) ← copyout pgdir bytes.length m sp bytes
      if done then .ok (some (sz, sp), m) else .ok (none, m)

/-- A program ready to run. -/
structure Loaded where
  /-- The directory of its address space. -/
  pgdir : Nat
  /-- The size of its memory. -/
  sz : Nat
  /-- Its stack pointer. -/
  sp : Nat
  /-- Its first instruction. -/
  entry : Nat

/-- `exec` up to the point where it commits to the new image, with the label `bad`. -/
def loadImage (image : Image) (ops : ClockOps σ) (m : Mem σ) (file : List (BitVec 8))
    (argv : List (List (BitVec 8))) : Except Halt (Option Loaded × Mem σ) :=
  match readHeader file 0 elfHdrSize with
  | none => .ok (none, m)
  | some header =>
    let elf := elfHdr header
    if elf.magic ≠ elfMagic then .ok (none, m)
    else do
      let (pgdir, m) ← setupkvm image ops m
      match pgdir with
      | none => .ok (none, m)
      | some pgdir =>
        let (sz, m) ← loadSegments image ops pgdir file elf.phnum m elf.phoff 0
        let (stack, m) ← match sz with
          | none => .ok (none, m)
          | some sz => setupStack image ops pgdir m sz argv
        match stack with
        | none =>
          let m ← freevm image ops m pgdir
          .ok (none, m)
        | some (sz, sp) => .ok (some ⟨pgdir, sz, sp, elf.entry⟩, m)

/-- The loop of `exec` that encrypts the pages of the new image one by one. -/
def encryptAll (pgdir : Nat) : Nat → Mem σ → (i : Nat) → Except Halt (Mem σ)
  | 0, m, _ => .ok m
  | rounds + 1, m, i => do
    let (_, m) ← mencrypt m pgdir i 1
    encryptAll pgdir rounds m (i + pgSize)

end MemoryEncryption
