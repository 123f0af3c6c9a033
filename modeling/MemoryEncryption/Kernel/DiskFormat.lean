import MemoryEncryption.Kernel.Disk

/-!
# The format of the disk

Where the kernel finds inodes and the bits of the free map in the blocks of the disk, and
how they are encoded there: the structures and macros of `fs.h` as `ilock`, `iupdate` and
`balloc` use them. A number in a type field that is no file type counts as free; neither
the kernel nor `mkfs` stores one.
-/

namespace MemoryEncryption

/-- The blocks of a disk. -/
abbrev DiskImage := Nat → Sector

/-- The number of a file type. -/
def FileType.code : FileType → Nat
  | .free => 0
  | .dir => 1
  | .file => 2
  | .dev => 3

/-- The file type of a number. -/
def FileType.ofCode : Nat → FileType
  | 1 => .dir
  | 2 => .file
  | 3 => .dev
  | _ => .free

/-- `sizeof(struct dinode)` in words. -/
def dinodeWords : Nat := 16

/-- The words of a `struct dinode`. -/
def Dinode.word (ip : Dinode) : Nat → Nat
  | 0 => ip.type.code + 2 ^ 16 * ip.major.toNat
  | 1 => ip.minor.toNat + 2 ^ 16 * ip.nlink.toNat
  | 2 => ip.size
  | k + 3 => ip.addrs k

/-- `((struct dinode*)bp->data)[j]`. -/
def Sector.dinode (sector : Sector) (j : Nat) : Dinode where
  type := .ofCode (sector.word (dinodeWords * j) % 2 ^ 16)
  major := .ofNat 16 (sector.word (dinodeWords * j) / 2 ^ 16)
  minor := .ofNat 16 (sector.word (dinodeWords * j + 1))
  nlink := .ofNat 16 (sector.word (dinodeWords * j + 1) / 2 ^ 16)
  size := sector.word (dinodeWords * j + 2)
  addrs := fun k => if k ≤ nDirect then sector.word (dinodeWords * j + 3 + k) else 0

/-- `((struct dinode*)bp->data)[j] = *ip`. -/
def Sector.setDinode (sector : Sector) (j : Nat) (ip : Dinode) : Sector := fun k =>
  if k / (4 * dinodeWords) = j then .ofNat 8 (ip.word (k / 4 % dinodeWords) / 256 ^ (k % 4))
  else sector k

/-- `IBLOCK`. -/
def Superblock.iblock (sb : Superblock) (i : Nat) : Nat := i / ipb + sb.inodestart

/-- `BBLOCK`. -/
def Superblock.bblock (sb : Superblock) (b : Nat) : Nat := b / bpb + sb.bmapstart

/-- What `readsb` reads is the superblock. -/
def Superblock.Stored (sb : Superblock) (image : DiskImage) : Prop :=
  (image 1).word 0 = sb.size ∧ (image 1).word 2 = sb.ninodes ∧
    (image 1).word 5 = sb.inodestart ∧ (image 1).word 6 = sb.bmapstart

/-- What the kernel finds on a disk. -/
def Disk.ofImage (sb : Superblock) (devsw : Nat → Device) (image : DiskImage) : Disk where
  sb := sb
  devsw := devsw
  dinode := fun i => (image (sb.iblock i)).dinode (i % ipb)
  used := fun b => (image (sb.bblock b) (b % bpb / 8)).getLsbD (b % bpb % 8)
  data := image

/-- The numbers of an inode fit into its fields. -/
structure Dinode.Narrow (ip : Dinode) : Prop where
  /-- The size fits. -/
  size : ip.size < 2 ^ 32
  /-- The addresses fit. -/
  addrs : ∀ k, ip.addrs k < 2 ^ 32
  /-- There are no other addresses. -/
  few : ∀ k, nDirect < k → ip.addrs k = 0

theorem Sector.word_lt (sector : Sector) (j : Nat) : sector.word j < 2 ^ 32 := by
  have first := (sector (4 * j)).isLt
  have second := (sector (4 * j + 1)).isLt
  have third := (sector (4 * j + 2)).isLt
  have fourth := (sector (4 * j + 3)).isLt
  unfold Sector.word
  omega

theorem FileType.ofCode_code (type : FileType) : FileType.ofCode type.code = type := by
  cases type <;> rfl

theorem FileType.code_lt (type : FileType) : type.code < 4 := by
  cases type <;> decide

theorem Dinode.Narrow.word_lt {ip : Dinode} (narrow : ip.Narrow) (k : Nat) : ip.word k < 2 ^ 32 := by
  have type := ip.type.code_lt
  have major := ip.major.isLt
  have minor := ip.minor.isLt
  have nlink := ip.nlink.isLt
  match k with
  | 0 =>
    simp only [word]
    omega
  | 1 =>
    simp only [word]
    omega
  | 2 => exact narrow.size
  | k + 3 => exact narrow.addrs k

/-- A word of an inode that is stored is read back, and the other words stay. -/
theorem Sector.word_setDinode (sector : Sector) {ip : Dinode} (narrow : ip.Narrow) (j k : Nat) :
    (sector.setDinode j ip).word k =
      if k / dinodeWords = j then ip.word (k % dinodeWords) else sector.word k := by
  have place : ∀ r, r < 4 → (4 * k + r) / (4 * dinodeWords) = k / dinodeWords ∧
      (4 * k + r) / 4 % dinodeWords = k % dinodeWords ∧ (4 * k + r) % 4 = r := by
    unfold dinodeWords
    omega
  have zero := place 0 (by omega)
  rw [Nat.add_zero] at zero
  obtain ⟨first, index, byte⟩ := zero
  simp only [Sector.word, Sector.setDinode, first, index, byte, place 1 (by omega),
    place 2 (by omega), place 3 (by omega)]
  have small := narrow.word_lt (k % dinodeWords)
  split
  · simp only [BitVec.toNat_ofNat]
    omega
  · rfl

/-- An inode that is stored is read back, and the others stay. -/
theorem Sector.dinode_setDinode (sector : Sector) {ip : Dinode} (narrow : ip.Narrow) (j k : Nat) :
    (sector.setDinode j ip).dinode k = if k = j then ip else sector.dinode k := by
  have place : ∀ w, w < dinodeWords → (dinodeWords * k + w) / dinodeWords = k ∧
      (dinodeWords * k + w) % dinodeWords = w := by
    unfold dinodeWords
    omega
  have words : ∀ w, w < dinodeWords → (sector.setDinode j ip).word (dinodeWords * k + w) =
      if k = j then ip.word w else sector.word (dinodeWords * k + w) := by
    intro w less
    rw [word_setDinode sector narrow, (place w less).1, (place w less).2]
  have zero := words 0 (by decide)
  rw [Nat.add_zero] at zero
  have addrs : (fun a => if a ≤ nDirect then
      (sector.setDinode j ip).word (dinodeWords * k + 3 + a) else 0) = fun a =>
      if a ≤ nDirect then if k = j then ip.addrs a else sector.word (dinodeWords * k + 3 + a)
      else 0 := by
    funext a
    split
    case isTrue inside =>
      rw [Nat.add_assoc, words (3 + a) (by unfold dinodeWords nDirect at *; omega)]
      split
      · rw [Nat.add_comm 3 a]
        rfl
      · rfl
    case isFalse => rfl
  unfold Sector.dinode
  rw [addrs, zero, words 1 (by decide), words 2 (by decide)]
  by_cases same : k = j
  · have type := ip.type.code_lt
    have major := ip.major.isLt
    have minor := ip.minor.isLt
    have nlink := ip.nlink.isLt
    simp only [if_pos same, Dinode.word]
    have only : (fun a => if a ≤ nDirect then ip.addrs a else 0) = ip.addrs := by
      funext a
      split
      case isTrue => rfl
      case isFalse outside => exact (narrow.few a (by omega)).symm
    have typeEq : (ip.type.code + 2 ^ 16 * ip.major.toNat) % 2 ^ 16 = ip.type.code := by omega
    have majorEq : (ip.type.code + 2 ^ 16 * ip.major.toNat) / 2 ^ 16 = ip.major.toNat := by omega
    have nlinkEq : (ip.minor.toNat + 2 ^ 16 * ip.nlink.toNat) / 2 ^ 16 = ip.nlink.toNat := by omega
    have minorEq : BitVec.ofNat 16 (ip.minor.toNat + 2 ^ 16 * ip.nlink.toNat) = ip.minor := by
      apply BitVec.eq_of_toNat_eq
      rw [BitVec.toNat_ofNat]
      omega
    rw [only, typeEq, majorEq, nlinkEq, minorEq, FileType.ofCode_code, BitVec.ofNat_toNat,
      BitVec.ofNat_toNat, BitVec.setWidth_eq, BitVec.setWidth_eq]
  · simp only [if_neg same]

end MemoryEncryption
