import MemoryEncryption.Kernel.Word
import MemoryEncryption.Library.Outcome

/-!
# Blocks and the contents of inodes

The lower half of `fs.c`: the block allocator, `bmap`, `itrunc`, `readi` and `writei`.
The disk is taken apart as the superblock lays it out, into the inodes, the bits of
the free map and the blocks; what a call sees of it is what `bread` returns. The
functions take the in-memory copy of an inode and return it as they leave it: the
copy on the disk changes by `iupdate` only.
-/

namespace MemoryEncryption

/-- `BSIZE`, the bytes of a block. -/
def bsize : Nat := 512
/-- `NDIRECT`, the block addresses in an inode. -/
def nDirect : Nat := 12
/-- `NINDIRECT`, the block addresses in an indirect block. -/
def nIndirect : Nat := bsize / 4
/-- `MAXFILE`, the blocks of a file. -/
def maxFile : Nat := nDirect + nIndirect
/-- `IPB`, the inodes of a block. -/
def ipb : Nat := bsize / 64
/-- `BPB`, the bits of a block. -/
def bpb : Nat := bsize * 8
/-- `NDEV`, the devices in `devsw`. -/
def nDev : Nat := 10

/-- `struct superblock`, as far as the file system reads it. -/
structure Superblock where
  /-- Size of the file system image, in blocks. -/
  size : Nat
  /-- Number of inodes. -/
  ninodes : Nat
  /-- First inode block. -/
  inodestart : Nat
  /-- First free map block, after the inode blocks. -/
  bmapstart : Nat
  /-- Block numbers are of type `uint`. -/
  narrow : size < 2 ^ 32
  /-- The inode blocks hold the inodes. -/
  roomy : ninodes ≤ (bmapstart - inodestart) * ipb

theorem Superblock.oneBlock_roomy : 8 ≤ (3 - 2) * ipb := by decide

/-- The inodes that the inode blocks have room for. -/
def Superblock.table (sb : Superblock) : Nat := (sb.bmapstart - sb.inodestart) * ipb

/-- The first data block, after the free map. -/
def Superblock.datastart (sb : Superblock) : Nat := sb.bmapstart + (sb.size / bpb + 1)

/-- The type of an inode, where `free` is the type 0. -/
inductive FileType where
  /-- A free inode. -/
  | free
  /-- `T_DIR`. -/
  | dir
  /-- `T_FILE`. -/
  | file
  /-- `T_DEV`. -/
  | dev
  deriving DecidableEq, Repr

/-- `struct dinode`, and the copy of it in a `struct inode`. -/
structure Dinode where
  /-- File type. -/
  type : FileType
  /-- Major device number. -/
  major : BitVec 16
  /-- Minor device number. -/
  minor : BitVec 16
  /-- Number of links to the inode in the file system. -/
  nlink : BitVec 16
  /-- Size of the file in bytes. -/
  size : Nat
  /-- Data block addresses; the one at `NDIRECT` is that of the indirect block. -/
  addrs : Nat → Nat

/-- `memset(dip, 0, sizeof(*dip))`. -/
def Dinode.zero : Dinode := ⟨.free, 0, 0, 0, 0, fun _ => 0⟩

/-- `ip->addrs[i] = addr`. -/
def Dinode.setAddr (ip : Dinode) (i addr : Nat) : Dinode :=
  { ip with addrs := Function.update ip.addrs i addr }

/-- A file-system block, byte by byte. -/
abbrev Sector := Nat → Byte

/-- `((uint*)bp->data)[j]`, in little-endian order. -/
def Sector.word (sector : Sector) (j : Nat) : Nat :=
  (sector (4 * j)).toNat + 256 * (sector (4 * j + 1)).toNat +
    65536 * (sector (4 * j + 2)).toNat + 16777216 * (sector (4 * j + 3)).toNat

/-- `((uint*)bp->data)[j] = value`. -/
def Sector.setWord (sector : Sector) (j value : Nat) : Sector := fun k =>
  if k / 4 = j then .ofNat 8 (value / 256 ^ (k % 4)) else sector k

@[simp] theorem Sector.word_zero (j : Nat) : Sector.word (fun _ => 0#8) j = 0 := rfl

/-- A word that is stored is read back, and the other words stay. -/
theorem Sector.word_setWord (sector : Sector) (j k : Nat) {value : Nat} (narrow : value < 2 ^ 32) :
    (sector.setWord j value).word k = if k = j then value else sector.word k := by
  have quotient : ∀ r, r < 4 → (4 * k + r) / 4 = k := by omega
  have remainder : ∀ r, r < 4 → (4 * k + r) % 4 = r := by omega
  simp only [Sector.word, Sector.setWord, quotient 1 (by omega), quotient 2 (by omega),
    quotient 3 (by omega), remainder 1 (by omega), remainder 2 (by omega),
    remainder 3 (by omega), Nat.mul_div_cancel_left k (show 0 < 4 by omega),
    Nat.mul_mod_right]
  by_cases same : k = j
  · simp only [same, ↓reduceIte, BitVec.toNat_ofNat]
    omega
  · simp only [same, ↓reduceIte]

/-- `memmove(bp->data + start, bytes, ...)`. -/
def Sector.write (sector : Sector) (start : Nat) (bytes : List Byte) : Sector := fun k =>
  if start ≤ k ∧ k < start + bytes.length then bytes.getD (k - start) 0 else sector k

/-- An element of `devsw`. A null routine is one that always fails. -/
structure Device where
  /-- The bytes that `read` of so many bytes stores, or `none` for a negative result. -/
  read : Nat → Option (List Byte)
  /-- What `write` of the bytes returns, or `none` for a negative result. -/
  write : List Byte → Option Nat

/-- The disk, and the devices that inodes can stand for. -/
structure Disk where
  /-- `sb`. -/
  sb : Superblock
  /-- `devsw`. -/
  devsw : Nat → Device
  /-- The inodes in the inode blocks. -/
  dinode : Nat → Dinode
  /-- The bits of the free map. -/
  used : Nat → Bool
  /-- The blocks. -/
  data : Nat → Sector

namespace Disk

/-- `log_write` of a block with new contents. -/
def setData (d : Disk) (blockno : Nat) (sector : Sector) : Disk :=
  { d with data := Function.update d.data blockno sector }

@[simp] theorem setData_self (d : Disk) (blockno : Nat) (sector : Sector) :
    (d.setData blockno sector).data blockno = sector := Function.update_self ..

/-- `iupdate`. -/
def iupdate (d : Disk) (inum : Nat) (ip : Dinode) : Disk :=
  { d with dinode := Function.update d.dinode inum ip }

/-- Mark a block in use and zero it. -/
def take (d : Disk) (b : Nat) : Disk :=
  { d with used := Function.update d.used b true
           data := Function.update d.data b fun _ => 0 }

/-- `balloc`. -/
def balloc (d : Disk) : Except Halt (Nat × Disk) :=
  match (List.range d.sb.size).find? fun b => !d.used b with
  | some b => .ok (b, d.take b)
  | none => .error (.panic "balloc: out of blocks")

/-- `bfree`. -/
def bfree (d : Disk) (b : Nat) : Except Halt Disk :=
  if d.used b then .ok { d with used := Function.update d.used b false }
  else .error (.panic "freeing free block")

/-- The address of the indirect block in `bmap`, allocating it if necessary. -/
def bmapIndirect (d : Disk) (ip : Dinode) : Except Halt (Dinode × Disk) :=
  if ip.addrs nDirect = 0 then do
    let (addr, d) ← d.balloc
    pure (ip.setAddr nDirect addr, d)
  else pure (ip, d)

/-- `bmap`: the block address, with the inode and the disk after it. -/
def bmap (d : Disk) (ip : Dinode) (bn : Nat) : Except Halt (Nat × Dinode × Disk) :=
  if bn < nDirect then
    if ip.addrs bn = 0 then do
      let (addr, d) ← d.balloc
      pure (addr, ip.setAddr bn addr, d)
    else pure (ip.addrs bn, ip, d)
  else if bn - nDirect < nIndirect then do
    let (ip, d) ← d.bmapIndirect ip
    let indirect := ip.addrs nDirect
    let a := d.data indirect
    if a.word (bn - nDirect) = 0 then do
      let (addr, d) ← d.balloc
      pure (addr, ip, d.setData indirect (a.setWord (bn - nDirect) addr))
    else pure (a.word (bn - nDirect), ip, d)
  else .error (.panic "bmap: out of range")

/-- Free those of the addresses that are not zero, from left to right. -/
def bfreeEach : List Nat → Disk → Except Halt Disk
  | [], d => pure d
  | addr :: rest, d =>
    if addr = 0 then bfreeEach rest d
    else do
      let d ← d.bfree addr
      bfreeEach rest d

/-- `itrunc`, without its `iupdate`. -/
def truncate (d : Disk) (ip : Dinode) : Except Halt (Dinode × Disk) := do
  let d ← bfreeEach ((List.range nDirect).map ip.addrs) d
  let ip := { ip with addrs := fun i => if i < nDirect then 0 else ip.addrs i }
  let a := d.data (ip.addrs nDirect)
  if ip.addrs nDirect = 0 then pure ({ ip with size := 0 }, d)
  else do
    let d ← bfreeEach ((List.range nIndirect).map a.word) d
    let d ← d.bfree (ip.addrs nDirect)
    pure ({ ip.setAddr nDirect 0 with size := 0 }, d)

/-- `itrunc` of the inode with number `inum`. -/
def itrunc (d : Disk) (inum : Nat) (ip : Dinode) : Except Halt (Dinode × Disk) := do
  let (ip, d) ← d.truncate ip
  pure (ip, d.iupdate inum ip)

/-- The bytes of the `for` loop of `readi`, of which each round reads at least one. -/
def readLoop : Nat → Disk → Dinode → (off n : Nat) → Except Halt (List Byte × Dinode × Disk)
  | 0, d, ip, _, _ => pure ([], ip, d)
  | rounds + 1, d, ip, off, n =>
    if n = 0 then pure ([], ip, d)
    else do
      let (addr, ip, d) ← d.bmap ip (off / bsize)
      let m := min n (bsize - off % bsize)
      let bytes := (List.range m).map fun k => d.data addr (off % bsize + k)
      let (rest, ip, d) ← readLoop rounds d ip (off + m) (n - m)
      pure (bytes ++ rest, ip, d)

/-- `devsw[ip->major]`, when there is one. -/
def device (d : Disk) (ip : Dinode) : Option Device :=
  if ip.major.toInt < 0 ∨ (nDev : Int) ≤ ip.major.toInt then none
  else some (d.devsw ip.major.toNat)

/-- `readi`: the bytes it copies out, or `none` for its result -1. -/
def readi (d : Disk) (ip : Dinode) (off n : Nat) :
    Except Halt (Option (List Byte) × Dinode × Disk) :=
  if ip.type = .dev then pure ((d.device ip).bind fun device => device.read n, ip, d)
  else if ip.size < off ∨ (off + n) % 2 ^ 32 < off then pure (none, ip, d)
  else do
    let n := if ip.size < (off + n) % 2 ^ 32 then ip.size - off else n
    let (bytes, ip, d) ← readLoop n d ip off n
    pure (some bytes, ip, d)

/-- The `for` loop of `writei`, of which each round writes at least one byte. -/
def writeLoop : Nat → Disk → Dinode → (off : Nat) → List Byte → Except Halt (Dinode × Disk)
  | 0, d, ip, _, _ => pure (ip, d)
  | rounds + 1, d, ip, off, src =>
    if src = [] then pure (ip, d)
    else do
      let (addr, ip, d) ← d.bmap ip (off / bsize)
      let m := min src.length (bsize - off % bsize)
      let d := d.setData addr ((d.data addr).write (off % bsize) (src.take m))
      writeLoop rounds d ip (off + m) (src.drop m)

/-- `writei` of the inode with number `inum`: `none` is its result -1. -/
def writei (d : Disk) (inum : Nat) (ip : Dinode) (src : List Byte) (off : Nat) :
    Except Halt (Option Nat × Dinode × Disk) :=
  if ip.type = .dev then pure ((d.device ip).bind fun device => device.write src, ip, d)
  else if ip.size < off ∨ (off + src.length) % 2 ^ 32 < off then pure (none, ip, d)
  else if maxFile * bsize < (off + src.length) % 2 ^ 32 then pure (none, ip, d)
  else do
    let (ip, d) ← writeLoop src.length d ip off src
    let off := off + src.length
    if 0 < src.length ∧ ip.size < off then
      let ip := { ip with size := off }
      pure (some src.length, ip, d.iupdate inum ip)
    else pure (some src.length, ip, d)

end Disk

end MemoryEncryption
