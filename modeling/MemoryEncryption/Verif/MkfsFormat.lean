import MemoryEncryption.Verif.MkfsRefinement
import MemoryEncryption.Verif.Directories
import Mathlib.Order.Interval.Finset.Nat

/-!
# The file system that mkfs makes

`mkfs` builds the root directory and adds the input files one after another; what it has
made so far is said of the disk that its image mirrors. Its last step rounds up the size
of the root directory, which can leave the directory with a last block that it does not
have, and writes the free map.
-/

namespace MemoryEncryption

open Function Outcome

/-- The bytes of an input file. -/
def HostFile.bytes (file : HostFile) : List Byte := file.reads.flatten

namespace Mkfs

variable {m m' : Mkfs} {d d' : Disk} {i : Nat} {files : List HostFile} {file : HostFile}

/-- The entries of the root directory. -/
def rootEntries (files : List HostFile) : List (List Byte × Nat) :=
  (dot, rootIno) :: (dotDot, rootIno) :: (files.zipIdx 2).map fun file => (file.1.stored, file.2)

/-- The bytes of directory entries. -/
def entryBytes (entries : List (List Byte × Nat)) : List Byte :=
  entries.flatMap fun entry => direntBytes entry.1 entry.2

/-- The blocks for the root directory and the files. -/
def blocksNeeded (files : List HostFile) : Nat :=
  Disk.cost (Disk.blocksFor (direntSize * (2 + files.length))) +
    (files.map fun file => Disk.cost (Disk.blocksFor file.bytes.length)).sum

/-- The inode has the type, one link and the bytes. -/
structure Node (d : Disk) (i : Nat) (type : FileType) (bytes : List Byte) : Prop where
  /-- The type. -/
  type : (d.dinode i).type = type
  /-- The number of links. -/
  nlink : (d.dinode i).nlink = 1
  /-- The bytes. -/
  bytes : (d.dinode i).contents d.data = bytes

/-- What `mkfs` has put on the disk when it has added the files. -/
structure Made (files : List HostFile) (m : Mkfs) (d : Disk) : Prop where
  mirrors : Mirrors m d
  consistent : d.Consistent
  freeinode : m.freeinode = 2 + files.length
  unused : ∀ i, m.freeinode ≤ i → (d.dinode i).type = .free
  root : Node d rootIno .dir (entryBytes (rootEntries files))
  file : ∀ n file, files[n]? = some file → Node d (2 + n) .file file.bytes
  card : d.freeBlocks.card + blocksNeeded files = fsSize - nMeta

theorem Node.size {type : FileType} {bytes : List Byte} (node : Node d i type bytes) :
    (d.dinode i).size = bytes.length := by
  rw [← node.bytes, Disk.length_contents]

theorem Node.allocated {type : FileType} {bytes : List Byte} (node : Node d i type bytes)
    (mirrors : Mirrors m d) (inside : i < Mkfs.sb.table) (typed : type ≠ .free) :
    d.Allocated d.dinode i := by
  refine ⟨by rwa [mirrors.sb], ?_⟩
  rwa [node.type]

theorem Appended.node {type : FileType} {bytes src : List Byte} (appended : Appended d i src d')
    (node : Node d i type bytes) : Node d' i type (bytes ++ src) where
  type := appended.type.trans node.type
  nlink := appended.nlink.trans node.nlink
  bytes := by rw [appended.bytes, node.bytes]

theorem Appended.node_other {j : Nat} {type : FileType} {bytes src : List Byte}
    (appended : Appended d i src d') (other : j ≠ i) (allocated : d.Allocated d.dinode j)
    (node : Node d j type bytes) : Node d' j type bytes where
  type := by rw [appended.others j other, node.type]
  nlink := by rw [appended.others j other, node.nlink]
  bytes := by rw [appended.kept j other allocated, node.bytes]

theorem length_entryBytes (entries : List (List Byte × Nat)) :
    (entryBytes entries).length = direntSize * entries.length := by
  induction entries with
  | nil => rfl
  | cons entry entries ih =>
    rw [entryBytes, List.flatMap_cons, List.length_append, length_direntBytes]
    rw [entryBytes] at ih
    rw [ih, List.length_cons, Nat.mul_succ, Nat.add_comm]

theorem length_rootEntries (files : List HostFile) :
    (rootEntries files).length = 2 + files.length := by
  simp only [rootEntries, List.length_cons, List.length_map, List.length_zipIdx]
  omega

theorem entryBytes_append (files : List HostFile) (file : HostFile) :
    entryBytes (rootEntries (files ++ [file])) =
      entryBytes (rootEntries files) ++ direntBytes file.stored (2 + files.length) := by
  simp only [rootEntries, entryBytes, List.zipIdx_append, List.map_append, List.flatMap_cons,
    List.flatMap_append, List.append_assoc]
  simp

theorem blocksNeeded_append (files : List HostFile) (file : HostFile) :
    blocksNeeded (files ++ [file]) + Disk.cost (Disk.blocksFor (direntSize * (2 + files.length))) =
      blocksNeeded files + Disk.cost (Disk.blocksFor (direntSize * (2 + files.length) + direntSize)) +
        Disk.cost (Disk.blocksFor file.bytes.length) := by
  have longer : direntSize * (2 + (files ++ [file]).length) =
      direntSize * (2 + files.length) + direntSize := by
    rw [List.length_append, List.length_singleton, ← Nat.add_assoc, Nat.mul_succ]
  simp only [blocksNeeded, longer, List.map_append, List.sum_append, List.map_cons, List.map_nil,
    List.sum_cons, List.sum_nil]
  omega

/-- An empty file has been allocated, and nothing else has changed. -/
structure Created (d : Disk) (i : Nat) (type : FileType) (d' : Disk) : Prop where
  consistent : d'.Consistent
  freeBlocks : d'.freeBlocks = d.freeBlocks
  data : d'.data = d.data
  others : ∀ j, j ≠ i → d'.dinode j = d.dinode j
  node : Node d' i type []

theorem Created.node_other {j : Nat} {type kind : FileType} {bytes : List Byte}
    (created : Created d i type d') (other : j ≠ i) (node : Node d j kind bytes) :
    Node d' j kind bytes where
  type := by rw [created.others j other, node.type]
  nlink := by rw [created.others j other, node.nlink]
  bytes := by rw [created.others j other, created.data, node.bytes]

theorem Mirrors.ialloc (mirrors : Mirrors m d) (consistent : d.Consistent)
    (inside : m.freeinode < Mkfs.sb.table) (unused : (d.dinode m.freeinode).type = .free)
    (type : FileType) :
    ∃ m' d', m.ialloc type = .ok (m.freeinode, m') ∧ Mirrors m' d' ∧
      m'.freeinode = m.freeinode + 1 ∧ Created d m.freeinode type d' := by
  have narrow : ({ Dinode.zero with type, nlink := 1 } : Dinode).Narrow :=
    ⟨Nat.two_pow_pos 32, fun _ => Nat.two_pow_pos 32, fun _ _ => rfl⟩
  have next : Mirrors { m with freeinode := m.freeinode + 1 } d :=
    ⟨mirrors.sb, mirrors.super, mirrors.used, mirrors.header, mirrors.bound, mirrors.blank,
      mirrors.data, mirrors.dinode⟩
  obtain ⟨m', stored, mirrors', inodes, _⟩ := next.winode inside narrow
  refine ⟨m', _, ?_, mirrors', inodes, ?_, rfl, rfl, ?_, ?_, ?_, ?_⟩
  · rw [Mkfs.ialloc]
    simp only [stored, ok_bind]
    rfl
  · apply consistent.iupdate_unused (fun allocated => allocated.2 unused) _ rfl
    intro slot
    cases slot with
    | block bn => simp [Dinode.pointer, Dinode.lookup, Dinode.zero]
    | indirect => rfl
  · exact fun j other => update_of_ne other ..
  · simp [Disk.iupdate]
  · simp [Disk.iupdate]
  · simp [Disk.iupdate, Dinode.contents, Dinode.zero]

/-- The list of files fits: into the inodes, into the blocks, and each into a file, whichever
way the host returns its bytes. -/
structure Fits (files : List HostFile) : Prop where
  /-- There are inodes for the files. -/
  count : files.length ≤ nInodes - 2
  /-- There are blocks for the files. -/
  blocks : nMeta + blocksNeeded files ≤ fsSize
  /-- Each file can be stored. -/
  small : ∀ file ∈ files, file.bytes.length ≤ maxFile * bsize
  /-- What `read` returns before the end of a file. -/
  reads : ∀ file ∈ files, ∀ buf ∈ file.reads, buf ≠ [] ∧ buf.length ≤ bsize

theorem Fits.of_append {more : List HostFile} (fits : Fits (files ++ more)) : Fits files := by
  have count := fits.count
  have blocks := fits.blocks
  rw [List.length_append] at count
  refine ⟨by omega, ?_, fun file member => fits.small file (List.mem_append_left _ member),
    fun file member => fits.reads file (List.mem_append_left _ member)⟩
  have directory : Disk.cost (Disk.blocksFor (direntSize * (2 + files.length))) ≤
      Disk.cost (Disk.blocksFor (direntSize * (2 + (files ++ more).length))) := by
    apply Disk.cost_mono
    apply Disk.blocksFor_mono
    rw [List.length_append]
    exact Nat.mul_le_mul_left _ (by omega)
  simp only [blocksNeeded, List.map_append, List.sum_append] at blocks ⊢
  omega

theorem Made.addFile (made : Made files m d) (fits : Fits (files ++ [file])) :
    ∃ m₁ m₂ m' d', m.ialloc .file = .ok (m.freeinode, m₁) ∧
      m₁.iappend rootIno (direntBytes file.stored m.freeinode) = .ok m₂ ∧
      Mkfs.copy m.freeinode m₂ file.reads = .ok m' ∧ Made (files ++ [file]) m' d' := by
  have count := fits.count
  rw [List.length_append, List.length_singleton] at count
  have table : nInodes ≤ Mkfs.sb.table := by decide
  have inodes : rootIno < 2 ∧ 2 ≤ nInodes := by decide
  have number := made.freeinode
  obtain ⟨m₁, d₁, allocates, mirrors₁, next, created⟩ :=
    made.mirrors.ialloc made.consistent (by omega) (made.unused _ (le_refl _)) .file
  have fresh := created.node
  have same := created.freeBlocks
  have root := created.node_other (by omega) made.root
  have rootSize : (d₁.dinode rootIno).size = direntSize * (2 + files.length) := by
    rw [root.size, length_entryBytes, length_rootEntries]
  have entry : (direntBytes file.stored m.freeinode).length = direntSize := length_direntBytes ..
  have card := made.card
  have blocks := fits.blocks
  have more := blocksNeeded_append files file
  have member : file ∈ files ++ [file] := by simp
  have limit : direntSize * (2 + files.length) + direntSize ≤ maxFile * bsize := by
    have most : direntSize * nInodes ≤ maxFile * bsize := by decide
    refine le_trans ?_ most
    rw [← Nat.mul_succ]
    exact Nat.mul_le_mul_left _ (by omega)
  obtain ⟨m₂, d₂, enters, mirrors₂, second, next₂⟩ := mirrors₁.iappend
    created.consistent (root.allocated mirrors₁ (by omega) (by decide)) (by rwa [rootSize, entry])
    (by rw [rootSize, entry, same]; omega)
  have file₂ := second.node_other (by omega) (fresh.allocated mirrors₁ (by omega) (by decide)) fresh
  have size : (d₂.dinode m.freeinode).size + file.reads.flatten.length = file.bytes.length := by
    rw [file₂.size, List.length_nil, Nat.zero_add]
    rfl
  have none : Disk.cost (Disk.blocksFor (d₂.dinode m.freeinode).size) = 0 := by
    rw [file₂.size]
    rfl
  have card₂ := second.card
  rw [rootSize, entry, same] at card₂
  obtain ⟨m', d', copied, mirrors', third, next₃⟩ := mirrors₂.copy second.consistent
    (file₂.allocated mirrors₂ (by omega) (by decide))
    (fun buf part => (fits.reads file member buf part).1)
    (by rw [size]; exact fits.small file member) (by rw [size, none]; omega)
  have card₃ := third.card
  rw [size, none] at card₃
  have others : ∀ {j type bytes}, type ≠ .free → j < 2 + files.length → j ≠ rootIno →
      Node d j type bytes → Node d' j type bytes := by
    intro j type bytes typed before other there
    have first := created.node_other (by omega) there
    have after := second.node_other other (first.allocated mirrors₁ (by omega) typed) first
    exact third.node_other (by omega) (after.allocated mirrors₂ (by omega) typed) after
  have root₂ := second.node root
  refine ⟨m₁, m₂, m', d', allocates, enters, copied, mirrors', third.consistent, ?_, ?_, ?_, ?_, ?_⟩
  · rw [List.length_append, List.length_singleton]
    omega
  · intro j past
    rw [third.others j (by omega), second.others j (by omega),
      created.others j (by omega)]
    exact made.unused j (by omega)
  · rw [entryBytes_append, ← number]
    exact third.node_other (by omega) (root₂.allocated mirrors₂ (by omega) (by decide)) root₂
  · intro n stored there
    by_cases before : n < files.length
    · rw [List.getElem?_append_left before] at there
      exact others (by decide) (by omega) (by omega) (made.file n stored there)
    · rw [List.getElem?_append_right (by omega), List.getElem?_singleton] at there
      obtain ⟨last, rfl⟩ : n - files.length = 0 ∧ file = stored := by simpa using there
      rw [show 2 + n = m.freeinode by omega]
      exact third.node file₂
  · omega

theorem Made.addFiles {more : List HostFile} (made : Made files m d) (fits : Fits (files ++ more))
    (flat : ∀ file ∈ more, slash ∉ file.name) :
    ∃ m' d', m.addFiles more = .ok m' ∧ Made (files ++ more) m' d' := by
  induction more generalizing files m d with
  | nil =>
    refine ⟨m, d, rfl, ?_⟩
    rwa [List.append_nil]
  | cons file more ih =>
    have split : files ++ file :: more = (files ++ [file]) ++ more := by simp
    rw [split] at fits
    obtain ⟨m₁, m₂, m₃, d₃, allocates, enters, copied, made₃⟩ :=
      made.addFile (show Fits (files ++ [file]) from fits.of_append)
    obtain ⟨m', d', added, made'⟩ :=
      ih made₃ fits fun other member => flat other (List.mem_cons_of_mem _ member)
    refine ⟨m', d', ?_, split ▸ made'⟩
    rw [Mkfs.addFiles, if_neg (flat file List.mem_cons_self), allocates]
    simp only [ok_bind, enters, copied, added]

/-- The disk that the image mirrors at the start. -/
def startDisk : Disk where
  sb := Mkfs.sb
  devsw := fun _ => ⟨fun _ => none, fun _ => none⟩
  dinode := fun _ => .zero
  used := fun b => decide (b < nMeta)
  data := start.image

theorem startDisk_unallocated (i : Nat) : ¬ startDisk.Allocated startDisk.dinode i :=
  fun allocated => allocated.2 rfl

theorem startDisk_consistent : startDisk.Consistent where
  holding := by
    refine ⟨?_, ?_, ?_, ?_⟩
    · rintro ⟨after, _⟩
      exact absurd after (by decide)
    · intro place other held
      exact absurd (Disk.pointer_free (startDisk_unallocated _) place.2) held
    · intro place held
      exact absurd (Disk.pointer_free (startDisk_unallocated _) place.2) held
    · rintro b ⟨after, _, used⟩
      have before : b < nMeta := of_decide_eq_true used
      have after : nMeta ≤ b := datastart_eq ▸ after
      omega
  metadata := by
    intro b before
    exact decide_eq_true (datastart_eq ▸ before)
  filled := fun i allocated => absurd allocated (startDisk_unallocated i)

theorem start_blank {b : Nat} (other : b ≠ 1) : start.image b = fun _ => 0 := by
  simp only [start, update_of_ne other]

theorem dinode_blank (j : Nat) : Sector.dinode (fun _ => 0) j = .zero := by
  simp [Sector.dinode, Sector.word, Dinode.zero, FileType.ofCode]

theorem start_mirrors : Mirrors start startDisk where
  sb := rfl
  super := rfl
  used := fun _ => rfl
  header := le_refl _
  bound := by decide
  blank := by
    intro b free
    have free : nMeta ≤ b := free
    have first : 1 < nMeta := by decide
    exact start_blank (show b ≠ 1 by omega)
  data := fun _ _ => rfl
  dinode := by
    intro i _
    have first : 1 < Mkfs.sb.inodestart := by decide
    have after : Mkfs.sb.inodestart ≤ Mkfs.sb.iblock i := Nat.le_add_left ..
    have other : Mkfs.sb.iblock i ≠ 1 := by omega
    rw [start_blank other, dinode_blank]
    rfl

theorem card_startDisk : startDisk.freeBlocks.card = fsSize - nMeta := by
  have free : startDisk.freeBlocks = Finset.Ico nMeta fsSize := by
    ext b
    rw [Disk.mem_freeBlocks, Finset.mem_Ico]
    show b < fsSize ∧ decide (b < nMeta) = false ↔ _
    rw [decide_eq_false_iff_not]
    omega
  rw [free, Nat.card_Ico]

theorem makeRoot_made : ∃ m d, start.makeRoot = .ok m ∧ Made [] m d := by
  obtain ⟨m₁, d₁, allocates, mirrors₁, next, created⟩ :=
    start_mirrors.ialloc startDisk_consistent (by decide) rfl .dir
  have number : start.freeinode = rootIno := rfl
  rw [number] at allocates next created
  have root := created.node
  have inside : rootIno < Mkfs.sb.table := by decide
  have free : d₁.freeBlocks.card = fsSize - nMeta := by rw [created.freeBlocks, card_startDisk]
  have dotSize : (direntBytes dot rootIno).length = direntSize := length_direntBytes ..
  have dotDotSize : (direntBytes dotDot rootIno).length = direntSize := length_direntBytes ..
  obtain ⟨m₂, d₂, first, mirrors₂, one, next₂⟩ := mirrors₁.iappend created.consistent
    (root.allocated mirrors₁ inside (by decide)) (by rw [root.size, dotSize]; decide)
    (by rw [root.size, free, dotSize]; decide)
  have root₂ := one.node root
  have size₂ : (d₂.dinode rootIno).size = direntSize := by rw [root₂.size, List.nil_append, dotSize]
  have card₂ := one.card
  rw [root.size, free, dotSize] at card₂
  have needed : d₂.freeBlocks.card + 1 = fsSize - nMeta := card₂
  obtain ⟨m₃, d₃, second, mirrors₃, two, next₃⟩ := mirrors₂.iappend one.consistent
    (root₂.allocated mirrors₂ inside (by decide)) (by rw [size₂, dotDotSize]; decide)
    (by rw [size₂, dotDotSize]; exact Nat.le_add_left ..)
  have card₃ := two.card
  rw [size₂, dotDotSize] at card₃
  refine ⟨m₃, d₃, ?_, mirrors₃, two.consistent, ?_, ?_, ?_, ?_, ?_⟩
  · rw [makeRoot, allocates]
    simp only [ok_bind]
    rw [if_neg (by decide), first]
    exact second
  · rw [next₃, next₂, next]
    rfl
  · intro j past
    rw [next₃, next₂, next] at past
    have other : j ≠ rootIno := Nat.ne_of_gt past
    rw [two.others j other, one.others j other, created.others j other]
    rfl
  · exact two.node root₂
  · intro n file there
    simp at there
  · have same : d₃.freeBlocks.card + 1 = d₂.freeBlocks.card + 1 := card₃
    exact same.trans needed

/-! ## The finished image -/

/-- One round of the loop of `balloc`. -/
def mark (buf : Sector) (i : Nat) : Sector :=
  Function.update buf (i / 8) (buf (i / 8) ||| 1#8 <<< (i % 8))

theorem mark_bit (buf : Sector) (i b : Nat) :
    (mark buf i (b / 8)).getLsbD (b % 8) = ((buf (b / 8)).getLsbD (b % 8) || decide (b = i)) := by
  unfold mark
  by_cases byte : b / 8 = i / 8
  · rw [byte, update_self, BitVec.getLsbD_or, BitVec.getLsbD_shiftLeft, BitVec.getLsbD_one]
    congr 1
    by_cases same : b = i
    · simp [same, Nat.mod_lt]
    · have apart : b % 8 ≠ i % 8 := by omega
      rw [decide_eq_false same]
      by_cases less : b % 8 < i % 8
      · simp [less]
      · have left : b % 8 - i % 8 ≠ 0 := by omega
        simp [left]
  · have apart : b ≠ i := by
      rintro rfl
      exact byte rfl
    rw [update_of_ne byte, decide_eq_false apart, Bool.or_false]

theorem bits_range (used b : Nat) :
    ((List.range used).foldl mark (fun _ => 0) (b / 8)).getLsbD (b % 8) = decide (b < used) := by
  induction used with
  | zero => simp
  | succ used ih =>
    rw [List.range_succ, List.foldl_append, List.foldl_cons, List.foldl_nil, mark_bit, ih,
      ← Bool.decide_or]
    exact decide_eq_decide.mpr (by omega)

/-- The root directory after its size has been rounded up. -/
def roundUp (ip : Dinode) : Dinode := { ip with size := (ip.size / bsize + 1) * bsize }

/-- What the kernel finds on the finished image. -/
structure Seen (d : Disk) (image : DiskImage) : Prop where
  super : Mkfs.sb.Stored image
  dinode : ∀ i, i < Mkfs.sb.table → (image (Mkfs.sb.iblock i)).dinode (i % ipb) =
    Function.update d.dinode rootIno (roundUp (d.dinode rootIno)) i
  used : ∀ b, b < nBitmap * bpb →
    (image (Mkfs.sb.bblock b) (b % bpb / 8)).getLsbD (b % bpb % 8) = d.used b
  data : ∀ b, nMeta ≤ b → image b = d.data b

theorem Made.finish (made : Made files m d) :
    ∃ m', m.finish = .ok m' ∧ Seen d m'.image := by
  have inside : rootIno < Mkfs.sb.table := by decide
  have mirrors := made.mirrors
  have narrow : (d.dinode rootIno).Narrow := mirrors.dinode _ inside ▸ narrow_dinode _ _
  have size := made.consistent.size_le (made.root.allocated mirrors inside (by decide))
  have limit : maxFile * bsize + bsize < 2 ^ 32 := by decide
  have less : (d.dinode rootIno).size / bsize * bsize ≤ (d.dinode rootIno).size :=
    Nat.div_mul_le_self ..
  have rounded : (roundUp (d.dinode rootIno)).Narrow := by
    refine ⟨?_, narrow.addrs, narrow.few⟩
    show ((d.dinode rootIno).size / bsize + 1) * bsize < 2 ^ 32
    rw [Nat.succ_mul]
    omega
  obtain ⟨m₁, stored, mirrors₁, _, blocks⟩ := mirrors.winode inside rounded
  have bound := mirrors₁.bound
  have small : fsSize < bsize * 8 := by decide
  refine ⟨m₁.wsect Mkfs.sb.bmapstart ((List.range m₁.freeblock).foldl mark fun _ => 0),
    ?_, ?_, ?_, ?_, ?_⟩
  · rw [Mkfs.finish, mirrors.rinode inside]
    simp only [ok_bind]
    rw [← roundUp, stored]
    simp only [ok_bind]
    rw [Mkfs.balloc, if_neg (by omega)]
    rfl
  · rw [Superblock.Stored, wsect_other (by decide), mirrors₁.super]
    decide
  · intro i within
    have below := iblock_lt within
    have other : Mkfs.sb.iblock i ≠ Mkfs.sb.bmapstart := by omega
    rw [wsect_other other, ← mirrors₁.dinode i within]
    rfl
  · intro b within
    have within : b < bpb := within
    rw [Superblock.bblock, Nat.div_eq_of_lt within, Nat.zero_add, Nat.mod_eq_of_lt within]
    rw [wsect_self, bits_range, ← mirrors₁.used]
    rfl
  · intro b after
    have before := bmapstart_lt
    rw [wsect_other (by omega), ← mirrors₁.data b after]
    rfl

end Mkfs

end MemoryEncryption
