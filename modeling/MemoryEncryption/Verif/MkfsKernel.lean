import MemoryEncryption.Verif.MkfsFormat

/-!
# What the kernel finds on an image of mkfs

The disk that the kernel reads from the finished image differs from the one that `mkfs`
was shown to fill in the size of the root directory and in the blocks before the data. Its
inodes refer to the same blocks and these hold the same bytes, so that `namei` finds the
files and `readi` returns what the host returned.
-/

namespace MemoryEncryption

open Function Outcome

namespace Mkfs

variable {m : Mkfs} {d : Disk} {i : Nat} {files : List HostFile} {image : DiskImage}

/-- The disk that the kernel finds on the image. -/
def kernelDisk (devsw : Nat → Device) (image : DiskImage) : Disk := .ofImage Mkfs.sb devsw image

variable (devsw : Nat → Device)

theorem Seen.dinode_root (seen : Seen d image) :
    (kernelDisk devsw image).dinode rootIno = roundUp (d.dinode rootIno) := by
  have inode := seen.dinode rootIno (by decide)
  rwa [update_self] at inode

theorem Seen.dinode_other (seen : Seen d image) (inside : i < Mkfs.sb.table) (other : i ≠ rootIno) :
    (kernelDisk devsw image).dinode i = d.dinode i := by
  have inode := seen.dinode i inside
  rwa [update_of_ne other] at inode

theorem Seen.fields (seen : Seen d image) (inside : i < Mkfs.sb.table) :
    ((kernelDisk devsw image).dinode i).type = (d.dinode i).type ∧
      ((kernelDisk devsw image).dinode i).nlink = (d.dinode i).nlink ∧
      ((kernelDisk devsw image).dinode i).addrs = (d.dinode i).addrs ∧
      (d.dinode i).size ≤ ((kernelDisk devsw image).dinode i).size := by
  by_cases root : i = rootIno
  · subst root
    rw [seen.dinode_root devsw]
    refine ⟨rfl, rfl, rfl, ?_⟩
    show _ ≤ ((d.dinode rootIno).size / bsize + 1) * bsize
    unfold bsize
    omega
  · rw [seen.dinode_other devsw inside root]
    exact ⟨rfl, rfl, rfl, le_refl _⟩

theorem Seen.allocated (seen : Seen d image) (sb : d.sb = Mkfs.sb) :
    (kernelDisk devsw image).Allocated (kernelDisk devsw image).dinode i ↔
      d.Allocated d.dinode i := by
  rw [Disk.Allocated, Disk.Allocated, sb]
  apply and_congr_right
  intro inside
  rw [(seen.fields devsw inside).1]

theorem Seen.pointer (seen : Seen d image) (sb : d.sb = Mkfs.sb) (consistent : d.Consistent) :
    (kernelDisk devsw image).pointer (kernelDisk devsw image).dinode = d.pointer d.dinode := by
  funext ⟨i, slot⟩
  by_cases there : d.Allocated d.dinode i
  · have inside : i < Mkfs.sb.table := sb ▸ there.1
    have addrs := (seen.fields devsw inside).2.2.1
    rw [Disk.pointer_allocated there, Disk.pointer_allocated ((seen.allocated devsw sb).mpr there)]
    cases slot with
    | indirect => rw [Dinode.pointer, Dinode.pointer, addrs]
    | block bn =>
      rw [Dinode.pointer, Dinode.pointer, Dinode.lookup, Dinode.lookup, addrs]
      by_cases none : (d.dinode i).addrs nDirect = 0
      · simp only [none, ne_eq, not_true_eq_false, and_false, if_false]
      · have held : d.pointer d.dinode (i, .indirect) = (d.dinode i).addrs nDirect :=
          Disk.pointer_allocated there .indirect
        have inUse := consistent.holding.marked (i, .indirect) (by rw [held]; exact none)
        rw [held] at inUse
        have after := inUse.1
        rw [sb, datastart_eq] at after
        have same : (kernelDisk devsw image).data ((d.dinode i).addrs nDirect) =
          d.data ((d.dinode i).addrs nDirect) := seen.data _ after
        rw [same]
  · rw [Disk.pointer_free there, Disk.pointer_free (mt (seen.allocated devsw sb).mp there)]

/-- The blocks are laid out as `mkfs` has filled them. -/
theorem Seen.layout (seen : Seen d image) (sb : d.sb = Mkfs.sb) (consistent : d.Consistent) :
    (kernelDisk devsw image).Layout (kernelDisk devsw image).dinode
      fun i => Disk.blocksFor (d.dinode i).size := by
  have pointers := seen.pointer devsw sb consistent
  have bits : ∀ b, b < fsSize → (kernelDisk devsw image).used b = d.used b := by
    intro b inside
    have small : fsSize < nBitmap * bpb := by decide
    exact seen.used b (by omega)
  constructor
  · constructor
    · apply consistent.holding.congr
      · intro place
        rw [pointers]
      · intro b
        rw [Disk.InUse, Disk.InUse, sb]
        apply and_congr_right
        intro _
        apply and_congr_right
        intro inside
        rw [bits b inside]
    · intro b before
      have before : b < Mkfs.sb.datastart := before
      have small : Mkfs.sb.datastart ≤ fsSize := by decide
      rw [bits b (by omega)]
      exact consistent.metadata b (by rwa [sb])
  · intro j there
    rw [pointers]
    exact consistent.filled j ((seen.allocated devsw sb).mp there)

theorem Seen.contents (seen : Seen d image) (sb : d.sb = Mkfs.sb) (consistent : d.Consistent)
    (allocated : d.Allocated d.dinode i) :
    (((kernelDisk devsw image).dinode i).contents (kernelDisk devsw image).data).take
      (d.dinode i).size = (d.dinode i).contents d.data := by
  have inside : i < Mkfs.sb.table := sb ▸ allocated.1
  have size := (seen.fields devsw inside).2.2.2
  rw [Disk.contents_allocated ((seen.allocated devsw sb).mpr allocated),
    Disk.contents_allocated allocated, ← List.map_take, List.take_range, Nat.min_eq_left size]
  apply List.map_congr_left
  intro o member
  have block := Disk.div_lt_blocksFor (List.mem_range.mp member)
  have present := ((consistent.filled i allocated).block (o / bsize)).mpr block
  have after := (consistent.holding.marked (i, .block (o / bsize)) present).1
  rw [sb, datastart_eq] at after
  rw [Disk.fileByte, Disk.fileByte, seen.pointer devsw sb consistent]
  exact congrFun (seen.data _ after) _

theorem direntAt_entryBytes {entries : List (List Byte × Nat)} {n inum : Nat} {name : List Byte}
    (there : entries[n]? = some (name, inum)) :
    direntAt (entryBytes entries) n = direntBytes name inum := by
  induction entries generalizing n with
  | nil => simp at there
  | cons entry entries ih =>
    have length : (direntBytes entry.1 entry.2).length = direntSize := length_direntBytes ..
    have cons : entryBytes (entry :: entries) =
        direntBytes entry.1 entry.2 ++ entryBytes entries := rfl
    rw [cons, direntAt]
    cases n with
    | zero =>
      obtain rfl : entry = (name, inum) := by simpa using there
      rw [Nat.mul_zero, List.drop_zero, List.take_left' length]
    | succ n =>
      rw [List.getElem?_cons_succ] at there
      rw [Nat.mul_succ, Nat.add_comm, ← List.drop_drop, List.drop_left' length]
      exact ih there

end Mkfs

variable {j : Nat}

namespace Fs

variable {s s' : Fs} {k : Fin nInode} {inum : Nat}

/-- The loop of `dirlookup` returns the first entry with the name. -/
theorem lookupLoop_hit {name : List Byte} {entry : Nat → List Byte} {n : Nat}
    (reads : ∀ j, j ≤ n → s.readDirent k (direntSize * j) "dirlookup read" = .ok (entry j, s))
    (inside : direntSize * n < (s.icache k).copy.size)
    (misses : ∀ j, j < n → nameOf (direntName (entry j)) ≠ nameOf name)
    (hit : nameOf (direntName (entry n)) = nameOf name) (live : direntInum (entry n) ≠ 0)
    (rounds : Nat) (before : j ≤ n) (enough : n < j + rounds) :
    lookupLoop k name rounds s (direntSize * j) =
      .ok (some (direntInum (entry n), direntSize * n), s) := by
  induction rounds generalizing j with
  | zero => omega
  | succ rounds ih =>
    have within : direntSize * j < (s.icache k).copy.size :=
      Nat.lt_of_le_of_lt (Nat.mul_le_mul_left _ before) inside
    rw [lookupLoop, if_pos within, reads j before, ok_bind]
    dsimp only
    by_cases last : j = n
    · subst last
      rw [if_pos ⟨live, decide_eq_true hit.symm⟩]
      rfl
    · have miss := misses j (by omega)
      rw [if_neg (fun found => miss (of_decide_eq_true found.2).symm)]
      exact ih (j := j + 1) (by omega) (by omega)

/-- No call is running, the cache agrees with the disk, and two entries are free. -/
structure Idle (s : Fs) : Prop where
  /-- No inode is locked. -/
  unlocked : ∀ k, (s.icache k).locked = false
  /-- Valid copies are those on the disk. -/
  coherent : ∀ k, 0 < (s.icache k).ref → (s.icache k).valid = true →
    (s.icache k).copy = s.disk.dinode (s.icache k).inum
  /-- There are two entries without references. -/
  room : ∃ k l, k ≠ l ∧ (s.icache k).ref = 0 ∧ (s.icache l).ref = 0

/-- The entry refers to the inode, which nobody has locked. -/
structure Ready (s : Fs) (k : Fin nInode) (inum : Nat) : Prop where
  referenced : 0 < (s.icache k).ref
  number : (s.icache k).inum = inum
  unlocked : (s.icache k).locked = false
  coherent : (s.icache k).valid = true → (s.icache k).copy = s.disk.dinode inum

/-- `iget` changes one entry, which then refers to the inode. -/
theorem iget_ready (got : s.iget inum = .ok (k, s'))
    (unlocked : (s.icache k).ref = 0 ∨ (s.icache k).inum = inum → (s.icache k).locked = false)
    (coherent : 0 < (s.icache k).ref → (s.icache k).valid = true →
      (s.icache k).copy = s.disk.dinode (s.icache k).inum) :
    s'.Ready k inum ∧ s'.disk = s.disk ∧ ∀ l, l ≠ k → s'.icache l = s.icache l := by
  obtain ⟨referenced, here, rfl⟩ | ⟨empty, rfl⟩ := iget_cases got
  · refine ⟨⟨?_, ?_, ?_, ?_⟩, rfl, ?_⟩
    · simp only [addRef, set, update_self]
      omega
    · simpa [addRef, set] using here
    · simpa [addRef, set] using unlocked (.inr here)
    · intro valid
      have valid : (s.icache k).valid = true := by simpa [addRef, set] using valid
      simpa [addRef, set, here] using coherent referenced valid
    · intro l other
      simp [addRef, set, other]
  · refine ⟨⟨?_, ?_, ?_, ?_⟩, rfl, ?_⟩
    · simp [set]
    · simp [set]
    · simpa [set] using unlocked (.inl empty)
    · simp [set]
    · intro l other
      simp [set, other]

theorem Ready.ilock (ready : s.Ready k inum) (inside : inum < s.disk.sb.table)
    (typed : (s.disk.dinode inum).type ≠ .free) :
    s.ilock k = .ok (s.set k ⟨inum, (s.icache k).ref, true, true, s.disk.dinode inum⟩) := by
  have referenced := ready.referenced
  have coherent := ready.coherent
  have here := ready.number
  rw [Fs.ilock, if_neg (by omega), if_neg (by simp [ready.unlocked]), load]
  by_cases valid : (s.icache k).valid = true
  · simp only [if_pos valid]
    rw [← coherent valid, ← here, ← valid]
    rfl
  · simp only [if_neg valid, here, if_neg (Nat.not_le.mpr inside), if_neg typed]
    rfl

theorem iunlockput_linked (locked : (s.icache k).locked = true) (referenced : 0 < (s.icache k).ref)
    (linked : (s.icache k).copy.nlink ≠ 0) :
    ∃ s', s.iunlockput k = .ok s' ∧ s'.disk = s.disk ∧
      ∀ l, l ≠ k → s'.icache l = s.icache l := by
  have unlock : s.iunlock k = .ok (s.set k { s.icache k with locked := false }) := by
    rw [iunlock, if_neg (by simp [locked]; omega)]
    rfl
  refine ⟨(s.set k { s.icache k with locked := false }).addRef k (-1), ?_, rfl, ?_⟩
  · rw [iunlockput, unlock, ok_bind, iput]
    dsimp only
    rw [if_neg (by simp [set]), if_neg (fun free => linked (by simpa [set] using free.2.1))]
    rfl
  · intro l other
    simp [addRef, set, other]

/-- A call has locked one inode, and nothing else has changed but references. -/
structure Entered (s : Fs) (k : Fin nInode) (inum : Nat) (s' : Fs) : Prop where
  disk : s'.disk = s.disk
  referenced : 0 < (s'.icache k).ref
  number : (s'.icache k).inum = inum
  locked : (s'.icache k).locked = true
  copy : (s'.icache k).copy = s.disk.dinode inum
  others : ∀ l, l ≠ k → s'.icache l = s.icache l

theorem Idle.enter (idle : s.Idle) (inside : inum < s.disk.sb.table)
    (typed : (s.disk.dinode inum).type ≠ .free) :
    ∃ k s₁ s₂, s.iget inum = .ok (k, s₁) ∧ s₁.ilock k = .ok s₂ ∧ s.Entered k inum s₂ := by
  obtain ⟨free, _, _, empty, _⟩ := idle.room
  obtain ⟨k, s₁, got⟩ := Room.iget_ok (show s.Room inum from ⟨free, .inl empty⟩)
  obtain ⟨ready, disk, kept⟩ := iget_ready got (fun _ => idle.unlocked k) (idle.coherent k)
  have locks := ready.ilock (by rwa [disk]) (by rwa [disk])
  refine ⟨k, s₁, _, got, locks, disk, ?_, ?_, ?_, ?_, ?_⟩
  · simpa [set] using ready.referenced
  · simp [set]
  · simp [set]
  · simp [set, disk]
  · intro l other
    rw [← kept l other]
    exact update_of_ne other ..

/-- `iget` of another inode, and `iunlockput` of the one that is locked. -/
theorem Idle.proceed {next : Nat} (idle : s.Idle) (entered : s.Entered k inum s')
    (linked : (s.disk.dinode inum).nlink ≠ 0) (other : inum ≠ next) :
    ∃ ip s₃ s₄, s'.iget next = .ok (ip, s₃) ∧ s₃.iunlockput k = .ok s₄ ∧ s₄.disk = s.disk ∧
      s₄.Ready ip next := by
  have room : s'.Room next := by
    obtain ⟨free, spare, apart, empty, unused⟩ := idle.room
    by_cases taken : free = k
    · have different : spare ≠ k := fun same => apart (taken.trans same.symm)
      exact ⟨spare, .inl (by rw [entered.others spare different, unused])⟩
    · exact ⟨free, .inl (by rw [entered.others free taken, empty])⟩
  obtain ⟨ip, s₃, got⟩ := room.iget_ok
  have different : ip ≠ k := by
    rintro rfl
    have referenced := entered.referenced
    obtain ⟨_, number, _⟩ | ⟨unused, _⟩ := iget_cases got
    · exact other (entered.number.symm.trans number)
    · omega
  have same := entered.others ip different
  obtain ⟨ready, disk, kept⟩ := iget_ready got
    (fun _ => by rw [same]; exact idle.unlocked ip)
    (by rw [same, entered.disk]; exact idle.coherent ip)
  have held := kept k different.symm
  obtain ⟨s₄, puts, disk₄, kept₄⟩ := iunlockput_linked (by rw [held]; exact entered.locked)
    (by rw [held]; exact entered.referenced) (by rwa [held, entered.copy])
  refine ⟨ip, s₃, s₄, got, puts, disk₄.trans (disk.trans entered.disk), ?_, ?_, ?_, ?_⟩
  · rw [kept₄ ip different]
    exact ready.referenced
  · rw [kept₄ ip different]
    exact ready.number
  · rw [kept₄ ip different]
    exact ready.unlocked
  · rw [kept₄ ip different, disk₄]
    exact ready.coherent

end Fs

namespace Mkfs

variable {m : Mkfs} {d : Disk} {files : List HostFile} {file : HostFile} {image : DiskImage}
  {devsw : Nat → Device} {s : Fs} {k : Fin nInode} {n : Nat}

/-- The files have different names, by which the kernel can find them. -/
structure Named (files : List HostFile) : Prop where
  /-- Names are strings. -/
  strings : ∀ file ∈ files, 0 ∉ file.name
  /-- No name has a `/`. -/
  flat : ∀ file ∈ files, slash ∉ file.name
  /-- The names are different, as far as an entry holds them. -/
  distinct : (files.map fun file => file.stored.take dirSiz).Nodup
  /-- No name has a meaning of its own in a path. -/
  proper : ∀ file ∈ files, file.stored ≠ [] ∧ file.stored ≠ dot ∧ file.stored ≠ dotDot

theorem mem_stored {c : Byte} (inside : c ∈ file.stored) : c ∈ file.name := by
  unfold HostFile.stored at inside
  split at inside
  · exact List.mem_of_mem_tail inside
  · exact inside

theorem nameOf_string {name : List Byte} (string : 0 ∉ name) : nameOf name = name.take dirSiz := by
  rw [nameOf, List.takeWhile_eq_self_iff]
  intro c member
  rw [decide_eq_true_eq]
  rintro rfl
  exact string (List.mem_of_mem_take member)

theorem getElem?_rootEntries (there : files[n]? = some file) :
    (rootEntries files)[n + 2]? = some (file.stored, 2 + n) := by
  simp [rootEntries, there]

theorem dirent_entry {name : List Byte} {inum : Nat}
    (there : (rootEntries files)[j]? = some (name, inum)) (positive : 0 < inum)
    (small : inum < 2 ^ 16) :
    nameOf (direntName (direntAt (entryBytes (rootEntries files)) j)) = nameOf name ∧
      direntInum (direntAt (entryBytes (rootEntries files)) j) = inum := by
  rw [direntAt_entryBytes there]
  obtain ⟨_, same, number⟩ := direntSlot_eq_some.mp (direntSlot_direntBytes name positive small)
  exact ⟨same, number⟩

theorem eq_of_take {name short : List Byte} (fits : short.length < dirSiz)
    (same : name.take dirSiz = short) : name = short := by
  have length := congrArg List.length same
  rw [List.length_take] at length
  rwa [List.take_of_length_le (by omega)] at same

/-- The entries before that of a file have other names. -/
theorem Named.misses (named : Named files) (count : files.length ≤ nInodes)
    (there : files[n]? = some file) (before : j < n + 2) :
    nameOf (direntName (direntAt (entryBytes (rootEntries files)) j)) ≠ nameOf file.stored := by
  have string : ∀ other ∈ files, 0 ∉ other.stored :=
    fun other member zero => named.strings other member (mem_stored zero)
  have member := List.mem_of_getElem? there
  obtain ⟨_, notDot, notDotDot⟩ := named.proper file member
  rw [nameOf_string (string file member)]
  match j with
  | 0 =>
    have entry : (rootEntries files)[0]? = some (dot, rootIno) := rfl
    rw [(dirent_entry entry (by decide) (by decide)).1]
    exact fun same => notDot (eq_of_take (by decide) same.symm)
  | 1 =>
    have entry : (rootEntries files)[1]? = some (dotDot, rootIno) := rfl
    rw [(dirent_entry entry (by decide) (by decide)).1]
    exact fun same => notDotDot (eq_of_take (by decide) same.symm)
  | j + 2 =>
    obtain ⟨inside, _⟩ := List.getElem?_eq_some_iff.mp there
    have entry := getElem?_rootEntries (List.getElem?_eq_getElem (show j < files.length by omega))
    have limit : 2 + nInodes < 2 ^ 16 := by decide
    rw [(dirent_entry entry (by omega) (by omega)).1,
      nameOf_string (string _ (List.getElem_mem _))]
    have apart := List.nodup_iff_getElem?_ne_getElem?.mp named.distinct j n (by omega)
      (by rwa [List.length_map])
    rw [List.getElem?_map, List.getElem?_map, there,
      List.getElem?_eq_getElem (show j < files.length by omega)] at apart
    exact fun same => apart (congrArg some same)

/-- The kernel reads the entries of the root directory. -/
theorem Made.readDirent (made : Made files m d) (seen : Seen d image)
    (disk : s.disk = kernelDisk devsw image) (copy : (s.icache k).copy = s.disk.dinode rootIno)
    (inside : n < 2 + files.length) (message : String) :
    s.readDirent k (direntSize * n) message =
      .ok (direntAt (entryBytes (rootEntries files)) n, s) := by
  have sb := made.mirrors.sb
  have table : rootIno < Mkfs.sb.table := by decide
  have root := made.root
  have allocated := root.allocated made.mirrors table (by decide)
  have size : (d.dinode rootIno).size = direntSize * (2 + files.length) := by
    rw [root.size, length_entryBytes, length_rootEntries]
  have limit := made.consistent.size_le allocated
  have small : maxFile * bsize < 2 ^ 32 := by decide
  have larger := (seen.fields devsw table).2.2.2
  have there : direntSize * n + direntSize ≤ (d.dinode rootIno).size := by
    rw [size, ← Nat.mul_succ]
    exact Nat.mul_le_mul_left _ inside
  have blocks := Disk.le_blocksFor (d.dinode rootIno).size
  have inode : ((kernelDisk devsw image).dinode rootIno).type ≠ .dev := by
    rw [(seen.fields devsw table).1, root.type]
    decide
  have read := (seen.layout devsw sb made.consistent).readi_eq
    ((seen.allocated devsw sb).mpr allocated) inode
    (show direntSize * n ≤ ((kernelDisk devsw image).dinode rootIno).size by omega)
    (show direntSize * n + direntSize < 2 ^ 32 by omega)
    (le_trans (Nat.min_le_left _ _) (le_trans there blocks))
  have bytes := seen.contents devsw sb made.consistent allocated
  rw [root.bytes] at bytes
  have entry : ((((kernelDisk devsw image).dinode rootIno).contents
      (kernelDisk devsw image).data).drop (direntSize * n)).take direntSize =
      direntAt (entryBytes (rootEntries files)) n := by
    rw [direntAt, ← bytes, List.drop_take, List.take_take, Nat.min_eq_left (by omega)]
  have length : (direntAt (entryBytes (rootEntries files)) n).length = direntSize := by
    rw [direntAt, List.length_take, List.length_drop, length_entryBytes, length_rootEntries, ← size]
    omega
  rw [entry, ← disk, ← copy] at read
  rw [Fs.readDirent, Fs.readi_same read]
  exact if_pos length

theorem skipelem_root {name : List Byte} (flat : slash ∉ name) (some : name ≠ []) :
    skipelem (slash :: name) = .some (name.take dirSiz, []) := by
  have whole : ∀ c ∈ name, decide (c ≠ slash) = true := by
    intro c member
    rw [decide_eq_true_eq]
    rintro rfl
    exact flat member
  have start : (slash :: name).dropWhile (· = slash) = name := by
    cases name with
    | nil => exact absurd rfl some
    | cons c name =>
      have first : c ≠ slash := fun same => flat (same ▸ List.mem_cons_self)
      simp [first]
  have all : name.takeWhile (· ≠ slash) = name := List.takeWhile_eq_self_iff.mpr whole
  have rest : name.dropWhile (· ≠ slash) = [] := List.dropWhile_eq_nil_iff.mpr whole
  simp only [skipelem, start, if_neg some, all, rest, List.dropWhile_nil]

/-- `dirlookup` finds the entry of a file in the root directory. -/
theorem Made.dirlookup (made : Made files m d) (seen : Seen d image) (named : Named files)
    (count : files.length ≤ nInodes) (disk : s.disk = kernelDisk devsw image)
    (copy : (s.icache k).copy = s.disk.dinode rootIno) (there : files[n]? = some file) :
    s.dirlookup k (file.stored.take dirSiz) = (do
      let (ip, t) ← s.iget (2 + n)
      pure (some (ip, direntSize * (n + 2)), t)) := by
  have table : rootIno < Mkfs.sb.table := by decide
  obtain ⟨inside, _⟩ := List.getElem?_eq_some_iff.mp there
  have limit : 2 + nInodes < 2 ^ 16 := by decide
  have fields := seen.fields devsw table
  rw [← disk, ← copy] at fields
  have size : (d.dinode rootIno).size = direntSize * (2 + files.length) := by
    rw [made.root.size, length_entryBytes, length_rootEntries]
  have before : direntSize * (n + 2) < (s.icache k).copy.size := by
    have less : direntSize * (n + 2) < direntSize * (2 + files.length) :=
      Nat.mul_lt_mul_of_pos_left (by omega) (by decide)
    omega
  have same : nameOf (file.stored.take dirSiz) = nameOf file.stored := by
    rw [nameOf, nameOf, List.take_take, Nat.min_self]
  obtain ⟨hit, number⟩ := dirent_entry (getElem?_rootEntries there) (by omega) (by omega)
  have misses : ∀ j, j < n + 2 →
      nameOf (direntName (direntAt (entryBytes (rootEntries files)) j)) ≠
        nameOf (file.stored.take dirSiz) := by
    intro j less
    rw [same]
    exact named.misses count there less
  have found := Fs.lookupLoop_hit
    (fun j least => made.readDirent seen disk copy (show j < 2 + files.length by omega) _)
    before misses (by rw [same]; exact hit) (by omega) ((s.icache k).copy.size + 1)
    (Nat.zero_le _) (by unfold direntSize at before; omega)
  rw [Nat.mul_zero, number] at found
  have dir : (s.icache k).copy.type = .dir := by rw [fields.1, made.root.type]
  rw [Fs.dirlookup, if_neg (by simp [dir]), found]
  rfl

theorem Made.namei (made : Made files m d) (seen : Seen d image) (named : Named files)
    (count : files.length ≤ nInodes) (disk : s.disk = kernelDisk devsw image) (idle : s.Idle)
    (cwd : Fin nInode) (there : files[n]? = some file) :
    ∃ ip t, s.namei cwd (slash :: file.stored) = .ok (some ip, t) ∧ t.disk = s.disk ∧
      t.Ready ip (2 + n) := by
  have member := List.mem_of_getElem? there
  have table : rootIno < Mkfs.sb.table := by decide
  have flat : slash ∉ file.stored := fun inside => named.flat file member (mem_stored inside)
  have path := skipelem_root flat (named.proper file member).1
  have fields := seen.fields devsw table
  rw [← disk] at fields
  have typed : (s.disk.dinode rootIno).type = .dir := by rw [fields.1, made.root.type]
  have linked : (s.disk.dinode rootIno).nlink = 1 := by rw [fields.2.1, made.root.nlink]
  obtain ⟨k, s₁, s₂, got, locks, entered⟩ :=
    idle.enter (by rw [disk]; exact table) (by rw [typed]; decide)
  have looks := made.dirlookup seen named count (entered.disk.trans disk)
    (by rw [entered.copy, entered.disk]) there
  obtain ⟨ip, s₃, s₄, got₂, puts, disk₄, ready⟩ := idle.proceed entered (by rw [linked]; decide)
    (show rootIno ≠ 2 + n by unfold rootIno; omega)
  refine ⟨ip, s₄, ?_, disk₄, ready⟩
  have dir : (s₂.icache k).copy.type = .dir := by rw [entered.copy, typed]
  rw [got₂, ok_bind] at looks
  rw [Fs.namei, Fs.namex, if_pos List.head?_cons, got]
  simp only [ok_bind]
  rw [Fs.namexLoop, path]
  simp only [ok_bind, locks, dir, ne_eq, not_true_eq_false, if_false, Bool.false_eq_true, false_and,
    looks, pure, Except.pure, puts]
  rw [List.length_cons, Fs.namexLoop]
  rfl

/-- `namei`, and `ilock` of the inode that it finds. -/
def lockPath (s : Fs) (cwd : Fin nInode) (path : List Byte) :
    Except Halt (Option (Fin nInode) × Fs) := do
  let (found, s) ← s.namei cwd path
  match found with
  | none => pure (none, s)
  | some ip => do
    let s ← s.ilock ip
    pure (some ip, s)

/-- The kernel finds a file with the bytes under the path. -/
def Finds (s : Fs) (cwd : Fin nInode) (path bytes : List Byte) : Prop :=
  ∃ ip t, lockPath s cwd path = .ok (some ip, t) ∧ (t.icache ip).copy.type = .file ∧
    (t.icache ip).copy.size = bytes.length ∧
    ∀ off n, off ≤ bytes.length → off + n < 2 ^ 32 →
      t.readi ip off n = .ok (some ((bytes.drop off).take n), t)

theorem Made.finds (made : Made files m d) (seen : Seen d image) (named : Named files)
    (count : files.length ≤ nInodes) (disk : s.disk = kernelDisk devsw image) (idle : s.Idle)
    (cwd : Fin nInode) (there : files[n]? = some file) :
    Finds s cwd (slash :: file.stored) file.bytes := by
  have sb := made.mirrors.sb
  have node := made.file n file there
  obtain ⟨inside, _⟩ := List.getElem?_eq_some_iff.mp there
  have room : 2 + nInodes ≤ Mkfs.sb.table := by decide
  have table : 2 + n < Mkfs.sb.table := by omega
  have allocated := node.allocated made.mirrors table (by decide)
  have inode := seen.dinode_other devsw table (show 2 + n ≠ rootIno by unfold rootIno; omega)
  obtain ⟨ip, t, found, same, ready⟩ := made.namei seen named count disk idle cwd there
  rw [disk] at same
  have locks := ready.ilock (by rw [same]; exact table) (by rw [same, inode, node.type]; decide)
  generalize held : t.set ip ⟨2 + n, (t.icache ip).ref, true, true, t.disk.dinode (2 + n)⟩ = u
    at locks
  have copy : (u.icache ip).copy = (kernelDisk devsw image).dinode (2 + n) := by
    simp [← held, Fs.set, same]
  have disk' : u.disk = kernelDisk devsw image := by
    rw [← held]
    exact same
  refine ⟨ip, u, ?_, ?_, ?_, ?_⟩
  · rw [lockPath, found]
    simp only [ok_bind, locks]
    rfl
  · rw [copy, inode, node.type]
  · rw [copy, inode, node.size]
  · intro off length start whole
    have bytes := seen.contents devsw sb made.consistent allocated
    rw [node.bytes, ← inode, ← Disk.length_contents (kernelDisk devsw image).data, List.take_length]
      at bytes
    have size : ((kernelDisk devsw image).dinode (2 + n)).size = file.bytes.length := by
      rw [inode, node.size]
    have blocks := Disk.le_blocksFor (d.dinode (2 + n)).size
    have read := (seen.layout devsw sb made.consistent).readi_eq
      ((seen.allocated devsw sb).mpr allocated) (by rw [inode, node.type]; decide)
      (show off ≤ ((kernelDisk devsw image).dinode (2 + n)).size by omega) whole
      (le_trans (Nat.min_le_right _ _) (by rwa [inode]))
    rw [bytes, ← copy, ← disk'] at read
    exact Fs.readi_same read

/-- The free map marks the blocks before the data and those that inodes refer to. -/
theorem Made.bitmap (made : Made files m d) (seen : Seen d image) (devsw : Nat → Device) {b : Nat}
    (inside : b < nBitmap * bpb) :
    (kernelDisk devsw image).used b = true ↔ b < nMeta ∨
      ∃ place, (kernelDisk devsw image).pointer (kernelDisk devsw image).dinode place = b := by
  have mirrors := made.mirrors
  have header := mirrors.header
  have bound := mirrors.bound
  have used : (kernelDisk devsw image).used b = decide (b < m.freeblock) :=
    (seen.used b inside).trans (mirrors.used b)
  rw [used, decide_eq_true_eq, seen.pointer devsw mirrors.sb made.consistent]
  constructor
  · intro taken
    by_cases before : b < nMeta
    · exact .inl before
    · have inUse : d.InUse b := by
        rw [Disk.InUse, mirrors.sb, datastart_eq, mirrors.used]
        exact ⟨Nat.not_lt.mp before, Nat.lt_of_lt_of_le taken bound, decide_eq_true taken⟩
      exact .inr (made.consistent.holding.held b inUse)
  · rintro (before | ⟨place, rfl⟩)
    · omega
    · by_cases null : d.pointer d.dinode place = 0
      · have some : 0 < nMeta := by decide
        omega
      · exact (mirrors.inUse (made.consistent.holding.marked place null)).2.2

/-- `mkfs` and the kernel agree on the format. -/
theorem main_agrees (files : List HostFile) (fits : Fits files) (named : Named files) :
    ∃ image, main files = .ok image ∧ Mkfs.sb.Stored image ∧
      (∀ devsw s cwd, s.disk = kernelDisk devsw image → s.Idle → ∀ file ∈ files,
        Finds s cwd (slash :: file.stored) file.bytes) ∧
      ∀ devsw b, b < nBitmap * bpb →
        ((kernelDisk devsw image).used b = true ↔ b < nMeta ∨
          ∃ place, (kernelDisk devsw image).pointer (kernelDisk devsw image).dinode place = b) := by
  obtain ⟨m₁, d₁, root, made₁⟩ := makeRoot_made
  obtain ⟨m₂, d₂, added, made₂⟩ := made₁.addFiles fits named.flat
  rw [List.nil_append] at made₂
  obtain ⟨m₃, finished, seen⟩ := made₂.finish
  have count := fits.count
  refine ⟨m₃.image, ?_, seen.super, ?_, ?_⟩
  · rw [main, root]
    simp only [ok_bind, added, finished]
    rfl
  · intro devsw s cwd disk idle file member
    obtain ⟨n, there⟩ := List.mem_iff_getElem?.mp member
    exact made₂.finds seen named (by omega) disk idle cwd there
  · intro devsw b inside
    exact made₂.bitmap seen devsw inside

/-- A disk and an empty inode cache, as the kernel starts with them. -/
def booted (image : DiskImage) : Fs where
  disk := kernelDisk (fun _ => ⟨fun _ => none, fun _ => none⟩) image
  icache := fun _ => ⟨0, 0, false, false, .zero⟩

/-- An input file that is read in two parts. -/
def twoReads : HostFile := ⟨[underscore, 108#8, 115#8], [[1#8, 2#8], [3#8]]⟩

/-- `mkfs _ls`: the kernel finds `/ls` with the three bytes. -/
theorem main_agrees_ls : Fits [twoReads] ∧ Named [twoReads] ∧ ∃ image,
    main [twoReads] = .ok image ∧ (booted image).Idle ∧
      Finds (booted image) Fs.firstEntry [slash, 108#8, 115#8] [1#8, 2#8, 3#8] := by
  have fits : Fits [twoReads] := ⟨by decide, by decide, by decide, by decide⟩
  have named : Named [twoReads] := ⟨by decide, by decide, by decide, by decide⟩
  have idle : ∀ image, (booted image).Idle := by
    intro image
    refine ⟨fun _ => rfl, ?_, Fs.firstEntry, ⟨1, by decide⟩, by decide, rfl, rfl⟩
    intro k referenced
    exact absurd referenced (lt_irrefl 0)
  obtain ⟨image, made, _, finds, _⟩ := main_agrees [twoReads] fits named
  exact ⟨fits, named, image, made, idle image,
    finds _ _ Fs.firstEntry rfl (idle image) twoReads List.mem_cons_self⟩

/-- An input file with the name of the entry of the root directory for itself. -/
def dotFile : HostFile := ⟨[underscore, 46#8], []⟩

/-- `mkfs _.`: the names are different, but the kernel finds the root directory under `/.`. -/
theorem main_dot_hidden : Fits [dotFile] ∧
    ([dotFile].map fun file => file.stored.take dirSiz).Nodup ∧ ∃ image ip t,
      main [dotFile] = .ok image ∧
      lockPath (booted image) Fs.firstEntry (slash :: dotFile.stored) = .ok (some ip, t) ∧
      (t.icache ip).copy.type = .dir := by
  have fits : Fits [dotFile] := ⟨by decide, by decide, by decide, by decide⟩
  have returns : ((do
      let image ← main [dotFile]
      let (found, t) ← lockPath (booted image) Fs.firstEntry (slash :: dotFile.stored)
      pure (found.map fun ip => (t.icache ip).copy.type) : Except Halt _)).toOption =
      some (some .dir) := by
    decide +kernel
  cases made : main [dotFile] with
  | error stop =>
    rw [made] at returns
    cases returns
  | ok image =>
    rw [made, ok_bind] at returns
    cases found : lockPath (booted image) Fs.firstEntry (slash :: dotFile.stored) with
    | error stop =>
      rw [found] at returns
      cases returns
    | ok value =>
      obtain ⟨ip, t⟩ := value
      rw [found, ok_bind] at returns
      obtain ⟨ip, rfl, type⟩ := Option.map_eq_some_iff.mp (Option.some.inj returns)
      exact ⟨fits, by decide, image, ip, t, rfl, found, type⟩

end Mkfs

end MemoryEncryption
