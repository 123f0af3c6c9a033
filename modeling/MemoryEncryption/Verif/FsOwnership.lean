import MemoryEncryption.Verif.InodeCalls
import MemoryEncryption.Verif.Truncation

/-!
# Block ownership in runs of the file system

The disk is consistent whenever no function on an inode is in progress, and the
cached copies of inodes are those on the disk. Each function of `fs.c` keeps this,
so every run of them does, in any order and interleaving in which `readi`, `writei`,
`itrunc` and `iupdate` are called on locked inodes. It follows that `bfree` is never
called for a free block.
-/

namespace MemoryEncryption

open Function Outcome

/-! ## `writei` and `readi` between calls -/

namespace Disk

variable {d : Disk} {i : Nat}

/-- `writei` writes, changes nothing or finds no free block. -/
theorem Consistent.writei_outcome (consistent : d.Consistent)
    (allocated : d.Allocated d.dinode i) {src : List Byte} (length : src.length < 2 ^ 32)
    (off : Nat) :
    Yields (fun r => (r.2.1 = d.dinode i ∧ r.2.2 = d) ∨ d.Wrote i src off r.2.1 r.2.2)
      (· = .panic "balloc: out of blocks") (d.writei i (d.dinode i) src off) := by
  by_cases device : (d.dinode i).type = .dev
  · rw [writei, if_pos device]
    exact .inl ⟨rfl, rfl⟩
  · by_cases late : (d.dinode i).size < off
    · rw [writei, if_neg device, if_pos (.inl late)]
      exact .inl ⟨rfl, rfl⟩
    · have start : off ≤ (d.dinode i).size := by omega
      have bound := consistent.size_le allocated
      have small : maxFile * bsize < 2 ^ 32 := by decide
      by_cases room : off + src.length ≤ maxFile * bsize
      · by_cases free : cost (blocksFor (max (d.dinode i).size (off + src.length))) ≤
            d.freeBlocks.card + cost (blocksFor (d.dinode i).size)
        · obtain ⟨ip, after, written, wrote⟩ :=
            consistent.writei_wrote allocated device start room free
          rw [written]
          exact .inr wrote
        · rw [consistent.writei_full allocated device start room (by omega)]
          rfl
      · have refused : Refused (d.dinode i) off src.length := .inr (.inr (by omega))
        rw [writei_refused device (by omega) length refused]
        exact .inl ⟨rfl, rfl⟩

theorem Consistent.readi_outcome (consistent : d.Consistent) (allocated : d.Allocated d.dinode i)
    (off : Nat) {n : Nat} (length : n < 2 ^ 32) :
    ∃ bytes, d.readi (d.dinode i) off n = .ok (bytes, d.dinode i, d) := by
  by_cases device : (d.dinode i).type = .dev
  · rw [readi, if_pos device]
    exact ⟨_, rfl⟩
  · by_cases late : (d.dinode i).size < off
    · rw [readi, if_neg device, if_pos (.inl late)]
      exact ⟨_, rfl⟩
    · have bound := consistent.size_le allocated
      have small : maxFile * bsize < 2 ^ 32 := by decide
      by_cases whole : off + n < 2 ^ 32
      · exact ⟨_, consistent.readi_eq allocated device (by omega) whole⟩
      · exact ⟨_, readi_refused device (by omega) length (by omega)⟩

end Disk

namespace Fs

variable {s : Fs} {k : Fin nInode}

/-- The disk is consistent, and the inodes in the cache are those on the disk. -/
structure Sound (s : Fs) : Prop where
  /-- The disk is consistent. -/
  consistent : s.disk.Consistent
  /-- Valid copies are those of allocated inodes on the disk. -/
  coherent : ∀ k, 0 < (s.icache k).ref → (s.icache k).valid = true →
    s.disk.Allocated s.disk.dinode (s.icache k).inum ∧
      (s.icache k).copy = s.disk.dinode (s.icache k).inum
  /-- Reference counts do not become negative. -/
  counted : ∀ k, 0 ≤ (s.icache k).ref
  /-- Entries with references hold different inodes. -/
  single : ∀ k l, 0 < (s.icache k).ref → 0 < (s.icache l).ref →
    (s.icache k).inum = (s.icache l).inum → k = l
  /-- Locked inodes are referenced and valid. -/
  locked : ∀ k, (s.icache k).locked = true →
    0 < (s.icache k).ref ∧ (s.icache k).valid = true

theorem Sound.of_locked (sound : s.Sound) (locked : (s.icache k).locked = true) :
    s.disk.Allocated s.disk.dinode (s.icache k).inum ∧
      (s.icache k).copy = s.disk.dinode (s.icache k).inum := by
  obtain ⟨referenced, valid⟩ := sound.locked k locked
  exact sound.coherent k referenced valid

/-- An entry of the cache and the disk change, and other entries still hold what is on the disk. -/
theorem Sound.place {disk : Disk} {entry : Inode} (sound : s.Sound) (consistent : disk.Consistent)
    (others : ∀ l ≠ k, 0 < (s.icache l).ref →
      s.disk.Allocated s.disk.dinode (s.icache l).inum →
      disk.Allocated disk.dinode (s.icache l).inum ∧
        s.disk.dinode (s.icache l).inum = disk.dinode (s.icache l).inum)
    (alone : 0 < entry.ref → ∀ l ≠ k, 0 < (s.icache l).ref → (s.icache l).inum ≠ entry.inum)
    (coherent : 0 < entry.ref → entry.valid = true →
      disk.Allocated disk.dinode entry.inum ∧ entry.copy = disk.dinode entry.inum)
    (counted : 0 ≤ entry.ref)
    (locked : entry.locked = true → 0 < entry.ref ∧ entry.valid = true) :
    ({ s with disk }.set k entry).Sound where
  consistent := consistent
  coherent := by
    refine (forall_update_iff _ fun _ (i : Inode) => 0 < i.ref → i.valid = true →
      disk.Allocated disk.dinode i.inum ∧ i.copy = disk.dinode i.inum).mpr ⟨coherent, ?_⟩
    intro l other positive valid
    obtain ⟨allocated, copy⟩ := sound.coherent l positive valid
    obtain ⟨still, same⟩ := others l other positive allocated
    exact ⟨still, copy.trans same⟩
  counted := (forall_update_iff _ fun _ (i : Inode) => 0 ≤ i.ref).mpr ⟨counted, fun l _ => sound.counted l⟩
  single := by
    intro l m
    by_cases atL : l = k <;> by_cases atM : m = k
    · intro _ _ _
      rw [atL, atM]
    · subst atL
      simp only [set, update_self, update_of_ne atM]
      intro here positive shared
      exact absurd shared.symm (alone here m atM positive)
    · subst atM
      simp only [set, update_self, update_of_ne atL]
      intro positive here shared
      exact absurd shared (alone here l atL positive)
    · simp only [set, update_of_ne atL, update_of_ne atM]
      exact sound.single l m
  locked := (forall_update_iff _ fun _ (i : Inode) => i.locked = true → 0 < i.ref ∧ i.valid = true).mpr
    ⟨locked, fun l _ => sound.locked l⟩

theorem Sound.replace {disk : Disk} {entry : Inode} (sound : s.Sound)
    (referenced : 0 < (s.icache k).ref) (valid : (s.icache k).valid = true)
    (consistent : disk.Consistent) (sb : disk.sb = s.disk.sb)
    (dinode : disk.dinode = Function.update s.disk.dinode (s.icache k).inum entry.copy)
    (inum : entry.inum = (s.icache k).inum) (ref : entry.ref = (s.icache k).ref)
    (stays : (entry.valid = true ∧ entry.copy.type ≠ .free) ∨
      (entry.valid = false ∧ entry.locked = false)) :
    ({ s with disk }.set k entry).Sound := by
  have alone : ∀ l ≠ k, 0 < (s.icache l).ref → (s.icache l).inum ≠ (s.icache k).inum :=
    fun l other positive shared => other (sound.single l k positive referenced shared)
  refine sound.place consistent ?_ ?_ ?_ (by omega) ?_
  · intro l other positive allocated
    rw [Disk.Allocated, sb, dinode, update_of_ne (alone l other positive)]
    exact ⟨allocated, rfl⟩
  · rw [inum]
    exact fun _ => alone
  · intro _ still
    rcases stays with ⟨_, type⟩ | ⟨invalid, _⟩
    · rw [Disk.Allocated, sb, inum, dinode, update_self]
      exact ⟨⟨(sound.coherent k referenced valid).1.1, type⟩, rfl⟩
    · rw [invalid] at still
      cases still
  · intro held
    rcases stays with ⟨still, _⟩ | ⟨_, unlocked⟩
    · exact ⟨by omega, still⟩
    · rw [unlocked] at held
      cases held

/-- A locked inode changes in the cache and on the disk. -/
theorem Sound.store {disk : Disk} {copy : Dinode} (sound : s.Sound)
    (locked : (s.icache k).locked = true) (consistent : disk.Consistent) (sb : disk.sb = s.disk.sb)
    (dinode : disk.dinode = Function.update s.disk.dinode (s.icache k).inum copy)
    (type : copy.type ≠ .free) : ({ s with disk }.set k { s.icache k with copy }).Sound := by
  obtain ⟨referenced, valid⟩ := sound.locked k locked
  exact sound.replace referenced valid consistent sb dinode rfl rfl (.inl ⟨valid, type⟩)

/-- The references, the lock and the copy of an entry change, and the disk does not. -/
theorem Sound.entry {entry : Inode} (sound : s.Sound) (inum : entry.inum = (s.icache k).inum)
    (counted : 0 ≤ entry.ref) (referenced : 0 < entry.ref → 0 < (s.icache k).ref)
    (coherent : 0 < entry.ref → entry.valid = true →
      s.disk.Allocated s.disk.dinode (s.icache k).inum ∧
        entry.copy = s.disk.dinode (s.icache k).inum)
    (locked : entry.locked = true → 0 < entry.ref ∧ entry.valid = true) :
    (s.set k entry).Sound := by
  refine sound.place sound.consistent (fun _ _ _ allocated => ⟨allocated, rfl⟩) ?_ ?_ counted locked
  · intro here l other positive shared
    exact other (sound.single l k positive (referenced here) (shared.trans inum))
  · rwa [inum]

theorem Sound.addRef {change : Int} (sound : s.Sound) (counted : 0 ≤ (s.icache k).ref + change)
    (alive : 0 < (s.icache k).ref + change → 0 < (s.icache k).ref)
    (unlocked : (s.icache k).locked = true → 0 < (s.icache k).ref + change) :
    (s.addRef k change).Sound := by
  refine sound.entry ?_ counted alive ?_ ?_
  · rfl
  · intro positive valid
    exact sound.coherent k (alive positive) valid
  · intro held
    exact ⟨unlocked held, (sound.locked k held).2⟩

/-! ## The functions on one inode -/

/-- The reasons for which a call may stop. -/
abbrev NotFreeing (halt : Halt) : Prop := halt ≠ .panic "freeing free block"

theorem Sound.iget (sound : s.Sound) (inum : Nat) :
    Yields (fun r => r.2.Sound) NotFreeing (s.iget inum) := by
  unfold Fs.iget
  split
  case h_1 k found =>
    have referenced := (cached_eq_some found).1
    exact sound.addRef (by omega) (fun _ => referenced) (fun _ => by omega)
  case h_2 absent =>
    split
    case h_2 => exact (by simp : NotFreeing (.panic "iget: no inodes"))
    case h_1 k found =>
      have empty : (s.icache k).ref = 0 := by
        have unused := List.find?_some found
        simpa using unused
      refine sound.place sound.consistent (fun _ _ _ allocated => ⟨allocated, rfl⟩) ?_ nofun
        Int.one_nonneg ?_
      · exact fun _ l _ positive => cached_eq_none absent l positive
      · intro held
        have positive := (sound.locked k held).1
        omega

theorem Sound.ilock (sound : s.Sound) (k : Fin nInode) :
    Yields Sound NotFreeing (s.ilock k) := by
  unfold Fs.ilock
  split
  case isTrue => exact (by simp : NotFreeing (.panic "ilock"))
  case isFalse positive =>
    split
    case isTrue => exact (by simp : NotFreeing .endless)
    case isFalse =>
      have referenced : 0 < (s.icache k).ref := by omega
      simp only [load]
      split
      case isTrue valid =>
        show (s.set k { s.icache k with locked := true }).Sound
        refine sound.entry ?_ (sound.counted k) (fun _ => referenced) ?_ ?_
        · rfl
        · intro _ _
          exact sound.coherent k referenced valid
        · intro _
          exact ⟨referenced, valid⟩
      case isFalse =>
        split
        case isTrue => exact (by simp : NotFreeing .outOfBounds)
        case isFalse inside =>
          split
          case isTrue => exact (by simp : NotFreeing (.panic "ilock: no type"))
          case isFalse typed =>
            show (s.set k { s.icache k with
              locked := true, valid := true, copy := s.disk.dinode (s.icache k).inum }).Sound
            refine sound.entry ?_ (sound.counted k) (fun _ => referenced) ?_ ?_
            · rfl
            · intro _ _
              exact ⟨⟨by omega, typed⟩, rfl⟩
            · intro _
              exact ⟨referenced, rfl⟩

theorem Sound.iunlock (sound : s.Sound) (k : Fin nInode) :
    Yields Sound NotFreeing (s.iunlock k) := by
  unfold Fs.iunlock
  split
  case isTrue => exact (by simp : NotFreeing (.panic "iunlock"))
  case isFalse => exact sound.entry rfl (sound.counted k) (fun positive => positive) (sound.coherent k) (by simp)

theorem Sound.release (sound : s.Sound) (referenced : 0 < (s.icache k).ref)
    (valid : (s.icache k).valid = true) (unlocked : (s.icache k).locked = false) :
    Yields (fun s' => s'.Sound ∧ (s'.icache k).ref = (s.icache k).ref ∧
      (s'.icache k).locked = false) NotFreeing (s.release k) := by
  obtain ⟨allocated, copy⟩ := sound.coherent k referenced valid
  obtain ⟨used, truncated, consistent⟩ := sound.consistent.itrunc_empties allocated
  simp only [Fs.release, copy, truncated, ok_bind]
  refine ⟨?_, by simp [set], by simpa [set] using unlocked⟩
  apply sound.replace referenced valid
  · have updated := consistent .free
    simpa only [Disk.iupdate, update_idem] using updated
  · rfl
  · simp only [Disk.iupdate, update_idem]
  · rfl
  · rfl
  · exact .inr ⟨rfl, unlocked⟩

theorem Sound.iput (sound : s.Sound) (referenced : 0 < (s.icache k).ref) :
    Yields Sound NotFreeing (s.iput k) := by
  simp only [Fs.iput]
  split
  case isTrue => exact (by simp : NotFreeing .endless)
  case isFalse held =>
    have unlocked : (s.icache k).locked = false := by simpa using held
    split
    case isTrue last =>
      obtain ⟨valid, _, one⟩ := last
      apply (sound.release (by omega) valid unlocked).bind
      rintro s₁ ⟨freed, same, free⟩
      exact freed.addRef (by omega) (by omega) (by simp [free])
    case isFalse => exact sound.addRef (by omega) (by omega) (by simp [unlocked])

theorem Sound.itrunc (sound : s.Sound) (locked : (s.icache k).locked = true) :
    Yields Sound NotFreeing (s.itrunc k) := by
  obtain ⟨allocated, copy⟩ := sound.of_locked locked
  obtain ⟨used, truncated, consistent⟩ := sound.consistent.itrunc_empties allocated
  simp only [Fs.itrunc, copy, truncated, ok_bind]
  exact sound.store locked (consistent (s.disk.dinode (s.icache k).inum).type) rfl rfl allocated.2

theorem Sound.readi (sound : s.Sound) (locked : (s.icache k).locked = true) (off : Nat) {n : Nat}
    (length : n < 2 ^ 32) : Yields (fun r => r.2.Sound) NotFreeing (s.readi k off n) := by
  obtain ⟨allocated, copy⟩ := sound.of_locked locked
  obtain ⟨bytes, read⟩ := sound.consistent.readi_outcome allocated off length
  simp only [Fs.readi, copy, read, ok_bind]
  exact sound.store locked sound.consistent rfl (update_eq_self ..).symm allocated.2

theorem Sound.writei (sound : s.Sound) (locked : (s.icache k).locked = true) {src : List Byte}
    (length : src.length < 2 ^ 32) (off : Nat) :
    Yields (fun r => r.2.Sound) NotFreeing (s.writei k src off) := by
  obtain ⟨allocated, copy⟩ := sound.of_locked locked
  have outcome := sound.consistent.writei_outcome allocated length off
  simp only [Fs.writei, copy]
  cases written : s.disk.writei (s.icache k).inum (s.disk.dinode (s.icache k).inum) src off with
  | error stop =>
    rw [written] at outcome
    obtain rfl : stop = .panic "balloc: out of blocks" := outcome
    exact (by simp : NotFreeing (.panic "balloc: out of blocks"))
  | ok r =>
    rw [written] at outcome
    rcases outcome with ⟨same, unchanged⟩ | wrote
    · simp only [ok_bind, same, unchanged]
      exact sound.store locked sound.consistent rfl (update_eq_self ..).symm allocated.2
    · refine sound.store locked wrote.consistent wrote.sb wrote.dinode ?_
      rw [wrote.fields]
      exact allocated.2

theorem Sound.update (sound : s.Sound) (locked : (s.icache k).locked = true)
    (major minor nlink : BitVec 16) :
    (s.update k { (s.icache k).copy with major, minor, nlink }).Sound := by
  obtain ⟨allocated, copy⟩ := sound.of_locked locked
  refine sound.store locked ?_ rfl rfl ?_
  · apply sound.consistent.iupdate_fields
    · rw [copy]
    · rw [copy]
    · rw [copy]
  · rw [copy]
    exact allocated.2

theorem Sound.ialloc (sound : s.Sound) (type : FileType) :
    Yields (fun r => r.2.Sound) NotFreeing (s.ialloc type) := by
  unfold Fs.ialloc
  split
  case h_2 => exact (by simp : NotFreeing (.panic "ialloc: no inodes"))
  case h_1 inum found =>
    have free : (s.disk.dinode inum).type = .free := by
      have unused := List.find?_some found
      simpa using unused
    have unused : ¬ s.disk.Allocated s.disk.dinode inum := fun there => there.2 free
    have zeroed : ({ s with
        disk := s.disk.iupdate inum { Dinode.zero with type } } : Fs).Sound := by
      constructor
      · apply sound.consistent.iupdate_unused unused
        · intro slot
          cases slot with
          | block bn => simp [Dinode.pointer, Dinode.lookup, Dinode.zero]
          | indirect => rfl
        · rfl
      · intro k referenced valid
        have before := sound.coherent k referenced valid
        have apart : (s.icache k).inum ≠ inum := by
          intro same
          exact unused (same ▸ before.1)
        simp only [Disk.Allocated, Disk.iupdate, update_of_ne apart]
        exact before
      · exact sound.counted
      · exact sound.single
      · exact sound.locked
    exact zeroed.iget inum

theorem sound_rules : Writes Sound NotFreeing where
  stops := fun _ other => other
  iget := fun inum sound => sound.iget inum
  idup := fun sound referenced =>
    sound.addRef (by omega) (fun _ => referenced) (fun _ => by omega)
  ilock := fun k sound => sound.ilock k
  iunlock := fun k sound => sound.iunlock k
  iput := fun sound referenced => sound.iput referenced
  readi := fun off _ length sound locked => sound.readi locked off length
  ialloc := fun type sound => sound.ialloc type
  writei := fun _ off length sound locked => sound.writei locked length off
  update := fun major minor nlink sound locked => sound.update locked major minor nlink

/-! ## Runs -/

/-- The locked entries of the cache. -/
def lockedEntries (s : Fs) : List (Fin nInode) :=
  (List.finRange nInode).filter fun k => (s.icache k).locked

theorem Sound.begins (sound : s.Sound) :
    s.At Sound (fun k => (s.icache k).ref.toNat) [] s.lockedEntries where
  holds := sound
  call := by
    constructor
    · intro k
      have counted := sound.counted k
      simp only [List.count_nil, Nat.add_zero]
      omega
    · intro k
      simp [lockedEntries]
    · exact sound.single

end Fs

/-- A call of a function of the file system: those on one inode, which processes interleave, and
the calls that use directories. -/
inductive FsEvent where
  /-- `iget` of an inode. -/
  | iget (inum : Nat)
  /-- `idup` of a cached inode. -/
  | idup (k : Fin nInode)
  /-- `ilock` of a cached inode. -/
  | ilock (k : Fin nInode)
  /-- `iunlock` of a cached inode. -/
  | iunlock (k : Fin nInode)
  /-- `iput` of a cached inode. -/
  | iput (k : Fin nInode)
  /-- `iupdate` of a cached inode after a change of its numbers and links. -/
  | iupdate (k : Fin nInode) (major minor nlink : BitVec 16)
  /-- `ialloc` of an inode. -/
  | ialloc (type : FileType)
  /-- `itrunc` of a cached inode. -/
  | itrunc (k : Fin nInode)
  /-- `readi` of a cached inode. -/
  | readi (k : Fin nInode) (off n : Nat)
  /-- `writei` of a cached inode. -/
  | writei (k : Fin nInode) (src : List Byte) (off : Nat)
  /-- `create` by a process with a current directory. -/
  | create (cwd : Fin nInode) (path : List Byte) (type : FileType) (major minor : BitVec 16)
  /-- `link` by a process with a current directory. -/
  | link (cwd : Fin nInode) (old new : List Byte)
  /-- `unlink` by a process with a current directory. -/
  | unlink (cwd : Fin nInode) (path : List Byte)

/-- The file system after a call that returns. -/
def Fs.step (s : Fs) : FsEvent → Except Halt Fs
  | .iget inum => Prod.snd <$> s.iget inum
  | .idup k => pure (s.idup k)
  | .ilock k => s.ilock k
  | .iunlock k => s.iunlock k
  | .iput k => s.iput k
  | .iupdate k major minor nlink => pure (s.update k { (s.icache k).copy with major, minor, nlink })
  | .ialloc type => Prod.snd <$> s.ialloc type
  | .itrunc k => s.itrunc k
  | .readi k off n => Prod.snd <$> s.readi k off n
  | .writei k src off => Prod.snd <$> s.writei k src off
  | .create cwd path type major minor => Prod.snd <$> s.create cwd path type major minor
  | .link cwd old new => Prod.snd <$> s.link cwd old new
  | .unlink cwd path => Prod.snd <$> s.unlink cwd path

/-- What callers of the functions see to: references are held, and inodes are locked before they
are used. Lengths are of type `uint`. -/
def FsEvent.Allowed (s : Fs) : FsEvent → Prop
  | .idup k | .iput k => 0 < (s.icache k).ref
  | .iupdate k _ _ _ | .itrunc k => (s.icache k).locked = true
  | .readi k _ n => (s.icache k).locked = true ∧ n < 2 ^ 32
  | .writei k src _ => (s.icache k).locked = true ∧ src.length < 2 ^ 32
  | .create cwd _ _ _ _ | .link cwd _ _ | .unlink cwd _ => 0 < (s.icache cwd).ref
  | .iget _ | .ilock _ | .iunlock _ | .ialloc _ => True

instance FsEvent.decidableAllowed (s : Fs) (event : FsEvent) : Decidable (event.Allowed s) := by
  cases event <;> unfold FsEvent.Allowed <;> infer_instance

namespace Fs

variable {s : Fs}

/-- Each call keeps the file system sound and frees no free block. -/
theorem Sound.step (sound : s.Sound) (event : FsEvent) (allowed : event.Allowed s) :
    Yields Sound NotFreeing (s.step event) := by
  have begins := sound.begins
  have held : ∀ {cwd}, 0 < (s.icache cwd).ref → 0 < (s.icache cwd).ref.toNat := Int.pos_iff_toNat_pos.mp
  cases event with
  | iget inum => exact Yields.snd (sound.iget inum)
  | idup k => exact sound_rules.idup sound allowed
  | ilock k => exact sound.ilock k
  | iunlock k => exact sound.iunlock k
  | iput k => exact sound.iput allowed
  | iupdate k major minor nlink => exact sound.update allowed major minor nlink
  | ialloc type => exact Yields.snd (sound.ialloc type)
  | itrunc k => exact sound.itrunc allowed
  | readi k off n => exact Yields.snd (sound.readi allowed.1 off allowed.2)
  | writei k src off => exact Yields.snd (sound.writei allowed.1 allowed.2 off)
  | create cwd path type major minor =>
    apply Yields.snd
    apply (begins.create sound_rules (held allowed) path type major minor).mono
    intro r result
    exact result.1.holds
  | link cwd old new =>
    apply Yields.snd
    apply (begins.link sound_rules (held allowed) old new).mono
    intro r result
    exact result.holds
  | unlink cwd path =>
    apply Yields.snd
    apply (begins.unlink sound_rules (held allowed) path).mono
    intro r result
    exact result.holds

end Fs

/-- Block ownership on the disk: the blocks that inodes refer to are marked data blocks, no block
is referred to from two places, and every marked data block is referred to. -/
structure Disk.Owned (d : Disk) : Prop where
  /-- No block is referred to from two places. -/
  distinct : ∀ p q, d.pointer d.dinode p ≠ 0 → d.pointer d.dinode p = d.pointer d.dinode q → p = q
  /-- The blocks are marked data blocks. -/
  marked : ∀ p, d.pointer d.dinode p ≠ 0 → d.sb.datastart ≤ d.pointer d.dinode p ∧
    d.pointer d.dinode p < d.sb.size ∧ d.used (d.pointer d.dinode p) = true
  /-- Every marked data block belongs to one place of one inode. -/
  owner : ∀ b, d.sb.datastart ≤ b → b < d.sb.size → d.used b = true →
    ∃! p : Nat × BlockSlot, d.Allocated d.dinode p.1 ∧ d.pointer d.dinode p = b

theorem Disk.Consistent.owned {d : Disk} (consistent : d.Consistent) : d.Owned where
  distinct := consistent.holding.single
  marked := consistent.holding.marked
  owner := by
    intro b data inside used
    have inUse : d.InUse b := ⟨data, inside, used⟩
    obtain ⟨p, refers⟩ := consistent.holding.held b inUse
    have real : d.pointer d.dinode p ≠ 0 := by
      intro null
      rw [refers] at null
      exact consistent.holding.solid (null ▸ inUse)
    refine ⟨p, ⟨?_, refers⟩, ?_⟩
    · by_contra absent
      exact real (Disk.pointer_free absent p.2)
    · intro q other
      exact (consistent.holding.single p q real (by rw [refers, other.2])).symm

/-- In every run from a sound file system the marked data blocks and the references of allocated
inodes correspond one to one. No call in such a run gets to the panic of `bfree`; `balloc` finds
blocks that no inode refers to, and a `writei` leaves every inode the blocks it has. -/
theorem Fs.run_ownership {s s' : Fs} (sound : s.Sound)
    (run : Relation.ReflTransGen (Steps Fs.step FsEvent.Allowed) s s') :
    s'.disk.Owned ∧
      (∀ event, event.Allowed s' → s'.step event ≠ .error (.panic "freeing free block")) ∧
      (∀ b after, s'.disk.balloc = .ok (b, after) →
        ∀ place, s'.disk.pointer s'.disk.dinode place ≠ b) ∧
      ∀ k src off next, (FsEvent.writei k src off).Allowed s' →
        s'.step (.writei k src off) = .ok next →
        ∀ place, s'.disk.pointer s'.disk.dinode place ≠ 0 →
          next.disk.pointer next.disk.dinode place = s'.disk.pointer s'.disk.dinode place := by
  have reached : s'.Sound := by
    apply steps_invariant Fs.Sound _ sound run
    intro state event next holds allowed stepped
    exact (holds.step event allowed).of_ok stepped
  refine ⟨reached.consistent.owned, ?_, ?_, ?_⟩
  · intro event allowed stopped
    have outcome := reached.step event allowed
    rw [stopped] at outcome
    exact outcome rfl
  · intro b after taken
    have free : b ∈ s'.disk.freeBlocks := by
      unfold Disk.balloc at taken
      split at taken
      case h_1 c found =>
        cases taken
        have member := List.mem_of_find?_eq_some found
        have unmarked := List.find?_some found
        rw [Disk.mem_freeBlocks]
        exact ⟨List.mem_range.mp member, by simpa using unmarked⟩
      case h_2 => cases taken
    exact reached.consistent.unreferenced free
  · intro k src off next allowed stepped place full
    obtain ⟨allocated, copy⟩ := reached.of_locked allowed.1
    have outcome := reached.consistent.writei_outcome allocated allowed.2 off
    obtain ⟨r, written, rfl⟩ := map_eq_ok.mp stepped
    simp only [Fs.writei, copy] at written
    obtain ⟨result, wrote, returned⟩ := bind_eq_ok.mp written
    rw [wrote] at outcome
    cases returned
    rcases outcome with ⟨_, unchanged⟩ | wrote
    · show result.2.2.pointer result.2.2.dinode place = _
      rw [unchanged]
    · exact wrote.pointer place full

/-- The disk with one file and an empty cache. -/
def Fs.oneFile : Fs where
  disk := Disk.oneFileDisk true
  icache := fun _ => ⟨0, 0, false, false, .zero⟩

theorem Fs.oneFile_sound : Fs.oneFile.Sound where
  consistent := Disk.oneFileDisk_consistent true
  coherent := by
    intro k referenced
    simp [Fs.oneFile] at referenced
  counted := fun _ => le_refl _
  single := by
    intro k l referenced
    simp [Fs.oneFile] at referenced
  locked := by
    intro k held
    simp [Fs.oneFile] at held

/-- A process writes to that file, so that it grows by a block, and truncates it. -/
def FsEvent.growTruncate : List FsEvent :=
  let k : Fin nInode := ⟨0, nInode_pos⟩
  [.iget 1, .ilock k, .writei k [7#8] 512, .itrunc k, .iunlock k, .iput k]

/-- The blocks of the file are free after that. -/
theorem Fs.oneFile_truncated : ∃ s',
    Outcome.run (guarded Fs.step FsEvent.Allowed .endless) Fs.oneFile FsEvent.growTruncate = .ok s' ∧
      (s'.disk.used 4, s'.disk.used 5) = (false, false) ∧ s'.disk.Owned := by
  have returns : ((Outcome.run (guarded Fs.step FsEvent.Allowed .endless) Fs.oneFile
      FsEvent.growTruncate).map fun s => (s.disk.used 4, s.disk.used 5)).toOption =
      some (false, false) := by
    decide +kernel
  obtain ⟨s', returned, freed⟩ := exists_ok returns
  exact ⟨s', returned, freed, (Fs.run_ownership Fs.oneFile_sound (run_guarded returned)).1⟩

end MemoryEncryption
