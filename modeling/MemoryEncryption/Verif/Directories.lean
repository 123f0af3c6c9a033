import MemoryEncryption.Kernel.Strings
import MemoryEncryption.Library.SlotTable
import MemoryEncryption.Verif.FsOwnership
import Mathlib.Data.List.TakeWhile

/-!
# Directories as maps

The entries of a directory are a table of slots, from names of at most `DIRSIZ` bytes to
inode numbers. `dirlink` adds a name in the first empty slot, and `unlink` empties the slot
that `dirlookup` has found. Over any sequence of such changes, with other calls in between,
the directory is the map that the changes describe. One call does not return at all:
`dirlink` of a name whose entry refers to an inode that the caller has locked, as `.` does,
waits in `iput` for the lock of that inode.
-/

namespace MemoryEncryption

open Function Outcome

/-! ## The bytes of a directory -/

/-- The slot that the bytes of a `struct dirent` stand for. -/
def direntSlot (bytes : List Byte) : Option (List Byte × Nat) :=
  if direntInum bytes = 0 then none else some (nameOf (direntName bytes), direntInum bytes)

/-- The bytes of an entry of a directory. -/
def direntAt (bytes : List Byte) (n : Nat) : List Byte :=
  (bytes.drop (direntSize * n)).take direntSize

/-- The slots of a directory. -/
def dirents (bytes : List Byte) : Slots (List Byte) Nat :=
  (List.range (bytes.length / direntSize)).map fun n => direntSlot (direntAt bytes n)

theorem length_dirents (bytes : List Byte) :
    (dirents bytes).length = bytes.length / direntSize := by
  simp [dirents]

variable {n : Nat}

theorem getElem?_dirents {bytes : List Byte} (inside : n < bytes.length / direntSize) :
    (dirents bytes)[n]? = some (direntSlot (direntAt bytes n)) := by
  simp [dirents, inside]

theorem getElem?_direntAt (bytes : List Byte) (n : Nat) {o : Nat} (inside : o < direntSize) :
    (direntAt bytes n)[o]? = bytes[direntSize * n + o]? := by
  rw [direntAt, List.getElem?_take_of_lt inside, List.getElem?_drop]

theorem getElem?_direntAt_none (bytes : List Byte) (n : Nat) {o : Nat} (outside : direntSize ≤ o) :
    (direntAt bytes n)[o]? = none := by
  rw [direntAt, List.getElem?_take_eq_none outside]

theorem direntAt_splice {bytes entry : List Byte} (inside : direntSize * n ≤ bytes.length)
    (length : entry.length = direntSize) (m : Nat) :
    direntAt (splice bytes (direntSize * n) entry) m =
      if m = n then entry else direntAt bytes m := by
  apply List.ext_getElem?
  intro o
  by_cases short : o < direntSize
  · rw [getElem?_direntAt _ _ short]
    split
    case isTrue same =>
      subst same
      rw [getElem?_splice_new inside (by omega) (by omega), Nat.add_sub_cancel_left]
    case isFalse other =>
      rw [getElem?_direntAt _ _ short]
      apply getElem?_splice_old inside
      unfold direntSize at *
      omega
  · rw [getElem?_direntAt_none _ _ (by omega)]
    split
    · rw [List.getElem?_eq_none (by omega)]
    · rw [getElem?_direntAt_none _ _ (by omega)]

theorem dirents_splice {bytes entry : List Byte} (whole : direntSize ∣ bytes.length)
    (inside : direntSize * n ≤ bytes.length) (length : entry.length = direntSize) :
    dirents (splice bytes (direntSize * n) entry) =
      splice (dirents bytes) n [direntSlot entry] := by
  have grown := length_splice inside entry
  have last : n ≤ bytes.length / direntSize := by
    unfold direntSize at *
    omega
  have slots : n ≤ (dirents bytes).length := by rwa [length_dirents]
  have count : (splice bytes (direntSize * n) entry).length / direntSize =
      max (bytes.length / direntSize) (n + 1) := by
    rw [grown, length]
    unfold direntSize at *
    omega
  apply List.ext_getElem?
  intro m
  by_cases within : m < max (bytes.length / direntSize) (n + 1)
  · rw [getElem?_dirents (by omega), direntAt_splice inside length]
    by_cases same : m = n
    · rw [if_pos same, getElem?_splice_new slots (by omega) (by simp; omega), same]
      simp
    · rw [if_neg same, getElem?_splice_old slots (by simp; omega), getElem?_dirents (by omega)]
  · rw [List.getElem?_eq_none (by rw [length_dirents]; omega),
      List.getElem?_eq_none (by rw [length_splice slots, length_dirents]; simp; omega)]

theorem length_direntBytes (name : List Byte) (inum : Nat) :
    (direntBytes name inum).length = direntSize := by
  have bounded := Fs.length_nameOf_le name
  simp only [direntBytes, List.length_append, List.length_cons, List.length_nil,
    List.length_replicate]
  unfold direntSize dirSiz at *
  omega

theorem nameOf_field (name : List Byte) :
    nameOf (nameOf name ++ List.replicate (dirSiz - (nameOf name).length) 0) = nameOf name := by
  have bounded := Fs.length_nameOf_le name
  have fills : (nameOf name ++ List.replicate (dirSiz - (nameOf name).length) 0).take dirSiz =
      nameOf name ++ List.replicate (dirSiz - (nameOf name).length) (0 : Byte) := by
    apply List.take_of_length_le
    rw [List.length_append, List.length_replicate]
    omega
  have proper : ∀ c ∈ nameOf name, decide (c ≠ 0) = true := by
    intro c member
    rw [nameOf] at member
    have proper := List.mem_takeWhile_imp member
    exact proper
  have zeros : (List.replicate (dirSiz - (nameOf name).length) (0 : Byte)).takeWhile (· ≠ 0) =
      [] := by
    cases dirSiz - (nameOf name).length with
    | zero => rfl
    | succ left => simp [List.replicate_succ]
  rw [nameOf, fills, List.takeWhile_append_of_pos proper, zeros, List.append_nil]

theorem direntSlot_direntBytes (name : List Byte) {inum : Nat} (positive : 0 < inum)
    (narrow : inum < 2 ^ 16) : direntSlot (direntBytes name inum) = some (nameOf name, inum) := by
  have stored : direntInum (direntBytes name inum) = inum := by
    simp only [direntInum, direntBytes, List.cons_append, List.getD_cons_zero,
      List.getD_cons_succ, BitVec.toNat_ofNat]
    omega
  have named : nameOf (direntName (direntBytes name inum)) = nameOf name := nameOf_field name
  rw [direntSlot, stored, named, if_neg (by omega)]

theorem direntSlot_eq_some {bytes name : List Byte} {inum : Nat} :
    direntSlot bytes = some (name, inum) ↔
      direntInum bytes ≠ 0 ∧ nameOf (direntName bytes) = name ∧ direntInum bytes = inum := by
  unfold direntSlot
  split
  case isTrue empty => simp [empty]
  case isFalse live => simp [live]

theorem direntSlot_zero : direntSlot (List.replicate direntSize 0) = none := by decide

/-! ## Functions on a locked directory -/

namespace Fs

variable {s s' : Fs} {i : Nat} {k : Fin nInode}

/-- The bytes of a file. -/
def bytes (s : Fs) (i : Nat) : List Byte := (s.disk.dinode i).contents s.disk.data

/-- The inode is that of a directory with whole entries, in a sound file system. -/
structure Directory (s : Fs) (i : Nat) : Prop where
  /-- The file system is sound. -/
  sound : s.Sound
  /-- The inode is allocated. -/
  allocated : s.disk.Allocated s.disk.dinode i
  /-- It is a directory. -/
  type : (s.disk.dinode i).type = .dir
  /-- Its size is that of its entries. -/
  whole : direntSize ∣ (s.disk.dinode i).size

/-- The cache entry has the inode locked. -/
def Holds (s : Fs) (k : Fin nInode) (i : Nat) : Prop :=
  (s.icache k).locked = true ∧ (s.icache k).inum = i

theorem length_bytes (s : Fs) (i : Nat) : (s.bytes i).length = (s.disk.dinode i).size :=
  Disk.length_contents _ _

theorem Directory.copy (directory : s.Directory i) (held : s.Holds k i) :
    (s.icache k).copy = s.disk.dinode i := by
  rw [(directory.sound.of_locked held.1).2, held.2]

theorem Directory.inode (directory : s.Directory i) : (s.disk.dinode i).type ≠ .dev := by
  rw [directory.type]
  decide

theorem Directory.small (directory : s.Directory i) :
    (s.disk.dinode i).size + direntSize < 2 ^ 32 := by
  have bound := directory.sound.consistent.size_le directory.allocated
  have narrow : maxFile * bsize + direntSize < 2 ^ 32 := by decide
  omega

theorem readi_same {off : Nat} {bytes : Option (List Byte)}
    (read : s.disk.readi (s.icache k).copy off n = .ok (bytes, (s.icache k).copy, s.disk)) :
    s.readi k off n = .ok (bytes, s) := by
  have same : { s with disk := s.disk }.set k { s.icache k with copy := (s.icache k).copy } = s := by
    rw [set, update_eq_self]
  rw [Fs.readi, read, ok_bind]
  dsimp only
  rw [same]
  rfl

theorem Directory.readDirent_eq (directory : s.Directory i) (held : s.Holds k i)
    (inside : n < (s.disk.dinode i).size / direntSize) (message : String) :
    s.readDirent k (direntSize * n) message = .ok (direntAt (s.bytes i) n, s) := by
  have small := directory.small
  have there : direntSize * n + direntSize ≤ (s.disk.dinode i).size := by
    unfold direntSize at *
    omega
  have read := directory.sound.consistent.readi_eq directory.allocated directory.inode
    (show direntSize * n ≤ (s.disk.dinode i).size by omega)
    (show direntSize * n + direntSize < 2 ^ 32 by omega)
  have length : (direntAt (s.bytes i) n).length = direntSize := by
    rw [direntAt, List.length_take, List.length_drop, length_bytes]
    omega
  rw [← directory.copy held] at read
  rw [readDirent, readi_same read, directory.copy held]
  exact if_pos length

theorem length_dirents_bytes (s : Fs) (i : Nat) :
    (dirents (s.bytes i)).length = (s.disk.dinode i).size / direntSize := by
  rw [length_dirents, length_bytes]

/-- The loop of `dirlookup` finds a slot with the name, or no slot that is left has it. -/
theorem Directory.lookupLoop_eq (directory : s.Directory i) (held : s.Holds k i)
    (name : List Byte) (rounds : Nat) {j : Nat} (left : j ≤ (s.disk.dinode i).size / direntSize)
    (enough : (s.disk.dinode i).size / direntSize < j + rounds) :
    ∃ found, lookupLoop k name rounds s (direntSize * j) = .ok (found, s) ∧
      match found with
      | none => ∀ n inum, j ≤ n → ¬ (dirents (s.bytes i)).At n (nameOf name) inum
      | some (inum, off) =>
        ∃ n, off = direntSize * n ∧ (dirents (s.bytes i)).At n (nameOf name) inum := by
  have copy := directory.copy held
  have whole := directory.whole
  induction rounds generalizing j with
  | zero => omega
  | succ rounds ih =>
    by_cases inside : j < (s.disk.dinode i).size / direntSize
    · have before : direntSize * j < (s.disk.dinode i).size := by
        unfold direntSize at *
        omega
      have slot := getElem?_dirents (show j < (s.bytes i).length / direntSize by
        rwa [length_bytes])
      rw [lookupLoop, copy, if_pos before, directory.readDirent_eq held inside, ok_bind]
      dsimp only
      by_cases hit : direntInum (direntAt (s.bytes i) j) ≠ 0 ∧
          sameName name (direntName (direntAt (s.bytes i) j)) = true
      · rw [if_pos hit]
        refine ⟨_, rfl, j, rfl, ?_⟩
        rw [Slots.At, slot, direntSlot_eq_some.mpr ⟨hit.1, (of_decide_eq_true hit.2).symm, rfl⟩]
      · rw [if_neg hit]
        obtain ⟨found, looped, outcome⟩ :=
          ih (show j + 1 ≤ (s.disk.dinode i).size / direntSize by omega) (by omega)
        refine ⟨found, looped, ?_⟩
        cases found with
        | some entry => exact outcome
        | none =>
          intro n inum later here
          by_cases same : n = j
          · subst same
            rw [Slots.At, slot] at here
            obtain ⟨live, same, _⟩ := direntSlot_eq_some.mp (Option.some.inj here)
            exact hit ⟨live, decide_eq_true same.symm⟩
          · exact outcome n inum (by omega) here
    · have past : ¬ direntSize * j < (s.disk.dinode i).size := by
        unfold direntSize at *
        omega
      rw [lookupLoop, copy, if_neg past]
      refine ⟨none, rfl, ?_⟩
      intro n inum later here
      have within := here.lt
      rw [length_dirents_bytes] at within
      omega

/-- The loop of `dirlink` finds the first slot that can be taken. -/
theorem Directory.emptyLoop_eq (directory : s.Directory i) (held : s.Holds k i) (rounds : Nat)
    {j : Nat} (left : j ≤ (s.disk.dinode i).size / direntSize)
    (enough : (s.disk.dinode i).size / direntSize < j + rounds) :
    ∃ n, emptyLoop k rounds s (direntSize * j) = .ok (direntSize * n, s) ∧
      (dirents (s.bytes i)).Vacant n := by
  have copy := directory.copy held
  have whole := directory.whole
  induction rounds generalizing j with
  | zero => omega
  | succ rounds ih =>
    by_cases inside : j < (s.disk.dinode i).size / direntSize
    · have before : direntSize * j < (s.disk.dinode i).size := by
        unfold direntSize at *
        omega
      have slot := getElem?_dirents (show j < (s.bytes i).length / direntSize by
        rwa [length_bytes])
      rw [emptyLoop, copy, if_pos before, directory.readDirent_eq held inside, ok_bind]
      dsimp only
      by_cases empty : direntInum (direntAt (s.bytes i) j) = 0
      · rw [if_pos empty]
        refine ⟨j, rfl, .inl ?_⟩
        rw [slot, direntSlot, if_pos empty]
      · rw [if_neg empty]
        exact ih (show j + 1 ≤ (s.disk.dinode i).size / direntSize by omega) (by omega)
    · have past : ¬ direntSize * j < (s.disk.dinode i).size := by
        unfold direntSize at *
        omega
      rw [emptyLoop, copy, if_neg past]
      refine ⟨j, rfl, .inr ?_⟩
      rw [length_dirents_bytes]
      omega

/-- `iget` can find the inode in the cache or an entry for it. -/
def Room (s : Fs) (inum : Nat) : Prop :=
  ∃ l, (s.icache l).ref = 0 ∨ 0 < (s.icache l).ref ∧ (s.icache l).inum = inum

/-- No entry has the inode locked. -/
def Unlocked (s : Fs) (inum : Nat) : Prop := ∀ l, ¬ s.Holds l inum

/-- Nothing has changed but cache entries without references. -/
structure Same (s s' : Fs) : Prop where
  /-- The disk stays. -/
  disk : s'.disk = s.disk
  /-- Entries with references stay. -/
  icache : ∀ l, 0 < (s.icache l).ref → s'.icache l = s.icache l

theorem Room.iget_ok {inum : Nat} (room : s.Room inum) : ∃ ip t, s.iget inum = .ok (ip, t) := by
  unfold iget
  split
  case h_1 => exact ⟨_, _, rfl⟩
  case h_2 absent =>
    split
    case h_1 => exact ⟨_, _, rfl⟩
    case h_2 none =>
      obtain ⟨l, empty | ⟨referenced, here⟩⟩ := room
      · rw [emptyEntry, List.find?_eq_none] at none
        exact absurd (decide_eq_true empty) (none l (List.mem_finRange l))
      · exact absurd here (cached_eq_none absent l referenced)

theorem iget_cases {inum : Nat} {ip : Fin nInode} (got : s.iget inum = .ok (ip, s')) :
    (0 < (s.icache ip).ref ∧ (s.icache ip).inum = inum ∧ s' = s.addRef ip 1) ∨
      ((s.icache ip).ref = 0 ∧
        s' = s.set ip { s.icache ip with inum, ref := 1, valid := false }) := by
  unfold iget at got
  split at got
  case h_1 found =>
    cases got
    obtain ⟨referenced, here⟩ := cached_eq_some found
    exact .inl ⟨referenced, here, rfl⟩
  case h_2 =>
    split at got
    case h_1 found =>
      cases got
      have empty := List.find?_some found
      exact .inr ⟨of_decide_eq_true empty, rfl⟩
    case h_2 => cases got

theorem iget_entry {inum : Nat} {ip : Fin nInode} (got : s.iget inum = .ok (ip, s')) :
    s'.disk = s.disk ∧ (s'.icache ip).inum = inum := by
  obtain ⟨_, here, rfl⟩ | ⟨_, rfl⟩ := iget_cases got
  · exact ⟨rfl, by simp [addRef, set, here]⟩
  · exact ⟨rfl, by simp [set]⟩

theorem Sound.iget_iput {inum : Nat} {ip : Fin nInode} (sound : s.Sound)
    (unlocked : s.Unlocked inum) (got : s.iget inum = .ok (ip, s')) :
    ∃ t, s'.iput ip = .ok t ∧ s.Same t := by
  obtain ⟨referenced, here, rfl⟩ | ⟨empty, rfl⟩ := iget_cases got
  · have free : ((s.addRef ip 1).icache ip).locked = false := by
      have away := unlocked ip
      simpa [Fs.addRef, set, Holds, here] using away
    have more : ((s.addRef ip 1).icache ip).ref ≠ 1 := by
      simp only [Fs.addRef, set, update_self]
      omega
    refine ⟨(s.addRef ip 1).addRef ip (-1), ?_, rfl, ?_⟩
    · rw [Fs.iput, if_neg (by simp [free]), if_neg (fun last => more last.2.2)]
      rfl
    · intro l _
      simp [Fs.addRef, set]
  · have free : (s.icache ip).locked = false := by
      by_contra locked
      have positive := (sound.locked ip (by simpa using locked)).1
      omega
    refine ⟨(s.set ip { s.icache ip with inum, ref := 1, valid := false }).addRef ip (-1),
      ?_, rfl, ?_⟩
    · rw [Fs.iput]
      dsimp only
      rw [if_neg (by simp [set, free]), if_neg (by simp [set])]
      rfl
    · intro l referenced
      have other : l ≠ ip := by
        rintro rfl
        omega
      simp [Fs.addRef, set, other]

theorem Sound.iget_iput_locked {inum : Nat} (sound : s.Sound) (held : s.Holds k inum) :
    ∃ ip t, s.iget inum = .ok (ip, t) ∧ t.iput ip = .error .endless := by
  have referenced := (sound.locked k held.1).1
  obtain ⟨ip, t, got⟩ := Room.iget_ok ⟨k, .inr ⟨referenced, held.2⟩⟩
  have cached : ip = k ∧ t = s.addRef k 1 := by
    unfold Fs.iget at got
    split at got
    case h_1 found =>
      cases got
      obtain ⟨present, here⟩ := cached_eq_some found
      have same := sound.single ip k present referenced (by rw [here, held.2])
      exact ⟨same, by rw [same]⟩
    case h_2 absent => exact absurd held.2 (cached_eq_none absent k referenced)
  obtain ⟨rfl, rfl⟩ := cached
  have locked : ((s.addRef ip 1).icache ip).locked = true := by
    simpa [Fs.addRef, set] using held.1
  exact ⟨ip, _, got, if_pos locked⟩

/-- `dirlookup` returns the inode of the slot that has the name, or nothing when no slot has. -/
theorem Directory.dirlookup_eq (directory : s.Directory i) (held : s.Holds k i)
    (name : List Byte) :
    (s.dirlookup k name = .ok (none, s) ∧
      ∀ n inum, ¬ (dirents (s.bytes i)).At n (nameOf name) inum) ∨
    ∃ n inum, (dirents (s.bytes i)).At n (nameOf name) inum ∧
      s.dirlookup k name = (do
        let (ip, t) ← s.iget inum
        pure (some (ip, direntSize * n), t)) := by
  have copy := directory.copy held
  have enough := Nat.div_le_self (s.disk.dinode i).size direntSize
  obtain ⟨found, looped, outcome⟩ := directory.lookupLoop_eq held name
    ((s.disk.dinode i).size + 1) (Nat.zero_le _) (by omega)
  rw [Nat.mul_zero] at looped
  rw [dirlookup, copy, if_neg (by simp [directory.type]), looped]
  cases found with
  | none => exact .inl ⟨rfl, fun n inum => outcome n inum (Nat.zero_le n)⟩
  | some entry =>
    obtain ⟨inum, off⟩ := entry
    obtain ⟨n, offset, here⟩ := outcome
    subst offset
    exact .inr ⟨n, inum, here, rfl⟩

/-- `dirlink` refuses a name that a slot has, and writes one that no slot has into the first slot
that can be taken. -/
theorem Directory.dirlink_eq (directory : s.Directory i) (held : s.Holds k i)
    (name : List Byte) (inum : Nat) :
    ((∀ n other, ¬ (dirents (s.bytes i)).At n (nameOf name) other) ∧
      ∃ n, (dirents (s.bytes i)).Vacant n ∧
        s.dirlink k name inum = (do
          let (r, t) ← s.writei k (direntBytes name inum) (direntSize * n)
          if r = some direntSize then pure (true, t) else .error (.panic "dirlink"))) ∨
    ∃ n other, (dirents (s.bytes i)).At n (nameOf name) other ∧
      s.dirlink k name inum = (do
        let (ip, t) ← s.iget other
        let t ← t.iput ip
        pure (false, t)) := by
  have copy := directory.copy held
  have enough := Nat.div_le_self (s.disk.dinode i).size direntSize
  rcases directory.dirlookup_eq held name with ⟨looked, absent⟩ | ⟨n, other, here, looked⟩
  · obtain ⟨n, looped, vacant⟩ := directory.emptyLoop_eq held
      ((s.disk.dinode i).size + 1) (Nat.zero_le _) (by omega)
    rw [Nat.mul_zero] at looped
    refine .inl ⟨absent, n, vacant, ?_⟩
    rw [dirlink, looked, ok_bind]
    dsimp only
    rw [copy, looped]
    rfl
  · refine .inr ⟨n, other, here, ?_⟩
    rw [dirlink, looked]
    cases s.iget other with
    | error stop => rfl
    | ok r => rfl

/-- Writing an entry into a slot replaces the bytes of the slot. -/
theorem Directory.writei_entry (directory : s.Directory i) (held : s.Holds k i)
    (slot : n ≤ (dirents (s.bytes i)).length) {entry : List Byte}
    (length : entry.length = direntSize)
    (written : s.writei k entry (direntSize * n) = .ok (some direntSize, s')) :
    s'.Directory i ∧ s'.bytes i = splice (s.bytes i) (direntSize * n) entry := by
  have copy := directory.copy held
  have small := directory.small
  have whole := directory.whole
  rw [length_dirents_bytes] at slot
  have keeps := directory.sound.writei held.1 (show entry.length < 2 ^ 32 by rw [length]; decide)
    (direntSize * n)
  rw [written] at keeps
  simp only [Fs.writei, copy, held.2] at written
  obtain ⟨⟨r, ip, d⟩, ran, returned⟩ := bind_eq_ok.mp written
  have before : direntSize * n ≤ (s.disk.dinode i).size := by
    unfold direntSize at *
    omega
  obtain ⟨rfl, _⟩ | ⟨_, _, _, wrote⟩ := directory.sound.consistent.writei_cases
    directory.allocated directory.inode (by omega) (by rw [length]; decide) ran
  · cases returned
  · cases returned
    have inode : d.dinode i = ip := by rw [wrote.dinode, update_self]
    refine ⟨⟨keeps, (wrote.allocated i).mpr directory.allocated, ?_, ?_⟩, ?_⟩
    · show (d.dinode i).type = .dir
      rw [inode, wrote.fields]
      exact directory.type
    · show direntSize ∣ (d.dinode i).size
      rw [inode, wrote.fields]
      dsimp only
      rw [length]
      unfold direntSize at *
      omega
    · show (d.dinode i).contents d.data = _
      rw [inode]
      exact wrote.contents

/-! ## Histories of a directory -/

end Fs

/-- A change of a directory. -/
inductive DirChange where
  /-- `dirlink` has added the name. -/
  | link (name : List Byte) (inum : Nat)
  /-- `unlink` has cleared the entry with the name. -/
  | remove (name : List Byte)

/-- The name that a change is about, as far as it is stored. -/
def DirChange.key : DirChange → List Byte
  | .link name _ => nameOf name
  | .remove name => nameOf name

/-- What the name is bound to after the changes, of which the last one comes first: the inode
number of the last `dirlink` of the name, if it has not been removed since. -/
def lastBinding (start : List Byte → Option Nat) : List DirChange → List Byte → Option Nat
  | [], key => start key
  | .link name inum :: older, key =>
    if nameOf name = key then some inum else lastBinding start older key
  | .remove name :: older, key =>
    if nameOf name = key then none else lastBinding start older key

theorem lastBinding_link (start : List Byte → Option Nat) (name : List Byte) (inum : Nat)
    (older : List DirChange) : lastBinding start (.link name inum :: older) =
      update (lastBinding start older) (nameOf name) (some inum) := by
  funext key
  simp only [lastBinding, update_apply, eq_comm]

theorem lastBinding_remove (start : List Byte → Option Nat) (name : List Byte)
    (older : List DirChange) : lastBinding start (.remove name :: older) =
      update (lastBinding start older) (nameOf name) none := by
  funext key
  simp only [lastBinding, update_apply, eq_comm]

variable {history : List DirChange}

namespace Fs

variable {s s' : Fs} {i : Nat} {k : Fin nInode}

/-- Other calls leave the directory as it is. -/
structure Elsewhere (i : Nat) (s s' : Fs) : Prop where
  directory : s'.Directory i
  bytes : s'.bytes i = s.bytes i

/-- One change of a directory: a `dirlink` that succeeds, or the zeroed entry that `unlink` writes
at the offset that `dirlookup` has returned, whatever else it does in between. -/
inductive DirStep (i : Nat) : Fs → DirChange → Fs → Prop
  /-- `dirlink` succeeds. -/
  | link {s s' : Fs} {k : Fin nInode} {name : List Byte} {inum : Nat} (held : s.Holds k i)
      (positive : 0 < inum) (narrow : inum < 2 ^ 16)
      (linked : s.dirlink k name inum = .ok (true, s')) : DirStep i s (.link name inum) s'
  /-- `unlink` clears an entry. -/
  | remove {s s₁ s₂ s' : Fs} {k l ip : Fin nInode} {name : List Byte} {off : Nat}
      (held : s.Holds k i) (found : s.dirlookup k name = .ok (some (ip, off), s₁))
      (meanwhile : Elsewhere i s₁ s₂) (still : s₂.Holds l i)
      (cleared : s₂.writei l (List.replicate direntSize 0) off = .ok (some direntSize, s')) :
      DirStep i s (.remove name) s'

/-- Changes of a directory one after the other, of which the last one comes first, with any other
calls in between. -/
inductive DirRun (i : Nat) : Fs → List DirChange → Fs → Prop
  /-- No change. -/
  | start (s : Fs) : DirRun i s [] s
  /-- Other calls. -/
  | other {s s₁ s' : Fs} {history : List DirChange} (before : DirRun i s history s₁)
      (elsewhere : Elsewhere i s₁ s') : DirRun i s history s'
  /-- A further change. -/
  | change {s s₁ s' : Fs} {history : List DirChange} {change : DirChange}
      (before : DirRun i s history s₁) (step : DirStep i s₁ change s') :
      DirRun i s (change :: history) s'

/-- What one change does: it replaces one slot, which is empty or has the name that the change is
about. -/
theorem DirStep.slot {change : DirChange} (directory : s.Directory i)
    (step : DirStep i s change s') :
    ∃ n entry, s'.Directory i ∧ entry.length = direntSize ∧
      n ≤ (dirents (s.bytes i)).length ∧
      s'.bytes i = splice (s.bytes i) (direntSize * n) entry ∧
      match change with
      | .link name inum =>
        (∀ m other, ¬ (dirents (s.bytes i)).At m (nameOf name) other) ∧
          (dirents (s.bytes i)).Vacant n ∧ direntSlot entry = some (nameOf name, inum)
      | .remove name =>
        (∃ inum, (dirents (s.bytes i)).At n (nameOf name) inum) ∧ direntSlot entry = none := by
  cases step with
  | link held positive narrow linked =>
    rename_i k name inum
    rcases directory.dirlink_eq held name inum with ⟨absent, n, vacant, result⟩ | ⟨_, _, _, result⟩
    · rw [result] at linked
      obtain ⟨⟨r, t⟩, written, returned⟩ := bind_eq_ok.mp linked
      dsimp only at returned
      split at returned
      case isFalse => cases returned
      case isTrue whole =>
        subst whole
        cases returned
        obtain ⟨after, spliced⟩ := directory.writei_entry held vacant.le
          (length_direntBytes name inum) written
        exact ⟨n, _, after, length_direntBytes name inum, vacant.le, spliced, absent, vacant,
          direntSlot_direntBytes name positive narrow⟩
    · rw [result] at linked
      obtain ⟨got, _, rest⟩ := bind_eq_ok.mp linked
      obtain ⟨_, _, returned⟩ := bind_eq_ok.mp rest
      cases returned
  | remove held found meanwhile still cleared =>
    rename_i s₁ s₂ k l ip name off
    rcases directory.dirlookup_eq held name with ⟨looked, _⟩ | ⟨n, inum, here, looked⟩
    · rw [looked] at found
      cases found
    · rw [looked] at found
      obtain ⟨⟨ip', t⟩, got, returned⟩ := bind_eq_ok.mp found
      cases returned
      have same : s₂.bytes i = s.bytes i := by
        rw [meanwhile.bytes, bytes, (iget_entry got).1, bytes]
      have inside : n ≤ (dirents (s.bytes i)).length := Nat.le_of_lt here.lt
      obtain ⟨after, spliced⟩ := meanwhile.directory.writei_entry still
        (by rw [same]; exact inside) (List.length_replicate ..) cleared
      rw [same] at spliced
      exact ⟨n, _, after, List.length_replicate .., inside, spliced, ⟨inum, here⟩,
        direntSlot_zero⟩

/-- One change of a directory is the change of the map. -/
theorem DirStep.keeps {change : DirChange} {start : List Byte → Option Nat}
    (directory : s.Directory i) (table : (dirents (s.bytes i)).Is (lastBinding start history))
    (step : DirStep i s change s') :
    s'.Directory i ∧ (dirents (s'.bytes i)).Is (lastBinding start (change :: history)) := by
  obtain ⟨n, entry, after, length, inside, spliced, effect⟩ := step.slot directory
  have whole : direntSize ∣ (s.bytes i).length := by
    rw [length_bytes]
    exact directory.whole
  have before : direntSize * n ≤ (s.bytes i).length := by
    rw [length_dirents] at inside
    unfold direntSize at *
    omega
  refine ⟨after, ?_⟩
  rw [spliced, dirents_splice whole before length]
  cases change with
  | link name inum =>
    obtain ⟨absent, vacant, slot⟩ := effect
    rw [slot, lastBinding_link]
    apply table.insert vacant
    rw [Option.eq_none_iff_forall_ne_some]
    intro bound present
    obtain ⟨m, here⟩ := (table.binds _ _).mp present
    exact absent m bound here
  | remove name =>
    obtain ⟨⟨inum, here⟩, slot⟩ := effect
    rw [slot, lastBinding_remove]
    exact table.erase here

theorem DirStep.frame {change : DirChange} {inum : Nat} {key : List Byte}
    (directory : s.Directory i) (step : DirStep i s change s')
    (here : (dirents (s.bytes i)).At n key inum) (other : key ≠ change.key) :
    direntAt (s'.bytes i) n = direntAt (s.bytes i) n := by
  obtain ⟨m, entry, _, length, inside, spliced, effect⟩ := step.slot directory
  have before : direntSize * m ≤ (s.bytes i).length := by
    rw [length_dirents] at inside
    unfold direntSize at *
    omega
  have apart : n ≠ m := by
    rintro rfl
    cases change with
    | link name bound => exact effect.2.1.not_at here
    | remove name =>
      obtain ⟨⟨bound, there⟩, _⟩ := effect
      rw [Slots.At, here] at there
      cases there
      exact other rfl
  rw [spliced, direntAt_splice before length, if_neg apart]

theorem DirRun.keeps {start : List Byte → Option Nat} (run : DirRun i s history s')
    (directory : s.Directory i) (initial : (dirents (s.bytes i)).Is start) :
    s'.Directory i ∧ (dirents (s'.bytes i)).Is (lastBinding start history) := by
  induction run with
  | start => exact ⟨directory, initial⟩
  | other _ elsewhere ih =>
    refine ⟨elsewhere.directory, ?_⟩
    rw [elsewhere.bytes]
    exact ih.2
  | change _ step ih => exact step.keeps ih.1 ih.2

/-- After any sequence of successful `dirlink` calls and removals on a directory, no two entries
have the same name; a name is found exactly when it has been added and not removed since, with the
inode number of its last `dirlink`; `dirlink` of a name that is there fails and changes nothing,
unless the caller has locked the inode of that name, and `dirlink` of a name that is not there does
not fail; and the entries of other names are never touched. -/
theorem directory_is_map {start : List Byte → Option Nat} {history : List DirChange}
    (directory : s.Directory i) (initial : (dirents (s.bytes i)).Is start)
    (run : DirRun i s history s') :
    (dirents (s'.bytes i)).Unique ∧
    (∀ k name, s'.Holds k i →
      match lastBinding start history (nameOf name) with
      | none => s'.dirlookup k name = .ok (none, s') ∧
          ∀ inum t, s'.dirlink k name inum ≠ .ok (false, t)
      | some bound => s'.Room bound →
          (∃ ip off t, s'.dirlookup k name = .ok (some (ip, off), t) ∧
            (t.icache ip).inum = bound ∧ t.disk = s'.disk) ∧
          (s'.Unlocked bound → ∀ inum, ∃ t, s'.dirlink k name inum = .ok (false, t) ∧
            s'.Same t)) ∧
    ∀ change t, DirStep i s' change t → ∀ n key inum, (dirents (s'.bytes i)).At n key inum →
      key ≠ change.key → direntAt (t.bytes i) n = direntAt (s'.bytes i) n := by
  obtain ⟨now, table⟩ := run.keeps directory initial
  refine ⟨table.unique, ?_, ?_⟩
  · intro k name held
    cases binding : lastBinding start history (nameOf name) with
    | none =>
      refine ⟨?_, ?_⟩
      · rcases now.dirlookup_eq held name with ⟨looked, _⟩ | ⟨n, inum, here, _⟩
        · exact looked
        · exact absurd here (table.not_at binding)
      · intro inum t returned
        rcases now.dirlink_eq held name inum with ⟨_, n, _, result⟩ | ⟨n, other, here, _⟩
        · rw [result] at returned
          obtain ⟨⟨r, t'⟩, _, rest⟩ := bind_eq_ok.mp returned
          dsimp only at rest
          split at rest <;> cases rest
        · exact absurd here (table.not_at binding)
    | some bound =>
      intro room
      have same : ∀ n other, (dirents (s'.bytes i)).At n (nameOf name) other → other = bound := by
        intro n other here
        have found := table.at_map here
        rw [binding] at found
        exact (Option.some.inj found).symm
      obtain ⟨m, present⟩ := (table.binds _ _).mp binding
      obtain ⟨ip, t, got⟩ := room.iget_ok
      refine ⟨?_, ?_⟩
      · rcases now.dirlookup_eq held name with ⟨_, absent⟩ | ⟨n, other, here, looked⟩
        · exact absurd present (absent m bound)
        · obtain rfl := same n other here
          refine ⟨ip, direntSize * n, t, ?_, (iget_entry got).2, (iget_entry got).1⟩
          rw [looked, got]
          rfl
      · intro unlocked inum
        rcases now.dirlink_eq held name inum with ⟨absent, _⟩ | ⟨n, other, here, result⟩
        · exact absurd present (absent m bound)
        · obtain rfl := same n other here
          obtain ⟨t', put, kept⟩ := now.sound.iget_iput unlocked got
          refine ⟨t', ?_, kept⟩
          rw [result, got, ok_bind]
          dsimp only
          rw [put]
          rfl
  · intro change t step n key inum here other
    exact step.frame now here other

/-- The first entry of the inode cache. -/
def firstEntry : Fin nInode := ⟨0, nInode_pos⟩

/-- A new directory, locked, on the disk with one file. -/
def newDirectory : Except Halt Fs := do
  let (k, s) ← oneFile.ialloc .dir
  s.ilock k

theorem newDirectory_empty : ∃ s, newDirectory = .ok s ∧ s.Directory 2 ∧ s.Holds firstEntry 2 ∧
    (dirents (s.bytes 2)).Is fun _ => none := by
  have returns : (newDirectory.map fun s => ((s.icache firstEntry).locked,
      (s.icache firstEntry).inum, (s.disk.dinode 2).type, (s.disk.dinode 2).size)).toOption =
      some (true, 2, .dir, 0) := by
    decide +kernel
  obtain ⟨s, returned, seen⟩ := exists_ok returns
  simp only [Prod.mk.injEq] at seen
  obtain ⟨locked, inum, type, size⟩ := seen
  have sound : s.Sound := by
    have keeps : Yields Sound NotFreeing newDirectory :=
      (oneFile_sound.ialloc .dir).bind fun r allocated => allocated.ilock r.1
    exact keeps.of_ok returned
  have allocated := (sound.of_locked locked).1
  rw [inum] at allocated
  have empty : s.bytes 2 = [] := by
    rw [← List.length_eq_zero_iff, length_bytes, size]
  refine ⟨s, returned, ⟨sound, allocated, type, ?_⟩, ⟨locked, inum⟩, ?_⟩
  · rw [size]
    exact Nat.dvd_zero _
  · rw [empty]
    exact Slots.is_nil

/-- A name of 15 bytes is added to that directory, which does not add the name that differs from it
in the last byte. -/
theorem newDirectory_truncates : ∃ s s' t,
    DirRun 2 s [.link (List.replicate 14 97#8 ++ [98#8]) 1] s' ∧
      s'.dirlink firstEntry (List.replicate 14 97#8 ++ [99#8]) 2 = .ok (false, t) ∧ s'.Same t := by
  obtain ⟨s, made, directory, held, empty⟩ := newDirectory_empty
  have returns : ((newDirectory >>= fun s =>
      s.dirlink firstEntry (List.replicate 14 97#8 ++ [98#8]) 1).map fun r =>
        (r.1, (r.2.icache firstEntry).locked, (r.2.icache firstEntry).inum,
          (List.finRange nInode).all fun l => !(r.2.icache l).locked || (r.2.icache l).inum != 1,
          (r.2.icache ⟨1, by decide⟩).ref)).toOption = some (true, true, 2, true, 0) := by
    decide +kernel
  rw [made, ok_bind] at returns
  obtain ⟨⟨added, s'⟩, linked, seen⟩ := exists_ok returns
  simp only [Prod.mk.injEq] at seen
  obtain ⟨rfl, locked, inum, apart, unused⟩ := seen
  have run : DirRun 2 s [.link (List.replicate 14 97#8 ++ [98#8]) 1] s' :=
    (DirRun.start s).change (.link held (by decide) (by decide) linked)
  have unlocked : s'.Unlocked 1 := by
    rintro l ⟨lock, one⟩
    have free := List.all_eq_true.mp apart l (List.mem_finRange l)
    rw [lock, one] at free
    cases free
  obtain ⟨t, refused, same⟩ := ((directory_is_map directory empty run).2.1 firstEntry
    (List.replicate 14 97#8 ++ [99#8]) ⟨locked, inum⟩ ⟨_, Or.inl unused⟩).2 unlocked 2
  exact ⟨s, s', t, run, refused, same⟩

/-- In a directory that has the entry `.`, `dirlink` of that name does not return. -/
theorem dirlink_dot_waits : ∃ s s', s.Directory 2 ∧ (dirents (s.bytes 2)).Is (fun _ => none) ∧
    DirRun 2 s [.link dot 2] s' ∧ s'.Holds firstEntry 2 ∧ s'.Room 2 ∧
      s'.dirlink firstEntry dot 1 = .error .endless := by
  obtain ⟨s, made, directory, held, empty⟩ := newDirectory_empty
  have returns : ((newDirectory >>= fun s => s.dirlink firstEntry dot 2).map fun r =>
      (r.1, (r.2.icache firstEntry).locked, (r.2.icache firstEntry).inum)).toOption =
      some (true, true, 2) := by
    decide +kernel
  rw [made, ok_bind] at returns
  obtain ⟨⟨added, s'⟩, linked, seen⟩ := exists_ok returns
  simp only [Prod.mk.injEq] at seen
  obtain ⟨rfl, locked, inum⟩ := seen
  have run : DirRun 2 s [.link dot 2] s' :=
    (DirRun.start s).change (.link held (by decide) (by decide) linked)
  have still : s'.Holds firstEntry 2 := ⟨locked, inum⟩
  obtain ⟨now, table⟩ := run.keeps directory empty
  have referenced := (now.sound.locked firstEntry locked).1
  refine ⟨s, s', directory, empty, run, still, ⟨_, Or.inr ⟨referenced, inum⟩⟩, ?_⟩
  have bound : lastBinding (fun _ => none) [.link dot 2] (nameOf dot) = some 2 := by decide
  obtain ⟨m, present⟩ := (table.binds _ _).mp bound
  rcases now.dirlink_eq still dot 1 with ⟨absent, _⟩ | ⟨n, other, here, result⟩
  · exact absurd present (absent m 2)
  · obtain rfl : other = 2 := by
      have found := table.at_map here
      rw [bound] at found
      exact (Option.some.inj found).symm
    obtain ⟨ip, t, got, waits⟩ := now.sound.iget_iput_locked still
    rw [result, got, ok_bind]
    dsimp only
    rw [waits]
    rfl

end Fs

end MemoryEncryption
