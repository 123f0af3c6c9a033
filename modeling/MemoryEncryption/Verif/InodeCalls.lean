import MemoryEncryption.Kernel.Names

/-!
# References and locks of a call

A call of the file system collects references to cached inodes and locks some of them
on the way. This module follows what a call holds: the reference count of an entry is
what others hold, open files and current directories, and what the call holds itself.
It does so once for all properties: an invariant that the functions on single inodes
keep is kept by `namex`, `create`, `link` and `unlink`.
-/

namespace MemoryEncryption

open Function Outcome

/-- What a call in progress holds: references to cached inodes, beside those that others have,
and locks. No inode is in two entries. -/
structure Fs.Call (base : Fin nInode → Nat) (refs locks : List (Fin nInode)) (s : Fs) : Prop where
  ref : ∀ k, (s.icache k).ref = (base k + refs.count k : Nat)
  lock : ∀ k, (s.icache k).locked = true ↔ k ∈ locks
  single : ∀ k l, 0 < (s.icache k).ref → 0 < (s.icache l).ref →
    (s.icache k).inum = (s.icache l).inum → k = l

/-- Entries that are referenced stay with their inodes. -/
def Fs.Kept (base : Fin nInode → Nat) (refs : List (Fin nInode)) (s s' : Fs) : Prop :=
  ∀ k, 0 < base k + refs.count k → (s'.icache k).inum = (s.icache k).inum

namespace Fs

variable {base : Fin nInode → Nat} {refs locks : List (Fin nInode)} {s s' : Fs}
  {k : Fin nInode} {inum : Nat}

theorem Call.perm {otherRefs otherLocks : List (Fin nInode)} (call : s.Call base refs locks)
    (sameRefs : refs.Perm otherRefs) (sameLocks : locks.Perm otherLocks) :
    s.Call base otherRefs otherLocks where
  ref := by
    intro k
    rw [call.ref, sameRefs.count_eq]
  lock := by
    intro k
    rw [call.lock, sameLocks.mem_iff]
  single := call.single

/-- Replacing an entry by one with the same references to the same inode changes at most its
lock. -/
theorem Call.set_entry {others : List (Fin nInode)} (call : s.Call base refs locks) (disk : Disk)
    (entry : Inode) (ref : entry.ref = (s.icache k).ref) (inum : entry.inum = (s.icache k).inum)
    (lock : entry.locked = true ↔ k ∈ others)
    (elsewhere : ∀ l, l ≠ k → (l ∈ others ↔ l ∈ locks)) :
    ({ s with disk }.set k entry).Call base refs others ∧
      ∀ l, (({ s with disk }.set k entry).icache l).inum = (s.icache l).inum := by
  have counts : ∀ l, (({ s with disk }.set k entry).icache l).ref = (s.icache l).ref := by
    intro l
    by_cases same : l = k
    · subst same
      simp [set, ref]
    · simp [set, same]
  have inums : ∀ l, (({ s with disk }.set k entry).icache l).inum = (s.icache l).inum := by
    intro l
    by_cases same : l = k
    · subst same
      simp [set, inum]
    · simp [set, same]
  refine ⟨⟨?_, ?_, ?_⟩, inums⟩
  · intro l
    rw [counts, call.ref]
  · intro l
    by_cases same : l = k
    · subst same
      simp [set, lock]
    · simp [set, same, call.lock, elsewhere l same]
  · intro l m
    rw [counts, counts, inums, inums]
    exact call.single l m

theorem Call.set_copy (call : s.Call base refs locks) (disk : Disk) (entry : Inode)
    (ref : entry.ref = (s.icache k).ref) (lock : entry.locked = (s.icache k).locked)
    (inum : entry.inum = (s.icache k).inum) :
    ({ s with disk }.set k entry).Call base refs locks ∧
      ∀ l, (({ s with disk }.set k entry).icache l).inum = (s.icache l).inum :=
  call.set_entry disk entry ref inum (by rw [lock, call.lock]) fun _ _ => Iff.rfl

theorem Call.referenced (call : s.Call base refs locks) (held : 0 < base k + refs.count k) :
    0 < (s.icache k).ref := by
  rw [call.ref]
  exact_mod_cast held

/-- The reference count of an entry changes with the references that the call holds. -/
theorem Call.changeRef {change : Int} {others : List (Fin nInode)} (call : s.Call base refs locks)
    (counted : ∀ l, ((base l + refs.count l : Nat) : Int) + (if l = k then change else 0) =
      (base l + others.count l : Nat))
    (alive : 0 < (s.icache k).ref + change → 0 < (s.icache k).ref) :
    (s.addRef k change).Call base others locks ∧
      ∀ l, ((s.addRef k change).icache l).inum = (s.icache l).inum := by
  have inums : ∀ l, ((s.addRef k change).icache l).inum = (s.icache l).inum := by
    intro l
    by_cases same : l = k
    · subst same
      simp [addRef, set]
    · simp [addRef, set, same]
  have positive : ∀ l, 0 < ((s.addRef k change).icache l).ref → 0 < (s.icache l).ref := by
    intro l
    by_cases same : l = k
    · subst same
      simpa [addRef, set] using alive
    · simp [addRef, set, same]
  refine ⟨⟨?_, ?_, ?_⟩, inums⟩
  · intro l
    rw [← counted l, ← call.ref]
    by_cases same : l = k
    · subst same
      simp [addRef, set]
    · simp [addRef, set, same]
  · intro l
    rw [← call.lock]
    by_cases same : l = k
    · subst same
      simp [addRef, set]
    · simp [addRef, set, same]
  · intro l m first second shared
    rw [inums, inums] at shared
    exact call.single l m (positive l first) (positive m second) shared

theorem Call.addRef (call : s.Call base refs locks) (referenced : 0 < (s.icache k).ref) :
    (s.addRef k 1).Call base (k :: refs) locks ∧ Kept base refs s (s.addRef k 1) := by
  have counted : ∀ l, ((base l + refs.count l : Nat) : Int) + (if l = k then 1 else 0) =
      (base l + (k :: refs).count l : Nat) := by
    intro l
    rw [List.count_cons]
    by_cases same : l = k
    · simp [same]
      omega
    · simp [same, Ne.symm same]
  obtain ⟨changed, inums⟩ := call.changeRef counted fun _ => referenced
  exact ⟨changed, fun l _ => inums l⟩

theorem Call.dropRef (call : s.Call base (k :: refs) locks) :
    (s.addRef k (-1)).Call base refs locks ∧ Kept base refs s (s.addRef k (-1)) := by
  have counted : ∀ l, ((base l + (k :: refs).count l : Nat) : Int) + (if l = k then -1 else 0) =
      (base l + refs.count l : Nat) := by
    intro l
    rw [List.count_cons]
    by_cases same : l = k
    · simp [same]
      omega
    · simp [same, Ne.symm same]
  obtain ⟨changed, inums⟩ := call.changeRef counted (by omega)
  exact ⟨changed, fun l _ => inums l⟩

/-! ## Functions on one inode -/

theorem cached_eq_some (found : s.cached inum = some k) :
    0 < (s.icache k).ref ∧ (s.icache k).inum = inum := by
  have holds := List.find?_some found
  simpa using holds

theorem cached_eq_none (absent : s.cached inum = none) (k : Fin nInode)
    (referenced : 0 < (s.icache k).ref) : (s.icache k).inum ≠ inum := by
  rw [cached, List.find?_eq_none] at absent
  have none := absent k (List.mem_finRange k)
  simpa [referenced] using none

/-- `iget` adds a reference to an entry that holds the inode. -/
theorem Call.iget (call : s.Call base refs locks) (inum : Nat) :
    Yields (fun r => r.2.Call base (r.1 :: refs) locks ∧ Kept base refs s r.2 ∧
      (r.2.icache r.1).inum = inum ∧ r.2.disk = s.disk) (fun _ => True) (s.iget inum) := by
  unfold Fs.iget
  split
  case h_1 k found =>
    obtain ⟨referenced, holds⟩ := cached_eq_some found
    obtain ⟨added, kept⟩ := call.addRef referenced
    exact ⟨added, kept, by simpa [Fs.addRef, set] using holds, rfl⟩
  case h_2 absent =>
    split
    case h_1 k found =>
      have empty : (s.icache k).ref = 0 := by
        have unused := List.find?_some found
        simpa using unused
      have unheld := call.ref k
      rw [empty] at unheld
      refine ⟨⟨?_, ?_, ?_⟩, ?_, by simp [set], rfl⟩
      · intro l
        by_cases same : l = k
        · subst same
          simp [set]
          omega
        · simp [set, same, call.ref, List.count_cons_of_ne (Ne.symm same)]
      · intro l
        by_cases same : l = k
        · subst same
          simp [set, call.lock]
        · simp [set, same, call.lock]
      · intro l m
        by_cases atL : l = k <;> by_cases atM : m = k
        · intro _ _ _
          rw [atL, atM]
        · subst atL
          simp only [set, update_self, update_of_ne atM]
          intro _ referenced shared
          exact absurd shared.symm (cached_eq_none absent m referenced)
        · subst atM
          simp only [set, update_self, update_of_ne atL]
          intro referenced _ shared
          exact absurd shared (cached_eq_none absent l referenced)
        · simp only [set, update_of_ne atL, update_of_ne atM]
          exact call.single l m
      · intro l held
        have other : l ≠ k := by
          intro same
          subst same
          omega
        simp [set, other]
    case h_2 => trivial

theorem load_eq_ok {ip : Inode} (loaded : s.load k = .ok ip) :
    ip.inum = (s.icache k).inum ∧ ip.ref = (s.icache k).ref ∧
      ip.locked = (s.icache k).locked ∧ ip.valid = true := by
  simp only [load] at loaded
  split at loaded
  case isTrue valid =>
    cases loaded
    exact ⟨rfl, rfl, rfl, valid⟩
  case isFalse =>
    split at loaded
    case isTrue => cases loaded
    case isFalse =>
      split at loaded
      case isTrue => cases loaded
      case isFalse =>
        cases loaded
        exact ⟨rfl, rfl, rfl, rfl⟩

theorem Call.ilock (call : s.Call base refs locks) (k : Fin nInode) :
    Yields (fun s' => s'.Call base refs (k :: locks) ∧ k ∉ locks ∧ Kept base refs s s' ∧
      s'.disk = s.disk) (fun _ => True) (s.ilock k) := by
  unfold Fs.ilock
  split
  case isTrue => trivial
  case isFalse =>
    split
    case isTrue => trivial
    case isFalse unlocked =>
      cases loaded : s.load k with
      | error stop => trivial
      | ok ip =>
        obtain ⟨inum, ref, _, _⟩ := load_eq_ok loaded
        obtain ⟨changed, inums⟩ := call.set_entry s.disk
          { ip with locked := true } ref inum (show true = true ↔ k ∈ k :: locks by simp)
          (by simp +contextual)
        refine ⟨changed, ?_, fun l _ => inums l, rfl⟩
        rw [← call.lock]
        exact unlocked

theorem Call.iunlock (call : s.Call base refs (k :: locks)) (once : k ∉ locks) :
    Yields (fun s' => s'.Call base refs locks ∧ Kept base refs s s' ∧ s'.disk = s.disk)
      (fun _ => True) (s.iunlock k) := by
  unfold Fs.iunlock
  split
  case isTrue => trivial
  case isFalse =>
    obtain ⟨changed, inums⟩ := call.set_entry s.disk
      { s.icache k with locked := false } rfl rfl (show false = true ↔ k ∈ locks by simp [once])
      (by simp +contextual)
    exact ⟨changed, fun l _ => inums l, rfl⟩

/-- `iput` drops a reference of the call, to an entry that it has not locked. -/
theorem Call.iput (call : s.Call base (k :: refs) locks) :
    Yields (fun s' => s'.Call base refs locks ∧ k ∉ locks ∧ Kept base refs s s') (fun _ => True)
      (s.iput k) := by
  simp only [Fs.iput]
  split
  case isTrue => trivial
  case isFalse unlocked =>
    have free : k ∉ locks := by
      rw [← call.lock]
      exact unlocked
    split
    case isTrue =>
      simp only [release]
      cases truncated : s.disk.itrunc (s.icache k).inum (s.icache k).copy with
      | error stop => trivial
      | ok result =>
        obtain ⟨changed, inums⟩ := call.set_copy
          (result.2.iupdate (s.icache k).inum { result.1 with type := .free })
          { s.icache k with copy := { result.1 with type := .free }, valid := false } rfl rfl rfl
        obtain ⟨dropped, kept⟩ := changed.dropRef
        refine ⟨dropped, free, ?_⟩
        intro l held
        rw [kept l held, inums]
    case isFalse =>
      obtain ⟨dropped, kept⟩ := call.dropRef
      exact ⟨dropped, free, kept⟩

/-! ## Invariants of calls -/

/-- The functions that calls use to find inodes keep an invariant, and stop for an admitted reason
if they do. -/
structure Reads (inv : Fs → Prop) (bad : Halt → Prop) : Prop where
  stops : ∀ halt, halt ≠ .panic "freeing free block" → bad halt
  iget : ∀ {s : Fs} (inum : Nat), inv s → Yields (fun r => inv r.2) bad (s.iget inum)
  idup : ∀ {s : Fs} {k : Fin nInode}, inv s → 0 < (s.icache k).ref → inv (s.idup k)
  ilock : ∀ {s : Fs} (k : Fin nInode), inv s → Yields inv bad (s.ilock k)
  iunlock : ∀ {s : Fs} (k : Fin nInode), inv s → Yields inv bad (s.iunlock k)
  iput : ∀ {s : Fs} {k : Fin nInode}, inv s → 0 < (s.icache k).ref → Yields inv bad (s.iput k)
  readi : ∀ {s : Fs} {k : Fin nInode} (off n : Nat), n < 2 ^ 32 → inv s →
    (s.icache k).locked = true → Yields (fun r => inv r.2) bad (s.readi k off n)

/-- So do the functions that change inodes and their contents. -/
structure Writes (inv : Fs → Prop) (bad : Halt → Prop) : Prop extends Reads inv bad where
  ialloc : ∀ {s : Fs} (type : FileType), inv s → Yields (fun r => inv r.2) bad (s.ialloc type)
  writei : ∀ {s : Fs} {k : Fin nInode} (src : List Byte) (off : Nat), src.length < 2 ^ 32 →
    inv s → (s.icache k).locked = true → Yields (fun r => inv r.2) bad (s.writei k src off)
  /-- Changing device numbers and links of a locked inode keeps the invariant. -/
  update : ∀ {s : Fs} {k : Fin nInode} (major minor nlink : BitVec 16), inv s →
    (s.icache k).locked = true →
    inv (s.update k { (s.icache k).copy with major, minor, nlink })

/-- The invariant holds while a call holds its references and locks. -/
structure At (inv : Fs → Prop) (base : Fin nInode → Nat) (refs locks : List (Fin nInode))
    (s : Fs) : Prop where
  /-- The invariant. -/
  holds : inv s
  /-- What the call holds. -/
  call : s.Call base refs locks

section

variable {inv : Fs → Prop} {bad : Halt → Prop}

theorem At.referenced (here : s.At inv base refs locks) (held : k ∈ refs) :
    0 < (s.icache k).ref := by
  apply here.call.referenced
  have counted := List.count_pos_iff.mpr held
  omega

theorem At.locked (here : s.At inv base refs locks) (held : k ∈ locks) :
    (s.icache k).locked = true := (here.call.lock k).mpr held

theorem At.perm {otherRefs otherLocks : List (Fin nInode)} (here : s.At inv base refs locks)
    (sameRefs : refs.Perm otherRefs) (sameLocks : locks.Perm otherLocks) :
    s.At inv base otherRefs otherLocks := ⟨here.holds, here.call.perm sameRefs sameLocks⟩

theorem At.swap {l : Fin nInode} (here : s.At inv base (k :: l :: refs) (k :: l :: locks)) :
    s.At inv base (l :: k :: refs) (l :: k :: locks) := here.perm (.swap l k refs) (.swap l k locks)

theorem At.iget (rules : Reads inv bad) (here : s.At inv base refs locks) (inum : Nat) :
    Yields (fun r => r.2.At inv base (r.1 :: refs) locks) bad (s.iget inum) := by
  apply ((rules.iget inum here.holds).and (here.call.iget inum)).mono
  intro r result
  exact ⟨result.1, result.2.1⟩

theorem At.idup (rules : Reads inv bad) (here : s.At inv base refs locks)
    (referenced : 0 < (s.icache k).ref) : (s.idup k).At inv base (k :: refs) locks :=
  ⟨rules.idup here.holds referenced, (here.call.addRef referenced).1⟩

theorem At.ilock (rules : Reads inv bad) (here : s.At inv base refs locks) (k : Fin nInode) :
    Yields (fun s' => s'.At inv base refs (k :: locks) ∧ k ∉ locks) bad (s.ilock k) := by
  apply ((rules.ilock k here.holds).and (here.call.ilock k)).mono
  intro s' result
  exact ⟨⟨result.1, result.2.1⟩, result.2.2.1⟩

theorem At.iunlock (rules : Reads inv bad) (here : s.At inv base refs (k :: locks))
    (once : k ∉ locks) : Yields (·.At inv base refs locks) bad (s.iunlock k) := by
  apply ((rules.iunlock k here.holds).and (here.call.iunlock once)).mono
  intro s' result
  exact ⟨result.1, result.2.1⟩

theorem At.iput (rules : Reads inv bad) (here : s.At inv base (k :: refs) locks) :
    Yields (·.At inv base refs locks) bad (s.iput k) := by
  apply ((rules.iput here.holds (here.referenced (by simp))).and here.call.iput).mono
  intro s' result
  exact ⟨result.1, result.2.1⟩

theorem At.iunlockput (rules : Reads inv bad) (here : s.At inv base (k :: refs) (k :: locks))
    (once : k ∉ locks) : Yields (·.At inv base refs locks) bad (s.iunlockput k) := by
  apply (here.iunlock rules once).bind
  intro s₁ unlocked
  exact unlocked.iput rules

theorem Call.copies {α : Type} (call : s.Call base refs locks) (k : Fin nInode)
    (f : Except Halt (α × Dinode × Disk)) :
    Yields (fun r => r.2.Call base refs locks) (fun _ => True)
      (do let (a, copy, disk) ← f
          pure (a, { s with disk }.set k { s.icache k with copy }) : Except Halt (α × Fs)) := by
  cases f with
  | error stop => trivial
  | ok r =>
    have changed := call.set_copy (k := k) r.2.2 { s.icache k with copy := r.2.1 } rfl rfl rfl
    exact changed.1

theorem At.readi (rules : Reads inv bad) (here : s.At inv base refs locks) (held : k ∈ locks)
    (off : Nat) {n : Nat} (short : n < 2 ^ 32) :
    Yields (fun r => r.2.At inv base refs locks) bad (s.readi k off n) := by
  apply ((rules.readi off n short here.holds (here.locked held)).and
    (here.call.copies k (s.disk.readi (s.icache k).copy off n))).mono
  intro r result
  exact ⟨result.1, result.2⟩

theorem At.writei (rules : Writes inv bad) (here : s.At inv base refs locks) (held : k ∈ locks)
    {src : List Byte} (short : src.length < 2 ^ 32) (off : Nat) :
    Yields (fun r => r.2.At inv base refs locks) bad (s.writei k src off) := by
  apply ((rules.writei src off short here.holds (here.locked held)).and
    (here.call.copies k (s.disk.writei (s.icache k).inum (s.icache k).copy src off))).mono
  intro r result
  exact ⟨result.1, result.2⟩

theorem At.update (rules : Writes inv bad) (here : s.At inv base refs locks) (held : k ∈ locks)
    (major minor nlink : BitVec 16) :
    (s.update k { (s.icache k).copy with major, minor, nlink }).At inv base refs locks := by
  have changed := here.call.set_copy (k := k)
    (s.disk.iupdate (s.icache k).inum { (s.icache k).copy with major, minor, nlink })
    { s.icache k with copy := { (s.icache k).copy with major, minor, nlink } } rfl rfl rfl
  exact ⟨rules.update major minor nlink here.holds (here.locked held), changed.1⟩

theorem At.ialloc (rules : Writes inv bad) (here : s.At inv base refs locks) (type : FileType) :
    Yields (fun r => r.2.At inv base (r.1 :: refs) locks) bad (s.ialloc type) := by
  have counted : Yields (fun r => r.2.Call base (r.1 :: refs) locks) (fun _ => True)
      (s.ialloc type) := by
    unfold Fs.ialloc
    split
    case h_1 inum found =>
      have zeroed : ({ s with
          disk := s.disk.iupdate inum { Dinode.zero with type } } : Fs).Call base refs locks :=
        ⟨here.call.ref, here.call.lock, here.call.single⟩
      apply (zeroed.iget inum).mono
      intro r result
      exact result.1
    case h_2 => trivial
  apply ((rules.ialloc type here.holds).and counted).mono
  intro r result
  exact ⟨result.1, result.2⟩

/-! ## Directories -/

theorem Reads.panic {α : Type} {good : α → Prop} (rules : Reads inv bad) (message : String)
    (other : message ≠ "freeing free block") :
    Yields good bad (.error (.panic message) : Except Halt α) := by
  apply rules.stops
  simpa using other

theorem At.readDirent (rules : Reads inv bad) (here : s.At inv base refs locks) (held : k ∈ locks)
    (off : Nat) {message : String} (other : message ≠ "freeing free block") :
    Yields (fun r => r.2.At inv base refs locks) bad (s.readDirent k off message) := by
  apply (here.readi rules held off (show direntSize < 2 ^ 32 by decide)).bind
  rintro ⟨bytes, s₁⟩ read
  cases bytes with
  | none => exact rules.panic message other
  | some bytes =>
    dsimp only
    split
    case isTrue => exact read
    case isFalse => exact rules.panic message other

theorem At.lookupLoop (rules : Reads inv bad) (name : List Byte) (held : k ∈ locks)
    (rounds : Nat) {s : Fs} (here : s.At inv base refs locks) (off : Nat) :
    Yields (fun r => r.2.At inv base refs locks) bad (lookupLoop k name rounds s off) := by
  induction rounds generalizing s off with
  | zero => exact rules.stops _ (by simp)
  | succ rounds ih =>
    simp only [Fs.lookupLoop]
    split
    case isFalse => exact here
    case isTrue =>
      apply (here.readDirent rules held off (by simp)).bind
      rintro ⟨de, s₁⟩ read
      dsimp only
      split
      case isTrue => exact read
      case isFalse => exact ih read _

/-- The entry that a directory function returns. -/
abbrev gained {α : Type} (found : Option (Fin nInode × α)) : List (Fin nInode) :=
  (found.map Prod.fst).toList

theorem At.dirlookup (rules : Reads inv bad) (here : s.At inv base refs locks) (held : k ∈ locks)
    (name : List Byte) :
    Yields (fun r => r.2.At inv base (gained r.1 ++ refs) locks) bad (s.dirlookup k name) := by
  unfold Fs.dirlookup
  split
  case isTrue => exact rules.panic _ (by simp)
  case isFalse =>
    apply (At.lookupLoop rules name held _ here 0).bind
    rintro ⟨found, s₁⟩ looked
    cases found with
    | none => exact looked
    | some entry =>
      apply (looked.iget rules entry.1).bind
      rintro ⟨ip, s₂⟩ got
      exact got

theorem At.emptyLoop (rules : Reads inv bad) (held : k ∈ locks) (rounds : Nat) {s : Fs}
    (here : s.At inv base refs locks) (off : Nat) :
    Yields (fun r => r.2.At inv base refs locks) bad (emptyLoop k rounds s off) := by
  induction rounds generalizing s off with
  | zero => exact rules.stops _ (by simp)
  | succ rounds ih =>
    simp only [Fs.emptyLoop]
    split
    case isFalse => exact here
    case isTrue =>
      apply (here.readDirent rules held off (by simp)).bind
      rintro ⟨de, s₁⟩ read
      dsimp only
      split
      case isTrue => exact read
      case isFalse => exact ih read _

theorem length_nameOf_le (name : List Byte) : (nameOf name).length ≤ dirSiz := by
  calc ((name.take dirSiz).takeWhile (· ≠ 0)).length ≤ (name.take dirSiz).length :=
        (List.takeWhile_sublist _).length_le
    _ ≤ dirSiz := List.length_take_le _ _

theorem direntBytes_short (name : List Byte) (inum : Nat) :
    (direntBytes name inum).length < 2 ^ 32 := by
  have bounded := length_nameOf_le name
  simp only [direntBytes, List.length_append, List.length_cons, List.length_nil,
    List.length_replicate]
  unfold dirSiz at *
  omega

theorem At.dirlink (rules : Writes inv bad) (here : s.At inv base refs locks) (held : k ∈ locks)
    (name : List Byte) (inum : Nat) :
    Yields (fun r => r.2.At inv base refs locks) bad (s.dirlink k name inum) := by
  apply (here.dirlookup rules.toReads held name).bind
  rintro ⟨found, s₁⟩ looked
  cases found with
  | some entry =>
    apply (looked.iput rules.toReads).bind
    intro s₂ put
    exact put
  | none =>
    apply (At.emptyLoop rules.toReads held _ looked 0).bind
    rintro ⟨off, s₂⟩ searched
    apply (searched.writei rules held (direntBytes_short name inum) off).bind
    rintro ⟨r, s₃⟩ written
    dsimp only
    split
    case isTrue => exact written
    case isFalse => exact rules.panic _ (by simp)

/-! ## Paths -/

theorem At.namexLoop (rules : Reads inv bad) (parent : Bool) (rounds : Nat) {s : Fs}
    {ip : Fin nInode} (here : s.At inv base (ip :: refs) locks) (path name : List Byte) :
    Yields (fun r => r.2.At inv base (gained r.1 ++ refs) locks) bad
      (namexLoop parent rounds s ip path name) := by
  induction rounds generalizing s ip path name with
  | zero => exact rules.stops _ (by simp)
  | succ rounds ih =>
    simp only [Fs.namexLoop]
    split
    case h_1 =>
      split
      case isTrue =>
        apply (here.iput rules).bind
        intro s₁ put
        exact put
      case isFalse => exact here
    case h_2 elem rest _ =>
      apply (here.ilock rules ip).bind
      rintro s₁ ⟨locked, once⟩
      split
      case isTrue =>
        apply (locked.iunlockput rules once).bind
        intro s₂ put
        exact put
      case isFalse =>
        split
        case isTrue =>
          apply (locked.iunlock rules once).bind
          intro s₂ unlocked
          exact unlocked
        case isFalse =>
          apply (locked.dirlookup rules (by simp) elem).bind
          rintro ⟨next, s₂⟩ looked
          have last := looked.perm List.perm_middle (.refl _)
          apply (last.iunlockput rules once).bind
          intro s₃ put
          cases next with
          | none => exact put
          | some next => exact ih put rest elem

variable {cwd : Fin nInode}

theorem At.namex (rules : Reads inv bad) (here : s.At inv base refs locks) (held : 0 < base cwd)
    (path : List Byte) (parent : Bool) :
    Yields (fun r => r.2.At inv base (gained r.1 ++ refs) locks) bad
      (s.namex cwd path parent) := by
  unfold Fs.namex
  split
  case isTrue =>
    apply (here.iget rules rootIno).bind
    rintro ⟨ip, s₁⟩ got
    exact got.namexLoop rules parent _ path []
  case isFalse =>
    have referenced : 0 < (s.icache cwd).ref := here.call.referenced (by omega)
    exact (here.idup rules referenced).namexLoop rules parent _ path []

theorem At.namei (rules : Reads inv bad) (here : s.At inv base refs locks) (held : 0 < base cwd)
    (path : List Byte) :
    Yields (fun r => r.2.At inv base (r.1.toList ++ refs) locks) bad (s.namei cwd path) := by
  apply (here.namex rules held path false).bind
  rintro ⟨found, s₁⟩ walked
  exact walked

/-! ## Calls on directories -/

theorem At.addDots (rules : Writes inv bad) {dp ip : Fin nInode}
    (here : s.At inv base refs locks) (parent : dp ∈ locks) (child : ip ∈ locks) :
    Yields (·.At inv base refs locks) bad (s.addDots dp ip) := by
  have counted := here.update rules parent (s.icache dp).copy.major (s.icache dp).copy.minor
    ((s.icache dp).copy.nlink + 1)
  apply (counted.dirlink rules child dot _).bind
  rintro ⟨first, s₁⟩ linked
  dsimp only
  split
  case isTrue => exact rules.panic _ (by simp)
  case isFalse =>
    apply (linked.dirlink rules child dotDot _).bind
    rintro ⟨second, s₂⟩ linkedUp
    dsimp only
    split
    case isTrue => exact rules.panic _ (by simp)
    case isFalse => exact linkedUp

theorem At.enter (rules : Writes inv bad) {dp ip : Fin nInode}
    (here : s.At inv base refs locks) (parent : dp ∈ locks) (child : ip ∈ locks)
    (name : List Byte) (type : FileType) (major minor : BitVec 16) :
    Yields (·.At inv base refs locks) bad (s.enter dp ip name type major minor) := by
  have counted := here.update rules child major minor 1
  have made : Yields (Fs.At inv base refs locks) bad
      ((s.update ip { (s.icache ip).copy with major, minor, nlink := 1 }).dots dp ip type) := by
    unfold Fs.dots
    split
    case isTrue => exact counted.addDots rules parent child
    case isFalse => exact counted
  apply made.bind
  intro s₁ made
  apply (made.dirlink rules parent name _).bind
  rintro ⟨entered, s₂⟩ linked
  dsimp only
  split
  case isTrue => exact linked
  case isFalse => exact rules.panic _ (by simp)

/-- `create` leaves the call with a reference to the inode that it returns, locked. -/
theorem At.create (rules : Writes inv bad) (here : s.At inv base refs locks) (held : 0 < base cwd)
    (path : List Byte) (type : FileType) (major minor : BitVec 16) :
    Yields (fun r => r.2.At inv base (r.1.toList ++ refs) (r.1.toList ++ locks) ∧
        ∀ ip ∈ r.1, ip ∉ locks) bad
      (s.create cwd path type major minor) := by
  apply (here.namex rules.toReads held path true).bind
  rintro ⟨parent, s₁⟩ walked
  cases parent with
  | none => exact ⟨walked, by simp⟩
  | some entry =>
    obtain ⟨dp, name⟩ := entry
    apply (walked.ilock rules.toReads dp).bind
    rintro s₂ ⟨locked, once⟩
    apply (locked.dirlookup rules.toReads (by simp) name).bind
    rintro ⟨found, s₃⟩ looked
    cases found with
    | some entry =>
      obtain ⟨ip, off⟩ := entry
      have last := looked.perm (.swap dp ip refs) (.refl _)
      apply (last.iunlockput rules.toReads once).bind
      intro s₄ put
      apply (put.ilock rules.toReads ip).bind
      rintro s₅ ⟨relocked, unlocked⟩
      split
      case isTrue => exact ⟨relocked, by simpa using unlocked⟩
      case isFalse =>
        apply (relocked.iunlockput rules.toReads unlocked).bind
        intro s₆ dropped
        exact ⟨dropped, by simp⟩
    | none =>
      apply (looked.ialloc rules type).bind
      rintro ⟨ip, s₄⟩ allocated
      apply (allocated.ilock rules.toReads ip).bind
      rintro s₅ ⟨relocked, unlocked⟩
      apply (relocked.enter rules (by simp) (by simp) name type major minor).bind
      intro s₆ entered
      have different : dp ∉ ip :: locks := by
        simp only [List.mem_cons, not_or] at unlocked ⊢
        exact ⟨fun same => unlocked.1 same.symm, once⟩
      apply (entered.swap.iunlockput rules.toReads different).bind
      intro s₇ put
      refine ⟨put, ?_⟩
      simp only [List.mem_cons, not_or] at unlocked
      simpa using unlocked.2

theorem At.linkEntry (rules : Writes inv bad) (here : s.At inv base refs locks)
    (held : 0 < base cwd) (ip : Fin nInode) (path : List Byte) :
    Yields (fun r => r.2.At inv base refs locks) bad (s.linkEntry cwd ip path) := by
  apply (here.namex rules.toReads held path true).bind
  rintro ⟨parent, s₁⟩ walked
  cases parent with
  | none => exact walked
  | some entry =>
    obtain ⟨dp, name⟩ := entry
    apply (walked.ilock rules.toReads dp).bind
    rintro s₂ ⟨locked, once⟩
    apply (locked.dirlink rules (by simp) name _).bind
    rintro ⟨entered, s₃⟩ linked
    apply (linked.iunlockput rules.toReads once).bind
    intro s₄ put
    exact put

theorem At.link (rules : Writes inv bad) (here : s.At inv base refs locks) (held : 0 < base cwd)
    (old new : List Byte) :
    Yields (fun r => r.2.At inv base refs locks) bad (s.link cwd old new) := by
  apply (here.namei rules.toReads held old).bind
  rintro ⟨found, s₁⟩ walked
  cases found with
  | none => exact walked
  | some ip =>
    apply (walked.ilock rules.toReads ip).bind
    rintro s₂ ⟨locked, once⟩
    dsimp only
    split
    case isTrue =>
      apply (locked.iunlockput rules.toReads once).bind
      intro s₃ put
      exact put
    case isFalse =>
      have counted := locked.update rules (k := ip) (by simp) (s₂.icache ip).copy.major
        (s₂.icache ip).copy.minor ((s₂.icache ip).copy.nlink + 1)
      apply (counted.iunlock rules.toReads once).bind
      intro s₃ unlocked
      apply (unlocked.linkEntry rules held ip new).bind
      rintro ⟨entered, s₄⟩ linked
      dsimp only
      split
      case isTrue =>
        apply (linked.iput rules.toReads).bind
        intro s₅ put
        exact put
      case isFalse =>
        apply (linked.ilock rules.toReads ip).bind
        rintro s₅ ⟨relocked, again⟩
        have undone := relocked.update rules (k := ip) (by simp) (s₅.icache ip).copy.major
          (s₅.icache ip).copy.minor ((s₅.icache ip).copy.nlink - 1)
        apply (undone.iunlockput rules.toReads again).bind
        intro s₆ put
        exact put

theorem At.isdiremptyLoop (rules : Reads inv bad) (held : k ∈ locks) (rounds : Nat) {s : Fs}
    (here : s.At inv base refs locks) (off : Nat) :
    Yields (fun r => r.2.At inv base refs locks) bad (isdiremptyLoop k rounds s off) := by
  induction rounds generalizing s off with
  | zero => exact rules.stops _ (by simp)
  | succ rounds ih =>
    simp only [Fs.isdiremptyLoop]
    split
    case isFalse => exact here
    case isTrue =>
      apply (here.readDirent rules held off (by simp)).bind
      rintro ⟨de, s₁⟩ read
      dsimp only
      split
      case isTrue => exact read
      case isFalse => exact ih read _

theorem At.removable (rules : Reads inv bad) (here : s.At inv base refs locks) (held : k ∈ locks) :
    Yields (fun r => r.2.At inv base refs locks) bad (s.removable k) := by
  unfold Fs.removable
  split
  case isTrue => exact At.isdiremptyLoop rules held _ here _
  case isFalse => exact here

theorem At.removeEntry (rules : Writes inv bad) {dp ip : Fin nInode}
    (here : s.At inv base (dp :: ip :: refs) (dp :: ip :: locks)) (parent : dp ∉ ip :: locks)
    (child : ip ∉ locks) (off : Nat) :
    Yields (·.At inv base refs locks) bad (s.removeEntry dp ip off) := by
  apply (here.writei rules (by simp) (by simp [direntSize]) off).bind
  rintro ⟨r, s₁⟩ written
  dsimp only
  split
  case isTrue => exact rules.panic _ (by simp)
  case isFalse =>
    refine Yields.bind (show Yields (Fs.At inv base (ip :: refs) (ip :: locks)) bad _ from ?_) ?_
    · split
      case isTrue =>
        have dropped := written.update rules (k := dp) (by simp) (s₁.icache dp).copy.major
          (s₁.icache dp).copy.minor ((s₁.icache dp).copy.nlink - 1)
        exact dropped.iunlockput rules.toReads parent
      case isFalse => exact written.iunlockput rules.toReads parent
    · intro s₂ put
      have dropped := put.update rules (k := ip) (by simp) (s₂.icache ip).copy.major
        (s₂.icache ip).copy.minor ((s₂.icache ip).copy.nlink - 1)
      exact dropped.iunlockput rules.toReads child

theorem At.unlink (rules : Writes inv bad) (here : s.At inv base refs locks) (held : 0 < base cwd)
    (path : List Byte) :
    Yields (fun r => r.2.At inv base refs locks) bad (s.unlink cwd path) := by
  apply (here.namex rules.toReads held path true).bind
  rintro ⟨parent, s₁⟩ walked
  cases parent with
  | none => exact walked
  | some entry =>
    obtain ⟨dp, name⟩ := entry
    apply (walked.ilock rules.toReads dp).bind
    rintro s₂ ⟨locked, once⟩
    dsimp only
    split
    case isTrue =>
      apply (locked.iunlockput rules.toReads once).bind
      intro s₃ put
      exact put
    case isFalse =>
      apply (locked.dirlookup rules.toReads (by simp) name).bind
      rintro ⟨found, s₃⟩ looked
      cases found with
      | none =>
        apply (looked.iunlockput rules.toReads once).bind
        intro s₄ put
        exact put
      | some entry =>
        obtain ⟨ip, off⟩ := entry
        apply (looked.ilock rules.toReads ip).bind
        rintro s₄ ⟨relocked, unlocked⟩
        split
        case isTrue => exact rules.panic _ (by simp)
        case isFalse =>
          apply (relocked.removable rules.toReads (by simp)).bind
          rintro ⟨empty, s₅⟩ tested
          have apart : dp ∉ ip :: locks ∧ ip ∉ locks := by
            simp only [List.mem_cons, not_or] at unlocked ⊢
            exact ⟨⟨fun same => unlocked.1 same.symm, once⟩, unlocked.2⟩
          dsimp only
          split
          case isTrue =>
            apply (tested.swap.removeEntry rules apart.1 apart.2 off).bind
            intro s₆ removed
            exact removed
          case isFalse =>
            apply (tested.iunlockput rules.toReads unlocked).bind
            intro s₆ dropped
            apply (dropped.iunlockput rules.toReads once).bind
            intro s₇ put
            exact put

end

end Fs

end MemoryEncryption
