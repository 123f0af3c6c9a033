import MemoryEncryption.Verif.FileContents

/-!
# Processes that share an offset

Processes that have one `struct file` open share its offset. A section reads the
offset, writes or reads there, and moves it past the bytes before the inode is
unlocked, so the sections follow each other without gaps in the order in which they
took the lock. A later section starts where all earlier ones have ended, which is why
it overwrites none of them.
-/

namespace MemoryEncryption

open Function Outcome

variable {procs : Nat}

/-- The sections follow each other from one offset to another. -/
def Consecutive : Nat → List (FileSection procs) → Nat → Prop
  | start, [], stop => start = stop
  | start, c :: rest, stop => c.start = start ∧ Consecutive (start + c.bytes.length) rest stop

namespace Consecutive

variable {origin stop : Nat} {sections : List (FileSection procs)}

theorem snoc {c : FileSection procs} (consecutive : Consecutive origin sections stop)
    (start : c.start = stop) :
    Consecutive origin (sections ++ [c]) (stop + c.bytes.length) := by
  induction sections generalizing origin with
  | nil =>
    obtain rfl : origin = stop := consecutive
    exact ⟨start, rfl⟩
  | cons first rest ih => exact ⟨consecutive.1, ih consecutive.2⟩

theorem le (consecutive : Consecutive origin sections stop) : origin ≤ stop := by
  induction sections generalizing origin with
  | nil => exact le_of_eq consecutive
  | cons first rest ih => exact le_trans (Nat.le_add_right _ _) (ih consecutive.2)

theorem bounds (consecutive : Consecutive origin sections stop) {c : FileSection procs}
    (member : c ∈ sections) : origin ≤ c.start ∧ c.start + c.bytes.length ≤ stop := by
  induction sections generalizing origin with
  | nil => cases member
  | cons first rest ih =>
    obtain ⟨start, later⟩ := consecutive
    rcases List.mem_cons.mp member with rfl | inRest
    · have after := le later
      omega
    · have inside := ih later inRest
      omega

theorem pairwise (consecutive : Consecutive origin sections stop) :
    sections.Pairwise fun earlier later => earlier.start + earlier.bytes.length ≤ later.start := by
  induction sections generalizing origin with
  | nil => exact .nil
  | cons first rest ih =>
    obtain ⟨start, later⟩ := consecutive
    refine .cons ?_ (ih later)
    intro c member
    rw [start]
    exact (later.bounds member).1

end Consecutive

/-- The bytes of a section are in the file, from its offset on. -/
def FileSection.StoredIn (c : FileSection procs) (contents : List Byte) : Prop :=
  ∀ k, k < c.bytes.length → contents[c.start + k]? = c.bytes[k]?

/-- Sections of a process have written the bytes of a call, up to those that are left. -/
structure WrittenBy (sections : List (FileSection procs)) (p : Fin procs) (src rest : List Byte)
    (taken : List (FileSection procs)) : Prop where
  among : taken.Sublist sections
  own : ∀ c ∈ taken, c.wrote = true ∧ c.proc = p
  bytes : (taken.map FileSection.bytes).flatten ++ rest = src

theorem WrittenBy.mono {sections taken : List (FileSection procs)} {p : Fin procs}
    {src rest : List Byte} (c : FileSection procs)
    (accounted : WrittenBy sections p src rest taken) :
    WrittenBy (sections ++ [c]) p src rest taken where
  among := accounted.among.trans (List.sublist_append_left ..)
  own := accounted.own
  bytes := accounted.bytes

theorem WrittenBy.snoc {sections taken : List (FileSection procs)} {p : Fin procs}
    {src rest : List Byte} (accounted : WrittenBy sections p src rest taken) (start : Nat) :
    WrittenBy (sections ++ [⟨p, start, rest.take maxWrite, true⟩]) p src (rest.drop maxWrite)
      (taken ++ [⟨p, start, rest.take maxWrite, true⟩]) where
  among := accounted.among.append (List.Sublist.refl _)
  own := by
    intro c member
    rcases List.mem_append.mp member with earlier | last
    · exact accounted.own c earlier
    · obtain rfl := List.mem_singleton.mp last
      exact ⟨rfl, rfl⟩
  bytes := by
    rw [List.map_append, List.flatten_append, List.append_assoc]
    simp only [List.map_cons, List.map_nil, List.flatten_cons, List.flatten_nil, List.append_nil,
      List.take_append_drop]
    exact accounted.bytes

variable {ip : Dinode}

namespace SharedFile

/-- The bytes of the file. -/
def contents (s : SharedFile procs) : List Byte := s.ip.contents s.disk.data

/-- The file has just been opened by the processes, on a regular file of a consistent disk. -/
structure Fresh (s : SharedFile procs) : Prop where
  /-- The disk is consistent. -/
  consistent : s.disk.Consistent
  /-- The inode is allocated. -/
  allocated : s.disk.Allocated s.disk.dinode s.inum
  /-- It is a regular file. -/
  regular : (s.disk.dinode s.inum).type = .file
  /-- It has been read into memory. -/
  copy : s.ip = s.disk.dinode s.inum
  /-- The offset is of type `uint`. -/
  narrow : s.off < 2 ^ 32
  /-- Nobody is in a call. -/
  idle : ∀ p, s.call p = .idle
  /-- No section has been taken. -/
  unused : s.sections = []
  /-- No write has returned. -/
  unwritten : s.written = []

/-- What holds in every run from an offset. -/
structure Settled (origin : Nat) (s : SharedFile procs) : Prop where
  consistent : s.disk.Consistent
  allocated : s.disk.Allocated s.disk.dinode s.inum
  regular : (s.disk.dinode s.inum).type = .file
  copy : s.ip = s.disk.dinode s.inum
  narrow : s.off < 2 ^ 32
  consecutive : Consecutive origin s.sections s.off
  stored : ∀ c ∈ s.sections, c.wrote = true → c.StoredIn s.contents
  calls : ∀ p src rest taken, s.call p = .writing src rest taken →
    WrittenBy s.sections p src rest taken
  written : ∀ w ∈ s.written, WrittenBy s.sections w.proc w.src [] w.taken

variable {origin : Nat} {s s' : SharedFile procs} {p : Fin procs} {src rest : List Byte}
  {taken : List (FileSection procs)}

theorem Fresh.settled (fresh : s.Fresh) : s.Settled s.off where
  consistent := fresh.consistent
  allocated := fresh.allocated
  regular := fresh.regular
  copy := fresh.copy
  narrow := fresh.narrow
  consecutive := by
    rw [fresh.unused]
    exact rfl
  stored := by
    rw [fresh.unused]
    simp
  calls := by
    intro p src rest taken inside
    rw [fresh.idle p] at inside
    cases inside
  written := by
    rw [fresh.unwritten]
    simp

theorem Settled.proceed (settled : s.Settled origin)
    (accounted : WrittenBy s.sections p src rest taken) :
    (s.proceed p src rest taken).Settled origin := by
  unfold SharedFile.proceed
  split
  case isTrue none =>
    subst none
    refine { settled with calls := ?_, written := ?_ }
    · intro q src' rest' taken' inside
      by_cases same : q = p
      · subst same
        simp at inside
      · simp only [update_of_ne same] at inside
        exact settled.calls q src' rest' taken' inside
    · intro w member
      rcases List.mem_append.mp member with earlier | last
      · exact settled.written w earlier
      · obtain rfl := List.mem_singleton.mp last
        exact accounted
  case isFalse some =>
    refine { settled with calls := ?_ }
    intro q src' rest' taken' inside
    by_cases same : q = p
    · subst same
      simp only [update_self] at inside
      cases inside
      exact accounted
    · simp only [update_of_ne same] at inside
      exact settled.calls q src' rest' taken' inside

theorem Settled.giveUp (settled : s.Settled origin) (p : Fin procs) :
    Settled origin { s with call := update s.call p .idle } := by
  refine { settled with calls := ?_ }
  intro q src' rest' taken' inside
  by_cases same : q = p
  · subst same
    simp at inside
  · simp only [update_of_ne same] at inside
    exact settled.calls q src' rest' taken' inside

/-- A section of `filewrite` keeps the invariant: its bytes come after those of all sections
before it. -/
theorem Settled.writes (settled : s.Settled origin) {off r : Nat} {disk : Disk}
    (returned : s.disk.writeSection s.inum s.ip s.off rest = .ok (some r, off, ip, disk)) :
    Settled origin
      { s with disk, ip, off, sections := s.sections ++ [⟨p, s.off, rest.take maxWrite, true⟩] } := by
  have inode : (s.disk.dinode s.inum).type ≠ .dev := by simp [settled.regular]
  rw [settled.copy] at returned
  obtain ⟨start, room, _, reached, wrote⟩ :=
    settled.consistent.writeSection_wrote settled.allocated inode settled.narrow returned
  have copy : disk.dinode s.inum = ip := by rw [wrote.dinode, update_self]
  have bytes : ip.contents disk.data = splice s.contents s.off (rest.take maxWrite) := by
    rw [wrote.contents, contents, settled.copy]
  have inside : s.off ≤ s.contents.length := by
    rw [contents, Disk.length_contents, settled.copy]
    exact start
  constructor
  · exact wrote.consistent
  · exact (wrote.allocated s.inum).mpr settled.allocated
  · show (disk.dinode s.inum).type = .file
    rw [copy, wrote.fields]
    exact settled.regular
  · exact copy.symm
  · show off < 2 ^ 32
    have small : maxFile * bsize < 2 ^ 32 := by decide
    omega
  · rw [reached]
    exact settled.consecutive.snoc rfl
  · intro c member wroteC k short
    show (ip.contents disk.data)[c.start + k]? = c.bytes[k]?
    rw [bytes]
    rcases List.mem_append.mp member with earlier | last
    · -- An earlier section ends at or before the offset, where the new bytes start.
      have before := (settled.consecutive.bounds earlier).2
      rw [getElem?_splice_old inside (.inl (by omega))]
      exact settled.stored c earlier wroteC k short
    · obtain rfl := List.mem_singleton.mp last
      rw [getElem?_splice_new inside (Nat.le_add_right _ _) (Nat.add_lt_add_left short _),
        Nat.add_sub_cancel_left]
  · intro q src' rest' taken' writing
    exact (settled.calls q src' rest' taken' writing).mono _
  · intro w member
    exact (settled.written w member).mono _

theorem Settled.refuses (settled : s.Settled origin) {off : Nat} {disk : Disk}
    (returned : s.disk.writeSection s.inum s.ip s.off rest = .ok (none, off, ip, disk)) :
    disk = s.disk ∧ ip = s.ip ∧ off = s.off := by
  have inode : (s.disk.dinode s.inum).type ≠ .dev := by simp [settled.regular]
  obtain ⟨⟨result, ip', disk'⟩, written, remaining⟩ := bind_eq_ok.mp returned
  cases remaining
  rw [settled.copy] at written
  have short : (rest.take maxWrite).length < 2 ^ 32 :=
    lt_of_le_of_lt (List.length_take_le ..) (by decide)
  rcases settled.consistent.writei_cases settled.allocated inode settled.narrow short written with
    ⟨_, rfl, rfl⟩ | ⟨all, _⟩
  · exact ⟨rfl, settled.copy.symm, Nat.mod_eq_of_lt settled.narrow⟩
  · cases all

/-- A section of `fileread` changes nothing but the offset. -/
theorem Settled.reads (settled : s.Settled origin) {n off : Nat} {disk : Disk}
    {bytes : Option (List Byte)}
    (returned : s.disk.readSection s.ip s.off n = .ok (bytes, off, ip, disk)) (narrow : n < 2 ^ 32) :
    disk = s.disk ∧ ip = s.ip ∧ off = s.off + (bytes.map List.length).getD 0 ∧ off < 2 ^ 32 := by
  have inode : (s.disk.dinode s.inum).type ≠ .dev := by simp [settled.regular]
  obtain ⟨⟨result, ip', disk'⟩, read, rest⟩ := bind_eq_ok.mp returned
  rw [settled.copy] at read
  have size := settled.consistent.size_le settled.allocated
  have small : maxFile * bsize < 2 ^ 32 := by decide
  have start := settled.narrow
  by_cases within : s.off ≤ (s.disk.dinode s.inum).size ∧ s.off + n < 2 ^ 32
  · rw [settled.consistent.readi_eq settled.allocated inode within.1 within.2] at read
    cases read
    cases rest
    have short : ((((s.disk.dinode s.inum).contents s.disk.data).drop s.off).take n).length ≤
        (s.disk.dinode s.inum).size - s.off := by
      rw [List.length_take, List.length_drop, Disk.length_contents]
      omega
    refine ⟨rfl, settled.copy.symm, ?_, ?_⟩
    · rw [advance, Nat.mod_eq_of_lt]
      simp only [Option.map_some, Option.getD_some]
      omega
    · rw [advance]
      exact Nat.mod_lt _ (by decide)
  · rw [Disk.readi_refused inode start narrow (by omega)] at read
    cases read
    cases rest
    refine ⟨rfl, settled.copy.symm, ?_, ?_⟩
    · exact Nat.mod_eq_of_lt start
    · exact Nat.mod_lt _ (by decide)

theorem Settled.passes (settled : s.Settled origin) {off : Nat} {bytes : List Byte}
    (reached : off = s.off + bytes.length) (narrow : off < 2 ^ 32) :
    Settled origin { s with off, sections := s.sections ++ [⟨p, s.off, bytes, false⟩] } := by
  refine { settled with narrow, consecutive := ?_, stored := ?_, calls := ?_, written := ?_ }
  · rw [reached]
    exact settled.consecutive.snoc rfl
  · intro c member wrote
    rcases List.mem_append.mp member with earlier | last
    · exact settled.stored c earlier wrote
    · obtain rfl := List.mem_singleton.mp last
      cases wrote
  · intro q src' rest' taken' writing
    exact (settled.calls q src' rest' taken' writing).mono _
  · intro w member
    exact (settled.written w member).mono _

theorem Settled.step (settled : s.Settled origin) (event : FileEvent procs)
    (stepped : s.step event = .ok s') : s'.Settled origin := by
  cases event with
  | filewrite p src =>
    simp only [SharedFile.step] at stepped
    split at stepped
    case h_1 idle =>
      cases stepped
      split
      case isTrue writable => exact settled.proceed ⟨List.nil_sublist _, by simp, rfl⟩
      case isFalse => exact settled
    case h_2 => cases stepped; exact settled
  | next p =>
    simp only [SharedFile.step] at stepped
    split at stepped
    case h_1 => cases stepped; exact settled
    case h_2 src rest taken inside =>
      obtain ⟨⟨r, off, ip, disk⟩, returned, remaining⟩ := bind_eq_ok.mp stepped
      cases r with
      | none =>
        cases remaining
        obtain ⟨rfl, rfl, rfl⟩ := settled.refuses returned
        exact settled.giveUp p
      | some r =>
        simp only at remaining
        split at remaining
        case isTrue whole =>
          cases remaining
          have accounted := (settled.calls p src rest taken inside).snoc s.off
          exact (settled.writes returned).proceed accounted
        case isFalse => cases remaining
  | fileread p n =>
    simp only [SharedFile.step] at stepped
    split at stepped
    case h_1 idle =>
      split at stepped
      case isTrue readable =>
        obtain ⟨⟨bytes, off, ip, disk⟩, returned, remaining⟩ := bind_eq_ok.mp stepped
        obtain ⟨rfl, rfl, reached, narrow⟩ := settled.reads returned n.isLt
        cases bytes with
        | none =>
          cases remaining
          rw [Option.map_none, Option.getD_none, Nat.add_zero] at reached
          subst reached
          exact settled
        | some bytes =>
          cases remaining
          exact settled.passes reached narrow
      case isFalse => cases stepped; exact settled
    case h_2 => cases stepped; exact settled

/-- In every run of processes that share an open file on a regular file, the sections follow each
other from the first offset to the last one in the order in which they took the lock, no two of
them overlap, every section of a write is in the file, and every write that returned consists of
such sections. -/
theorem run_sections (s s' : SharedFile procs) (fresh : s.Fresh)
    (run : Relation.ReflTransGen (Outcome.Steps SharedFile.step fun _ _ => True) s s') :
    Consecutive s.off s'.sections s'.off ∧
    s'.sections.Pairwise
      (fun earlier later => earlier.start + earlier.bytes.length ≤ later.start) ∧
    (∀ c ∈ s'.sections, c.wrote = true → c.StoredIn s'.contents) ∧
    ∀ w ∈ s'.written, w.taken.Sublist s'.sections ∧
      (∀ c ∈ w.taken, c.wrote = true ∧ c.proc = w.proc) ∧
      (w.taken.map FileSection.bytes).flatten = w.src := by
  have settled : s'.Settled s.off := steps_invariant (Settled s.off)
    (fun _ event _ before _ stepped => before.step event stepped) fresh.settled run
  refine ⟨settled.consecutive, settled.consecutive.pairwise, settled.stored, ?_⟩
  intro w member
  have accounted := settled.written w member
  refine ⟨accounted.among, accounted.own, ?_⟩
  have bytes := accounted.bytes
  rwa [List.append_nil] at bytes

/-- Two processes that have opened the file of the small disk for reading and writing. -/
def twoSharers : SharedFile 2 where
  disk := Disk.oneFileDisk true
  inum := 1
  ip := (Disk.oneFileDisk true).dinode 1
  off := 0
  readable := true
  writable := true
  call := fun _ => .idle
  sections := []
  written := []

/-- One writes while the other is about to, and then reads on. -/
theorem twoSharers_sections :
    ∃ s, Outcome.run step twoSharers
        [.filewrite 0 [1, 2], .filewrite 1 [3], .next 1, .next 0, .fileread 1 1] = .ok s ∧
      s.sections = [⟨1, 0, [3], true⟩, ⟨0, 1, [1, 2], true⟩, ⟨1, 3, [0], false⟩] ∧
      Consecutive 0 s.sections s.off ∧
      (∀ c ∈ s.sections, c.wrote = true → c.StoredIn s.contents) := by
  have fresh : twoSharers.Fresh := {
    consistent := Disk.oneFileDisk_consistent true
    allocated := (Disk.oneFileDisk_allocated true 1).mpr rfl
    regular := rfl
    copy := rfl
    narrow := by decide
    idle := fun _ => rfl
    unused := rfl
    unwritten := rfl }
  have returns : ((Outcome.run step twoSharers
        [.filewrite 0 [1, 2], .filewrite 1 [3], .next 1, .next 0, .fileread 1 1]).map
          fun s => s.sections).toOption =
      some [⟨1, 0, [3], true⟩, ⟨0, 1, [1, 2], true⟩, ⟨1, 3, [0], false⟩] := by decide +kernel
  obtain ⟨s, finished, seen⟩ := exists_ok returns
  have run : Relation.ReflTransGen (Outcome.Steps step fun _ _ => True) twoSharers s :=
    run_reaches (fun _ event _ stepped => ⟨event, trivial, stepped⟩) finished
  obtain ⟨consecutive, _, stored, _⟩ := run_sections twoSharers s fresh run
  exact ⟨s, finished, seen, consecutive, stored⟩

end SharedFile

end MemoryEncryption
