import MemoryEncryption.Verif.FileBlocks
import MemoryEncryption.Kernel.FileIO
import MemoryEncryption.Library.Splice

/-!
# Contents of files

What `readi`, `writei` and `filewrite` do to the sequence of bytes of an inode. They
are called with the inode locked and read from the disk, so that its in-memory copy
is the copy on the disk; the disk is consistent before and after.
-/

namespace MemoryEncryption

open Function Outcome

/-- The bytes of an inode. -/
def Dinode.contents (data : Nat → Sector) (ip : Dinode) : List Byte :=
  (List.range ip.size).map fun o => data (ip.lookup data (o / bsize)) (o % bsize)

variable {ip : Dinode} {n : Nat}

namespace Disk

variable {d d' : Disk} {ino ino' : Nat → Dinode} {count : Nat → Nat} {i off : Nat}
  {src : List Byte}

/-! ## `writei` and `readi` -/

theorem allocated_fields (sb : d'.sb = d.sb) (types : ∀ j, (ino' j).type = (ino j).type) (j : Nat) :
    d'.Allocated ino' j ↔ d.Allocated ino j := by
  rw [Allocated, Allocated, sb, types]

theorem pointer_fields (sb : d'.sb = d.sb) (data : d'.data = d.data)
    (types : ∀ j, (ino' j).type = (ino j).type) (addrs : ∀ j, (ino' j).addrs = (ino j).addrs) :
    d'.pointer ino' = d.pointer ino := by
  have allocated := allocated_fields sb types
  funext ⟨j, slot⟩
  by_cases there : d.Allocated ino j
  · rw [pointer_allocated there, pointer_allocated ((allocated j).mpr there), data]
    cases slot with
    | block bn => rw [Dinode.pointer, Dinode.pointer, Dinode.lookup, Dinode.lookup, addrs]
    | indirect => rw [Dinode.pointer, Dinode.pointer, addrs]
  · rw [pointer_free there, pointer_free (mt (allocated j).mp there)]

theorem Layout.congr {count' : Nat → Nat} (layout : d.Layout ino count) (sb : d'.sb = d.sb)
    (used : d'.used = d.used) (data : d'.data = d.data)
    (types : ∀ j, (ino' j).type = (ino j).type) (addrs : ∀ j, (ino' j).addrs = (ino j).addrs)
    (counts : ∀ j, count' j = count j) : d'.Layout ino' count' := by
  have pointers := pointer_fields sb data types addrs
  constructor
  · constructor
    · apply layout.holding.congr
      · intro place
        rw [pointers]
      · intro b
        rw [InUse, InUse, sb, used]
    · rw [sb, used]
      exact layout.metadata
  · intro j there
    rw [pointers, counts]
    exact layout.filled j ((allocated_fields sb types j).mp there)

theorem contents_allocated (allocated : d.Allocated ino i) :
    (ino i).contents d.data = (List.range (ino i).size).map (d.fileByte ino i) := by
  apply List.map_congr_left
  intro o _
  rw [fileByte, pointer_allocated allocated]
  rfl

theorem div_lt_blocksFor {size o : Nat} (inside : o < size) : o / bsize < blocksFor size := by
  simp only [blocksFor, bsize]
  omega

theorem le_blocksFor (size : Nat) : size ≤ blocksFor size * bsize := by
  simp only [blocksFor, bsize]
  omega

theorem Consistent.size_le (consistent : d.Consistent) (allocated : d.Allocated d.dinode i) :
    (d.dinode i).size ≤ maxFile * bsize :=
  le_trans (le_blocksFor _) (Nat.mul_le_mul_right _ (consistent.filled i allocated).bound)

/-- What `writei` leaves when it returns the number of bytes. -/
structure Wrote (d : Disk) (i : Nat) (src : List Byte) (off : Nat) (ip : Dinode) (d' : Disk) :
    Prop where
  consistent : d'.Consistent
  sb : d'.sb = d.sb
  devsw : d'.devsw = d.devsw
  /-- The copy of the inode on the disk is that in memory; the others stay. -/
  dinode : d'.dinode = Function.update d.dinode i ip
  fields : ip = { d.dinode i with size := max (d.dinode i).size (off + src.length)
                                  addrs := ip.addrs }
  pointer : ∀ place, d.pointer d.dinode place ≠ 0 →
    d'.pointer d'.dinode place = d.pointer d.dinode place
  contents : ip.contents d'.data = splice ((d.dinode i).contents d.data) off src
  others : ∀ j, j ≠ i → d.Allocated d.dinode j →
    (d.dinode j).contents d'.data = (d.dinode j).contents d.data
  card : d'.freeBlocks.card + cost (blocksFor (max (d.dinode i).size (off + src.length))) =
    d.freeBlocks.card + cost (blocksFor (d.dinode i).size)

/-- The loop of `writei` followed by its update of the size. -/
theorem Stores.wrote (consistent : d.Consistent) (allocated : d.Allocated d.dinode i)
    (start : off ≤ (d.dinode i).size) {size : Nat}
    (grown : size = max (d.dinode i).size (off + src.length))
    (stores : d.Stores d.dinode (fun j => blocksFor (d.dinode j).size) i off src
      (blocksFor size) ip d') :
    d.Wrote i src off { ip with size := size } (d'.iupdate i { ip with size := size }) := by
  have written := stores.written
  have inodes : (d'.iupdate i { ip with size := size }).dinode =
      update d.dinode i { ip with size := size } := by
    rw [iupdate, written.dinode]
  have there := (written.allocated i).mpr allocated
  have types : ∀ j, (update d.dinode i { ip with size := size } j).type =
      (update d.dinode i ip j).type := by
    intro j
    by_cases same : j = i
    · simp [same]
    · simp [same]
  have addrs : ∀ j, (update d.dinode i { ip with size := size } j).addrs =
      (update d.dinode i ip j).addrs := by
    intro j
    by_cases same : j = i
    · simp [same]
    · simp [same]
  constructor
  · rw [Consistent, inodes]
    apply stores.layout.congr
    · rfl
    · rfl
    · rfl
    · exact types
    · exact addrs
    · intro j
      by_cases same : j = i
      · simp [same]
      · simp [same]
  · exact written.sb
  · exact written.devsw
  · exact inodes
  · rw [stores.fields, grown]
  · intro place full
    have same : (d'.iupdate i { ip with size := size }).pointer
        (update d.dinode i { ip with size := size }) place =
        d'.pointer (update d.dinode i ip) place := by
      rw [pointer_fields (d := d') ?_ ?_ types addrs]
      · rfl
      · rfl
    rw [inodes, same, written.pointer place full]
  · have whole : Dinode.contents d'.data { ip with size := size } =
        (List.range size).map (d'.fileByte (update d.dinode i ip) i) := by
      apply List.map_congr_left
      intro o _
      rw [fileByte, pointer_allocated there, update_self]
      rfl
    rw [contents_allocated allocated]
    change Dinode.contents d'.data { ip with size := size } = _
    rw [whole, grown]
    apply splice_eq_map start
    · intro o lower upper
      rw [written.stored o lower upper, List.getD_eq_getElem?_getD]
      rw [List.getElem?_eq_getElem (by omega)]
      rfl
    · intro o inside outside
      apply written.kept o _ outside
      exact ((consistent.filled i allocated).block _).mpr (div_lt_blocksFor inside)
  · intro j other thereJ
    have stays := (written.allocated j).mpr thereJ
    have bytes := contents_allocated stays
    rw [update_of_ne other] at bytes
    change (d.dinode j).contents d'.data = _
    rw [bytes, contents_allocated thereJ]
    apply List.map_congr_left
    intro o member
    have full := ((consistent.filled j thereJ).block (o / bsize)).mpr
      (div_lt_blocksFor (List.mem_range.mp member))
    rw [fileByte, fileByte, written.pointer _ full, written.others j _ other full]
  · rw [← grown]
    exact stores.card

/-- The requests that `writei` refuses. -/
def Refused (ip : Dinode) (off n : Nat) : Prop :=
  ip.size < off ∨ 2 ^ 32 ≤ off + n ∨ maxFile * bsize < off + n

theorem writei_refused (inode : ip.type ≠ .dev) (offset : off < 2 ^ 32)
    (length : src.length < 2 ^ 32) (refused : Refused ip off src.length) :
    d.writei i ip src off = .ok (none, ip, d) := by
  rw [writei, if_neg inode]
  by_cases early : ip.size < off ∨ (off + src.length) % 2 ^ 32 < off
  · rw [if_pos early]
    rfl
  · have long : maxFile * bsize < (off + src.length) % 2 ^ 32 := by
      rcases refused with after | wraps | long
      · omega
      · omega
      · rw [Nat.mod_eq_of_lt (by omega)]
        exact long
    rw [if_neg early, if_pos long]
    rfl

theorem writei_loop (inode : ip.type ≠ .dev) (start : off ≤ ip.size)
    (room : off + src.length ≤ maxFile * bsize) :
    d.writei i ip src off = (do
      let (ip, d) ← writeLoop src.length d ip off src
      if 0 < src.length ∧ ip.size < off + src.length then
        pure (some src.length, { ip with size := off + src.length },
          d.iupdate i { ip with size := off + src.length })
      else pure (some src.length, ip, d)) := by
  have small : maxFile * bsize < 2 ^ 32 := by decide
  have whole : (off + src.length) % 2 ^ 32 = off + src.length := Nat.mod_eq_of_lt (by omega)
  rw [writei, if_neg inode, if_neg (by omega), if_neg (by omega)]

theorem Consistent.writei_wrote (consistent : d.Consistent) (allocated : d.Allocated d.dinode i)
    (inode : (d.dinode i).type ≠ .dev) (start : off ≤ (d.dinode i).size)
    (room : off + src.length ≤ maxFile * bsize)
    (free : cost (blocksFor (max (d.dinode i).size (off + src.length))) ≤
      d.freeBlocks.card + cost (blocksFor (d.dinode i).size)) :
    ∃ ip d', d.writei i (d.dinode i) src off = .ok (some src.length, ip, d') ∧
      d.Wrote i src off ip d' := by
  have last : blocksFor (d.dinode i).size = blocksFor (max (d.dinode i).size off) := by
    rw [max_eq_left start]
  obtain ⟨ip, d', looped, stores⟩ := consistent.writeLoop_stores allocated (le_refl _) room last free
  have size : ip.size = (d.dinode i).size := by rw [stores.fields]
  rw [writei_loop inode start room, looped]
  by_cases grows : (d.dinode i).size < off + src.length
  · have wrote := Stores.wrote consistent allocated start
      (show off + src.length = max (d.dinode i).size (off + src.length) by omega)
      (by rwa [max_eq_right (le_of_lt grows)] at stores)
    refine ⟨_, _, ?_, wrote⟩
    simp only [ok_bind]
    rw [if_pos ⟨by omega, by rw [size]; exact grows⟩]
    rfl
  · have kept : max (d.dinode i).size (off + src.length) = (d.dinode i).size := by omega
    rw [kept] at stores
    have same : ip = d.dinode i := stores.same rfl
    subst same
    have wrote := Stores.wrote consistent allocated start kept.symm stores
    have unchanged : d'.iupdate i (d.dinode i) = d' := by
      rw [iupdate, stores.written.dinode, update_eq_self, ← stores.written.dinode]
    refine ⟨_, _, ?_, by rwa [unchanged] at wrote⟩
    simp only [ok_bind]
    rw [if_neg (fun both => grows both.2)]
    rfl

theorem Consistent.writei_full (consistent : d.Consistent) (allocated : d.Allocated d.dinode i)
    (inode : (d.dinode i).type ≠ .dev) (start : off ≤ (d.dinode i).size)
    (room : off + src.length ≤ maxFile * bsize)
    (few : d.freeBlocks.card + cost (blocksFor (d.dinode i).size) <
      cost (blocksFor (max (d.dinode i).size (off + src.length)))) :
    d.writei i (d.dinode i) src off = .error (.panic "balloc: out of blocks") := by
  have last : blocksFor (d.dinode i).size = blocksFor (max (d.dinode i).size off) := by
    rw [max_eq_left start]
  rw [writei_loop inode start room,
    consistent.writeLoop_full allocated (le_refl _) room last few]
  rfl

theorem Consistent.writei_cases (consistent : d.Consistent) (allocated : d.Allocated d.dinode i)
    (inode : (d.dinode i).type ≠ .dev) (offset : off < 2 ^ 32) (length : src.length < 2 ^ 32)
    {r : Option Nat} (returned : d.writei i (d.dinode i) src off = .ok (r, ip, d')) :
    (r = none ∧ ip = d.dinode i ∧ d' = d) ∨
      (r = some src.length ∧ off ≤ (d.dinode i).size ∧ off + src.length ≤ maxFile * bsize ∧
        d.Wrote i src off ip d') := by
  by_cases refused : Refused (d.dinode i) off src.length
  · rw [writei_refused inode offset length refused] at returned
    cases returned
    exact .inl ⟨rfl, rfl, rfl⟩
  · have start : off ≤ (d.dinode i).size := by
      by_contra late
      exact refused (.inl (by omega))
    have room : off + src.length ≤ maxFile * bsize := by
      by_contra long
      exact refused (.inr (.inr (by omega)))
    by_cases free : cost (blocksFor (max (d.dinode i).size (off + src.length))) ≤
        d.freeBlocks.card + cost (blocksFor (d.dinode i).size)
    · obtain ⟨ip', after, written, wrote⟩ :=
        consistent.writei_wrote allocated inode start room free
      rw [written] at returned
      cases returned
      exact .inr ⟨rfl, start, room, wrote⟩
    · rw [consistent.writei_full allocated inode start room (by omega)] at returned
      cases returned

/-- `readi` returns bytes that the blocks of a file hold and changes nothing. -/
theorem Layout.readi_eq (layout : d.Layout ino count) (allocated : d.Allocated ino i)
    (inode : (ino i).type ≠ .dev) (start : off ≤ (ino i).size) (whole : off + n < 2 ^ 32)
    (inside : min (off + n) (ino i).size ≤ count i * bsize) :
    d.readi (ino i) off n =
      .ok (some ((((ino i).contents d.data).drop off).take n), ino i, d) := by
  have clamp : (if (ino i).size < (off + n) % 2 ^ 32 then (ino i).size - off else n) =
      min n ((ino i).size - off) := by
    rw [Nat.mod_eq_of_lt whole]
    split <;> omega
  have looped := layout.readLoop_eq allocated (le_refl (min n ((ino i).size - off)))
    (show off + min n ((ino i).size - off) ≤ count i * bsize by omega)
  rw [readi, if_neg inode, if_neg (by omega)]
  simp only [clamp]
  rw [looped, contents_allocated allocated]
  have bytes : (List.range (min n ((ino i).size - off))).map
        (fun k => d.fileByte ino i (off + k)) =
      (((List.range (ino i).size).map (d.fileByte ino i)).drop off).take n := by
    apply List.ext_getElem?
    intro k
    by_cases short : k < min n ((ino i).size - off)
    · rw [List.getElem?_take_of_lt (by omega), List.getElem?_drop, List.getElem?_map,
        List.getElem?_map, List.getElem?_range short, List.getElem?_range (by omega)]
      rfl
    · rw [List.getElem?_eq_none (by simp; omega), List.getElem?_eq_none (by simp; omega)]
  rw [bytes]
  rfl

theorem Consistent.readi_eq (consistent : d.Consistent) (allocated : d.Allocated d.dinode i)
    (inode : (d.dinode i).type ≠ .dev) (start : off ≤ (d.dinode i).size) (whole : off + n < 2 ^ 32) :
    d.readi (d.dinode i) off n =
      .ok (some ((((d.dinode i).contents d.data).drop off).take n), d.dinode i, d) :=
  Layout.readi_eq consistent allocated inode start whole
    (le_trans (Nat.min_le_right _ _) (le_blocksFor _))

theorem readi_refused (inode : ip.type ≠ .dev) (offset : off < 2 ^ 32) (length : n < 2 ^ 32)
    (refused : ip.size < off ∨ 2 ^ 32 ≤ off + n) : d.readi ip off n = .ok (none, ip, d) := by
  rw [readi, if_neg inode, if_pos (by omega)]
  rfl

/-! ## Writes in sections -/

theorem length_contents (data : Nat → Sector) (ip : Dinode) : (ip.contents data).length = ip.size := by
  simp [Dinode.contents]

theorem Wrote.allocated (wrote : d.Wrote i src off ip d') (j : Nat) :
    d'.Allocated d'.dinode j ↔ d.Allocated d.dinode j := by
  have type : ip.type = (d.dinode i).type := by rw [wrote.fields]
  rw [wrote.dinode, Allocated, wrote.sb]
  exact allocated_update type j

/-- Two calls of `writei`, the second where the first ends, are one. -/
theorem Wrote.append {ip' : Dinode} {d'' : Disk} {more : List Byte}
    (start : off ≤ (d.dinode i).size) (first : d.Wrote i src off ip d')
    (second : d'.Wrote i more (off + src.length) ip' d'') :
    d.Wrote i (src ++ more) off ip' d'' := by
  have between : d'.dinode i = ip := by rw [first.dinode, update_self]
  have size : ip.size = max (d.dinode i).size (off + src.length) := by rw [first.fields]
  have whole : max (max (d.dinode i).size (off + src.length)) (off + src.length + more.length) =
      max (d.dinode i).size (off + (src.length + more.length)) := by omega
  constructor
  · exact second.consistent
  · rw [second.sb, first.sb]
  · rw [second.devsw, first.devsw]
  · rw [second.dinode, first.dinode, update_idem]
  · rw [second.fields, between, size, List.length_append, whole, first.fields]
  · intro place full
    have same := first.pointer place full
    rw [second.pointer place (by rwa [same]), same]
  · rw [second.contents, between, first.contents]
    exact splice_splice (by rw [length_contents]; exact start)
  · intro j other there
    have same : d'.dinode j = d.dinode j := by rw [first.dinode, update_of_ne other]
    have kept := second.others j other ((first.allocated j).mpr there)
    rw [same] at kept
    rw [kept, first.others j other there]
  · have before := first.card
    have after := second.card
    rw [between, size, whole] at after
    rw [List.length_append]
    omega

/-- A section that does not fail writes its bytes at the offset and advances it past them. -/
theorem Consistent.writeSection_wrote (consistent : d.Consistent)
    (allocated : d.Allocated d.dinode i) (inode : (d.dinode i).type ≠ .dev) {r next : Nat}
    (offset : off < 2 ^ 32)
    (returned : d.writeSection i (d.dinode i) off src = .ok (some r, next, ip, d')) :
    off ≤ (d.dinode i).size ∧ off + (src.take maxWrite).length ≤ maxFile * bsize ∧
      r = (src.take maxWrite).length ∧ next = off + (src.take maxWrite).length ∧
      d.Wrote i (src.take maxWrite) off ip d' := by
  obtain ⟨⟨r', ip', after⟩, written, rest⟩ := bind_eq_ok.mp returned
  cases rest
  have short : (src.take maxWrite).length ≤ maxWrite := List.length_take_le ..
  have small : maxWrite < 2 ^ 32 := by decide
  have bounded : maxFile * bsize < 2 ^ 32 := by decide
  rcases consistent.writei_cases allocated inode offset (by omega) written with
    refused | ⟨all, start, room, wrote⟩
  · cases refused.1
  · cases all
    refine ⟨start, room, rfl, ?_, wrote⟩
    rw [advance, Option.getD_some, Nat.mod_eq_of_lt (by omega)]

/-- The loop of `filewrite` that writes everything writes it as one `writei`. -/
theorem Consistent.filewriteLoop_wrote (consistent : d.Consistent)
    (allocated : d.Allocated d.dinode i) (inode : (d.dinode i).type ≠ .dev) {rounds next : Nat}
    (some : src ≠ []) (enough : src.length ≤ rounds) (offset : off < 2 ^ 32)
    (returned : filewriteLoop rounds d i (d.dinode i) off src = .ok (true, next, ip, d')) :
    off ≤ (d.dinode i).size ∧ off + src.length ≤ maxFile * bsize ∧ next = off + src.length ∧
      d.Wrote i src off ip d' := by
  induction rounds generalizing d off src with
  | zero => exact absurd (List.length_eq_zero_iff.mp (by omega)) some
  | succ rounds ih =>
    rw [filewriteLoop, if_neg some] at returned
    obtain ⟨⟨r, middle, ip', d₁⟩, wroteSection, rest⟩ := bind_eq_ok.mp returned
    cases r with
    | none => cases rest
    | some r =>
      obtain ⟨start, room, rfl, rfl, wrote⟩ :=
        consistent.writeSection_wrote allocated inode offset wroteSection
      simp only [↓reduceIte] at rest
      have between : d₁.dinode i = ip' := by rw [wrote.dinode, update_self]
      have total : src.take maxWrite ++ src.drop maxWrite = src := List.take_append_drop ..
      have lengths : (src.take maxWrite).length + (src.drop maxWrite).length = src.length := by
        rw [← List.length_append, total]
      by_cases last : src.drop maxWrite = []
      · have whole : src.take maxWrite = src := by
          rw [last, List.append_nil] at total
          exact total
        have ended : filewriteLoop rounds d₁ i ip' (off + (src.take maxWrite).length)
            (src.drop maxWrite) = .ok (true, off + (src.take maxWrite).length, ip', d₁) := by
          rw [last]
          cases rounds <;> rfl
        rw [ended] at rest
        cases rest
        rw [whole] at room wrote ⊢
        exact ⟨start, room, rfl, wrote⟩
      · rw [← between] at rest
        have bounded : maxFile * bsize < 2 ^ 32 := by decide
        have positive : 0 < (src.take maxWrite).length := by
          rw [List.length_take]
          have nonempty := List.length_pos_iff.mpr some
          have wide : 0 < maxWrite := by decide
          omega
        have type : ip'.type = (d.dinode i).type := by rw [wrote.fields]
        obtain ⟨_, roomRest, reached, wroteRest⟩ := ih wrote.consistent
          ((wrote.allocated i).mpr allocated) (by rw [between, type]; exact inode) last (by omega)
          (by omega) rest
        have joined := wrote.append start wroteRest
        rw [total] at joined
        exact ⟨start, by omega, by omega, joined⟩

/-- `filewrite` that returns the number of bytes has the effect of one `writei` on the bytes and
the size of the file. -/
theorem Consistent.filewrite_writei (consistent : d.Consistent) (allocated : d.Allocated d.dinode i)
    (inode : (d.dinode i).type ≠ .dev) {next : Nat} (offset : off < 2 ^ 32)
    (returned : d.filewrite i (d.dinode i) off src = .ok (some src.length, next, ip, d')) :
    ∃ r ip' d'', d.writei i (d.dinode i) src off = .ok (r, ip', d'') ∧
      ip.contents d'.data = ip'.contents d''.data ∧ ip.size = ip'.size := by
  obtain ⟨⟨all, next', ip₁, d₁⟩, looped, rest⟩ := bind_eq_ok.mp returned
  cases all with
  | false => cases rest
  | true =>
    cases rest
    by_cases none : src = []
    · subst none
      cases looped
      by_cases late : (d.dinode i).size < off
      · exact ⟨_, _, _, writei_refused inode offset (by decide) (.inl late), rfl, rfl⟩
      · have start : off ≤ (d.dinode i).size := by omega
        have size : max (d.dinode i).size (off + ([] : List Byte).length) = (d.dinode i).size :=
          max_eq_left start
        have room : off + ([] : List Byte).length ≤ maxFile * bsize :=
          le_trans start (consistent.size_le allocated)
        obtain ⟨ip', d'', once, single⟩ := consistent.writei_wrote allocated inode start room
          (by rw [size]; omega)
        refine ⟨_, ip', d'', once, ?_, ?_⟩
        · rw [single.contents, splice_nil]
        · rw [single.fields, size]
    · obtain ⟨start, room, _, wrote⟩ := consistent.filewriteLoop_wrote allocated inode none
        (le_refl _) offset looped
      have card := wrote.card
      obtain ⟨ip', d'', once, single⟩ :=
        consistent.writei_wrote allocated inode start room (by omega)
      refine ⟨_, ip', d'', once, ?_, ?_⟩
      · rw [wrote.contents, single.contents]
      · rw [wrote.fields, single.fields]

/-! ## The contents of a file -/

instance (ip : Dinode) (off n : Nat) : Decidable (Refused ip off n) :=
  inferInstanceAs (Decidable (_ ∨ _ ∨ _))

/-- The blocks that a write has to add to a file, an indirect block included. -/
def newBlocks (ip : Dinode) (off n : Nat) : Nat :=
  cost (blocksFor (max ip.size (off + n))) - cost (blocksFor ip.size)

/-- On a consistent disk `writei` refuses a request without changing anything, or splices the bytes
into the file and into no other one, or panics because there are too few free blocks; `readi`
returns the bytes that are asked for and in the file; `filewrite`, when it returns the number of
bytes, has the effect of one `writei`. -/
theorem writei_readi_filewrite (d : Disk) (i : Nat) (consistent : d.Consistent)
    (allocated : d.Allocated d.dinode i) (inode : (d.dinode i).type ≠ .dev) :
    (∀ (src : List Byte) (off : Nat), src.length < 2 ^ 32 → off < 2 ^ 32 →
      if Refused (d.dinode i) off src.length then
        d.writei i (d.dinode i) src off = .ok (none, d.dinode i, d)
      else if newBlocks (d.dinode i) off src.length ≤ d.freeBlocks.card then
        ∃ ip d', d.writei i (d.dinode i) src off = .ok (some src.length, ip, d') ∧
          ip.contents d'.data = splice ((d.dinode i).contents d.data) off src ∧
          ip.size = max (d.dinode i).size (off + src.length) ∧ d'.dinode i = ip ∧
          ∀ j, j ≠ i → d'.dinode j = d.dinode j ∧
            (d.Allocated d.dinode j →
              (d.dinode j).contents d'.data = (d.dinode j).contents d.data)
      else d.writei i (d.dinode i) src off = .error (.panic "balloc: out of blocks")) ∧
    (∀ off n : Nat, off < 2 ^ 32 → n < 2 ^ 32 →
      d.readi (d.dinode i) off n =
        .ok (if off ≤ (d.dinode i).size ∧ off + n < 2 ^ 32 then
          some ((((d.dinode i).contents d.data).drop off).take n) else none, d.dinode i, d)) ∧
    ∀ (src : List Byte) (off next : Nat) (ip : Dinode) (d' : Disk), off < 2 ^ 32 →
      d.filewrite i (d.dinode i) off src = .ok (some src.length, next, ip, d') →
      ∃ r ip' d'', d.writei i (d.dinode i) src off = .ok (r, ip', d'') ∧
        ip.contents d'.data = ip'.contents d''.data ∧ ip.size = ip'.size := by
  refine ⟨?_, ?_, ?_⟩
  · intro src off length offset
    split
    case isTrue refused => exact writei_refused inode offset length refused
    case isFalse admitted =>
      have start : off ≤ (d.dinode i).size := by
        by_contra late
        exact admitted (Or.inl (by omega))
      have room : off + src.length ≤ maxFile * bsize := by
        by_contra long
        exact admitted (Or.inr (Or.inr (by omega)))
      split
      case isTrue free =>
        rw [newBlocks] at free
        obtain ⟨ip, d', returned, wrote⟩ :=
          consistent.writei_wrote allocated inode start room (by omega)
        have size : ip.size = max (d.dinode i).size (off + src.length) := by rw [wrote.fields]
        have copy : d'.dinode i = ip := by rw [wrote.dinode, update_self]
        refine ⟨ip, d', returned, wrote.contents, size, copy, ?_⟩
        intro j other
        refine ⟨?_, wrote.others j other⟩
        rw [wrote.dinode, update_of_ne other]
      case isFalse full =>
        rw [newBlocks] at full
        exact consistent.writei_full allocated inode start room (by omega)
  · intro off n offset length
    split
    case isTrue within => exact consistent.readi_eq allocated inode within.1 within.2
    case isFalse outside => exact readi_refused inode offset length (by omega)
  · intro src off next ip d' offset returned
    exact consistent.filewrite_writei allocated inode offset returned

/-- A disk with one file of one block, and with a free block or without one. -/
def oneFileDisk (spare : Bool) : Disk where
  sb := ⟨if spare then 6 else 5, 8, 2, 3, by cases spare <;> decide,
    Superblock.oneBlock_roomy⟩
  devsw := fun _ => ⟨fun _ => none, fun _ => none⟩
  dinode := Function.update (fun _ => .zero) 1
    ⟨.file, 0, 0, 1, 512, Function.update (fun _ => 0) 0 4⟩
  used := fun b => decide (b ≤ 4)
  data := fun _ _ => 0

theorem oneFileDisk_allocated (spare : Bool) (i : Nat) :
    (oneFileDisk spare).Allocated (oneFileDisk spare).dinode i ↔ i = 1 := by
  by_cases same : i = 1
  · subst same
    cases spare <;> simp [Allocated, oneFileDisk, Superblock.table] <;> decide
  · simp [Allocated, oneFileDisk, same, Dinode.zero]

theorem oneFileDisk_pointer (spare : Bool) (place : Nat × BlockSlot) :
    (oneFileDisk spare).pointer (oneFileDisk spare).dinode place =
      if place = (1, .block 0) then 4 else 0 := by
  obtain ⟨i, slot⟩ := place
  by_cases same : i = 1
  · subst same
    rw [pointer_allocated ((oneFileDisk_allocated spare 1).mpr rfl)]
    cases slot with
    | block bn =>
      by_cases first : bn = 0
      · subst first
        rfl
      · simp [oneFileDisk, Dinode.pointer, Dinode.lookup, first, nDirect]
    | indirect => simp [oneFileDisk, Dinode.pointer, nDirect]
  · rw [pointer_free (mt (oneFileDisk_allocated spare i).mp same)]
    simp [same]

theorem oneFileDisk_consistent (spare : Bool) : (oneFileDisk spare).Consistent where
  holding := {
    solid := by
      intro inUse
      cases spare <;> exact absurd inUse.1 (by decide)
    single := by
      intro s t
      simp only [oneFileDisk_pointer]
      split <;> split <;> simp_all
    marked := by
      intro s
      simp only [oneFileDisk_pointer]
      split
      · intro _
        cases spare <;> exact ⟨by decide, by decide, by decide⟩
      · simp
    held := by
      rintro b ⟨lower, _, used⟩
      refine ⟨(1, .block 0), ?_⟩
      have start : (oneFileDisk spare).sb.datastart = 4 := by cases spare <;> rfl
      have marked : b ≤ 4 := by simpa [oneFileDisk] using used
      rw [oneFileDisk_pointer, if_pos rfl]
      omega }
  metadata := by
    intro b before
    have start : (oneFileDisk spare).sb.datastart = 4 := by cases spare <;> rfl
    rw [start] at before
    simp only [oneFileDisk, decide_eq_true_eq]
    omega
  filled := by
    intro i allocated
    obtain rfl := (oneFileDisk_allocated spare i).mp allocated
    have size : blocksFor ((oneFileDisk spare).dinode 1).size = 1 := by cases spare <;> decide
    simp only [oneFileDisk_pointer, size]
    constructor
    · decide
    · intro bn
      by_cases first : bn = 0
      · simp [first]
      · simp [first]
    · decide

/-- On the disk with a free block a byte is written after the end of the file. -/
theorem oneFileDisk_grows : ∃ ip d',
    (oneFileDisk true).writei 1 ((oneFileDisk true).dinode 1) [1] 512 = .ok (some 1, ip, d') ∧
      ip.size = 513 := by
  have results := (writei_readi_filewrite (oneFileDisk true) 1 (oneFileDisk_consistent true)
    ((oneFileDisk_allocated true 1).mpr rfl) (by decide)).1 [1] 512 (by decide) (by decide)
  rw [if_neg (by decide), if_pos (by decide)] at results
  obtain ⟨ip, d', returned, _, size, _⟩ := results
  exact ⟨ip, d', returned, size⟩

/-- On the disk without a free block `writei` of a request that it does not refuse panics. -/
theorem oneFileDisk_full :
    (oneFileDisk false).Consistent ∧
      (oneFileDisk false).Allocated (oneFileDisk false).dinode 1 ∧
      ((oneFileDisk false).dinode 1).type = .file ∧
      ¬ Refused ((oneFileDisk false).dinode 1) 512 1 ∧
      (oneFileDisk false).writei 1 ((oneFileDisk false).dinode 1) [1] 512 =
        .error (.panic "balloc: out of blocks") := by
  have start : 512 ≤ ((oneFileDisk false).dinode 1).size := by decide
  have there := (oneFileDisk_allocated false 1).mpr rfl
  refine ⟨oneFileDisk_consistent false, there, rfl, by decide, ?_⟩
  exact (oneFileDisk_consistent false).writei_full there (by decide) start (by decide) (by decide)

end Disk

end MemoryEncryption
