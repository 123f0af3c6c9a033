import MemoryEncryption.Host.Mkfs
import MemoryEncryption.Verif.Truncation

/-!
# What mkfs does to the disk

`mkfs` writes bytes to an image; the kernel sees inodes, a free map and blocks. While
`mkfs` runs, its image mirrors a disk of the kernel whose free map marks the blocks below
`freeblock`, and `iappend` does to that disk what `writei` at the end of the file does:
the block that `freeblock` names is the first one that is free, and it is zeroed. So what
is known of `writei` is known of `iappend`.
-/

namespace MemoryEncryption

open Function Outcome

variable {b : Nat} {ip : Dinode} {ino : Nat → Dinode}

namespace Mkfs

variable {m m' : Mkfs} {d d' : Disk} {i : Nat}

/-- The image mirrors the disk, whose free map is still to be written. -/
structure Mirrors (m : Mkfs) (d : Disk) : Prop where
  sb : d.sb = Mkfs.sb
  super : m.image 1 = sbSector
  used : ∀ b, d.used b = decide (b < m.freeblock)
  header : nMeta ≤ m.freeblock
  bound : m.freeblock ≤ fsSize
  blank : ∀ b, m.freeblock ≤ b → m.image b = fun _ => 0
  data : ∀ b, nMeta ≤ b → d.data b = m.image b
  dinode : ∀ i, i < Mkfs.sb.table → d.dinode i = (m.image (Mkfs.sb.iblock i)).dinode (i % ipb)

theorem datastart_eq : Mkfs.sb.datastart = nMeta := by decide

theorem iblock_lt (inside : i < Mkfs.sb.table) : Mkfs.sb.iblock i < Mkfs.sb.bmapstart := by
  have below : i / ipb < Mkfs.sb.bmapstart - Mkfs.sb.inodestart := by
    rw [Nat.div_lt_iff_lt_mul (by decide)]
    exact inside
  exact Nat.add_lt_of_lt_sub below

theorem bmapstart_lt : Mkfs.sb.bmapstart < nMeta := by decide

theorem Mirrors.inUse (mirrors : Mirrors m d) (inUse : d.InUse b) :
    nMeta ≤ b ∧ b < fsSize ∧ b < m.freeblock := by
  obtain ⟨after, inside, used⟩ := inUse
  rw [mirrors.sb, datastart_eq] at after
  rw [mirrors.sb] at inside
  rw [mirrors.used] at used
  exact ⟨after, inside, of_decide_eq_true used⟩

theorem Mirrors.rsect (mirrors : Mirrors m d) (after : nMeta ≤ b) (inside : b < fsSize) :
    m.rsect b = .ok (d.data b) := by
  rw [Mkfs.rsect, if_pos inside, mirrors.data b after]
  rfl

theorem wsect_self (b : Nat) (sector : Sector) : (m.wsect b sector).image b = sector :=
  update_self ..

theorem wsect_other {c : Nat} {sector : Sector} (other : c ≠ b) :
    (m.wsect b sector).image c = m.image c := update_of_ne other ..

theorem Mirrors.wsect (mirrors : Mirrors m d) (after : nMeta ≤ b) (taken : b < m.freeblock)
    (sector : Sector) :
    Mirrors (m.wsect b sector) (d.setData b sector) where
  sb := mirrors.sb
  super := by
    have first : 1 < nMeta := by decide
    rw [wsect_other (by omega), mirrors.super]
  used := mirrors.used
  header := mirrors.header
  bound := mirrors.bound
  blank := by
    intro c free
    have free : m.freeblock ≤ c := free
    rw [wsect_other (by omega), mirrors.blank c free]
  data := by
    intro c data
    show update d.data b sector c = update m.image b sector c
    by_cases same : c = b
    · rw [same, update_self, update_self]
    · rw [update_of_ne same, update_of_ne same, mirrors.data c data]
  dinode := by
    intro i inside
    have below := iblock_lt inside
    have before := bmapstart_lt
    have other : Mkfs.sb.iblock i ≠ b := by omega
    rw [wsect_other other]
    exact mirrors.dinode i inside

/-- `balloc` of the kernel would take the block that `freeblock` names. -/
theorem Mirrors.balloc (mirrors : Mirrors m d) (taken : d.balloc = .ok (b, d')) :
    b = m.freeblock ∧ b < fsSize ∧
      Mirrors { m with freeblock := m.freeblock + 1 } d' := by
  unfold Disk.balloc at taken
  split at taken
  case h_2 => cases taken
  case h_1 found =>
    cases taken
    have inside := List.mem_range.mp (List.mem_of_find?_eq_some found)
    rw [mirrors.sb] at inside
    have unmarked := List.find?_some found
    rw [mirrors.used] at unmarked
    have above : m.freeblock ≤ b := by simpa using unmarked
    have exact : b = m.freeblock := by
      by_contra other
      have less : m.freeblock < b := by omega
      have marked := List.find?_range_eq_some.mp found
      have earlier := marked.2.2 m.freeblock less
      rw [mirrors.used] at earlier
      simp at earlier
    have header := mirrors.header
    refine ⟨exact, inside, mirrors.sb, mirrors.super, ?_, ?_, exact ▸ inside, ?_, ?_, mirrors.dinode⟩
    · intro c
      show update d.used b true c = decide (c < m.freeblock + 1)
      by_cases same : c = b
      · rw [same, update_self, exact]
        simp
      · rw [update_of_ne same, mirrors.used]
        have apart : c < m.freeblock ↔ c < m.freeblock + 1 := by omega
        exact decide_eq_decide.mpr apart
    · show nMeta ≤ m.freeblock + 1
      omega
    · intro c free
      have free : m.freeblock + 1 ≤ c := free
      exact mirrors.blank c (by omega)
    · intro c data
      show update d.data b (fun _ => 0) c = m.image c
      by_cases same : c = b
      · rw [same, update_self, mirrors.blank b (by omega)]
      · rw [update_of_ne same, mirrors.data c data]

theorem Mirrors.rinode (mirrors : Mirrors m d) (inside : i < Mkfs.sb.table) :
    m.rinode i = .ok (d.dinode i) := by
  have below := iblock_lt inside
  have before : Mkfs.sb.bmapstart < fsSize := by decide
  rw [Mkfs.rinode, Mkfs.rsect, if_pos (by omega), mirrors.dinode i inside]
  rfl

theorem Mirrors.winode (mirrors : Mirrors m d) (inside : i < Mkfs.sb.table) (narrow : ip.Narrow) :
    ∃ m', m.winode i ip = .ok m' ∧ Mirrors m' (d.iupdate i ip) ∧ m'.freeinode = m.freeinode ∧
      m'.freeblock = m.freeblock := by
  have below := iblock_lt inside
  have before := bmapstart_lt
  have header := mirrors.header
  refine ⟨m.wsect (Mkfs.sb.iblock i) ((m.image (Mkfs.sb.iblock i)).setDinode (i % ipb) ip), ?_,
    ⟨mirrors.sb, ?_, mirrors.used, header, mirrors.bound, ?_, ?_, ?_⟩, rfl, rfl⟩
  · have sector : Mkfs.sb.iblock i < fsSize := by
      have last : Mkfs.sb.bmapstart < fsSize := by decide
      omega
    rw [Mkfs.winode, Mkfs.rsect, if_pos sector]
    rfl
  · have first : 1 < Mkfs.sb.inodestart := by decide
    have after : Mkfs.sb.inodestart ≤ Mkfs.sb.iblock i := Nat.le_add_left ..
    have other : 1 ≠ Mkfs.sb.iblock i := by omega
    rw [wsect_other other, mirrors.super]
  · intro b free
    have free : m.freeblock ≤ b := free
    rw [wsect_other (by omega), mirrors.blank b free]
  · intro b data
    have other : b ≠ Mkfs.sb.iblock i := by omega
    rw [wsect_other other]
    exact mirrors.data b data
  · intro j within
    show update d.dinode i ip j =
      (update m.image (Mkfs.sb.iblock i) _ (Mkfs.sb.iblock j)).dinode (j % ipb)
    by_cases same : Mkfs.sb.iblock j = Mkfs.sb.iblock i
    · have number : j % ipb = i % ipb ↔ j = i := by
        have quotient : j / ipb = i / ipb := Nat.add_right_cancel same
        have jParts := Nat.div_add_mod j ipb
        have iParts := Nat.div_add_mod i ipb
        rw [quotient] at jParts
        constructor
        · intro remainder
          omega
        · rintro rfl
          rfl
      rw [same, update_self, Sector.dinode_setDinode _ narrow]
      by_cases here : j = i
      · rw [if_pos (number.mpr here), here, update_self]
      · rw [if_neg (mt number.mp here), update_of_ne here, mirrors.dinode j within, same]
    · have apart : j ≠ i := by
        rintro rfl
        exact same rfl
      rw [update_of_ne same, update_of_ne apart, mirrors.dinode j within]

theorem narrow_dinode (sector : Sector) (j : Nat) : (sector.dinode j).Narrow where
  size := sector.word_lt _
  addrs := by
    intro k
    simp only [Sector.dinode]
    split
    · exact sector.word_lt _
    · decide
  few := by
    intro k past
    exact if_neg (by omega)

theorem narrow_setAddr (narrow : ip.Narrow) {k addr : Nat} (inside : k ≤ nDirect)
    (small : addr < fsSize) : (ip.setAddr k addr).Narrow where
  size := narrow.size
  addrs := by
    intro a
    have limit : fsSize < 2 ^ 32 := by decide
    show update ip.addrs k addr a < 2 ^ 32
    by_cases same : a = k
    · rw [same, update_self]
      omega
    · rw [update_of_ne same]
      exact narrow.addrs a
  few := by
    intro a past
    show update ip.addrs k addr a = 0
    rw [update_of_ne (by omega), narrow.few a past]

/-- The indirect block is found or taken as `bmap` does it. -/
theorem Mirrors.indirectBlock (mirrors : Mirrors m d) (allotted : d.Allotted ino)
    (allocated : d.Allocated ino i) (narrow : (ino i).Narrow)
    (mapped : d.bmapIndirect (ino i) = .ok (ip, d')) :
    ∃ m', m.indirectBlock (ino i) = (ip, m') ∧ Mirrors m' d' ∧ m'.freeinode = m.freeinode ∧
      ip.Narrow ∧ nMeta ≤ ip.addrs nDirect ∧ ip.addrs nDirect < fsSize ∧
      ip.addrs nDirect < m'.freeblock := by
  unfold Disk.bmapIndirect at mapped
  unfold Mkfs.indirectBlock
  split at mapped
  case isTrue none =>
    obtain ⟨⟨b, taken⟩, got, returned⟩ := bind_eq_ok.mp mapped
    cases returned
    obtain ⟨rfl, inside, after⟩ := mirrors.balloc got
    have header := mirrors.header
    have address : ((ino i).setAddr nDirect m.freeblock).addrs nDirect = m.freeblock := by
      simp [Dinode.setAddr]
    rw [if_pos none, address]
    exact ⟨_, rfl, after, rfl, narrow_setAddr narrow (Nat.le_refl _) inside, header, inside,
      Nat.lt_succ_self _⟩
  case isFalse present =>
    cases mapped
    have held : d.pointer ino (i, .indirect) = (ino i).addrs nDirect :=
      Disk.pointer_allocated allocated .indirect
    have inUse := allotted.holding.marked (i, .indirect) (by rw [held]; exact present)
    rw [held] at inUse
    obtain ⟨after, inside, below⟩ := mirrors.inUse inUse
    rw [if_neg present]
    exact ⟨m, rfl, mirrors, rfl, narrow, after, inside, below⟩

theorem Mirrors.findBlock {bn : Nat} (mirrors : Mirrors m d) (allotted : d.Allotted ino)
    (allocated : d.Allocated ino i) (narrow : (ino i).Narrow)
    (mapped : d.bmap (ino i) bn = .ok (b, ip, d')) :
    ∃ m', m.findBlock (ino i) bn = .ok (b, ip, m') ∧ Mirrors m' d' ∧ m'.freeinode = m.freeinode ∧
      ip.Narrow := by
  unfold Disk.bmap at mapped
  unfold Mkfs.findBlock
  split at mapped
  case isTrue direct =>
    rw [if_pos direct]
    split at mapped
    case isTrue none =>
      obtain ⟨⟨c, taken⟩, got, returned⟩ := bind_eq_ok.mp mapped
      cases returned
      obtain ⟨rfl, inside, after⟩ := mirrors.balloc got
      rw [if_pos none]
      exact ⟨_, rfl, after, rfl, narrow_setAddr narrow (Nat.le_of_lt direct) inside⟩
    case isFalse present =>
      cases mapped
      rw [if_neg present]
      exact ⟨m, rfl, mirrors, rfl, narrow⟩
  case isFalse far =>
    rw [if_neg far]
    split at mapped
    case isFalse => cases mapped
    case isTrue near =>
      obtain ⟨⟨ip₁, d₁⟩, indirect, rest⟩ := bind_eq_ok.mp mapped
      obtain ⟨m₁, found, mirrors₁, inodes, narrow₁, after, inside, below⟩ :=
        mirrors.indirectBlock allotted allocated narrow indirect
      rw [found]
      simp only [mirrors₁.rsect after inside, ok_bind]
      dsimp only at rest
      split at rest
      case isTrue none =>
        obtain ⟨⟨c, taken⟩, got, returned⟩ := bind_eq_ok.mp rest
        cases returned
        obtain ⟨rfl, _, mirrors₂⟩ := mirrors₁.balloc got
        rw [if_pos none]
        exact ⟨_, rfl, mirrors₂.wsect after (Nat.lt_succ_of_lt below) _, inodes, narrow₁⟩
      case isFalse present =>
        cases rest
        rw [if_neg present]
        exact ⟨m₁, rfl, mirrors₁, inodes, narrow₁⟩

theorem Mirrors.appendLoop {count : Nat → Nat} {off rounds : Nat} {src : List Byte}
    (mirrors : Mirrors m d) (layout : d.Layout ino count) (allocated : d.Allocated ino i)
    (narrow : (ino i).Narrow) (enough : src.length ≤ rounds)
    (room : off + src.length ≤ maxFile * bsize)
    (last : count i = Disk.blocksFor (max (ino i).size off))
    (free : Disk.cost (Disk.blocksFor (max (ino i).size (off + src.length))) ≤
      d.freeBlocks.card + Disk.cost (count i)) :
    ∃ m' ip d', appendLoop rounds m (ino i) off src = .ok (off + src.length, ip, m') ∧
      Disk.writeLoop rounds d (ino i) off src = .ok (ip, d') ∧ Mirrors m' d' ∧
      m'.freeinode = m.freeinode ∧ ip.Narrow := by
  induction rounds generalizing m d ino count off src with
  | zero =>
    obtain rfl : src = [] := List.length_eq_zero_iff.mp (by omega)
    exact ⟨m, ino i, d, rfl, rfl, mirrors, rfl, narrow⟩
  | succ rounds ih =>
    by_cases none : src = []
    · subst none
      exact ⟨m, ino i, d, rfl, rfl, mirrors, rfl, narrow⟩
    · have positive := List.length_pos_iff.mpr none
      obtain ⟨some, most, fits⟩ := Disk.chunk_bounds off positive.ne'
      obtain ⟨taken, left⟩ := Disk.round_left off none
      have within : Disk.cost (Disk.roundBlocks ino i off src) ≤
          d.freeBlocks.card + Disk.cost (count i) :=
        le_trans (Disk.cost_mono (Disk.blocksFor_mono (by omega))) free
      obtain ⟨b, ip, d₁, mapped, advance⟩ := layout.advance allocated none room last within
      obtain ⟨m₁, found, mirrors₁, inodes, narrow₁⟩ :=
        mirrors.findBlock layout.toAllotted allocated narrow mapped
      have size := advance.round.size
      have real := advance.round.real
      have inUse := advance.round.layout.holding.marked (i, .block (off / bsize))
        (by rw [advance.round.pointer]; exact real)
      rw [advance.round.pointer] at inUse
      obtain ⟨after, inside, below⟩ := mirrors₁.inUse inUse
      have mirrors₂ : Mirrors (m₁.wsect b ((d₁.data b).write (off % bsize)
          (src.take (Disk.chunk off src.length)))) (Disk.afterRound d₁ b off src) :=
        mirrors₁.wsect after below _
      have shorter : (src.drop (Disk.chunk off src.length)).length ≤ rounds := by
        rw [List.length_drop]
        omega
      obtain ⟨m', ip', d', appended, looped, mirrors', inodes', narrow'⟩ := ih mirrors₂
        advance.layout advance.allocated (by rw [update_self]; exact narrow₁) shorter
        (by omega) advance.last (by rw [size, left, advance.card]; exact free)
      rw [update_self] at appended looped
      refine ⟨m', ip', d', ?_, by rw [Disk.writeLoop_succ none mapped]; exact looped, mirrors',
        inodes'.trans inodes, narrow'⟩
      have near : ¬ maxFile ≤ off / bsize := by
        rw [not_le, Nat.div_lt_iff_lt_mul (by decide)]
        omega
      have length : min src.length ((off / bsize + 1) * bsize - off) =
          Disk.chunk off src.length := by
        simp only [Disk.chunk, bsize]
        omega
      have place : off - off / bsize * bsize = off % bsize := by
        simp only [bsize]
        omega
      rw [Mkfs.appendLoop, if_neg none]
      simp only [if_neg near, found, ok_bind, mirrors₁.rsect after inside, length, place]
      rw [appended, left]

/-- Bytes have been appended to a file, and nothing else has changed. -/
structure Appended (d : Disk) (i : Nat) (src : List Byte) (d' : Disk) : Prop where
  consistent : d'.Consistent
  sb : d'.sb = d.sb
  others : ∀ j, j ≠ i → d'.dinode j = d.dinode j
  type : (d'.dinode i).type = (d.dinode i).type
  nlink : (d'.dinode i).nlink = (d.dinode i).nlink
  bytes : (d'.dinode i).contents d'.data = (d.dinode i).contents d.data ++ src
  kept : ∀ j, j ≠ i → d.Allocated d.dinode j →
    (d'.dinode j).contents d'.data = (d.dinode j).contents d.data
  card : d'.freeBlocks.card + Disk.cost (Disk.blocksFor ((d.dinode i).size + src.length)) =
    d.freeBlocks.card + Disk.cost (Disk.blocksFor (d.dinode i).size)

theorem Appended.refl (consistent : d.Consistent) : Appended d i [] d where
  consistent := consistent
  sb := rfl
  others := fun _ _ => rfl
  type := rfl
  nlink := rfl
  bytes := (List.append_nil _).symm
  kept := fun _ _ _ => rfl
  card := rfl

theorem Appended.allocated {src : List Byte} (appended : Appended d i src d') (j : Nat) :
    d'.Allocated d'.dinode j ↔ d.Allocated d.dinode j := by
  rw [Disk.Allocated, Disk.Allocated, appended.sb]
  by_cases same : j = i
  · rw [same, appended.type]
  · rw [appended.others j same]

theorem Appended.size {src : List Byte} (appended : Appended d i src d') :
    (d'.dinode i).size = (d.dinode i).size + src.length := by
  have lengths := congrArg List.length appended.bytes
  rwa [List.length_append, Disk.length_contents, Disk.length_contents] at lengths

theorem Appended.trans {d'' : Disk} {src more : List Byte} (first : Appended d i src d')
    (second : Appended d' i more d'') : Appended d i (src ++ more) d'' where
  consistent := second.consistent
  sb := second.sb.trans first.sb
  others := fun j other => (second.others j other).trans (first.others j other)
  type := second.type.trans first.type
  nlink := second.nlink.trans first.nlink
  bytes := by rw [second.bytes, first.bytes, List.append_assoc]
  kept := by
    intro j other there
    rw [second.kept j other ((first.allocated j).mpr there), first.kept j other there]
  card := by
    have one := first.card
    have two := second.card
    rw [first.size] at two
    rw [List.length_append, ← Nat.add_assoc]
    omega

theorem Appended.of_wrote {src : List Byte} (wrote : d.Wrote i src (d.dinode i).size ip d') :
    Appended d i src d' where
  consistent := wrote.consistent
  sb := wrote.sb
  others := by
    intro j other
    rw [wrote.dinode, update_of_ne other]
  type := by rw [wrote.dinode, update_self, wrote.fields]
  nlink := by rw [wrote.dinode, update_self, wrote.fields]
  bytes := by
    have whole := Disk.length_contents d.data (d.dinode i)
    rw [wrote.dinode, update_self, wrote.contents, splice,
      List.take_of_length_le (le_of_eq whole), List.drop_eq_nil_of_le (by omega), List.append_nil]
  kept := by
    intro j other there
    rw [wrote.dinode, update_of_ne other, wrote.others j other there]
  card := by
    have card := wrote.card
    rwa [max_eq_right (Nat.le_add_right _ _)] at card

/-- `iappend` appends to a file that has room, when there are free blocks. -/
theorem Mirrors.iappend {src : List Byte} (mirrors : Mirrors m d) (consistent : d.Consistent)
    (allocated : d.Allocated d.dinode i)
    (room : (d.dinode i).size + src.length ≤ maxFile * bsize)
    (free : Disk.cost (Disk.blocksFor ((d.dinode i).size + src.length)) ≤
      d.freeBlocks.card + Disk.cost (Disk.blocksFor (d.dinode i).size)) :
    ∃ m' d', m.iappend i src = .ok m' ∧ Mirrors m' d' ∧ Appended d i src d' ∧
      m'.freeinode = m.freeinode := by
  have inside : i < Mkfs.sb.table := mirrors.sb ▸ allocated.1
  have narrow : (d.dinode i).Narrow := mirrors.dinode i inside ▸ narrow_dinode _ _
  have grown : max (d.dinode i).size ((d.dinode i).size + src.length) =
      (d.dinode i).size + src.length := by omega
  obtain ⟨m₁, ip, d₁, appended, looped, mirrors₁, inodes, narrow₁⟩ :=
    mirrors.appendLoop consistent allocated narrow (le_refl src.length) room
      (show Disk.blocksFor (d.dinode i).size = _ by rw [max_self]) (by rwa [grown])
  obtain ⟨_, _, same, stores⟩ := consistent.writeLoop_stores allocated (le_refl src.length) room
    (show Disk.blocksFor (d.dinode i).size = _ by rw [max_self]) (by rwa [grown])
  cases looped.symm.trans same
  have wrote := Disk.Stores.wrote consistent allocated (le_refl _) grown.symm
    (by rwa [grown] at stores)
  have small : maxFile * bsize < 2 ^ 32 := by decide
  have fits : ({ ip with size := (d.dinode i).size + src.length } : Dinode).Narrow :=
    ⟨show (d.dinode i).size + src.length < 2 ^ 32 by omega, narrow₁.addrs, narrow₁.few⟩
  obtain ⟨m', stored, mirrors', inodes', _⟩ := mirrors₁.winode inside fits
  refine ⟨m', _, ?_, mirrors', Appended.of_wrote wrote, inodes'.trans inodes⟩
  rw [Mkfs.iappend, mirrors.rinode inside]
  simp only [ok_bind, appended]
  exact stored

/-- The loop that copies an input file appends what has been read. -/
theorem Mirrors.copy {reads : List (List Byte)} (mirrors : Mirrors m d) (consistent : d.Consistent)
    (allocated : d.Allocated d.dinode i) (full : ∀ buf ∈ reads, buf ≠ [])
    (room : (d.dinode i).size + reads.flatten.length ≤ maxFile * bsize)
    (free : Disk.cost (Disk.blocksFor ((d.dinode i).size + reads.flatten.length)) ≤
      d.freeBlocks.card + Disk.cost (Disk.blocksFor (d.dinode i).size)) :
    ∃ m' d', copy i m reads = .ok m' ∧ Mirrors m' d' ∧ Appended d i reads.flatten d' ∧
      m'.freeinode = m.freeinode := by
  induction reads generalizing m d with
  | nil => exact ⟨m, d, rfl, mirrors, .refl consistent, rfl⟩
  | cons buf reads ih =>
    rw [List.flatten_cons, List.length_append] at room free
    have some := full buf List.mem_cons_self
    have enough : Disk.cost (Disk.blocksFor ((d.dinode i).size + buf.length)) ≤
        d.freeBlocks.card + Disk.cost (Disk.blocksFor (d.dinode i).size) :=
      le_trans (Disk.cost_mono (Disk.blocksFor_mono (by omega))) free
    obtain ⟨m₁, d₁, appended, mirrors₁, first, inodes⟩ :=
      mirrors.iappend consistent allocated (by omega) enough
    have card := first.card
    have later : Disk.cost (Disk.blocksFor ((d₁.dinode i).size + reads.flatten.length)) ≤
        d₁.freeBlocks.card + Disk.cost (Disk.blocksFor (d₁.dinode i).size) := by
      rw [first.size, card, Nat.add_assoc]
      exact free
    obtain ⟨m', d', copied, mirrors', second, inodes'⟩ := ih mirrors₁ first.consistent
      ((first.allocated i).mpr allocated)
      (fun other member => full other (List.mem_cons_of_mem _ member))
      (by rw [first.size]; omega) later
    refine ⟨m', d', ?_, mirrors', first.trans second, inodes'.trans inodes⟩
    rw [Mkfs.copy, if_neg some, appended]
    exact copied

end Mkfs

end MemoryEncryption
