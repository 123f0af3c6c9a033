import MemoryEncryption.Verif.BlockOwnership

/-!
# The loops over the blocks of a file

The loops of `readi` and `writei`, followed round by round: a round maps one block,
adding it to the file when the file ends there, and reads or replaces some bytes of
it.
-/

namespace MemoryEncryption

open Function

variable {n rounds b : Nat} {ip : Dinode}

namespace Disk

variable {d d' : Disk} {ino ino' : Nat → Dinode} {count : Nat → Nat} {i bn off : Nat}
  {src : List Byte}

/-! ## Replacing a block of a file -/

theorem Allotted.setData_pointer (allotted : d.Allotted ino)
    (full : d.pointer ino (i, .block bn) ≠ 0) (sector : Sector) :
    (d.setData (d.pointer ino (i, .block bn)) sector).pointer ino = d.pointer ino := by
  apply pointer_congr (show (d.setData _ sector).sb.table = d.sb.table from rfl)
  intro j there
  have apart : (ino j).addrs nDirect ≠ d.pointer ino (i, .block bn) := by
    intro shared
    have single := allotted.holding.single (i, .block bn) (j, .indirect) full
    rw [pointer_allocated there] at single
    cases congrArg Prod.snd (single shared.symm)
  exact update_of_ne apart ..

theorem Layout.setData (layout : d.Layout ino count) (full : d.pointer ino (i, .block bn) ≠ 0)
    (sector : Sector) : (d.setData (d.pointer ino (i, .block bn)) sector).Layout ino count where
  holding := by
    apply layout.holding.congr
    · intro place
      rw [layout.setData_pointer full]
    · intro b
      rfl
  metadata := layout.metadata
  filled := by
    intro j there
    rw [layout.setData_pointer full]
    exact layout.filled j there

theorem Allotted.setData_other (allotted : d.Allotted ino) (full : d.pointer ino (i, .block bn) ≠ 0)
    (sector : Sector) {j : Nat} (apart : (j, n) ≠ (i, bn)) :
    (d.setData (d.pointer ino (i, .block bn)) sector).data (d.pointer ino (j, .block n)) =
      d.data (d.pointer ino (j, .block n)) := by
  have other : d.pointer ino (j, .block n) ≠ d.pointer ino (i, .block bn) := by
    intro shared
    have same := allotted.holding.single (i, .block bn) (j, .block n) full shared.symm
    simp only [Prod.mk.injEq, BlockSlot.block.injEq] at same
    exact apart (by rw [same.1, same.2])
  exact update_of_ne other ..

/-! ## Rounds -/

/-- A byte of a file, by its offset. -/
def fileByte (d : Disk) (ino : Nat → Dinode) (i o : Nat) : Byte :=
  d.data (d.pointer ino (i, .block (o / bsize))) (o % bsize)

/-- The bytes that a round of `readi` or `writei` handles. -/
def chunk (off n : Nat) : Nat := min n (bsize - off % bsize)

theorem chunk_bounds (off : Nat) (some : n ≠ 0) :
    0 < chunk off n ∧ chunk off n ≤ n ∧ off % bsize + chunk off n ≤ bsize := by
  simp only [chunk, bsize]
  omega

theorem chunk_block {off o : Nat} (lower : off ≤ o) (upper : o < off + chunk off n) :
    o / bsize = off / bsize ∧ o % bsize = off % bsize + (o - off) := by
  simp only [chunk, bsize] at *
  omega

/-- The blocks of a file after a round that starts within the file or at its end: the round is in
a block of the file, or it adds the next one. -/
theorem blocksFor_round (size off : Nat) (some : n ≠ 0) :
    (off / bsize < blocksFor (max size off) ∧
      blocksFor (max size (off + chunk off n)) = blocksFor (max size off)) ∨
    (off / bsize = blocksFor (max size off) ∧
      blocksFor (max size (off + chunk off n)) = blocksFor (max size off) + 1) := by
  have bounds := chunk_bounds off some
  simp only [blocksFor, bsize] at *
  omega

/-! ## Reading -/

/-- The loop of `readi` returns the bytes of the file and changes nothing. -/
theorem Layout.readLoop_eq (layout : d.Layout ino count) (allocated : d.Allocated ino i) {off : Nat}
    (enough : n ≤ rounds) (inside : off + n ≤ count i * bsize) :
    readLoop rounds d (ino i) off n =
      .ok ((List.range n).map fun k => d.fileByte ino i (off + k), ino i, d) := by
  induction rounds generalizing off n with
  | zero =>
    obtain rfl : n = 0 := by omega
    rfl
  | succ rounds ih =>
    by_cases none : n = 0
    · subst none
      rfl
    · obtain ⟨positive, most, fits⟩ := chunk_bounds off none
      have within : off / bsize < count i := by
        rw [Nat.div_lt_iff_lt_mul (by decide)]
        omega
      have mapped := layout.bmap_present allocated within
      have rest := ih (show n - chunk off n ≤ rounds by omega)
        (show off + chunk off n + (n - chunk off n) ≤ count i * bsize by omega)
      rw [readLoop, if_neg none, mapped]
      simp only [Outcome.ok_bind]
      change (readLoop rounds d (ino i) (off + chunk off n) (n - chunk off n) >>= _) = _
      rw [rest]
      have split : List.range n =
          List.range (chunk off n) ++ (List.range (n - chunk off n)).map (chunk off n + ·) := by
        rw [← List.range_add]
        congr 1
        omega
      have first : (List.range (chunk off n)).map
            (fun k => d.data (d.pointer ino (i, .block (off / bsize))) (off % bsize + k)) =
          (List.range (chunk off n)).map fun k => d.fileByte ino i (off + k) := by
        apply List.map_congr_left
        intro k member
        rw [List.mem_range] at member
        obtain ⟨block, place⟩ := chunk_block (n := n) (Nat.le_add_right off k) (by omega)
        rw [fileByte, block, place, Nat.add_sub_cancel_left]
      rw [split, List.map_append, List.map_map]
      simp only [Outcome.ok_bind, pure, Except.pure, comp_def, ← Nat.add_assoc]
      rw [← first]
      rfl

/-! ## Writing -/

/-- The disk after bytes of a file have been replaced, with blocks added for those that the file
did not have. -/
structure Written (d : Disk) (ino : Nat → Dinode) (i off : Nat) (src : List Byte) (d' : Disk)
    (ino' : Nat → Dinode) : Prop where
  sb : d'.sb = d.sb
  devsw : d'.devsw = d.devsw
  dinode : d'.dinode = d.dinode
  allocated : ∀ j, d'.Allocated ino' j ↔ d.Allocated ino j
  pointer : ∀ place, d.pointer ino place ≠ 0 → d'.pointer ino' place = d.pointer ino place
  others : ∀ j n, j ≠ i → d.pointer ino (j, .block n) ≠ 0 →
    d'.data (d.pointer ino (j, .block n)) = d.data (d.pointer ino (j, .block n))
  mapped : ∀ o, off ≤ o → o < off + src.length → d'.pointer ino' (i, .block (o / bsize)) ≠ 0
  stored : ∀ o, off ≤ o → o < off + src.length → d'.fileByte ino' i o = src.getD (o - off) 0
  kept : ∀ o, d.pointer ino (i, .block (o / bsize)) ≠ 0 → o < off ∨ off + src.length ≤ o →
    d'.fileByte ino' i o = d.fileByte ino i o

theorem Written.nil (d : Disk) (ino : Nat → Dinode) (i off : Nat) :
    d.Written ino i off [] d ino where
  sb := rfl
  devsw := rfl
  dinode := rfl
  allocated := fun _ => Iff.rfl
  pointer := fun _ _ => rfl
  others := fun _ _ _ _ => rfl
  mapped := fun o lower upper => absurd upper (by simpa using lower)
  stored := fun o lower upper => absurd upper (by simpa using lower)
  kept := fun _ _ _ => rfl

/-- Two writes, the second where the first ends, are one. -/
theorem Written.append {d'' : Disk} {ino'' : Nat → Dinode} {more : List Byte}
    (first : d.Written ino i off src d' ino')
    (second : d'.Written ino' i (off + src.length) more d'' ino'') :
    d.Written ino i off (src ++ more) d'' ino'' where
  sb := second.sb.trans first.sb
  devsw := second.devsw.trans first.devsw
  dinode := second.dinode.trans first.dinode
  allocated := fun j => (second.allocated j).trans (first.allocated j)
  pointer := by
    intro place full
    have same := first.pointer place full
    rw [second.pointer place (by rwa [same]), same]
  others := by
    intro j n other full
    have same := first.pointer (j, .block n) full
    have kept := second.others j n other (by rwa [same])
    rw [same] at kept
    rw [kept, first.others j n other full]
  mapped := by
    intro o lower upper
    rw [List.length_append] at upper
    by_cases early : o < off + src.length
    · have full := first.mapped o lower early
      rw [second.pointer _ full]
      exact full
    · exact second.mapped o (by omega) (by omega)
  stored := by
    intro o lower upper
    rw [List.length_append] at upper
    by_cases early : o < off + src.length
    · rw [second.kept o (first.mapped o lower early) (.inl early),
        first.stored o lower early]
      simp only [List.getD_eq_getElem?_getD, List.getElem?_append_left (show o - off < src.length by
        omega)]
    · rw [second.stored o (by omega) (by omega)]
      simp only [List.getD_eq_getElem?_getD, List.getElem?_append_right (show src.length ≤ o - off by
        omega), Nat.sub_add_eq]
  kept := by
    intro o full outside
    rw [List.length_append] at outside
    have same := first.pointer _ full
    rw [second.kept o (by rwa [same]) (by omega), first.kept o full (by omega)]

theorem Grows.written (grows : d.Grows ino d' ino') (allotted : d'.Allotted ino')
    (full : d'.pointer ino' (i, .block (off / bsize)) ≠ 0)
    (fits : off % bsize + src.length ≤ bsize) :
    d.Written ino i off src
      (d'.setData (d'.pointer ino' (i, .block (off / bsize)))
        ((d'.data (d'.pointer ino' (i, .block (off / bsize)))).write (off % bsize) src)) ino' where
  sb := grows.sb
  devsw := grows.devsw
  dinode := grows.dinode
  allocated := grows.allocated
  pointer := by
    intro place there
    rw [allotted.setData_pointer full, grows.pointer place there]
  others := by
    intro j n other there
    rw [← grows.pointer _ there, allotted.setData_other full _ (by simp [other]),
      grows.pointer _ there, grows.data j n there]
  mapped := by
    intro o lower upper
    have block : o / bsize = off / bsize := by
      simp only [bsize] at *
      omega
    rw [allotted.setData_pointer full, block]
    exact full
  stored := by
    intro o lower upper
    have block : o / bsize = off / bsize := by
      simp only [bsize] at *
      omega
    have place : o % bsize = off % bsize + (o - off) := by
      simp only [bsize] at *
      omega
    rw [fileByte, allotted.setData_pointer full, block, setData_self,
      Sector.write, place, if_pos (by omega), Nat.add_sub_cancel_left]
  kept := by
    intro o there outside
    have same := grows.pointer _ there
    rw [fileByte, fileByte, allotted.setData_pointer full, same]
    by_cases block : o / bsize = off / bsize
    · have apart : ¬ (off % bsize ≤ o % bsize ∧ o % bsize < off % bsize + src.length) := by
        simp only [bsize] at *
        omega
      rw [block] at same there ⊢
      rw [← same, setData_self, Sector.write, if_neg apart, same,
        grows.data i _ there]
    · rw [← same, allotted.setData_other full _ (by simp [block]), same, grows.data i _ there]

theorem cost_mono {few many : Nat} (le : few ≤ many) : cost few ≤ cost many := by
  simp only [cost]
  split <;> split <;> omega

theorem blocksFor_mono {few many : Nat} (le : few ≤ many) : blocksFor few ≤ blocksFor many :=
  Nat.div_le_div_right (Nat.add_le_add_right le _)

/-- The disk after the block of a round has been mapped, when the file then has `k` blocks. -/
structure Round (d : Disk) (ino : Nat → Dinode) (count : Nat → Nat) (i bn k b : Nat) (ip : Dinode)
    (d' : Disk) : Prop where
  grows : d.Grows ino d' (Function.update ino i ip)
  layout : d'.Layout (Function.update ino i ip) (Function.update count i k)
  pointer : d'.pointer (Function.update ino i ip) (i, .block bn) = b
  real : b ≠ 0
  fields : ip = { ino i with addrs := ip.addrs }
  more : count i ≤ k
  same : k = count i → ip = ino i
  card : d'.freeBlocks.card + cost k = d.freeBlocks.card + cost (count i)

theorem Layout.round (layout : d.Layout ino count) (allocated : d.Allocated ino i)
    (some : src.length ≠ 0) (last : count i = blocksFor (max (ino i).size off))
    (room : off < maxFile * bsize)
    (free : cost (blocksFor (max (ino i).size (off + chunk off src.length))) ≤
      d.freeBlocks.card + cost (count i)) :
    ∃ b ip d', d.bmap (ino i) (off / bsize) = .ok (b, ip, d') ∧
      d.Round ino count i (off / bsize)
        (blocksFor (max (ino i).size (off + chunk off src.length))) b ip d' := by
  rcases blocksFor_round (ino i).size off some with ⟨inside, same⟩ | ⟨end_, next⟩
  · rw [← last] at inside same
    have full := ((layout.filled i allocated).block (off / bsize)).mpr inside
    refine ⟨_, ino i, d, layout.bmap_present allocated inside, ?_⟩
    rw [same]
    constructor
    · rw [update_eq_self]
      exact .refl d ino
    · rw [update_eq_self, update_eq_self]
      exact layout
    · rw [update_eq_self]
    · exact full
    · rfl
    · exact le_refl _
    · exact fun _ => rfl
    · rfl
  · rw [← last] at end_ next
    rw [next] at free
    have inRange : count i < maxFile := by
      rw [← end_, Nat.div_lt_iff_lt_mul (by decide)]
      exact room
    obtain ⟨b, ip, d', mapped, extended⟩ := layout.bmap_next allocated rfl inRange free
    refine ⟨b, ip, d', by rw [end_, mapped], ?_⟩
    rw [next, end_]
    constructor
    · exact extended.grows
    · exact extended.layout
    · exact extended.pointer
    · have there := (extended.grows.allocated i).mpr allocated
      have filled := extended.layout.filled i there
      have full := (filled.block (count i)).mpr (by simp)
      rwa [extended.pointer] at full
    · exact extended.fields
    · exact Nat.le_succ _
    · intro unchanged
      omega
    · exact extended.card

theorem Layout.round_full (layout : d.Layout ino count) (allocated : d.Allocated ino i)
    (some : src.length ≠ 0) (last : count i = blocksFor (max (ino i).size off))
    (room : off < maxFile * bsize)
    (few : d.freeBlocks.card + cost (count i) <
      cost (blocksFor (max (ino i).size (off + chunk off src.length)))) :
    d.bmap (ino i) (off / bsize) = .error (.panic "balloc: out of blocks") := by
  rcases blocksFor_round (ino i).size off some with ⟨inside, same⟩ | ⟨end_, next⟩
  · rw [same, ← last] at few
    omega
  · rw [← last] at end_ next
    rw [next] at few
    have inRange : count i < maxFile := by
      rw [← end_, Nat.div_lt_iff_lt_mul (by decide)]
      exact room
    rw [end_]
    exact layout.bmap_full allocated rfl inRange few

/-- The disk after the loop of `writei`, when the file then has `k` blocks. -/
structure Stores (d : Disk) (ino : Nat → Dinode) (count : Nat → Nat) (i off : Nat)
    (src : List Byte) (k : Nat) (ip : Dinode) (d' : Disk) : Prop where
  written : d.Written ino i off src d' (Function.update ino i ip)
  layout : d'.Layout (Function.update ino i ip) (Function.update count i k)
  fields : ip = { ino i with addrs := ip.addrs }
  more : count i ≤ k
  same : k = count i → ip = ino i
  card : d'.freeBlocks.card + cost k = d.freeBlocks.card + cost (count i)

theorem Layout.stores_nil (layout : d.Layout ino count) :
    d.Stores ino count i off [] (count i) (ino i) d where
  written := by
    rw [update_eq_self]
    exact .nil d ino i off
  layout := by
    rw [update_eq_self, update_eq_self]
    exact layout
  fields := rfl
  more := le_refl _
  same := fun _ => rfl
  card := rfl

theorem Round.stores {k k' next : Nat} {ip' : Dinode} {d'' : Disk} {more : List Byte}
    (round : d.Round ino count i (off / bsize) k b ip d') (fits : off % bsize + src.length ≤ bsize)
    (reaches : next = off + src.length)
    (rest : (d'.setData b ((d'.data b).write (off % bsize) src)).Stores (update ino i ip)
      (update count i k) i next more k' ip' d'') :
    d.Stores ino count i off (src ++ more) k' ip' d'' where
  written := by
    have full := round.real
    rw [← round.pointer] at full
    have first := round.grows.written round.layout.toAllotted full fits
    rw [round.pointer] at first
    have second := rest.written
    rw [update_idem, reaches] at second
    exact first.append second
  layout := by
    have layout := rest.layout
    rwa [update_idem, update_idem] at layout
  fields := by
    have inner := rest.fields
    rw [update_self, round.fields] at inner
    exact inner
  more := by
    have inner := rest.more
    rw [update_self] at inner
    exact le_trans round.more inner
  same := by
    intro unchanged
    have inner := rest.more
    have later := rest.same
    rw [update_self] at inner later
    have before := round.more
    rw [later (by omega), update_self]
    exact round.same (by omega)
  card := by
    have inner := rest.card
    rw [update_self] at inner
    have same : (d'.setData b ((d'.data b).write (off % bsize) src)).freeBlocks.card =
        d'.freeBlocks.card := rfl
    have outer := round.card
    omega

theorem writeLoop_succ {ip' : Dinode} (some : src ≠ [])
    (mapped : d.bmap ip (off / bsize) = .ok (b, ip', d')) :
    writeLoop (rounds + 1) d ip off src =
      writeLoop rounds
        (d'.setData b ((d'.data b).write (off % bsize) (src.take (chunk off src.length)))) ip'
        (off + chunk off src.length) (src.drop (chunk off src.length)) := by
  rw [writeLoop, if_neg some, mapped]
  rfl

theorem round_left (off : Nat) (some : src ≠ []) :
    (src.take (chunk off src.length)).length = chunk off src.length ∧
    off + chunk off src.length + (src.drop (chunk off src.length)).length = off + src.length := by
  have bounds := chunk_bounds off (List.length_pos_iff.mpr some).ne'
  rw [List.length_take, List.length_drop]
  omega

theorem Round.size {k : Nat} (round : d.Round ino count i bn k b ip d') :
    (update ino i ip i).size = (ino i).size := by
  rw [update_self, round.fields]

/-- The blocks of the file after a round that starts at the offset. -/
def roundBlocks (ino : Nat → Dinode) (i off : Nat) (src : List Byte) : Nat :=
  blocksFor (max (ino i).size (off + chunk off src.length))

/-- The disk after the bytes of a round have been replaced. -/
def afterRound (d' : Disk) (b off : Nat) (src : List Byte) : Disk :=
  d'.setData b ((d'.data b).write (off % bsize) (src.take (chunk off src.length)))

/-- A round of `writei` leads to where the next one can start. -/
structure Advance (d : Disk) (ino : Nat → Dinode) (count : Nat → Nat) (i off : Nat)
    (src : List Byte) (b : Nat) (ip : Dinode) (d' : Disk) : Prop where
  round : d.Round ino count i (off / bsize) (roundBlocks ino i off src) b ip d'
  layout : (afterRound d' b off src).Layout (Function.update ino i ip)
    (Function.update count i (roundBlocks ino i off src))
  allocated : (afterRound d' b off src).Allocated (Function.update ino i ip) i
  last : Function.update count i (roundBlocks ino i off src) i =
    blocksFor (max (Function.update ino i ip i).size (off + chunk off src.length))
  card : (afterRound d' b off src).freeBlocks.card +
      cost (Function.update count i (roundBlocks ino i off src) i) =
    d.freeBlocks.card + cost (count i)

/-- A round of `writei` for which there are free blocks. -/
theorem Layout.advance (layout : d.Layout ino count) (allocated : d.Allocated ino i)
    (some : src ≠ []) (room : off + src.length ≤ maxFile * bsize)
    (last : count i = blocksFor (max (ino i).size off))
    (within : cost (roundBlocks ino i off src) ≤ d.freeBlocks.card + cost (count i)) :
    ∃ b ip d', d.bmap (ino i) (off / bsize) = .ok (b, ip, d') ∧
      d.Advance ino count i off src b ip d' := by
  have positive := List.length_pos_iff.mpr some
  obtain ⟨b, ip, d', mapped, round⟩ := layout.round allocated positive.ne' last (by omega) within
  have full := round.real
  rw [← round.pointer] at full
  have next := round.layout.setData full
    ((d'.data b).write (off % bsize) (src.take (chunk off src.length)))
  rw [round.pointer] at next
  refine ⟨b, ip, d', mapped, round, next, (round.grows.allocated i).mpr allocated, ?_, ?_⟩
  · rw [round.size, update_self]
    rfl
  · rw [update_self]
    exact round.card

/-- The loop of `writei` stores the bytes when there are free blocks for them. -/
theorem Layout.writeLoop_stores (layout : d.Layout ino count) (allocated : d.Allocated ino i)
    (enough : src.length ≤ rounds) (room : off + src.length ≤ maxFile * bsize)
    (last : count i = blocksFor (max (ino i).size off))
    (free : cost (blocksFor (max (ino i).size (off + src.length))) ≤
      d.freeBlocks.card + cost (count i)) :
    ∃ ip d', writeLoop rounds d (ino i) off src = .ok (ip, d') ∧
      d.Stores ino count i off src (blocksFor (max (ino i).size (off + src.length))) ip d' := by
  induction rounds generalizing d ino count off src with
  | zero =>
    obtain rfl : src = [] := List.length_eq_zero_iff.mp (by omega)
    refine ⟨ino i, d, rfl, ?_⟩
    rw [List.length_nil, Nat.add_zero, ← last]
    exact layout.stores_nil
  | succ rounds ih =>
    by_cases none : src = []
    · subst none
      refine ⟨ino i, d, rfl, ?_⟩
      rw [List.length_nil, Nat.add_zero, ← last]
      exact layout.stores_nil
    · have positive := List.length_pos_iff.mpr none
      obtain ⟨some, most, fits⟩ := chunk_bounds off positive.ne'
      obtain ⟨taken, left⟩ := round_left off none
      have within : cost (roundBlocks ino i off src) ≤ d.freeBlocks.card + cost (count i) :=
        le_trans (cost_mono (blocksFor_mono (by omega))) free
      obtain ⟨b, ip, d', mapped, advance⟩ := layout.advance allocated none room last within
      have size := advance.round.size
      rw [← taken] at fits
      have shorter : (src.drop (chunk off src.length)).length ≤ rounds := by
        rw [List.length_drop]
        omega
      obtain ⟨ip', d'', looped, stores⟩ := ih advance.layout advance.allocated shorter (by omega)
        advance.last (by rw [size, left, advance.card]; exact free)
      rw [size, left] at stores
      rw [update_self] at looped
      refine ⟨ip', d'', by rw [writeLoop_succ none mapped]; exact looped, ?_⟩
      have whole := advance.round.stores fits (by rw [taken]) stores
      rwa [List.take_append_drop] at whole

/-- The loop of `writei` panics when there are not enough free blocks for the bytes. -/
theorem Layout.writeLoop_full (layout : d.Layout ino count) (allocated : d.Allocated ino i)
    (enough : src.length ≤ rounds) (room : off + src.length ≤ maxFile * bsize)
    (last : count i = blocksFor (max (ino i).size off))
    (few : d.freeBlocks.card + cost (count i) <
      cost (blocksFor (max (ino i).size (off + src.length)))) :
    writeLoop rounds d (ino i) off src = .error (.panic "balloc: out of blocks") := by
  have some : src ≠ [] := by
    intro none
    rw [none, List.length_nil, Nat.add_zero, ← last] at few
    omega
  induction rounds generalizing d ino count off src with
  | zero => exact absurd (List.length_eq_zero_iff.mp (by omega)) some
  | succ rounds ih =>
    have positive := List.length_pos_iff.mpr some
    obtain ⟨nonzero, most, fits⟩ := chunk_bounds off positive.ne'
    obtain ⟨taken, left⟩ := round_left off some
    by_cases within : cost (roundBlocks ino i off src) ≤ d.freeBlocks.card + cost (count i)
    · obtain ⟨b, ip, d', mapped, advance⟩ := layout.advance allocated some room last within
      have size := advance.round.size
      have fewer := few
      rw [← left, ← size, ← advance.card] at fewer
      have later : src.drop (chunk off src.length) ≠ [] := by
        intro none
        rw [none, List.length_nil, Nat.add_zero, ← advance.last] at fewer
        omega
      have shorter : (src.drop (chunk off src.length)).length ≤ rounds := by
        rw [List.length_drop]
        omega
      have stops := ih advance.layout advance.allocated shorter (by omega) advance.last fewer later
      rw [update_self] at stops
      rw [writeLoop_succ some mapped]
      exact stops
    · have stops := layout.round_full allocated positive.ne' last (by omega) (not_le.mp within)
      rw [writeLoop, if_neg some, stops]
      rfl

end Disk

end MemoryEncryption
