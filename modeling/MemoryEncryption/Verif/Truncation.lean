import MemoryEncryption.Verif.FileContents

/-!
# Truncation gives back every block

`itrunc` frees the blocks that `bmap` has taken, each of them once. It cannot reach
the panic of `bfree`, because a block that an inode refers to is marked and no other
place refers to it, and it leaves the inode without references.
-/

namespace MemoryEncryption

open Function Outcome

/-- The places of an inode, in the order in which `itrunc` frees their blocks. -/
def fileSlots : List BlockSlot :=
  (List.range nDirect).map .block ++
    ((List.range nIndirect).map (fun k => .block (nDirect + k)) ++ [.indirect])

theorem fileSlots_nodup : fileSlots.Nodup := by
  have direct : ((List.range nDirect).map BlockSlot.block).Nodup := by
    apply List.nodup_range.map
    intro m n same
    exact BlockSlot.block.inj same
  have far : ((List.range nIndirect).map fun k => BlockSlot.block (nDirect + k)).Nodup := by
    apply List.nodup_range.map
    intro m n same
    have shifted := BlockSlot.block.inj same
    omega
  have last : ((List.range nIndirect).map (fun k => BlockSlot.block (nDirect + k)) ++
      [BlockSlot.indirect]).Nodup := by
    simp [List.nodup_append, far]
  rw [fileSlots, List.nodup_append]
  refine ⟨direct, last, ?_⟩
  intro slot inside other member same
  subst same
  simp only [List.mem_map, List.mem_range, List.mem_append, List.mem_singleton] at inside member
  obtain ⟨m, bound, rfl⟩ := inside
  rcases member with ⟨n, _, shifted⟩ | indirect
  · have equal := BlockSlot.block.inj shifted
    omega
  · cases indirect

theorem Dinode.pointer_of_not_mem {slot : BlockSlot} (outside : slot ∉ fileSlots)
    (data : Nat → Sector) (ip : Dinode) : ip.pointer data slot = 0 := by
  cases slot with
  | indirect => simp [fileSlots] at outside
  | block bn =>
    simp only [fileSlots, List.mem_append, List.mem_map, List.mem_range, not_or] at outside
    have far : ¬ bn < nDirect := fun direct => outside.1 ⟨bn, direct, rfl⟩
    have beyond : ¬ bn < maxFile := by
      intro near
      apply outside.2.1
      refine ⟨bn - nDirect, ?_, ?_⟩
      · simp only [maxFile] at near
        omega
      · congr 1
        omega
    simp [Dinode.pointer, Dinode.lookup, far, beyond]

/-- The copy of an inode that `itrunc` leaves. -/
def Dinode.emptied (ip : Dinode) : Dinode :=
  { ip with size := 0, addrs := fun n => if n ≤ nDirect then 0 else ip.addrs n }

theorem Dinode.pointer_emptied (data : Nat → Sector) (ip : Dinode) (slot : BlockSlot) :
    ip.emptied.pointer data slot = 0 := by
  cases slot with
  | indirect => simp [Dinode.pointer, Dinode.emptied]
  | block bn =>
    by_cases direct : bn < nDirect
    · simp [Dinode.pointer, Dinode.lookup, Dinode.emptied, direct, le_of_lt direct]
    · simp [Dinode.pointer, Dinode.lookup, Dinode.emptied, direct]

variable {ip : Dinode}

namespace Disk

variable {d d' : Disk} {ino : Nat → Dinode} {count : Nat → Nat} {i b : Nat}

/-! ## Freeing a list of blocks -/

theorem bfreeEach_append (first second : List Nat) (d : Disk) :
    bfreeEach (first ++ second) d = bfreeEach first d >>= bfreeEach second := by
  induction first generalizing d with
  | nil => rfl
  | cons addr rest ih =>
    simp only [List.cons_append, bfreeEach]
    split
    case isTrue => exact ih d
    case isFalse =>
      cases d.bfree addr with
      | error stop => rfl
      | ok freed => exact ih freed

theorem bfreeEach_null {addrs : List Nat} (null : ∀ addr ∈ addrs, addr = 0) (d : Disk) :
    bfreeEach addrs d = .ok d := by
  induction addrs with
  | nil => rfl
  | cons addr rest ih =>
    rw [bfreeEach, if_pos (null addr (by simp))]
    exact ih fun other member => null other (by simp [member])

theorem bfreeEach_data {addrs : List Nat} (freed : bfreeEach addrs d = .ok d') :
    d'.data = d.data := by
  induction addrs generalizing d with
  | nil =>
    cases freed
    rfl
  | cons addr rest ih =>
    rw [bfreeEach] at freed
    split at freed
    case isTrue => exact ih freed
    case isFalse =>
      obtain ⟨next, first, remaining⟩ := bind_eq_ok.mp freed
      have kept : next.data = d.data := by
        rw [bfree] at first
        split at first
        case isTrue =>
          cases first
          rfl
        case isFalse => cases first
      rw [ih remaining, kept]

theorem release_inUse {σ : Type} [DecidableEq σ] {slot : σ → Nat} {s : σ}
    (holding : Holding 0 slot d.InUse) (full : slot s ≠ 0) :
    Holding 0 (update slot s 0)
      ({ d with used := update d.used (slot s) false } : Disk).InUse := by
  apply (holding.release full).congr fun _ => rfl
  intro c
  simp only [InUse]
  by_cases same : c = slot s
  · subst same
    simp
  · simp [same]

/-- Freeing the blocks in some slots gives the slots up, and does not fail. -/
theorem bfreeEach_releases {σ : Type} [DecidableEq σ] {slot : σ → Nat}
    (holding : Holding 0 slot d.InUse) {slots : List σ} (once : slots.Nodup) :
    ∃ used, bfreeEach (slots.map slot) d = .ok { d with used } ∧
      (∀ b, b < d.sb.datastart → used b = d.used b) ∧
      Holding 0 (fun s => if s ∈ slots then 0 else slot s) ({ d with used } : Disk).InUse := by
  induction slots generalizing d slot with
  | nil => exact ⟨d.used, rfl, fun _ _ => rfl, holding.congr (by simp) fun _ => Iff.rfl⟩
  | cons s rest ih =>
    obtain ⟨absent, others⟩ := List.nodup_cons.mp once
    by_cases null : slot s = 0
    · obtain ⟨used, freed, before, released⟩ := ih holding others
      refine ⟨used, ?_, before, released.congr ?_ fun _ => Iff.rfl⟩
      · rw [List.map_cons, bfreeEach, if_pos null, freed]
      · intro t
        by_cases same : t = s
        · simp [same, null]
        · simp [same]
    · have inUse := holding.marked s null
      have emptied := release_inUse holding null
      obtain ⟨used, freed, before, released⟩ := ih emptied others
      have kept : rest.map (update slot s 0) = rest.map slot := by
        apply List.map_congr_left
        intro t member
        have apart : t ≠ s := by
          intro same
          exact absent (same ▸ member)
        exact update_of_ne apart ..
      refine ⟨used, ?_, ?_, released.congr ?_ fun _ => Iff.rfl⟩
      · rw [List.map_cons, bfreeEach, if_neg null, bfree, if_pos inUse.2.2, ← kept]
        exact freed
      · intro c low
        rw [before c low]
        have apart : c ≠ slot s := by
          have region := inUse.1
          omega
        exact update_of_ne apart ..
      · intro t
        by_cases same : t = s
        · simp [same]
        · simp [same]

/-! ## `itrunc` -/

/-- `itrunc` frees the blocks at all places of the inode. -/
theorem truncate_eq (d : Disk) (ip : Dinode) :
    d.truncate ip = (do
      let d ← bfreeEach (fileSlots.map (ip.pointer d.data)) d
      pure (ip.emptied, d)) := by
  have direct : ((List.range nDirect).map BlockSlot.block).map (ip.pointer d.data) =
      (List.range nDirect).map ip.addrs := by
    rw [List.map_map]
    apply List.map_congr_left
    intro bn inside
    simp [Dinode.pointer, Dinode.lookup, List.mem_range.mp inside]
  rw [fileSlots, List.map_append, bfreeEach_append, direct, truncate]
  cases freed : bfreeEach ((List.range nDirect).map ip.addrs) d with
  | error stop => rfl
  | ok middle =>
    have data := bfreeEach_data freed
    simp only [ok_bind, lt_irrefl, ↓reduceIte, List.map_append, List.map_map,
      bfreeEach_append]
    by_cases none : ip.addrs nDirect = 0
    · have null : ∀ addr ∈ (List.range nIndirect).map
          (ip.pointer d.data ∘ fun k => BlockSlot.block (nDirect + k)), addr = 0 := by
        simp [Dinode.pointer, Dinode.lookup, none]
      rw [if_pos none, bfreeEach_null null]
      simp only [ok_bind, List.map_cons, List.map_nil, Dinode.pointer, none, bfreeEach,
        ↓reduceIte, pure_bind]
      congr 2
      simp only [Dinode.emptied, Dinode.mk.injEq, true_and]
      funext n
      by_cases last : n = nDirect
      · simp [last, none]
      · have index : n < nDirect ↔ n ≤ nDirect := by omega
        simp [index]
    · have far : (List.range nIndirect).map
          (ip.pointer d.data ∘ fun k => BlockSlot.block (nDirect + k)) =
          (List.range nIndirect).map (middle.data (ip.addrs nDirect)).word := by
        apply List.map_congr_left
        intro k inside
        have near : nDirect + k < maxFile := by
          have bound := List.mem_range.mp inside
          simp only [maxFile]
          omega
        simp [Dinode.pointer, Dinode.lookup, near, none, data]
      rw [if_neg none, far]
      cases bfreeEach ((List.range nIndirect).map (middle.data (ip.addrs nDirect)).word) middle with
      | error stop => rfl
      | ok last =>
        simp only [ok_bind, List.map_cons, List.map_nil, Dinode.pointer, bfreeEach,
          if_neg none]
        cases last.bfree (ip.addrs nDirect) with
        | error stop => rfl
        | ok emptied =>
          simp only [ok_bind, pure_bind]
          congr 2
          simp only [Dinode.emptied, Dinode.setAddr, Dinode.mk.injEq, true_and]
          funext n
          by_cases last : n = nDirect
          · simp [last]
          · have index : n < nDirect ↔ n ≤ nDirect := by omega
            simp [last, index]

/-- `itrunc` of an allocated inode does not fail, and releases what the inode refers to. -/
theorem Allotted.truncate_releases (allotted : d.Allotted ino) (allocated : d.Allocated ino i) :
    ∃ used, d.truncate (ino i) = .ok ((ino i).emptied, { d with used }) ∧
      (∀ b, b < d.sb.datastart → used b = true) ∧
      Holding 0 (fun place => if place.1 = i then 0 else d.pointer ino place)
        ({ d with used } : Disk).InUse := by
  have once : (fileSlots.map fun slot => (i, slot)).Nodup := by
    apply fileSlots_nodup.map
    intro s t same
    exact congrArg Prod.snd same
  have addresses : (fileSlots.map fun slot => (i, slot)).map (d.pointer ino) =
      fileSlots.map ((ino i).pointer d.data) := by
    rw [List.map_map]
    apply List.map_congr_left
    intro slot _
    exact pointer_allocated allocated slot
  obtain ⟨used, freed, before, released⟩ := bfreeEach_releases allotted.holding once
  rw [addresses] at freed
  refine ⟨used, ?_, ?_, released.congr ?_ fun _ => Iff.rfl⟩
  · rw [truncate_eq, freed]
    rfl
  · intro b low
    rw [before b low]
    exact allotted.metadata b low
  · rintro ⟨j, slot⟩
    by_cases here : j = i
    · subst here
      by_cases member : slot ∈ fileSlots
      · simp [member]
      · simp [pointer_allocated allocated, Dinode.pointer_of_not_mem member]
    · simp [here, Ne.symm here]

/-- The disk is consistent when an inode without references takes the place of one whose blocks
have been released. -/
theorem Consistent.emptied (consistent : d.Consistent) (sb : d'.sb = d.sb) (data : d'.data = d.data)
    (dinode : d'.dinode = update d.dinode i ip)
    (metadata : ∀ b, b < d.sb.datastart → d'.used b = true)
    (released : Holding 0 (fun place => if place.1 = i then 0 else d.pointer d.dinode place)
      d'.InUse) (none : ∀ slot, ip.pointer d.data slot = 0) (size : ip.size = 0) :
    d'.Consistent := by
  have others : ∀ j, j ≠ i → (d'.Allocated d'.dinode j ↔ d.Allocated d.dinode j) := by
    intro j apart
    rw [Allocated, Allocated, sb, dinode, update_of_ne apart]
  have pointers : ∀ place, d'.pointer d'.dinode place =
      if place.1 = i then 0 else d.pointer d.dinode place := by
    rintro ⟨j, slot⟩
    by_cases there : d'.Allocated d'.dinode j
    · rw [pointer_allocated there, dinode, data]
      by_cases here : j = i
      · subst here
        rw [update_self, none, if_pos rfl]
      · rw [update_of_ne here, if_neg here,
          pointer_allocated ((others j here).mp there)]
    · rw [pointer_free there]
      by_cases here : j = i
      · rw [if_pos here]
      · rw [if_neg here, pointer_free (mt (others j here).mpr there)]
  refine ⟨⟨released.congr pointers fun _ => Iff.rfl, by rwa [sb]⟩, ?_⟩
  intro j there
  rw [funext fun slot => pointers (j, slot), dinode]
  by_cases here : j = i
  · subst here
    constructor
    · simp [size, blocksFor, bsize]
    · simp [size, blocksFor, bsize]
    · simp [size, blocksFor, bsize]
  · simp only [if_neg here, update_of_ne here]
    exact consistent.filled j ((others j here).mp there)

/-- The disk stays consistent when an unused inode is replaced by one without references. -/
theorem Consistent.iupdate_unused (consistent : d.Consistent) (unused : ¬ d.Allocated d.dinode i)
    (none : ∀ slot, ip.pointer d.data slot = 0) (size : ip.size = 0) :
    (d.iupdate i ip).Consistent := by
  have sb : (d.iupdate i ip).sb = d.sb := rfl
  apply consistent.emptied sb rfl rfl consistent.metadata _ none size
  apply consistent.holding.congr _ fun _ => Iff.rfl
  rintro ⟨j, slot⟩
  by_cases here : j = i
  · subst here
    simp [pointer_free unused]
  · simp [here]

theorem Consistent.itrunc_empties (consistent : d.Consistent) (allocated : d.Allocated d.dinode i) :
    ∃ used, d.itrunc i (d.dinode i) =
        .ok ((d.dinode i).emptied, ({ d with used } : Disk).iupdate i (d.dinode i).emptied) ∧
      ∀ type, (({ d with used } : Disk).iupdate i
        { (d.dinode i).emptied with type }).Consistent := by
  obtain ⟨used, truncated, metadata, released⟩ := consistent.truncate_releases allocated
  refine ⟨used, ?_, ?_⟩
  · rw [itrunc, truncated]
    rfl
  · intro type
    have sb : (({ d with used } : Disk).iupdate i
      { (d.dinode i).emptied with type }).sb = d.sb := rfl
    apply consistent.emptied sb rfl rfl metadata released
    · exact Dinode.pointer_emptied d.data (d.dinode i)
    · rfl

theorem Consistent.iupdate_fields (consistent : d.Consistent) (type : ip.type = (d.dinode i).type)
    (size : ip.size = (d.dinode i).size) (addrs : ip.addrs = (d.dinode i).addrs) :
    (d.iupdate i ip).Consistent := by
  have same : ∀ j, ((d.iupdate i ip).dinode j).type = (d.dinode j).type ∧
      ((d.iupdate i ip).dinode j).addrs = (d.dinode j).addrs ∧
      ((d.iupdate i ip).dinode j).size = (d.dinode j).size := by
    intro j
    by_cases here : j = i
    · subst here
      simp [iupdate, type, size, addrs]
    · simp [iupdate, here]
  refine Layout.congr consistent ?_ ?_ ?_ (fun j => (same j).1) (fun j => (same j).2.1) ?_
  · rfl
  · rfl
  · rfl
  · intro j
    rw [(same j).2.2]

end Disk

end MemoryEncryption
